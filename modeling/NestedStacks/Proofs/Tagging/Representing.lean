/-
Tagged nodes and the tagged values that they are written as.

A node can be put together from any tag and any payload.  It is read back from its tagged value just
when the tag accepts payloads of that shape, and every node that was read is of this kind:
`nodes_represented`.

* `TaggedNode.ofTagged_toTree` — what becomes of a node that is written and read;
* `TaggedNode.accepts_of_ofTagged` — nodes that were read have payloads that their tags accept;
* `Tree.ReadAs`, `TaggedNode.readAs_of_ofTagged` — what reading a tagged value changes.
-/
import NestedStacks.Proofs.Tagging.FirstFault

namespace NestedStacks

/-- `t.ReadAs t'`: what stands behind a tag as `t` is read as `t'`: the same, or the text of a
scalar that is none. -/
inductive Tree.ReadAs : Tree → Tree → Prop
  | same (t : Tree) : ReadAs t t
  | num (n : Number) : ReadAs (.num n) (.str n.text)
  | bool (b : Bool) : ReadAs (.bool b) (.str (if b then "true" else "false"))
  | null : ReadAs .null (.str "")

namespace TaggedNode

variable {tag : String} {raw : Tree} {n : TaggedNode}

/-! ### Written and read -/

theorem payload?_toTree {kind : PayloadKind} {p : Payload}
    (h : kind.accepts p.toTree.shape = true) : payload? kind p.toTree = some p := by
  cases p with
  | scalar s => cases kind <;> first | rfl | cases h
  | sequence items => cases kind <;> first | rfl | cases h
  | mapping entries => cases h

/-- A node `n` is read back as itself if its tag accepts its payload, and else the tag is blamed. -/
theorem ofTagged_toTree (n : TaggedNode) :
    ofTagged n.tag.spelling n.payload.toTree =
      if n.tag.kind.accepts n.payload.toTree.shape then .ok n
      else .error (.shape n.tag n.payload.toTree.shape) := by
  simp only [ofTagged, Tag.ofYaml?_spelling, construct]
  by_cases haccepts : n.tag.kind.accepts n.payload.toTree.shape = true
  · rw [payload?_toTree haccepts, if_pos haccepts]
  · rw [payload?_eq_none.mpr (eq_false_of_ne_true haccepts), if_neg haccepts]

theorem exists_ofTagged_toTree_iff :
    (∃ n', ofTagged n.tag.spelling n.payload.toTree = .ok n') ↔
      n.tag.kind.accepts n.payload.toTree.shape = true := by
  rw [ofTagged_toTree]
  split <;> simp [*]

/-! ### Read and written -/

/-- The tag of a node `n` that was read accepts its payload. -/
theorem accepts_of_ofTagged (h : ofTagged tag raw = .ok n) :
    n.tag.kind.accepts n.payload.toTree.shape = true := by
  obtain ⟨t, -, ⟨hk, s, -, rfl⟩ | ⟨hk, items, -, rfl⟩⟩ := ofTagged_eq_ok.mp h
  · simpa [Payload.toTree, Tree.shape, PayloadKind.accepts] using hk
  · simpa [Payload.toTree, Tree.shape, PayloadKind.accepts] using hk

theorem readAs_of_scalarText? {s : String} (h : scalarText? raw = some s) :
    raw.ReadAs (.str s) := by
  unfold scalarText? at h
  split at h <;> cases h
  · exact .same _
  · exact .num _
  · exact .bool _
  · exact .null

/-- Reading a `tag` on `raw` changes the spelling of the tag, and scalars to texts. -/
theorem readAs_of_ofTagged (h : ofTagged tag raw = .ok n) :
    n.tag.Spelled tag ∧ raw.ReadAs n.payload.toTree := by
  obtain ⟨t, ht, ⟨-, s, hs, rfl⟩ | ⟨-, items, rfl, rfl⟩⟩ := ofTagged_eq_ok.mp h
  · exact ⟨Tag.ofYaml?_eq_some.mp ht, readAs_of_scalarText? hs⟩
  · exact ⟨Tag.ofYaml?_eq_some.mp ht, .same _⟩

end TaggedNode

/-- **Nodes are written as what they are read from.**  Let a node `n` be written as
`.tagged tag raw`.  Reading that succeeds if and only if `n.tag` accepts the shape of `raw`; it
gives `n` then, and the error `.shape n.tag raw.shape` otherwise.  And if `n` was read from
`.tagged tag raw`, it is written as `.tagged n.tag.spelling raw'`, which gives `n` again: `tag` is
some spelling of `n.tag`, and `raw'` is `raw`, or its text if it is a number, a truth value or
null. -/
theorem nodes_represented :
    (∀ n : TaggedNode, ∃ tag raw, n.toTree = .tagged tag raw ∧ raw = n.payload.toTree ∧
        ((∃ n', TaggedNode.ofTagged tag raw = .ok n') ↔ n.tag.kind.accepts raw.shape = true) ∧
        (n.tag.kind.accepts raw.shape = true → TaggedNode.ofTagged tag raw = .ok n) ∧
        (n.tag.kind.accepts raw.shape = false →
          TaggedNode.ofTagged tag raw = .error (.shape n.tag raw.shape))) ∧
      ∀ (tag : String) (raw : Tree) (n : TaggedNode), TaggedNode.ofTagged tag raw = .ok n →
        ∃ raw', n.toTree = .tagged n.tag.spelling raw' ∧
          TaggedNode.ofTagged n.tag.spelling raw' = .ok n ∧ n.tag.Spelled tag ∧
          raw.ReadAs raw' := by
  refine ⟨fun n => ⟨_, _, rfl, rfl, TaggedNode.exists_ofTagged_toTree_iff, ?_, ?_⟩,
    fun tag raw n h => ?_⟩
  · intro haccepts
    rw [TaggedNode.ofTagged_toTree, if_pos haccepts]
  · intro haccepts
    rw [TaggedNode.ofTagged_toTree, haccepts, if_neg Bool.false_ne_true]
  · obtain ⟨hspelled, hread⟩ := TaggedNode.readAs_of_ofTagged h
    refine ⟨_, rfl, ?_, hspelled, hread⟩
    rw [TaggedNode.ofTagged_toTree, if_pos (TaggedNode.accepts_of_ofTagged h)]

/-- A macro in its short spelling on a truth value, and a function that takes no text. -/
theorem nodes_represented_includeString : ∃ n : TaggedNode, ∃ raw',
    TaggedNode.ofTagged "!IncludeString" (.bool true) = .ok n ∧
      n.toTree = .tagged "!Macro::IncludeString" raw' ∧
      TaggedNode.ofTagged "!Macro::IncludeString" raw' = .ok n ∧
      (Tree.bool true).ReadAs raw' ∧
      TaggedNode.ofTagged "!Join" (.str "x") = .error (.shape (.intrinsic .join) .scalar) := by
  have hread : TaggedNode.ofTagged "!IncludeString" (.bool true) =
      .ok ⟨.macroTag .includeString, .scalar "true"⟩ :=
    TaggedNode.ofTagged_eq_scalar.mpr ⟨by decide +kernel, by decide, rfl⟩
  obtain ⟨raw', htree, hagain, -, hreadAs⟩ := nodes_represented.2 _ _ _ hread
  obtain ⟨tag, raw, hjoin, -, -, -, hfails⟩ :=
    nodes_represented.1 ⟨.intrinsic .join, .scalar "x"⟩
  cases hjoin
  exact ⟨_, raw', hread, htree, hagain, hreadAs, hfails rfl⟩

end NestedStacks
