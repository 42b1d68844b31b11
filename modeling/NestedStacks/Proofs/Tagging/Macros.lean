/-
Macros in documents.

Where macros are left, a macro stays at its place, with its standard spelling and the text of its
argument.  This is said of places, so that it does not matter what stands around a macro: an entry,
an item, or the payload of a function.

* `Tree.MacroAt`, `Tree.KeepsMacros` — a macro at a place, and documents with the macros of others;
* `Tree.KeepsMacros.of_parts`, `Tree.KeepsMacros.trans` — macros are kept part by part, in steps;
* `Tree.keepsMacros_of_load` — loading without a resolver keeps macros;
* `Tree.TaggedIn.not_macroAt` — a document without macro tags has no macro at any place.
-/
import NestedStacks.Proofs.Tagging.Loading

namespace NestedStacks.Tree

/-- `t.MacroAt place m payload`: the macro `m` stands at `place` in `t`, on `payload`. -/
def MacroAt (t : Tree) (place : List Nat) (m : MacroTag) (payload : Tree) : Prop :=
  ∃ tag, t.at? place = some (.tagged tag payload) ∧ Tag.ofYaml? tag = some (.macroTag m)

/-- `t.KeepsMacros t'`: each macro of `t` stands at its place in `t'`, in the standard spelling and
with the text of its argument. -/
def KeepsMacros (t t' : Tree) : Prop :=
  ∀ place m payload, t.MacroAt place m payload → ∃ s, TaggedNode.scalarText? payload = some s ∧
    t'.at? place = some (.tagged (Tag.macroTag m).spelling (.str s))

variable {t t' t'' : Tree} {place : List Nat} {m : MacroTag} {payload : Tree}
  {allowed : Tag → Prop} {w : World} {n : Nat}

/-! ### Places of macros -/

theorem macroAt_nil : t.MacroAt [] m payload ↔
    ∃ tag, t = .tagged tag payload ∧ Tag.ofYaml? tag = some (.macroTag m) := by
  simp [MacroAt]

theorem macroAt_cons {i : Nat} :
    t.MacroAt (i :: place) m payload ↔ ∃ u, t.parts[i]? = some u ∧ u.MacroAt place m payload := by
  simp only [MacroAt, at?_cons, Option.bind_eq_some_iff]
  constructor
  · rintro ⟨tag, ⟨u, hu, hat⟩, htag⟩
    exact ⟨u, hu, tag, hat, htag⟩
  · rintro ⟨u, hu, tag, hat, htag⟩
    exact ⟨tag, ⟨u, hu, hat⟩, htag⟩

/-- What stands at a `place` of a document `t` in order is in order. -/
theorem TaggedIn.at? (ht : t.TaggedIn allowed) {u : Tree} (hu : t.at? place = some u) :
    u.TaggedIn allowed := by
  induction place generalizing t with
  | nil =>
    obtain rfl : t = u := by simpa using hu
    exact ht
  | cons i place ih =>
    obtain ⟨v, hv, hu⟩ := Option.bind_eq_some_iff.mp hu
    refine ih ?_ hu
    have hmem : v ∈ t.parts := List.mem_of_getElem? hv
    cases ht with
    | null | bool | num | str => simp [parts] at hmem
    | seq h => exact h v hmem
    | map h =>
      obtain ⟨e, he, rfl⟩ := List.mem_map.mp hmem
      exact h e he
    | text _ _ s =>
      obtain rfl : v = .str s := by simpa [parts] using hmem
      exact .str s
    | list _ _ h =>
      obtain rfl := List.mem_singleton.mp hmem
      exact .seq h

/-- In a document `t` in order a macro `m` is spelled in the standard way and stands on a text
`s`. -/
theorem TaggedIn.eq_of_macroAt (ht : t.TaggedIn allowed) (h : t.MacroAt place m payload) :
    allowed (.macroTag m) ∧
      ∃ s, payload = .str s ∧ t.at? place = some (.tagged (Tag.macroTag m).spelling (.str s)) := by
  obtain ⟨tag, hat, htag⟩ := h
  generalize hu : Tree.tagged tag payload = u at hat
  cases ht.at? hat with
  | @text c ha _ s =>
    cases hu
    obtain rfl : c = .macroTag m := by simpa [Tag.ofYaml?_spelling] using htag
    exact ⟨ha, s, rfl, hat⟩
  | @list c _ hk items =>
    cases hu
    obtain rfl : c = .macroTag m := by simpa [Tag.ofYaml?_spelling] using htag
    exact absurd rfl hk
  | _ => cases hu

/-- If no macro tags are `allowed`, there is no macro at any `place` of `t`. -/
theorem TaggedIn.not_macroAt (ht : t.TaggedIn allowed)
    (hallowed : ∀ c, allowed c → c.macroTag? = none) : ¬t.MacroAt place m payload := by
  intro h
  cases hallowed _ (ht.eq_of_macroAt h).1

/-! ### Keeping macros -/

namespace KeepsMacros

/-- Macros are kept from `t` to `t'` when they are kept in each part, unless `t` is a macro
itself. -/
theorem of_parts (hroot : ∀ tag m, Tag.ofYaml? tag = some (.macroTag m) → ∀ payload,
      t ≠ .tagged tag payload)
    (hparts : List.Forall₂ KeepsMacros t.parts t'.parts) : t.KeepsMacros t' := by
  intro place m payload h
  cases place with
  | nil =>
    obtain ⟨tag, rfl, htag⟩ := macroAt_nil.mp h
    exact absurd rfl (hroot tag m htag payload)
  | cons i place =>
    obtain ⟨u, hu, h⟩ := macroAt_cons.mp h
    obtain ⟨u', hu', hkeeps⟩ := forall₂_getElem? hparts hu
    obtain ⟨s, hs, hat⟩ := hkeeps place m payload h
    refine ⟨s, hs, ?_⟩
    rw [at?_cons, hu']
    exact hat

theorem seq {items items' : List Tree} (h : List.Forall₂ KeepsMacros items items') :
    (Tree.seq items).KeepsMacros (.seq items') :=
  of_parts (by simp) h

theorem map {entries entries' : Entries}
    (h : List.Forall₂ (fun e e' => e.2.KeepsMacros e'.2) entries entries') :
    (Tree.map entries).KeepsMacros (.map entries') := by
  refine of_parts (by simp) ?_
  rw [parts, parts, List.forall₂_map_left_iff, List.forall₂_map_right_iff]
  exact h

/-- A `tag` on a scalar of the text `s` keeps macros if `s'` is `s` where the tag is that of a
macro. -/
theorem tagged_text {tag : String} {c : Tag} {s s' : String} (hc : Tag.ofYaml? tag = some c)
    (hs : TaggedNode.scalarText? payload = some s) (hsame : c.macroTag?.isSome → s' = s) :
    (Tree.tagged tag payload).KeepsMacros (.tagged c.spelling (.str s')) := by
  have hparts : payload.parts = [] := by
    cases payload <;> simp [TaggedNode.scalarText?, parts] at hs ⊢
  rintro (_ | ⟨i, place⟩) m payload' h
  · obtain ⟨_, ⟨⟩, htag⟩ := macroAt_nil.mp h
    obtain rfl : c = .macroTag m := by simpa [hc] using htag
    exact ⟨s, hs, by rw [hsame rfl, at?_nil]⟩
  · -- what stands under the tag is a text or another scalar, so no place lies further inside
    obtain ⟨u, hu, hinside⟩ := macroAt_cons.mp h
    obtain rfl : u = payload := List.mem_singleton.mp (List.mem_of_getElem? hu)
    cases place with
    | nil =>
      obtain ⟨_, rfl, -⟩ := macroAt_nil.mp hinside
      cases hs
    | cons j place =>
      obtain ⟨_, hpart, -⟩ := macroAt_cons.mp hinside
      simp [hparts] at hpart

/-- A function `i` keeps the macros of its `items`. -/
theorem tagged_list {tag : String} {i : Intrinsic} {items items' : List Tree}
    (hc : Tag.ofYaml? tag = some (.intrinsic i))
    (h : (Tree.seq items).KeepsMacros (.seq items')) :
    (Tree.tagged tag (.seq items)).KeepsMacros
      (.tagged (Tag.intrinsic i).spelling (.seq items')) := by
  refine of_parts ?_ (.cons h .nil)
  rintro tag' m htag payload ⟨⟩
  simp [hc] at htag

/-- A document `t` in order has its own macros. -/
theorem refl (ht : t.TaggedIn allowed) : t.KeepsMacros t := by
  intro place m payload h
  obtain ⟨-, s, rfl, hat⟩ := ht.eq_of_macroAt h
  exact ⟨s, rfl, hat⟩

theorem trans (h : t.KeepsMacros t') (h' : t'.KeepsMacros t'') : t.KeepsMacros t'' := by
  intro place m payload hplace
  obtain ⟨s, hs, hat⟩ := h place m payload hplace
  obtain ⟨s', hs', hat'⟩ := h' place m (.str s) ⟨_, hat, Tag.ofYaml?_spelling _⟩
  obtain rfl : s = s' := by simpa [TaggedNode.scalarText?] using hs'
  exact ⟨s, hs, hat'⟩

/-- A document `t` without tags has no macros to keep. -/
theorem of_untagged (ht : t.TaggedIn fun _ => False) : t.KeepsMacros t' :=
  fun _ _ _ h => absurd h (ht.not_macroAt fun _ hc => hc.elim)

end KeepsMacros

/-! ### Loading -/

/-- What a `tag` on a `payload` becomes when macros are left: the same node in its standard
spelling. -/
theorem load_none_tagged_eq_ok {tag : String}
    (h : ((Tree.tagged tag payload).load none w n).result = .ok t) :
    ∃ c, Tag.ofYaml? tag = some c ∧
      ((∃ s, TaggedNode.scalarText? payload = some s ∧ t = .tagged c.spelling (.str s)) ∨
        ∃ i items items' k, c = .intrinsic i ∧ payload = .seq items ∧
          t = .tagged c.spelling (.seq items') ∧
          (payload.load none w k).result = .ok (.seq items')) := by
  generalize hrun : (Tree.tagged tag payload).load none = run at h
  cases taggedLoad hrun with
  | fault => simp at h
  | @text _ _ s hnode _ =>
    obtain ⟨hc, -, hs⟩ := TaggedNode.ofTagged_eq_scalar.mp hnode
    exact ⟨_, hc, .inl ⟨s, hs, (Except.ok.inj h).symm⟩⟩
  | replaced _ hr => cases hr
  | @list _ items hnode =>
    obtain ⟨hc, hk, -⟩ := TaggedNode.ofTagged_eq_sequence.mp hnode
    obtain ⟨i, rfl⟩ := TaggedNode.exists_intrinsic hk
    obtain ⟨u, hu, h⟩ := Run.bind_eq_ok.mp h
    obtain ⟨items', rfl, -⟩ := load_seq_eq_ok hu
    exact ⟨_, hc, .inr ⟨i, items, items', _, rfl, rfl, (Except.ok.inj h).symm, hu⟩⟩

/-- Loading `t` to `t'` keeps macros if they are left. -/
theorem keepsMacros_of_load (h : (t.load none w n).result = .ok t') : t.KeepsMacros t' := by
  induction t using Tree.induct generalizing n t' with
  | null | bool | num | str => exact .of_untagged (by constructor)
  | seq items ih =>
    obtain ⟨items', rfl, hitems⟩ := load_seq_eq_ok h
    exact .seq (forall₂_of_mem hitems fun u hu u' ⟨k, hk⟩ => ih u hu hk)
  | map entries _ ih =>
    obtain ⟨entries', rfl, hentries⟩ := load_map_eq_ok h
    exact .map (forall₂_of_mem hentries fun e he e' ⟨_, k, hk⟩ => ih e he hk)
  | tagged tag payload ih =>
    obtain ⟨c, hc, ⟨s, hs, rfl⟩ | ⟨i, items, items', k, rfl, rfl, rfl, hload⟩⟩ :=
      load_none_tagged_eq_ok h
    · exact .tagged_text hc hs fun _ => rfl
    · exact .tagged_list hc (ih hload)

/-- Loading `t` takes no step if macros are left. -/
theorem steps_load_none (t : Tree) (w : World) (n : Nat) : (t.load none w n).steps = [] := by
  induction t using Tree.induct generalizing n with
  | null | bool | num | str => rfl
  | seq items ih =>
    rw [load_seq]
    exact Run.steps_bind (Run.steps_mapM ih) (fun _ _ => rfl) n
  | map entries _ ih =>
    rw [load_map]
    refine Run.steps_bind (Run.steps_mapM fun e he => ?_) (fun _ _ => rfl) n
    exact Run.steps_bind (ih e he) fun _ _ => rfl
  | tagged tag payload ih =>
    generalize hrun : (Tree.tagged tag payload).load none = run
    cases taggedLoad hrun with
    | fault | text => rfl
    | replaced _ hr => cases hr
    | list => exact Run.steps_bind ih (fun _ _ => rfl) n

end NestedStacks.Tree
