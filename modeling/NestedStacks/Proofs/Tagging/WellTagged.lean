/-
Documents whose tags are in order.

A document is in order when every tag outside keys is one of the catalog, in its standard spelling
and on a payload that it accepts.  `Tree.TaggedIn allowed` asks in addition that only allowed tags
occur, which is how the absence of macros is said.

* `Tree.TaggedIn`, `Tree.WellTagged` — the predicates;
* `TaggedNode.ofTagged_eq_ok` — when a tagged value is a node of the catalog, and of which form;
* `Tree.WellTagged.toData_eq_error` — a document in order has plain data unless a key has none.
-/
import NestedStacks.Plain.Export
import NestedStacks.Proofs.Document.Parts
import NestedStacks.Proofs.Outcomes

namespace NestedStacks

/-- `t.TaggedIn allowed`: every tag of `t` outside keys is `allowed`, in its standard spelling, and
stands on a payload that it accepts: a text, a sequence, or either of them. -/
inductive Tree.TaggedIn (allowed : Tag → Prop) : Tree → Prop
  | null : TaggedIn allowed .null
  | bool (b : Bool) : TaggedIn allowed (.bool b)
  | num (n : Number) : TaggedIn allowed (.num n)
  | str (s : String) : TaggedIn allowed (.str s)
  | seq {items : List Tree} (h : ∀ t ∈ items, TaggedIn allowed t) : TaggedIn allowed (.seq items)
  | map {entries : Entries} (h : ∀ e ∈ entries, TaggedIn allowed e.2) :
      TaggedIn allowed (.map entries)
  | text {tag : Tag} (ha : allowed tag) (hk : tag.kind ≠ .sequence) (s : String) :
      TaggedIn allowed (.tagged tag.spelling (.str s))
  | list {tag : Tag} (ha : allowed tag) (hk : tag.kind ≠ .scalar) {items : List Tree}
      (h : ∀ t ∈ items, TaggedIn allowed t) : TaggedIn allowed (.tagged tag.spelling (.seq items))

/-- `t.WellTagged`: every tag of `t` outside keys is one of the catalog in its standard spelling, on
a payload that it accepts. -/
def Tree.WellTagged (t : Tree) : Prop := t.TaggedIn fun _ => True

namespace Tree.TaggedIn

variable {allowed allowed' : Tag → Prop}

theorem mono (h : ∀ tag, allowed tag → allowed' tag) {t : Tree} (ht : t.TaggedIn allowed) :
    t.TaggedIn allowed' := by
  induction ht with
  | null => exact .null
  | bool b => exact .bool b
  | num n => exact .num n
  | str s => exact .str s
  | seq _ ih => exact .seq ih
  | map _ ih => exact .map ih
  | text ha hk s => exact .text (h _ ha) hk s
  | list ha hk _ ih => exact .list (h _ ha) hk ih

theorem wellTagged {t : Tree} (h : t.TaggedIn allowed) : t.WellTagged := h.mono fun _ _ => trivial

theorem mem_items {items : List Tree} (h : (Tree.seq items).TaggedIn allowed) :
    ∀ t ∈ items, t.TaggedIn allowed := by
  cases h with
  | seq h => exact h

theorem mem_entries {entries : Entries} (h : (Tree.map entries).TaggedIn allowed) :
    ∀ e ∈ entries, e.2.TaggedIn allowed := by
  cases h with
  | map h => exact h

/-- The `tag` on a document in order is allowed. -/
theorem allowed_of_tagged {tag : String} {payload : Tree} {c : Tag}
    (h : (Tree.tagged tag payload).TaggedIn allowed) (hc : Tag.ofYaml? tag = some c) :
    allowed c := by
  cases h with
  | text ha _ _ | list ha _ _ =>
    obtain rfl := Option.some.inj ((Tag.ofYaml?_spelling _).symm.trans hc)
    exact ha

/-- The value `t` of a `key` is in order if the mapping is. -/
theorem get? {entries : Entries} (h : (Tree.map entries).TaggedIn allowed) {key : String}
    {t : Tree} (ht : entries.get? key = some t) : t.TaggedIn allowed := by
  obtain ⟨e, he, rfl⟩ := Option.map_eq_some_iff.mp ht
  exact h.mem_entries e (List.mem_of_find?_eq_some he)

/-- Setting a `key` to a value `t` in order keeps a mapping in order. -/
theorem set {entries : Entries} (h : (Tree.map entries).TaggedIn allowed) (key : String)
    {t : Tree} (ht : t.TaggedIn allowed) : (Tree.map (entries.set key t)).TaggedIn allowed := by
  refine .map fun e he => ?_
  rcases Entries.mem_set he with he | rfl
  · exact h.mem_entries e he
  · exact ht

end Tree.TaggedIn

/-! ### Nodes -/

namespace TaggedNode

/-- A `tag` on `raw` is a node when the tag is known and takes either the text of `raw` or its
items. -/
theorem ofTagged_eq_ok {tag : String} {raw : Tree} {node : TaggedNode} :
    ofTagged tag raw = .ok node ↔
      ∃ t, Tag.ofYaml? tag = some t ∧
        ((t.kind ≠ .sequence ∧ ∃ s, scalarText? raw = some s ∧ node = ⟨t, .scalar s⟩) ∨
          t.kind ≠ .scalar ∧ ∃ items, raw = .seq items ∧ node = ⟨t, .sequence items⟩) := by
  unfold ofTagged construct
  cases ht : Tag.ofYaml? tag with
  | none => simp
  | some t =>
    cases hk : t.kind <;> cases raw <;> simp [hk, payload?, scalarText?, eq_comm]

theorem ofTagged_eq_scalar {tag : String} {raw : Tree} {t : Tag} {s : String} :
    ofTagged tag raw = .ok ⟨t, .scalar s⟩ ↔
      Tag.ofYaml? tag = some t ∧ t.kind ≠ .sequence ∧ scalarText? raw = some s := by
  simp [ofTagged_eq_ok]

theorem ofTagged_eq_sequence {tag : String} {raw : Tree} {t : Tag} {items : List Tree} :
    ofTagged tag raw = .ok ⟨t, .sequence items⟩ ↔
      Tag.ofYaml? tag = some t ∧ t.kind ≠ .scalar ∧ raw = .seq items := by
  simp [ofTagged_eq_ok]

/-- A `tag` on `raw` is no node when the tag is unknown or `raw` has another shape. -/
theorem ofTagged_eq_error {tag : String} {raw : Tree} {e : DocumentError}
    (h : ofTagged tag raw = .error e) : e = .unknownTag tag ∨ ∃ t, e = .shape t raw.shape := by
  unfold ofTagged construct at h
  split at h
  · split at h
    · cases h
    · exact .inr ⟨_, (Except.error.inj h).symm⟩
  · exact .inl (Except.error.inj h).symm

/-- A tag `t` that takes texts takes `s` as it is. -/
theorem ofTagged_text {t : Tag} (hk : t.kind ≠ .sequence) (s : String) :
    ofTagged t.spelling (.str s) = .ok ⟨t, .scalar s⟩ :=
  ofTagged_eq_ok.mpr ⟨t, Tag.ofYaml?_spelling t, .inl ⟨hk, s, rfl, rfl⟩⟩

/-- A tag `t` that takes sequences takes `items` as they are. -/
theorem ofTagged_list {t : Tag} (hk : t.kind ≠ .scalar) (items : List Tree) :
    ofTagged t.spelling (.seq items) = .ok ⟨t, .sequence items⟩ :=
  ofTagged_eq_ok.mpr ⟨t, Tag.ofYaml?_spelling t, .inr ⟨hk, items, rfl, rfl⟩⟩

/-- A tag `t` that takes sequences is that of an intrinsic function. -/
theorem exists_intrinsic {t : Tag} (hk : t.kind ≠ .scalar) : ∃ i, t = .intrinsic i := by
  cases t with
  | intrinsic i => exact ⟨i, rfl⟩
  | macroTag m => exact absurd rfl hk

end TaggedNode

/-! ### Plain data -/

namespace Tree

theorem toData_seq (items : List Tree) :
    (Tree.seq items).toData = itemsToData items >>= fun ds => pure (.arr ds) := rfl

theorem toData_map (entries : Entries) :
    (Tree.map entries).toData = entriesToData entries [] >>= fun fields => pure (.obj fields) := rfl

theorem toData_tagged (tag : String) (payload : Tree) : (Tree.tagged tag payload).toData =
    TaggedNode.ofTagged tag payload >>= fun node =>
      match node.payload with
      | .scalar s => pure (scalarData node.tag s)
      | _ => payload.toData >>= fun d => pure (.single node.tag.functionName d) := rfl

theorem itemsToData_cons (t : Tree) (rest : List Tree) : itemsToData (t :: rest) =
    t.toData >>= fun d => itemsToData rest >>= fun ds => pure (d :: ds) := rfl

theorem entriesToData_cons (e : Tree × Tree) (rest : Entries) (fields : List (String × Data)) :
    entriesToData (e :: rest) fields = keyText e.1 >>= fun name => e.2.toData >>= fun d =>
      entriesToData rest (Data.setField name d fields) := rfl

theorem toData_ofTagged_scalar {tag : String} {payload : Tree} {c : Tag} {s : String}
    (h : TaggedNode.ofTagged tag payload = .ok ⟨c, .scalar s⟩) :
    (Tree.tagged tag payload).toData = .ok (scalarData c s) := by
  rw [toData_tagged, h]
  rfl

theorem toData_ofTagged_sequence {tag : String} {items : List Tree} {c : Tag}
    (h : TaggedNode.ofTagged tag (.seq items) = .ok ⟨c, .sequence items⟩) :
    (Tree.tagged tag (.seq items)).toData =
      (Tree.seq items).toData >>= fun d => pure (.single c.functionName d) := by
  rw [toData_tagged, h]
  rfl

theorem toData_text {t : Tag} (hk : t.kind ≠ .sequence) (s : String) :
    (Tree.tagged t.spelling (.str s)).toData = .ok (scalarData t s) :=
  toData_ofTagged_scalar (TaggedNode.ofTagged_text hk s)

theorem toData_list {t : Tag} (hk : t.kind ≠ .scalar) (items : List Tree) :
    (Tree.tagged t.spelling (.seq items)).toData =
      (Tree.seq items).toData >>= fun d => pure (.single t.functionName d) :=
  toData_ofTagged_sequence (TaggedNode.ofTagged_list hk items)

theorem itemsToData_eq_mapM (items : List Tree) : itemsToData items = items.mapM toData := by
  induction items with
  | nil => rfl
  | cons t rest ih => rw [itemsToData_cons, List.mapM_cons, ih]

theorem itemsToData_congr {items items' : List Tree}
    (h : List.Forall₂ (fun u u' => u.toData = u'.toData) items items') :
    itemsToData items = itemsToData items' := by
  induction h with
  | nil => rfl
  | cons hu _ ih => rw [itemsToData_cons, itemsToData_cons, hu, ih]

theorem entriesToData_congr {entries entries' : Entries}
    (h : List.Forall₂ (fun e e' => keyText e.1 = keyText e'.1 ∧ e.2.toData = e'.2.toData)
      entries entries') (fields : List (String × Data)) :
    entriesToData entries fields = entriesToData entries' fields := by
  induction h generalizing fields with
  | nil => rfl
  | cons he _ ih => simp only [entriesToData_cons, he.1, he.2, ih]

theorem toData_seq_congr {items items' : List Tree}
    (h : List.Forall₂ (fun u u' => u.toData = u'.toData) items items') :
    (Tree.seq items).toData = (Tree.seq items').toData := by
  rw [toData_seq, toData_seq, itemsToData_congr h]

theorem toData_map_congr {entries entries' : Entries}
    (h : List.Forall₂ (fun e e' => keyText e.1 = keyText e'.1 ∧ e.2.toData = e'.2.toData)
      entries entries') : (Tree.map entries).toData = (Tree.map entries').toData := by
  rw [toData_map, toData_map, entriesToData_congr h]

/-- The `entries` of a mapping fail only with the failure of a key or of a value. -/
theorem entriesToData_eq_error {entries : Entries} {fields : List (String × Data)}
    {e : DocumentError} (h : entriesToData entries fields = .error e) :
    ∃ entry ∈ entries, keyText entry.1 = .error e ∨ entry.2.toData = .error e := by
  induction entries generalizing fields with
  | nil => cases h
  | cons entry rest ih =>
    rw [entriesToData_cons] at h
    rcases Except.bind_eq_error.mp h with hk | ⟨name, -, h⟩
    · exact ⟨entry, by simp, .inl hk⟩
    rcases Except.bind_eq_error.mp h with hv | ⟨d, -, h⟩
    · exact ⟨entry, by simp, .inr hv⟩
    · obtain ⟨other, hmem, hother⟩ := ih h
      exact ⟨other, by simp [hmem], hother⟩

theorem keyText_eq_error {key : Tree} {e : DocumentError} (h : keyText key = .error e) :
    ∃ found, e = .invalidKey found := by
  cases key <;> simp [keyText] at h <;> exact ⟨_, h.symm⟩

theorem toData_seq_eq_error {items : List Tree} {e : DocumentError}
    (h : (Tree.seq items).toData = .error e) : ∃ t ∈ items, t.toData = .error e := by
  rw [toData_seq, itemsToData_eq_mapM] at h
  rcases Except.bind_eq_error.mp h with h | ⟨ds, -, h⟩
  · exact Except.mapM_eq_error h
  · exact absurd h Except.pure_ne_error

theorem toData_map_eq_error {entries : Entries} {e : DocumentError}
    (h : (Tree.map entries).toData = .error e) :
    ∃ entry ∈ entries, keyText entry.1 = .error e ∨ entry.2.toData = .error e := by
  rw [toData_map] at h
  rcases Except.bind_eq_error.mp h with h | ⟨fields, -, h⟩
  · exact entriesToData_eq_error h
  · exact absurd h Except.pure_ne_error

/-- A document `t` in order has plain data, unless one of its keys has no name. -/
theorem WellTagged.toData_eq_error {t : Tree} (ht : t.WellTagged) {e : DocumentError}
    (h : t.toData = .error e) : ∃ found, e = .invalidKey found := by
  induction ht with
  | null | bool | num | str => cases h
  | seq _ ih =>
    obtain ⟨t, hmem, ht⟩ := toData_seq_eq_error h
    exact ih t hmem ht
  | map _ ih =>
    obtain ⟨entry, hmem, hk | hv⟩ := toData_map_eq_error h
    · exact keyText_eq_error hk
    · exact ih entry hmem hv
  | text _ hk s =>
    rw [toData_text hk] at h
    cases h
  | list _ hk _ ih =>
    rw [toData_list hk] at h
    rcases Except.bind_eq_error.mp h with h | ⟨_, -, h⟩
    · obtain ⟨t, hmem, ht⟩ := toData_seq_eq_error h
      exact ih t hmem ht
    · exact absurd h Except.pure_ne_error

end Tree

end NestedStacks
