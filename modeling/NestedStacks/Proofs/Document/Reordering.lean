/-
The order of the entries of mappings.

Documents may differ in the order in which mappings have their entries, wherever these stand, in
keys too.  The fields of plain data are in the order of their names, so that such documents have the
same plain data, unless two keys of one mapping have the same name: then the last of them counts.

* `Tree.Reordered` — documents that differ only in the order of entries;
* `Tree.KeysNamed`, `Tree.KeysApart` — documents whose keys have names, and different ones in each
  mapping;
* `Tree.TaggedIn.exists_toData_iff` — a document has plain data if its keys have names;
* `Data.record_perm`, `Tree.Reordered.toData_eq_ok` — the order does not count in plain data.
-/
import NestedStacks.Proofs.Tagging.WellTagged
import Mathlib.Data.List.Nodup
import Mathlib.Data.String.Basic

namespace NestedStacks

/-! ### Fields -/

namespace Data

/-- The record that comes of setting the `fields` one after the other. -/
def record (fields : List (String × Data)) : Data :=
  .obj (fields.foldl (fun set field => setField field.1 field.2 set) [])

/-- Fields `name` and `other` with different names may be set in any order. -/
theorem setField_comm {name other : String} (h : name ≠ other) (d e : Data)
    (fields : List (String × Data)) :
    setField name d (setField other e fields) = setField other e (setField name d fields) := by
  -- each of the two comes in front of a field, replaces it, or goes on behind it
  induction fields with
  | nil => grind [setField]
  | cons field rest ih => grind [setField]

/-- The `fields` of a record may be set in any order, if no two of them have the same name. -/
theorem record_perm {fields fields' : List (String × Data)} (h : fields.Perm fields')
    (hnames : (fields.map (·.1)).Nodup) : record fields = record fields' := by
  rw [record, record, h.foldl_eq' fun x hx y hy set => ?_]
  by_cases hxy : x.1 = y.1
  · rw [List.inj_on_of_nodup_map hnames hx hy hxy]
  · exact setField_comm (Ne.symm hxy) y.2 x.2 set

end Data

namespace Tree

/-- `FieldOf e field`: the entry `e` becomes `field` in plain data. -/
def FieldOf (e : Tree × Tree) (field : String × Data) : Prop :=
  keyText e.1 = .ok field.1 ∧ e.2.toData = .ok field.2

theorem toData_seq_eq_ok {items : List Tree} {d : Data} : (Tree.seq items).toData = .ok d ↔
    ∃ ds, List.Forall₂ (fun u e => u.toData = .ok e) items ds ∧ .arr ds = d := by
  rw [toData_seq, itemsToData_eq_mapM, Except.bind_eq_ok]
  simp only [Except.mapM_eq_ok, Except.pure_eq_ok]

theorem entriesToData_eq_ok {entries : Entries} {set set' : List (String × Data)} :
    entriesToData entries set = .ok set' ↔ ∃ fields, List.Forall₂ FieldOf entries fields ∧
      fields.foldl (fun set field => Data.setField field.1 field.2 set) set = set' := by
  induction entries generalizing set with
  | nil => simp [entriesToData]
  | cons e rest ih =>
    simp only [entriesToData_cons, Except.bind_eq_ok, ih, List.forall₂_cons_left_iff, FieldOf]
    constructor
    · rintro ⟨name, hname, d, hd, fields, hfields, hset⟩
      exact ⟨(name, d) :: fields, ⟨(name, d), fields, ⟨hname, hd⟩, hfields, rfl⟩, hset⟩
    · rintro ⟨_, ⟨field, fields, ⟨hname, hd⟩, hfields, rfl⟩, hset⟩
      exact ⟨field.1, hname, field.2, hd, fields, hfields, hset⟩

theorem toData_map_eq_ok {entries : Entries} {d : Data} : (Tree.map entries).toData = .ok d ↔
    ∃ fields, List.Forall₂ FieldOf entries fields ∧ Data.record fields = d := by
  simp only [toData_map, Except.bind_eq_ok, entriesToData_eq_ok, Except.pure_eq_ok, Data.record]
  constructor
  · rintro ⟨_, ⟨fields, hfields, rfl⟩, rfl⟩
    exact ⟨fields, hfields, rfl⟩
  · rintro ⟨fields, hfields, rfl⟩
    exact ⟨_, ⟨fields, hfields, rfl⟩, rfl⟩

theorem exists_toData_seq {items : List Tree} :
    (∃ d, (Tree.seq items).toData = .ok d) ↔ ∀ u ∈ items, ∃ d, u.toData = .ok d := by
  rw [← exists_forall₂_iff]
  constructor
  · rintro ⟨d, hd⟩
    obtain ⟨ds, hds, -⟩ := toData_seq_eq_ok.mp hd
    exact ⟨ds, hds⟩
  · rintro ⟨ds, hds⟩
    exact ⟨_, toData_seq_eq_ok.mpr ⟨ds, hds, rfl⟩⟩

theorem exists_toData_map {entries : Entries} : (∃ d, (Tree.map entries).toData = .ok d) ↔
    ∀ e ∈ entries, (∃ name, keyText e.1 = .ok name) ∧ ∃ d, e.2.toData = .ok d := by
  have hfield : ∀ e, (∃ field, FieldOf e field) ↔
      (∃ name, keyText e.1 = .ok name) ∧ ∃ d, e.2.toData = .ok d := by
    simp [FieldOf, Prod.exists]
  simp only [← hfield, ← exists_forall₂_iff]
  constructor
  · rintro ⟨d, hd⟩
    obtain ⟨fields, hfields, -⟩ := toData_map_eq_ok.mp hd
    exact ⟨fields, hfields⟩
  · rintro ⟨fields, hfields⟩
    exact ⟨_, toData_map_eq_ok.mpr ⟨fields, hfields, rfl⟩⟩

theorem toData_list_eq_ok {tag : Tag} (hk : tag.kind ≠ .scalar) {items : List Tree} {d : Data} :
    (Tree.tagged tag.spelling (.seq items)).toData = .ok d ↔
      ∃ e, (Tree.seq items).toData = .ok e ∧ .single tag.functionName e = d := by
  rw [toData_list hk, Except.bind_eq_ok]
  simp only [Except.pure_eq_ok]

/-! ### Documents -/

/-- `t.Reordered t'`: `t'` is `t` with the entries of its mappings, at any depth and inside keys
too, in another order. -/
inductive Reordered : Tree → Tree → Prop
  | null : Reordered .null .null
  | bool (b : Bool) : Reordered (.bool b) (.bool b)
  | num (n : Number) : Reordered (.num n) (.num n)
  | str (s : String) : Reordered (.str s) (.str s)
  | seq {items items' : List Tree} (h : List.Forall₂ Reordered items items') :
      Reordered (.seq items) (.seq items')
  | map {entries between entries' : Entries}
      (hkeys : List.Forall₂ Reordered (entries.map (·.1)) (between.map (·.1)))
      (hvalues : List.Forall₂ Reordered (entries.map (·.2)) (between.map (·.2)))
      (horder : between.Perm entries') : Reordered (.map entries) (.map entries')
  | tagged (tag : String) {payload payload' : Tree} (h : Reordered payload payload') :
      Reordered (.tagged tag payload) (.tagged tag payload')

/-- `t.EveryMapping P`: `P keys` holds for the list of `keys` of each mapping in `t` outside
keys. -/
def EveryMapping (P : List Tree → Prop) (t : Tree) : Prop :=
  ∀ place entries, t.at? place = some (.map entries) → P (entries.map (·.1))

/-- `t.KeysNamed`: every key `k` of a mapping in `t` has a name, `keyText k = .ok name`. -/
def KeysNamed (t : Tree) : Prop :=
  t.EveryMapping fun keys => ∀ k ∈ keys, ∃ name, keyText k = .ok name

/-- `t.KeysApart`: no two keys of a mapping in `t` have the same name. -/
def KeysApart (t : Tree) : Prop :=
  t.EveryMapping fun keys => keys.Pairwise fun k k' => ∀ name, keyText k = .ok name →
    keyText k' ≠ .ok name

variable {t u v : Tree} {P : List Tree → Prop} {allowed : Tag → Prop}

/-! ### Keys -/

/-- The mappings in `t` are `t` itself, if it is one, and those in its parts. -/
theorem everyMapping_iff : t.EveryMapping P ↔
    (∀ entries, t = .map entries → P (entries.map (·.1))) ∧ ∀ u ∈ t.parts, u.EveryMapping P := by
  constructor
  · intro h
    refine ⟨fun entries ht => h [] entries (congrArg some ht), fun u hu place entries hplace => ?_⟩
    obtain ⟨i, hi⟩ := List.getElem?_of_mem hu
    exact h (i :: place) entries (by rw [at?_cons, hi, Option.bind_some, hplace])
  · rintro ⟨hroot, hparts⟩ (_ | ⟨i, place⟩) entries hplace
    · exact hroot entries (Option.some.inj hplace)
    · obtain ⟨u, hu, hplace⟩ := Option.bind_eq_some_iff.mp hplace
      exact hparts u (List.mem_of_getElem? hu) place entries hplace

theorem everyMapping_of_scalar (h : t.shape = .null ∨ t.shape = .scalar) : t.EveryMapping P := by
  rw [everyMapping_iff]
  cases t <;> simp_all [shape, parts]

@[simp] theorem everyMapping_seq {items : List Tree} :
    (Tree.seq items).EveryMapping P ↔ ∀ u ∈ items, u.EveryMapping P := by
  rw [everyMapping_iff]
  simp [parts]

@[simp] theorem everyMapping_map {entries : Entries} : (Tree.map entries).EveryMapping P ↔
    P (entries.map (·.1)) ∧ ∀ e ∈ entries, e.2.EveryMapping P := by
  rw [everyMapping_iff, parts, List.forall_mem_map]
  simp

@[simp] theorem everyMapping_tagged {tag : String} {payload : Tree} :
    (Tree.tagged tag payload).EveryMapping P ↔ payload.EveryMapping P := by
  rw [everyMapping_iff]
  simp [parts]

/-- If the keys of `entries` have different names, so have the `fields` that they become. -/
theorem nodup_of_fieldOf {entries : Entries} {fields : List (String × Data)}
    (h : List.Forall₂ FieldOf entries fields)
    (hkeys : (entries.map (·.1)).Pairwise fun k k' => ∀ name, keyText k = .ok name →
      keyText k' ≠ .ok name) : (fields.map (·.1)).Nodup := by
  induction h with
  | nil => exact List.nodup_nil
  | @cons e field rest fields he hrest ih =>
    rw [List.map_cons, List.pairwise_cons] at hkeys
    rw [List.map_cons, List.nodup_cons]
    refine ⟨fun hmem => ?_, ih hkeys.2⟩
    obtain ⟨other, hother, hsame⟩ := List.mem_map.mp hmem
    obtain ⟨e', he', hfield⟩ := forall₂_exists_left hrest hother
    exact hkeys.1 e'.1 (List.mem_map_of_mem he') field.1 he.1 (hsame ▸ hfield.1)

/-- **A well tagged document `t` has plain data if and only if every key of a mapping in it has a
name.** -/
theorem TaggedIn.exists_toData_iff (ht : t.TaggedIn allowed) :
    (∃ d, t.toData = .ok d) ↔ t.KeysNamed := by
  induction ht with
  | null | bool | num | str => exact iff_of_true ⟨_, rfl⟩ (everyMapping_of_scalar (by simp [shape]))
  | seq _ ih =>
    rw [exists_toData_seq, KeysNamed, everyMapping_seq]
    exact forall₂_congr ih
  | map _ ih =>
    rw [exists_toData_map, KeysNamed, everyMapping_map, List.forall_mem_map, ← forall₂_and]
    exact forall₂_congr fun e he => and_congr_right fun _ => ih e he
  | text _ hk s =>
    refine iff_of_true ⟨_, toData_text hk s⟩ (everyMapping_tagged.mpr ?_)
    exact everyMapping_of_scalar (.inr rfl)
  | @list tag _ hk items _ ih =>
    have hlist : (∃ d, (Tree.tagged tag.spelling (.seq items)).toData = .ok d) ↔
        ∃ d, (Tree.seq items).toData = .ok d := by simp [toData_list_eq_ok hk]
    rw [hlist, exists_toData_seq, KeysNamed, everyMapping_tagged, everyMapping_seq]
    exact forall₂_congr ih

namespace Reordered

theorem refl (t : Tree) : t.Reordered t := by
  induction t using Tree.induct with
  | null => exact .null
  | bool b => exact .bool b
  | num n => exact .num n
  | str s => exact .str s
  | seq items ih => exact .seq (List.forall₂_same.mpr ih)
  | map entries ihkeys ihvalues =>
    refine .map (List.forall₂_same.mpr ?_) (List.forall₂_same.mpr ?_) (.refl entries)
    · exact List.forall_mem_map.mpr ihkeys
    · exact List.forall_mem_map.mpr ihvalues
  | tagged tag payload ih => exact .tagged tag ih

theorem keyText_eq (h : u.Reordered v) : keyText u = keyText v := by
  cases h <;> rfl

theorem isStr_eq (h : u.Reordered v) (s : String) : u.isStr s = v.isStr s := by
  cases h <;> rfl

/-- `v` is a mapping `entries` in another order if its entries are `between` in another order, which
go with `entries` one by one. -/
theorem map_iff {entries : Entries} : (Tree.map entries).Reordered v ↔
    ∃ between entries', v = .map entries' ∧
      List.Forall₂ (fun e e' => e.1.Reordered e'.1 ∧ e.2.Reordered e'.2) entries between ∧
      between.Perm entries' := by
  constructor
  · intro h
    cases h with
    | map hkeys hvalues horder => exact ⟨_, _, rfl, forall₂_pairs.mpr ⟨hkeys, hvalues⟩, horder⟩
  · rintro ⟨between, entries', rfl, hentries, horder⟩
    obtain ⟨hkeys, hvalues⟩ := forall₂_pairs.mp hentries
    exact .map hkeys hvalues horder

theorem hasKey_eq_of_forall₂ {entries entries' : Entries}
    (h : List.Forall₂ (fun e e' => e.1.Reordered e'.1) entries entries') (key : String) :
    entries.hasKey key = entries'.hasKey key := by
  induction h with
  | nil => rfl
  | cons he _ ih =>
    simp only [Entries.hasKey, List.any_cons, he.isStr_eq] at ih ⊢
    rw [ih]

/-- The order of entries does not count when `key` is looked for. -/
theorem hasKey_eq (h : u.Reordered v) (key : String) :
    (u.asEntries?.getD []).hasKey key = (v.asEntries?.getD []).hasKey key := by
  induction u using Tree.induct generalizing v with
  | null | bool | num | str | seq =>
    cases h
    rfl
  | map entries =>
    obtain ⟨between, entries', rfl, hentries, horder⟩ := map_iff.mp h
    show Entries.hasKey entries key = Entries.hasKey entries' key
    rw [hasKey_eq_of_forall₂ (hentries.imp fun _ _ he => he.1)]
    exact horder.any_eq
  | tagged tag payload ih =>
    cases h with
    | tagged _ h => simpa only [asEntries?] using ih h

/-- If no two keys of a mapping in `u` have the same name, `u` has the plain data `d` if and only if
`v` has. -/
theorem toData_eq_ok (hu : u.TaggedIn allowed) (h : u.Reordered v) (hkeys : u.KeysApart)
    (d : Data) : u.toData = .ok d ↔ v.toData = .ok d := by
  have hseq : ∀ {items items' : List Tree},
      List.Forall₂ (fun u v => ∀ d, u.toData = .ok d ↔ v.toData = .ok d) items items' →
      ∀ d, (Tree.seq items).toData = .ok d ↔ (Tree.seq items').toData = .ok d := by
    intro items items' hitems d
    simp only [toData_seq_eq_ok, forall₂_congr_left hitems]
  induction hu generalizing v d with
  | null | bool | num | str =>
    cases h
    rfl
  | seq _ ih =>
    have hkeys := everyMapping_seq.mp hkeys
    cases h with
    | seq h => exact hseq (forall₂_of_mem h fun u hu v hv => ih u hu hv (hkeys u hu)) d
  | map _ ih =>
    obtain ⟨hnames, hkeys⟩ := everyMapping_map.mp hkeys
    obtain ⟨between, entries', rfl, hentries, horder⟩ := map_iff.mp h
    have hbetween : ∀ fields, List.Forall₂ FieldOf _ fields ↔ List.Forall₂ FieldOf between fields :=
      forall₂_congr_left (forall₂_of_mem hentries fun e he e' hsame field =>
        and_congr (by rw [hsame.1.keyText_eq]) (ih e he hsame.2 (hkeys e he) field.2))
    simp only [toData_map_eq_ok, hbetween]
    constructor
    · rintro ⟨fields, hfields, rfl⟩
      obtain ⟨fields', hfields', hperm⟩ := List.perm_comp_forall₂ horder.symm hfields
      have hnodup := nodup_of_fieldOf ((hbetween fields).mpr hfields) hnames
      exact ⟨fields', hfields', (Data.record_perm hperm.symm hnodup).symm⟩
    · rintro ⟨fields', hfields', rfl⟩
      obtain ⟨fields, hfields, hperm⟩ := List.perm_comp_forall₂ horder hfields'
      have hnodup := nodup_of_fieldOf ((hbetween fields).mpr hfields) hnames
      exact ⟨fields, hfields, Data.record_perm hperm hnodup⟩
  | text _ _ s =>
    cases h with
    | tagged _ h =>
      cases h
      rfl
  | list _ hk _ ih =>
    have hkeys := everyMapping_seq.mp (everyMapping_tagged.mp hkeys)
    cases h with
    | tagged _ h =>
      cases h with
      | seq h =>
        simp only [toData_list_eq_ok hk,
          hseq (forall₂_of_mem h fun u hu v hv => ih u hu hv (hkeys u hu))]

end Reordered

/-- Of two keys with one name the last one counts, whatever they are otherwise. -/
example : (Tree.map [(.num (.int 1), .null), (.str "1", .bool true)]).toData =
      .ok (.obj [("1", .bool true)]) ∧
    (Tree.map [(.str "1", .bool true), (.num (.int 1), .null)]).toData =
      .ok (.obj [("1", .null)]) :=
  ⟨rfl, rfl⟩

end Tree

end NestedStacks
