/-
Loading and the plain data of documents.

Loading writes every tag in its standard spelling and every text under a tag as a text; the plain
data of a document looks through both.  So a document has the same plain data before and after it is
loaded, down to the key that has no name.

* `Tree.SameData` — documents with the same plain data, or at least the same fault in it;
* `Tree.sameData_of_load` — loading keeps both; where macros are replaced it keeps the fault;
* `Tree.toData_of_load` — the plain data of a document that is loaded without macros.
-/
import NestedStacks.Proofs.Comparing.Runs
import NestedStacks.Proofs.Tagging.Loading

namespace NestedStacks.Tree

/-- `t.SameData exact t'`: `t` has plain data if and only if `t'` has, and the same key is at fault
when they have none; if `exact` holds, it is the same plain data. -/
def SameData (exact : Prop) (t t' : Tree) : Prop :=
  Results Eq (fun d d' => exact → d = d') t.toData t'.toData

variable {exact : Prop} {t t' : Tree}

namespace SameData

theorem of_ok {d d' : Data} (h : t.toData = .ok d) (h' : t'.toData = .ok d') (hd : exact → d = d') :
    t.SameData exact t' := by
  rw [SameData, h, h']
  exact .ok hd

theorem itemsToData {items items' : List Tree} (h : List.Forall₂ (SameData exact) items items') :
    Results Eq (fun ds ds' => exact → ds = ds') (itemsToData items) (itemsToData items') := by
  induction h with
  | nil => exact .ok fun _ => rfl
  | cons hu _ ih =>
    rw [itemsToData_cons, itemsToData_cons]
    refine Results.bind hu fun d d' hd => ih.bind fun ds ds' hds => .ok fun hexact => ?_
    rw [hd hexact, hds hexact]

theorem seq {items items' : List Tree} (h : List.Forall₂ (SameData exact) items items') :
    (Tree.seq items).SameData exact (.seq items') := by
  rw [SameData, toData_seq, toData_seq]
  refine (itemsToData h).bind fun ds ds' hds => .ok fun hexact => ?_
  rw [hds hexact]

theorem entriesToData {entries entries' : Entries}
    (h : List.Forall₂ (fun e e' => e'.1 = e.1 ∧ e.2.SameData exact e'.2) entries entries')
    {fields fields' : List (String × Data)} (hfields : exact → fields = fields') :
    Results Eq (fun ds ds' => exact → ds = ds') (entriesToData entries fields)
      (entriesToData entries' fields') := by
  induction h generalizing fields fields' with
  | nil => exact .ok hfields
  | @cons e e' _ _ he _ ih =>
    obtain ⟨hkey, hvalue⟩ := he
    rw [entriesToData_cons, entriesToData_cons, hkey]
    have hname : Results Eq Eq (keyText e.1) (keyText e.1) := .same fun _ _ => rfl
    refine hname.bind fun name _ hsame => Results.bind hvalue fun d d' hd => ih fun hexact => ?_
    rw [← hsame, hd hexact, hfields hexact]

theorem map {entries entries' : Entries}
    (h : List.Forall₂ (fun e e' => e'.1 = e.1 ∧ e.2.SameData exact e'.2) entries entries') :
    (Tree.map entries).SameData exact (.map entries') := by
  rw [SameData, toData_map, toData_map]
  refine (entriesToData h fun _ => rfl).bind fun ds ds' hds => .ok fun hexact => ?_
  rw [hds hexact]

theorem list {tag tag' : String} {c : Tag} {items items' : List Tree}
    (h : TaggedNode.ofTagged tag (.seq items) = .ok ⟨c, .sequence items⟩)
    (h' : TaggedNode.ofTagged tag' (.seq items') = .ok ⟨c, .sequence items'⟩)
    (hitems : (Tree.seq items).SameData exact (.seq items')) :
    (Tree.tagged tag (.seq items)).SameData exact (.tagged tag' (.seq items')) := by
  rw [SameData, toData_ofTagged_sequence h, toData_ofTagged_sequence h']
  refine Results.bind hitems fun d d' hd => .ok fun hexact => ?_
  rw [hd hexact]

end SameData

/-- Loading `t` to `t'` keeps which key has no name in plain data, as long as macros are replaced by
texts.  Where no macros are replaced it keeps the plain data. -/
theorem sameData_of_load {resolve : Option Resolver} {w : World}
    (hgiven : ∀ r, resolve = some r → ∀ m argument n t, (r m argument w n).result = .ok t →
      ∃ s, t = .str s) {n : Nat} (h : (t.load resolve w n).result = .ok t') :
    t.SameData (resolve = none) t' := by
  induction t using Tree.induct generalizing t' n with
  | null | bool | num | str =>
    obtain rfl : _ = t' := by simpa using h
    exact .of_ok rfl rfl fun _ => rfl
  | seq items ih =>
    obtain ⟨items', rfl, hitems⟩ := load_seq_eq_ok h
    exact .seq (forall₂_of_mem hitems fun u hu u' ⟨_, hload⟩ => ih u hu hload)
  | map entries _ ih =>
    obtain ⟨entries', rfl, hentries⟩ := load_map_eq_ok h
    exact .map (forall₂_of_mem hentries fun e he e' ⟨hkey, _, hload⟩ => ⟨hkey, ih e he hload⟩)
  | tagged tag payload ih =>
    generalize hrun : (Tree.tagged tag payload).load resolve = run at h
    cases taggedLoad hrun with
    | fault => simp at h
    | text hnode _ =>
      obtain rfl := Except.ok.inj h
      have hkind := (TaggedNode.ofTagged_eq_scalar.mp hnode).2.1
      exact .of_ok (toData_ofTagged_scalar hnode) (toData_text hkind _) fun _ => rfl
    | replaced hnode hr =>
      -- a text stands for the macro, and a macro has plain data of its own
      obtain ⟨_, -, h⟩ := Run.bind_eq_ok.mp h
      obtain ⟨s, rfl⟩ := hgiven _ hr _ _ _ _ h
      exact .of_ok (toData_ofTagged_scalar hnode) rfl fun hnone => by simp [hnone] at hr
    | list hnode =>
      obtain ⟨u, hu, h⟩ := Run.bind_eq_ok.mp h
      obtain ⟨items', rfl, -⟩ := load_seq_eq_ok hu
      obtain rfl := Except.ok.inj h
      have hkind := (TaggedNode.ofTagged_eq_sequence.mp hnode).2.1
      exact .list hnode (TaggedNode.ofTagged_list hkind items') (ih hu)

/-- **Loading without macros keeps the plain data of a document.**  Let `t` be loaded as `t'`.  Then
`t'` has the plain data of `t`, or a key of both has no name in plain data; and loading `t'` again
gives `t'`. -/
theorem toData_of_load {w : World} {n : Nat} (h : (t.load none w n).result = .ok t') :
    t'.toData = t.toData ∧ (∀ e, t.toData = .error e → ∃ found, e = .invalidKey found) ∧
      t'.load none = pure t' := by
  have hresolver : resolver? false 0 .here = none := rfl
  have hnormal : t'.Normal false := normal_of_load (hresolver ▸ h)
  have hsame : t.SameData (none = (none : Option Resolver)) t' :=
    sameData_of_load (fun r hr => by cases hr) h
  have hdata : t'.toData = t.toData := (Results.imp hsame fun _ _ hd => hd rfl).eq.symm
  refine ⟨hdata, fun e he => ?_, hnormal.load_eq 0 .here⟩
  rw [← hdata] at he
  exact hnormal.wellTagged.toData_eq_error he

/-- A document with tags by other names, and on a number and on null, behind `key`. -/
def looseTags (key : Tree) : Tree :=
  .map [(key, .tagged "Ref" (.str "Db.Host.Name")),
    (.str "Names", .tagged "!!Join" (.seq [.null, .tagged "!IncludeString" (.num (.int 7)),
      .tagged "!GetAtt" (.seq [.str "Db", .tagged "Ref" .null])]))]

/-- The same document with its tags in order. -/
def orderedTags (key : Tree) : Tree :=
  .map [(key, .tagged "!Ref" (.str "Db.Host.Name")),
    (.str "Names", .tagged "!Join" (.seq [.null, .tagged "!Macro::IncludeString" (.str "7"),
      .tagged "!GetAtt" (.seq [.str "Db", .tagged "!Ref" (.str "")])]))]

/-- The two samples have the same plain data behind a truth value, and the same fault behind a
sequence. -/
theorem toData_of_load_looseTags :
    ((looseTags (.bool true)).load none .empty 0).result = .ok (orderedTags (.bool true)) ∧
      (orderedTags (.bool true)).toData = (looseTags (.bool true)).toData ∧
      ((looseTags (.seq [])).load none .empty 0).result = .ok (orderedTags (.seq [])) ∧
      (looseTags (.seq [])).toData = .error (.invalidKey .sequence) ∧
      (orderedTags (.seq [])).toData = (looseTags (.seq [])).toData ∧
      (orderedTags (.seq [])).load none = pure (orderedTags (.seq [])) := by
  have hload (key : Tree) :
      ((looseTags key).load none .empty 0).result = .ok (orderedTags key) := rfl
  exact ⟨hload _, (toData_of_load (hload _)).1, hload _, rfl, (toData_of_load (hload _)).1,
    (toData_of_load (hload _)).2.2⟩

end NestedStacks.Tree
