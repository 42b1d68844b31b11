/-
Renaming and the order of entries.

What renaming does at one place of a document does not depend on what it has done elsewhere, and the
names that a `Sub` defines count as a set.  So documents that differ only in the order of the
entries of mappings are renamed alike, and they have the same plain data afterwards:
`entry_order_irrelevant`.

* `Tree.SameButReferences.everyMapping_iff` — renaming keeps the keys of all mappings;
* `Tree.Reordered.retarget` — renaming keeps documents the same up to the order of entries.
-/
import NestedStacks.Proofs.Document.Reordering
import NestedStacks.Proofs.Renaming.Frame

namespace NestedStacks

namespace Tree

variable {ctx : Context} {allowed : Tag → Prop} {t t' u v : Tree}

/-! ### Keys -/

/-- Documents `t` and `t'` that differ at most in the texts of references have the same keys, so
that `EveryMapping P` holds of both or of none. -/
theorem SameButReferences.everyMapping_iff {P : List Tree → Prop} (h : t.SameButReferences t') :
    t.EveryMapping P ↔ t'.EveryMapping P := by
  -- the first item under a tag may change, so that the others are taken along as parts of a part
  suffices hboth : ∀ t : Tree,
      (∀ t', t.SameButReferences t' → (t.EveryMapping P ↔ t'.EveryMapping P)) ∧
        ∀ u ∈ t.parts, ∀ u', u.SameButReferences u' → (u.EveryMapping P ↔ u'.EveryMapping P) from
    (hboth t).1 t' h
  intro t
  induction t using Tree.induct with
  | null | bool | num | str =>
    refine ⟨fun t' h => ?_, by simp [parts]⟩
    cases h
    rfl
  | seq items ih =>
    refine ⟨fun t' h => ?_, fun u hu => (ih u hu).1⟩
    cases h with
    | refl => rfl
    | seq h =>
      rw [everyMapping_seq, everyMapping_seq]
      exact forall_mem_congr_of_forall₂ (forall₂_of_mem h fun u hu => (ih u hu).1)
  | map entries _ ih =>
    refine ⟨fun t' h => ?_, List.forall_mem_map.mpr fun e he => (ih e he).1⟩
    cases h with
    | refl => rfl
    | map hkeys h =>
      have hentries := forall₂_fields.mpr ⟨hkeys, h⟩
      rw [everyMapping_map, everyMapping_map, hkeys]
      exact and_congr_right fun _ => forall_mem_congr_of_forall₂
        (forall₂_of_mem hentries fun e he e' hsame => (ih e he).1 e'.2 hsame.2)
  | tagged tag payload ih =>
    refine ⟨fun t' h => ?_, by simpa [parts] using ih.1⟩
    cases h with
    | refl => rfl
    | tagged _ h => rw [everyMapping_tagged, everyMapping_tagged, ih.1 _ h]
    | text => simp [everyMapping_of_scalar, shape]
    | @first _ _ s s' rest rest' h =>
      have hrest := forall_mem_congr_of_forall₂ (forall₂_of_mem h fun u hu =>
        ih.2 u (List.mem_cons_of_mem _ hu))
      simp [everyMapping_of_scalar, shape, hrest]

/-! ### Renaming -/

namespace Reordered

theorem eq_str {s : String} (h : u.Reordered v) : u = .str s ↔ v = .str s := by
  cases h <;> simp

theorem keepsTexts : KeepsTexts Reordered := ⟨.str, fun h => h.eq_str, fun h => h.hasKey_eq⟩

/-- **Renaming keeps documents `u` and `v` the same up to the order of entries**, and never fails on
them. -/
theorem retarget (hu : u.TaggedIn allowed) (h : u.Reordered v) (ctx : Context) :
    ∃ u' v', u.retarget ctx = .ok u' ∧ v.retarget ctx = .ok v' ∧ u'.Reordered v' := by
  induction hu generalizing v with
  | null | bool | num | str =>
    cases h
    exact ⟨_, _, rfl, rfl, .refl _⟩
  | seq _ ih =>
    cases h with
    | seq h =>
      obtain ⟨us, vs, hus, hvs, hall⟩ :=
        Except.exists_mapM_forall₂ (forall₂_of_mem h fun u hu v => ih u hu)
      exact ⟨_, _, retarget_seq_of_mapM hus, retarget_seq_of_mapM hvs, .seq hall⟩
  | @map entries _ ih =>
    obtain ⟨between, entries', rfl, hentries, horder⟩ := map_iff.mp h
    have hentry : List.Forall₂ (fun e e' => ∃ f f', retargetEntry ctx e = .ok f ∧
        retargetEntry ctx e' = .ok f' ∧ f.1.Reordered f'.1 ∧ f.2.Reordered f'.2) entries
          between := by
      refine forall₂_of_mem hentries fun e he e' hsame => ?_
      obtain ⟨v, v', hv, hv', hvalue⟩ := ih e he hsame.2
      exact ⟨(e.1, v), (e'.1, v'), retargetEntry_eq_ok.mpr ⟨rfl, hv⟩,
        retargetEntry_eq_ok.mpr ⟨rfl, hv'⟩, hsame.1, hvalue⟩
    obtain ⟨fs, fs', hfs, hfs', hall⟩ := Except.exists_mapM_forall₂ hentry
    -- the entries in the other order are renamed to the same ones
    obtain ⟨gs, hgs, hperm⟩ := Except.exists_mapM_perm horder hfs'
    exact ⟨_, _, retarget_map_of_mapM hfs, retarget_map_of_mapM hgs,
      map_iff.mpr ⟨fs', gs, rfl, hall, hperm⟩⟩
  | text _ hk s =>
    cases h with
    | tagged _ h =>
      cases h
      exact ⟨_, _, retarget_text (TaggedNode.ofTagged_text hk s),
        retarget_text (TaggedNode.ofTagged_text hk s), .refl _⟩
  | list _ hk _ ih =>
    cases h with
    | tagged _ h =>
      cases h with
      | seq h =>
        obtain ⟨i, rfl⟩ := TaggedNode.exists_intrinsic hk
        obtain ⟨us, vs, hus, hvs, hall⟩ :=
          keepsTexts.retargetList i h (forall₂_of_mem h fun u hu v => ih u hu)
        exact ⟨_, _, retarget_list_of_items hk hus, retarget_list_of_items hk hvs,
          .tagged _ (.seq hall)⟩

end Reordered

end Tree

/-- **The order of entries makes no difference.**  Let `u` be well tagged, as every loaded document
is, let no two keys of a mapping in it have the same name, and let `v` be `u` with the entries of
mappings, at whatever depth, in another order.  Then renaming under any `ctx` succeeds on both, and
the results `u'` and `v'` differ again only in the order of entries.  Both have plain data if and
only if every key of a mapping in `u` has a name, and otherwise neither has; and it is the same
plain data `d`, with the same compact and pretty texts. -/
theorem entry_order_irrelevant {u v : Tree} (hu : u.WellTagged) (h : u.Reordered v)
    (hkeys : u.KeysApart) (ctx : Context) :
    ∃ u' v', u.retarget ctx = .ok u' ∧ v.retarget ctx = .ok v' ∧ u'.Reordered v' ∧
      ((∃ d, u'.toData = .ok d) ↔ ∃ d, v'.toData = .ok d) ∧
      ((∃ d, u'.toData = .ok d) ↔ u.KeysNamed) ∧
      ∀ d d', u'.toData = .ok d → v'.toData = .ok d' →
        d = d' ∧ d.compact = d'.compact ∧ d.pretty = d'.pretty := by
  obtain ⟨u', v', hu', hv', hsame⟩ := h.retarget hu ctx
  obtain ⟨_, hin, hwell⟩ := Tree.TaggedIn.retarget hu ctx
  obtain rfl := Except.ok.inj (hin.symm.trans hu')
  have hreferences := hu.sameButReferences hu'
  have hdata := hsame.toData_eq_ok hwell (hreferences.everyMapping_iff.mp hkeys)
  refine ⟨_, v', hu', hv', hsame, exists_congr hdata, ?_, fun d d' hd hd' => ?_⟩
  · rw [hwell.exists_toData_iff]
    exact hreferences.everyMapping_iff.symm
  · obtain rfl := Except.ok.inj (((hdata d).mp hd).symm.trans hd')
    exact ⟨rfl, rfl, rfl⟩

/-- The entries `e` and `e'`, in one order or in the other. -/
def twoEntries (swapped : Bool) (e e' : Tree × Tree) : Tree :=
  .map (if swapped then [e', e] else [e, e'])

/-- A document with mappings below a tag and below a key, whose keys are of all kinds. -/
def mixedDocument (swapped : Bool) : Tree :=
  twoEntries swapped
    (.str "Url", .tagged "!Sub" (.seq [.str "$\x7bSite\x7d/$\x7bTable\x7d",
      twoEntries swapped (.str "Site", .tagged "!Ref" (.str "Table")) (.num (.int 1), .null)]))
    (.null, twoEntries swapped (.bool true, .str "a") (.str "b", .seq []))

theorem reordered_twoEntries {k k' t t' u u' : Tree} (ht : t.Reordered t') (hu : u.Reordered u') :
    (twoEntries false (k, t) (k', u)).Reordered (twoEntries true (k, t') (k', u')) := by
  have hkeys : List.Forall₂ Tree.Reordered [k, k'] [k, k'] :=
    List.forall₂_same.mpr fun k _ => .refl k
  exact @Tree.Reordered.map _ [(k, t'), (k', u')] _ hkeys (.cons ht (.cons hu .nil)) (.swap _ _ _)

theorem mixedDocument_everyMapping {P : List Tree → Prop} (hroot : P [.str "Url", .null])
    (hlocals : P [.str "Site", .num (.int 1)]) (hnull : P [.bool true, .str "b"]) :
    (mixedDocument false).EveryMapping P := by
  simp [mixedDocument, twoEntries, Tree.everyMapping_of_scalar, Tree.shape, hroot, hlocals, hnull]

theorem mixedDocument_wellTagged : (mixedDocument false).WellTagged := by
  have hpair : ∀ k k' {t u : Tree}, t.WellTagged → u.WellTagged →
      (twoEntries false (k, t) (k', u)).WellTagged := by
    intro k k' t u ht hu
    exact .map (List.forall_mem_cons.mpr ⟨ht, List.forall_mem_singleton.mpr hu⟩)
  have href : (Tree.tagged "!Ref" (.str "Table")).WellTagged :=
    @Tree.TaggedIn.text _ (.intrinsic .ref) trivial (by decide) "Table"
  refine hpair _ _ ?_ (hpair _ _ (.str "a") (.seq (by simp)))
  refine @Tree.TaggedIn.list _ (.intrinsic .sub) trivial (by decide) _ ?_
  exact List.forall_mem_cons.mpr ⟨.str _, List.forall_mem_singleton.mpr (hpair _ _ href .null)⟩

/-- The plain data of the document after renaming, as it is written. -/
def mixedText : String :=
  "\x7b\x22Url\x22:\x7b\x22Fn::Sub\x22:[\x22$\x7bSite\x7d/$\x7bChildTable\x7d\x22," ++
    "\x7b\x221\x22:null,\x22Site\x22:\x7b\x22Ref\x22:\x22ChildTable\x22\x7d\x7d]\x7d," ++
    "\x22null\x22:\x7b\x22b\x22:[],\x22true\x22:\x22a\x22\x7d\x7d"

/-- The other order of all its entries makes no difference to the document. -/
theorem entry_order_irrelevant_mixed :
    (mixedDocument false).WellTagged ∧ (mixedDocument false).Reordered (mixedDocument true) ∧
      (mixedDocument false).KeysApart ∧ mixedDocument false ≠ mixedDocument true ∧ ∃ u' v' d,
        (mixedDocument false).retarget ⟨none, [], "Child"⟩ = .ok u' ∧
        (mixedDocument true).retarget ⟨none, [], "Child"⟩ = .ok v' ∧
        u'.toData = .ok d ∧ v'.toData = .ok d ∧ d.compact = mixedText := by
  have hsame : (mixedDocument false).Reordered (mixedDocument true) :=
    reordered_twoEntries
      (.tagged _ (.seq (.cons (.refl _) (.cons (reordered_twoEntries (.refl _) (.refl _)) .nil))))
      (reordered_twoEntries (.refl _) (.refl _))
  have hnumber : (Number.int 1).text = "1" := by decide
  have hkeys : (mixedDocument false).KeysApart := by
    refine mixedDocument_everyMapping ?_ ?_ ?_ <;> simp [keyText, hnumber]
  have hnamed : (mixedDocument false).KeysNamed := by
    refine mixedDocument_everyMapping ?_ ?_ ?_ <;> simp [keyText]
  obtain ⟨u', v', hu', hv', -, hboth, hexists, hdata⟩ :=
    entry_order_irrelevant mixedDocument_wellTagged hsame hkeys ⟨none, [], "Child"⟩
  obtain ⟨d, hd⟩ := hexists.mpr hnamed
  obtain ⟨d', hd'⟩ := hboth.mp ⟨d, hd⟩
  obtain rfl := (hdata d d' hd hd').1
  have hdifferent : mixedDocument false ≠ mixedDocument true := by
    simp [mixedDocument, twoEntries]
  have htext : ((mixedDocument false).retarget ⟨none, [], "Child"⟩ >>= Tree.toData).map
      Data.compact = .ok mixedText := rfl
  rw [Except.bind_eq_ok.mpr ⟨u', hu', hd⟩] at htext
  exact ⟨mixedDocument_wellTagged, hsame, hkeys, hdifferent, u', v', d, hu', hv', hd, hd',
    Except.ok.inj htext⟩

end NestedStacks
