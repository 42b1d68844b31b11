/-
The three spellings of an attribute.

`!Ref X.Y`, `!GetAtt X.Y` and `!GetAtt [X, Y]` all stand for the attribute `Y` of the resource `X`.
Renaming and plain data treat each of them in a way of its own, and yet it makes no difference
which one a document uses: `attribute_spellings_agree`.

* `Tree.SpellsAttribute`, `Tree.SameAttributes` — the spellings of an attribute, and documents that
  differ only in the spellings of attributes;
* `Tree.SameAttributes.toData_eq` — such documents have the same plain data;
* `Tree.SameAttributes.retarget` — renaming keeps them such documents.
-/
import NestedStacks.Proofs.Renaming.Trees

namespace NestedStacks

/-- The data of an attribute: `name`, and everything behind the first point. -/
theorem attributeData_of_not_mem {name : String} (h : '.' ∉ name.toList) (attr : String) :
    attributeData (name ++ "." ++ attr) = .arr [.str name, .str attr] := by
  have hcut : Text.cut '.' (name ++ "." ++ attr).toList =
      (name.toList, some attr.toList) := by
    simpa using Text.cut_append h attr.toList
  rw [attributeData, hcut]
  simp

namespace Tree

/-- `t.SpellsAttribute name attr`: `t` is one of the three spellings of the attribute `attr` of
`name`. -/
inductive SpellsAttribute (name attr : String) : Tree → Prop
  | ref : SpellsAttribute name attr
      (.tagged (Tag.intrinsic .ref).spelling (.str (name ++ "." ++ attr)))
  | path : SpellsAttribute name attr
      (.tagged (Tag.intrinsic .getAtt).spelling (.str (name ++ "." ++ attr)))
  | list : SpellsAttribute name attr
      (.tagged (Tag.intrinsic .getAtt).spelling (.seq [.str name, .str attr]))

/-- `t.SameAttributes t'`: `t` and `t'` differ only in how attributes are spelled, wherever they
stand outside keys. -/
inductive SameAttributes : Tree → Tree → Prop
  | respelled {name attr : String} {t t' : Tree} (hname : '.' ∉ name.toList)
      (ht : t.SpellsAttribute name attr) (ht' : t'.SpellsAttribute name attr) :
      SameAttributes t t'
  | refl (t : Tree) : SameAttributes t t
  | seq {items items' : List Tree} (h : List.Forall₂ SameAttributes items items') :
      SameAttributes (.seq items) (.seq items')
  | map {entries entries' : Entries} (hkeys : entries.map (·.1) = entries'.map (·.1))
      (h : List.Forall₂ SameAttributes (entries.map (·.2)) (entries'.map (·.2))) :
      SameAttributes (.map entries) (.map entries')
  | tagged (tag : String) {payload payload' : Tree} (h : SameAttributes payload payload') :
      SameAttributes (.tagged tag payload) (.tagged tag payload')

variable {ctx : Context} {t t' : Tree} {items items' : List Tree} {entries : Entries}

/-! ### One attribute -/

namespace SpellsAttribute

variable {name attr : String}

theorem eq_tagged (h : t.SpellsAttribute name attr) : ∃ tag payload, t = .tagged tag payload :=
  by cases h <;> exact ⟨_, _, rfl⟩

/-- All spellings of the attribute `attr` of `name` have the same plain data. -/
theorem toData_eq (hname : '.' ∉ name.toList) (h : t.SpellsAttribute name attr) :
    t.toData =
      .ok (.single Intrinsic.getAtt.functionName (.arr [.str name, .str attr])) := by
  cases h with
  | ref =>
    rw [toData_text (by decide), scalarData, if_pos (by simp), attributeData_of_not_mem hname]
  | path => rw [toData_text (by decide), scalarData, attributeData_of_not_mem hname]
  | list => exact toData_list (t := .intrinsic .getAtt) (by decide) _

/-- Renaming puts `ctx.retarget name` in the place of `name` in every spelling, and keeps the
spelling. -/
theorem retarget (hname : '.' ∉ name.toList) (h : t.SpellsAttribute name attr)
    (ctx : Context) :
    ∃ t', t.retarget ctx = .ok t' ∧ t'.SpellsAttribute (ctx.retarget name) attr := by
  cases h with
  | ref =>
    rw [retarget_text (TaggedNode.ofTagged_text (by decide) _), retargetText, retargetScalar,
      Context.retargetPath_attribute hname]
    exact ⟨_, rfl, .ref⟩
  | path =>
    rw [retarget_text (TaggedNode.ofTagged_text (by decide) _), retargetText, retargetScalar,
      Context.retargetPath_attribute hname]
    exact ⟨_, rfl, .path⟩
  | list =>
    rw [retarget_list (TaggedNode.ofTagged_list (by decide) _)]
    exact ⟨_, rfl, .list⟩

end SpellsAttribute

/-! ### Documents of the same attributes -/

theorem sameAttributes_seq :
    SameAttributes (.seq items) t' ↔
      ∃ items', t' = .seq items' ∧ List.Forall₂ SameAttributes items items' := by
  constructor
  · intro h
    cases h with
    | respelled _ ht => cases ht
    | refl => exact ⟨_, rfl, List.forall₂_same.mpr fun u _ => .refl u⟩
    | seq h => exact ⟨_, rfl, h⟩
  · rintro ⟨items', rfl, h⟩
    exact .seq h

theorem sameAttributes_map :
    SameAttributes (.map entries) t' ↔ ∃ entries', t' = .map entries' ∧
      List.Forall₂ (fun e e' => e.1 = e'.1 ∧ SameAttributes e.2 e'.2) entries entries' := by
  constructor
  · intro h
    cases h with
    | respelled _ ht => cases ht
    | refl => exact ⟨_, rfl, List.forall₂_same.mpr fun e _ => ⟨rfl, .refl e.2⟩⟩
    | map hkeys h => exact ⟨_, rfl, forall₂_fields.mpr ⟨hkeys, h⟩⟩
  · rintro ⟨entries', rfl, h⟩
    obtain ⟨hkeys, h⟩ := forall₂_fields.mp h
    exact .map hkeys h

namespace SameAttributes

/-- A scalar `t` without a tag spells no attribute, so `t'` is `t`. -/
theorem eq_of_scalar (h : t.SameAttributes t') (hs : t.shape = .null ∨ t.shape = .scalar) :
    t' = t := by
  cases h with
  | respelled _ ht =>
    obtain ⟨_, _, rfl⟩ := ht.eq_tagged
    simp [shape] at hs
  | refl => rfl
  | seq | map | tagged => simp [shape] at hs

/-- **Plain data do not depend on how attributes are spelled**: those of `t` and `t'` are the same
if the two differ in that only. -/
theorem toData_eq (ht : t.WellTagged) (h : t.SameAttributes t') : t.toData = t'.toData := by
  -- on the document in order, since there a tag stands right on a text or on items
  induction ht generalizing t' with
  | null | bool | num | str => rw [h.eq_of_scalar (by simp [shape])]
  | seq _ ih =>
    obtain ⟨items', rfl, hitems⟩ := sameAttributes_seq.mp h
    exact toData_seq_congr (forall₂_of_mem hitems fun u hu u' => ih u hu)
  | map _ ih =>
    obtain ⟨entries', rfl, hentries⟩ := sameAttributes_map.mp h
    exact toData_map_congr (forall₂_of_mem hentries fun e he e' h =>
      ⟨congrArg keyText h.1, ih e he h.2⟩)
  | text =>
    cases h with
    | respelled hname ht ht' => rw [ht.toData_eq hname, ht'.toData_eq hname]
    | refl => rfl
    | tagged _ h => rw [h.eq_of_scalar (by simp [shape])]
  | list _ hk _ ih =>
    cases h with
    | respelled hname ht ht' => rw [ht.toData_eq hname, ht'.toData_eq hname]
    | refl => rfl
    | tagged _ h =>
      obtain ⟨items', rfl, hitems⟩ := sameAttributes_seq.mp h
      rw [toData_list hk, toData_list hk,
        toData_seq_congr (forall₂_of_mem hitems fun u hu u' => ih u hu)]

end SameAttributes

/-! ### Renaming -/

/-- Attributes are no entries, so the names that a `Sub` defines are the same. -/
theorem SameAttributes.hasKey_eq (h : t.SameAttributes t') (key : String) :
    (t.asEntries?.getD []).hasKey key = (t'.asEntries?.getD []).hasKey key := by
  induction t using Tree.induct generalizing t' with
  | null | bool | num | str => rw [h.eq_of_scalar (by simp [shape])]
  | seq items =>
    obtain ⟨items', rfl, -⟩ := sameAttributes_seq.mp h
    rfl
  | map entries =>
    cases h with
    | respelled _ ht => cases ht
    | refl => rfl
    | map hkeys => exact Entries.hasKey_congr hkeys key
  | tagged tag payload ih =>
    cases h with
    | respelled _ ht ht' => cases ht <;> cases ht' <;> rfl
    | refl => rfl
    | tagged _ h =>
      simpa only [asEntries?] using ih h

/-- An attribute is no text `s`. -/
theorem SameAttributes.eq_str {s : String} (h : t.SameAttributes t') :
    t = .str s ↔ t' = .str s := by
  cases h with
  | respelled _ ht ht' =>
    obtain ⟨_, _, rfl⟩ := ht.eq_tagged
    obtain ⟨_, _, rfl⟩ := ht'.eq_tagged
    simp
  | refl => rfl
  | seq | map | tagged => simp

theorem sameAttributes_keepsTexts : KeepsTexts SameAttributes :=
  ⟨fun s => .refl (.str s), fun h => h.eq_str, fun h => h.hasKey_eq⟩

/-- `RetargetAlike ctx t t'`: renaming under `ctx` succeeds on `t` and on `t'`, with results that
differ only in how attributes are spelled. -/
def RetargetAlike (ctx : Context) (t t' : Tree) : Prop :=
  ∃ u u', t.retarget ctx = .ok u ∧ t'.retarget ctx = .ok u' ∧ u.SameAttributes u'

/-- If `t` and `t'` are renamed by way of their parts, they are alike if what their parts become
is. -/
theorem RetargetAlike.of_parts {α : Type} {x x' : Except DocumentError α} {f f' : α → Tree}
    {a a' : α} (ht : t.retarget ctx = x.bind fun a => .ok (f a)) (hx : x = .ok a)
    (ht' : t'.retarget ctx = x'.bind fun a => .ok (f' a)) (hx' : x' = .ok a')
    (h : (f a).SameAttributes (f' a')) : RetargetAlike ctx t t' := by
  subst hx hx'
  exact ⟨f a, f' a', ht, ht', h⟩

theorem SpellsAttribute.retargetAlike {name attr : String} (hp : '.' ∉ ctx.namePrefix.toList)
    (hname : '.' ∉ name.toList) (ht : t.SpellsAttribute name attr)
    (ht' : t'.SpellsAttribute name attr) : RetargetAlike ctx t t' := by
  obtain ⟨u, hu, hspells⟩ := ht.retarget hname ctx
  obtain ⟨u', hu', hspells'⟩ := ht'.retarget hname ctx
  refine ⟨u, u', hu, hu', .respelled ?_ hspells hspells'⟩
  rcases ctx.retarget_eq_or name with h | h
  · rwa [h]
  · rw [h]
    simp [hp, hname]

/-- **Renaming keeps documents the same up to how attributes are spelled**, if what `ctx` puts in
front of names holds no point. -/
theorem SameAttributes.retarget (hp : '.' ∉ ctx.namePrefix.toList) (ht : t.WellTagged)
    (h : t.SameAttributes t') : RetargetAlike ctx t t' := by
  have hrefl : ∀ {t : Tree}, t.WellTagged → RetargetAlike ctx t t := by
    intro t ht
    obtain ⟨u, hu, -⟩ := TaggedIn.retarget ht ctx
    exact ⟨u, u, hu, hu, .refl u⟩
  induction ht generalizing t' with
  | null | bool | num | str =>
    obtain rfl := h.eq_of_scalar (by simp [shape])
    exact hrefl (by constructor)
  | seq _ ih =>
    obtain ⟨items', rfl, hitems⟩ := sameAttributes_seq.mp h
    obtain ⟨us, us', hus, hus', hall⟩ :=
      Except.exists_mapM_forall₂ (forall₂_of_mem hitems fun u hu u' => ih u hu)
    exact .of_parts (retarget_seq _) hus (retarget_seq _) hus' (.seq hall)
  | @map entries _ ih =>
    obtain ⟨entries', rfl, hentries⟩ := sameAttributes_map.mp h
    have hentry : List.Forall₂ (fun e e' => ∃ f f', retargetEntry ctx e = .ok f ∧
        retargetEntry ctx e' = .ok f' ∧ f.1 = f'.1 ∧ f.2.SameAttributes f'.2) entries entries' := by
      refine forall₂_of_mem hentries fun e he e' h => ?_
      obtain ⟨v, v', hv, hv', hsame⟩ := ih e he h.2
      exact ⟨(e.1, v), (e'.1, v'), retargetEntry_eq_ok.mpr ⟨rfl, hv⟩,
        retargetEntry_eq_ok.mpr ⟨rfl, hv'⟩, h.1, hsame⟩
    obtain ⟨es, es', hes, hes', hall⟩ := Except.exists_mapM_forall₂ hentry
    exact .of_parts (retarget_map _) hes (retarget_map _) hes'
      (sameAttributes_map.mpr ⟨_, rfl, hall⟩)
  | text ha hk s =>
    cases h with
    | respelled hname ht ht' => exact ht.retargetAlike hp hname ht'
    | refl => exact hrefl (.text ha hk s)
    | tagged _ h =>
      obtain rfl := h.eq_of_scalar (.inr rfl)
      exact hrefl (.text ha hk s)
  | list ha hk hin ih =>
    cases h with
    | respelled hname ht ht' => exact ht.retargetAlike hp hname ht'
    | refl => exact hrefl (.list ha hk hin)
    | tagged _ h =>
      obtain ⟨items', rfl, hitems⟩ := sameAttributes_seq.mp h
      obtain ⟨i, rfl⟩ := TaggedNode.exists_intrinsic hk
      obtain ⟨us, us', hus, hus', hall⟩ := sameAttributes_keepsTexts.retargetList i hitems
        (forall₂_of_mem hitems fun u hu u' => ih u hu)
      exact .of_parts (retarget_list (TaggedNode.ofTagged_list hk _)) hus
        (retarget_list (TaggedNode.ofTagged_list hk _)) hus' (.tagged _ (.seq hall))

end Tree

/-- **It makes no difference how attributes are spelled.**  Let `t` and `t'` be well tagged and
differ only in that.  They have the same plain data.  Under every `ctx` whose prefix holds no point
renaming succeeds on both, and the results `u` and `u'` have the same plain data. -/
theorem attribute_spellings_agree {t t' : Tree} (ht : t.WellTagged) (h : t.SameAttributes t') :
    t.toData = t'.toData ∧ ∀ ctx : Context, '.' ∉ ctx.namePrefix.toList →
      ∃ u u', t.retarget ctx = .ok u ∧ t'.retarget ctx = .ok u' ∧ u.toData = u'.toData := by
  refine ⟨h.toData_eq ht, fun ctx hp => ?_⟩
  obtain ⟨u, u', hu, hu', hsame⟩ := h.retarget hp ht
  have hin : u.WellTagged := by
    obtain ⟨v, hv, hin⟩ := Tree.TaggedIn.retarget ht ctx
    obtain rfl := Except.ok.inj (hv.symm.trans hu)
    exact hin
  exact ⟨u, u', hu, hu', hsame.toData_eq hin⟩

/-- An attribute as the path of a reference. -/
def attributePath : Tree := .tagged "!Ref" (.str "Bucket.Website.Url")

/-- The same attribute as a list. -/
def attributeList : Tree := .tagged "!GetAtt" (.seq [.str "Bucket", .str "Website.Url"])

/-- An expression that has `t` under a name of its own. -/
def expressionWith (t : Tree) : Tree :=
  .tagged "!Sub" (.seq [.str "${Site}/${Table.Arn}", .map [(.str "Site", t)]])

/-- Inside an expression that gives it a name, an attribute may be a path or a list. -/
theorem attribute_spellings_agree_site :
    (expressionWith attributePath).WellTagged ∧
      (expressionWith attributePath).SameAttributes (expressionWith attributeList) ∧
      (expressionWith attributePath).toData = (expressionWith attributeList).toData ∧
      ∃ u u', (expressionWith attributePath).retarget ⟨none, [], "Child"⟩ = .ok u ∧
        (expressionWith attributeList).retarget ⟨none, [], "Child"⟩ = .ok u' ∧
        u.toData = u'.toData := by
  have ht : attributePath.WellTagged :=
    @Tree.TaggedIn.text _ (.intrinsic .ref) trivial (by decide) _
  have hexpression : (expressionWith attributePath).WellTagged := by
    refine @Tree.TaggedIn.list _ (.intrinsic .sub) trivial (by decide) _ ?_
    simp only [List.forall_mem_cons, List.not_mem_nil, false_implies, implies_true, and_true]
    exact ⟨.str _, .map (List.forall_mem_singleton.mpr ht)⟩
  have hattr : attributePath.SameAttributes attributeList :=
    @Tree.SameAttributes.respelled "Bucket" "Website.Url" _ _ (by decide) .ref .list
  have hsame : (expressionWith attributePath).SameAttributes (expressionWith attributeList) :=
    .tagged _ (.seq (.cons (.refl _) (.cons (.map rfl (.cons hattr .nil)) .nil)))
  obtain ⟨hdata, hrenamed⟩ := attribute_spellings_agree hexpression hsame
  exact ⟨hexpression, hsame, hdata, hrenamed _ (by decide)⟩

end NestedStacks
