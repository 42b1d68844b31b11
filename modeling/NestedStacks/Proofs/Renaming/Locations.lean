/-
Renaming makes no new stacks.

A resource stands for a template by its type, which renaming keeps, and by the ending of its
location, which is looked for behind tags and so may be a text that renaming changes.  What
renaming puts in front of a text has no part in its ending unless it holds a point itself.

* `Resource.isTemplateLocation_retargetText` — the text behind a tag gets no new ending;
* `Resource.needsFlattening_of_retarget` — a renamed resource stands for a template only if the
  resource did.
-/
import Mathlib.Data.List.Induction
import NestedStacks.Proofs.Renaming.Resources

namespace NestedStacks

variable {ctx : Context}

/-! ### Endings -/

/-- What starts with a character that `front` does not hold is the ending of what is behind. -/
theorem suffix_of_suffix_append {c : Char} {ending front behind : List Char} (hc : c ∉ front)
    (h : c :: ending <:+ front ++ behind) : c :: ending <:+ behind := by
  rcases List.suffix_or_suffix_of_suffix h (List.suffix_append front behind) with h' | ⟨extra, he⟩
  · exact h'
  · cases extra with
    | nil => exact ⟨[], he.symm⟩
    | cons d extra =>
      -- then the ending starts inside `front`
      exfalso
      obtain ⟨rest, hrest⟩ := h
      rw [← he, ← List.append_assoc] at hrest
      obtain rfl := List.append_cancel_right hrest
      obtain rfl : d = c := (List.cons.inj he).1
      exact hc (by simp)

/-- The pieces `ps` keep an `ending` without a closing brace that their renaming has, since all
renamed pieces end with one. -/
theorem suffix_of_suffix_retargetPieces {locals : Entries} {ps : List Piece} {ending : List Char}
    (hbrace : '\x7d' ∉ ending)
    (h : ending <:+ ps.flatMap fun p => (retargetPiece locals ctx p).toList) :
    ending <:+ Piece.render ps := by
  induction ps using List.reverseRecOn generalizing ending with
  | nil => exact h
  | append_singleton ps p ih =>
    rw [List.flatMap_append, List.flatMap_singleton] at h
    rw [Piece.render, List.flatMap_append, List.flatMap_singleton]
    cases p with
    | literal c =>
      rw [retargetPiece, Char.toString_eq_singleton, String.toList_singleton,
        List.suffix_concat_iff] at h
      rw [Piece.text, List.suffix_concat_iff]
      rcases h with rfl | ⟨front, rfl, h⟩
      · exact .inl rfl
      · exact .inr ⟨front, rfl, ih (by simp_all) h⟩
    | placeholder name =>
      -- the ending would have to hold the closing brace
      have hend : ∃ front, (retargetPiece locals ctx (.placeholder name)).toList =
          front ++ ['\x7d'] := by
        simp only [retargetPiece, retargetPlaceholder, String.toList_append]
        exact ⟨_, rfl⟩
      obtain ⟨front, hend⟩ := hend
      rw [hend, ← List.append_assoc, List.suffix_concat_iff] at h
      rcases h with rfl | ⟨_, rfl, -⟩
      · exact List.nil_suffix
      · simp at hbrace

namespace Resource

theorem isTemplateLocation_iff {s : String} :
    isTemplateLocation s = true ↔ '.' :: ['y', 'a', 'm', 'l'] <:+ s.toList :=
  List.isSuffixOf_iff_suffix

theorem isTemplateLocation_append {p s : String} (hp : '.' ∉ p.toList)
    (h : isTemplateLocation (p ++ s) = true) : isTemplateLocation s = true := by
  rw [isTemplateLocation_iff] at h ⊢
  exact suffix_of_suffix_append hp (String.toList_append ▸ h)

theorem isTemplateLocation_retargetPath (hp : '.' ∉ ctx.namePrefix.toList) {s : String}
    (h : isTemplateLocation (ctx.retargetPath s) = true) : isTemplateLocation s = true := by
  rcases ctx.retargetPath_eq_or s with h' | h'
  · rwa [h'] at h
  · rw [h'] at h
    exact isTemplateLocation_append hp h

theorem isTemplateLocation_retargetExpression {locals : Entries} {s : String}
    (h : isTemplateLocation (retargetExpression locals ctx s) = true) :
    isTemplateLocation s = true := by
  rw [isTemplateLocation_iff] at h ⊢
  rw [retargetExpression_toList] at h
  rw [← Piece.render_lex s.toList]
  exact suffix_of_suffix_retargetPieces (by decide) h

/-- The text `s` behind a `tag` is the location of a template if it is one after renaming. -/
theorem isTemplateLocation_retargetText (hp : '.' ∉ ctx.namePrefix.toList) {tag : Tag} {s : String}
    (h : isTemplateLocation (Tree.retargetText ctx tag s) = true) :
    isTemplateLocation s = true := by
  unfold Tree.retargetText retargetScalar at h
  split at h
  · split at h
    · exact isTemplateLocation_retargetPath hp h
    · exact isTemplateLocation_retargetPath hp h
    · exact isTemplateLocation_retargetExpression h
    · exact h
  · exact h

end Resource

/-! ### Locations behind tags -/

namespace Tree

/-- The text `s'` of the renamed document is the text `s` from before, or it comes from `s` behind a
tag. -/
theorem WellTagged.asString?_retarget {t t' : Tree} (ht : t.WellTagged)
    (h : t.retarget ctx = .ok t') {s' : String} (hs' : t'.asString? = some s') :
    ∃ s, t.asString? = some s ∧ (s' = s ∨ ∃ tag, s' = retargetText ctx tag s) := by
  cases ht with
  | null | bool | num =>
    simp only [retarget, Except.pure_eq_ok] at h
    subst h
    simp [asString?] at hs'
  | str s =>
    obtain rfl : Tree.str s = t' := by simpa [retarget] using h
    exact ⟨s, rfl, .inl (by simpa [asString?, eq_comm] using hs')⟩
  | seq =>
    obtain ⟨items', rfl, -⟩ := retarget_seq_eq_ok h
    simp [asString?] at hs'
  | map =>
    obtain ⟨entries', rfl, -⟩ := retarget_map_eq_ok h
    simp [asString?] at hs'
  | @text tag _ hk s =>
    rw [retarget_text (TaggedNode.ofTagged_text hk s)] at h
    obtain rfl := Except.ok.inj h
    exact ⟨s, rfl, .inr ⟨tag, by simpa [asString?, eq_comm] using hs'⟩⟩
  | list _ hk =>
    obtain ⟨_, -, ⟨s, hs, -⟩ | ⟨_, _, items', -, -, -, rfl⟩⟩ := retarget_tagged_eq_ok h
    · simp [TaggedNode.scalarText?] at hs
    · simp [asString?] at hs'

/-- If the renamed `t'` has `entries'`, then `t` is a mapping: the tags of a document in order stand
on texts and sequences. -/
theorem WellTagged.asEntries?_retarget {t t' : Tree} (ht : t.WellTagged)
    (h : t.retarget ctx = .ok t') {entries' : Entries} (he : t'.asEntries? = some entries') :
    ∃ entries, t = .map entries ∧
      List.Forall₂ (fun e e' => e'.1 = e.1 ∧ e.2.retarget ctx = .ok e'.2) entries entries' := by
  cases ht with
  | null | bool | num | str =>
    simp only [retarget, Except.pure_eq_ok] at h
    subst h
    simp [asEntries?] at he
  | seq =>
    obtain ⟨items', rfl, -⟩ := retarget_seq_eq_ok h
    simp [asEntries?] at he
  | @map entries =>
    obtain ⟨_, rfl, hentries⟩ := retarget_map_eq_ok h
    obtain rfl : _ = entries' := by simpa [asEntries?] using he
    exact ⟨entries, rfl, hentries⟩
  | text _ hk s =>
    rw [retarget_text (TaggedNode.ofTagged_text hk s)] at h
    obtain rfl := Except.ok.inj h
    simp [asEntries?] at he
  | list _ hk =>
    obtain ⟨_, -, ⟨s, hs, -⟩ | ⟨_, _, items', -, -, -, rfl⟩⟩ := retarget_tagged_eq_ok h
    · simp [TaggedNode.scalarText?] at hs
    · simp [asEntries?] at he

end Tree

/-- If `entries` and `entries'` go together key by key, then so do their values of one `key`. -/
theorem Entries.get?_of_forall₂ {R : Tree → Tree → Prop} {entries entries' : Entries}
    (h : List.Forall₂ (fun e e' => e'.1 = e.1 ∧ R e.2 e'.2) entries entries') {key : String}
    {t' : Tree} (ht' : entries'.get? key = some t') : ∃ t, entries.get? key = some t ∧ R t t' := by
  induction h with
  | nil => simp at ht'
  | @cons e e' _ _ he _ ih =>
    rw [get?_cons, he.1] at ht'
    rw [get?_cons]
    by_cases hk : e.1.isStr key
    · simp only [hk, if_true, Option.some.injEq] at ht' ⊢
      exact ⟨e.2, rfl, ht' ▸ he.2⟩
    · simp only [hk, Bool.false_eq_true, if_false] at ht' ⊢
      exact ih ht'

namespace Resource

variable {r r' : Resource}

/-- The property `key` of the renamed `r'` is that of `r`, renamed under `ctx`. -/
theorem property?_retarget (hr : r.toTree.WellTagged) (h : r.retarget ctx = .ok r') {key : String}
    {t' : Tree} (ht' : r'.property? key = some t') :
    ∃ t, r.property? key = some t ∧ t.WellTagged ∧ t.retarget ctx = .ok t' := by
  obtain ⟨entries', hentries', hget'⟩ := Option.bind_eq_some_iff.mp ht'
  obtain ⟨p', hp', hmap'⟩ := Option.bind_eq_some_iff.mp hentries'
  obtain ⟨-, hnone⟩ | ⟨p, p'', hp, hp'', hprops⟩ := properties?_retarget h
  · simp [hnone] at hp'
  obtain rfl : p'' = p' := by simpa [hprops] using hp'
  have hin : p.WellTagged := Tree.TaggedIn.get? hr hp
  obtain ⟨entries, rfl, hentries⟩ := hin.asEntries?_retarget hp'' hmap'
  obtain ⟨t, ht, hrename⟩ :=
    Entries.get?_of_forall₂ (R := fun t t' => t.retarget ctx = .ok t') hentries hget'
  refine ⟨t, ?_, Tree.TaggedIn.get? hin ht, hrename⟩
  rw [property?, hp]
  exact ht

/-- If the renamed `r'` stands for a template, then `r` does. -/
theorem needsFlattening_of_retarget (hp : '.' ∉ ctx.namePrefix.toList) (hr : r.toTree.WellTagged)
    (h : r.retarget ctx = .ok r') (h' : r'.needsFlattening = true) : r.needsFlattening = true := by
  simp only [needsFlattening, stackKind?, type?_retarget h, Bool.and_eq_true] at h' ⊢
  refine ⟨h'.1, ?_⟩
  -- from the new location back to the old one
  obtain ⟨s', hs', hlocation⟩ := (Option.any_eq_true _ _).mp h'.2
  obtain ⟨t', ht', htext'⟩ := Option.bind_eq_some_iff.mp hs'
  obtain ⟨t, ht, hin, hrename⟩ := property?_retarget hr h ht'
  obtain ⟨s, htext, hs⟩ := hin.asString?_retarget hrename htext'
  refine (Option.any_eq_true _ _).mpr ⟨s, Option.bind_eq_some_iff.mpr ⟨t, ht, htext⟩, ?_⟩
  rcases hs with rfl | ⟨tag, rfl⟩
  · exact hlocation
  · exact isTemplateLocation_retargetText hp hlocation

end Resource

end NestedStacks
