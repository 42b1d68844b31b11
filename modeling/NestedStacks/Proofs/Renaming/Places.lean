/-
Where renaming reaches.

Renaming goes to every place of a document outside keys, except into the first item of a `Sub`
sequence when it is no text.  At each place that it reaches, a tagged value is renamed as it would
be by itself.

* `Tree.EntersExpression` — the places that it does not reach;
* `Tree.at?_retarget` — what stands at the others.
-/
import NestedStacks.Proofs.Renaming.Trees

namespace NestedStacks.Tree

variable {ctx : Context}

/-- `t.EntersExpression place`: the `place` lies in the first item of the sequence of a `Sub` in
`t`, and that item is no text. -/
def EntersExpression (t : Tree) (place : List Nat) : Prop :=
  ∃ front tag first rest, t.at? front = some (.tagged tag (.seq (first :: rest))) ∧
    Tag.ofYaml? tag = some (.intrinsic .sub) ∧ (∀ s, first ≠ .str s) ∧ front ++ [0, 0] <+: place

theorem EntersExpression.cons {t u : Tree} {i : Nat} {place : List Nat} (hu : t.parts[i]? = some u)
    (h : u.EntersExpression place) : t.EntersExpression (i :: place) := by
  obtain ⟨front, tag, first, rest, hat, htag, hfirst, hpre⟩ := h
  refine ⟨i :: front, tag, first, rest, ?_, htag, hfirst, by simpa using hpre⟩
  rw [at?_cons, hu]
  exact hat

theorem EntersExpression.append {t : Tree} {place : List Nat} (h : t.EntersExpression place)
    (behind : List Nat) : t.EntersExpression (place ++ behind) := by
  obtain ⟨front, tag, first, rest, hat, htag, hfirst, hpre⟩ := h
  exact ⟨front, tag, first, rest, hat, htag, hfirst, hpre.trans (List.prefix_append place behind)⟩

/-- The items of a function are renamed one by one, apart from texts in front and from the
expression of a `Sub`. -/
theorem retargetList_getElem? {function : Intrinsic} {items items' : List Tree}
    (h : retargetList ctx function items = .ok items') {j : Nat} {u : Tree}
    (hu : items[j]? = some u) (hs : ∀ s, u ≠ .str s) (hsub : function = .sub → j ≠ 0) :
    ∃ u', items'[j]? = some u' ∧ u.retarget ctx = .ok u' := by
  cases retargetList_eq_ok.mp h with
  | @name s _ _ hrest =>
    cases j with
    | zero => exact absurd (Option.some.inj hu).symm (hs s)
    | succ j => exact forall₂_getElem? hrest hu
  | expression hrest =>
    obtain ⟨j, rfl⟩ := Nat.exists_eq_succ_of_ne_zero (hsub rfl)
    exact forall₂_getElem? hrest hu
  | items _ _ hitems => exact forall₂_getElem? hitems hu

/-- Without a tag on it `t` is renamed part by part. -/
theorem retarget_part {t t' : Tree} (h : t.retarget ctx = .ok t')
    (ht : ∀ tag payload, t ≠ .tagged tag payload) {i : Nat} {u : Tree}
    (hu : t.parts[i]? = some u) : ∃ u', t'.parts[i]? = some u' ∧ u.retarget ctx = .ok u' := by
  cases t with
  | seq items =>
    obtain ⟨items', rfl, hitems⟩ := retarget_seq_eq_ok h
    exact forall₂_getElem? hitems hu
  | map entries =>
    obtain ⟨entries', rfl, hentries⟩ := retarget_map_eq_ok h
    obtain ⟨e, he, rfl⟩ : ∃ e, entries[i]? = some e ∧ e.2 = u := by
      simpa [parts, List.getElem?_map] using hu
    obtain ⟨e', he', -, hr⟩ := forall₂_getElem? hentries he
    exact ⟨e'.2, by simp [parts, he'], hr⟩
  | tagged tag payload => exact absurd rfl (ht tag payload)
  | _ => simp [parts] at hu

/-- The parts of the `payload` behind a `tag` are renamed one by one, unless they are texts or stand
in the place of an expression. -/
theorem retarget_tagged_part {tag : String} {payload t' : Tree}
    (h : (Tree.tagged tag payload).retarget ctx = .ok t') {j : Nat} {u : Tree}
    (hu : payload.parts[j]? = some u) (hs : ∀ s, u ≠ .str s)
    (hout : ¬(Tree.tagged tag payload).EntersExpression [0, j]) :
    ∃ u', t'.at? [0, j] = some u' ∧ u.retarget ctx = .ok u' := by
  obtain ⟨c, hc, ⟨s, hs', -⟩ | ⟨function, items, items', rfl, rfl, hlist, rfl⟩⟩ :=
    retarget_tagged_eq_ok h
  · -- a text has no parts
    cases payload <;> simp [TaggedNode.scalarText?, parts] at hs' hu
  · have hu : items[j]? = some u := hu
    have hsub : function = .sub → j ≠ 0 := by
      rintro rfl rfl
      cases items with
      | nil => simp at hu
      | cons first rest =>
        obtain rfl : first = u := by simpa using hu
        exact hout ⟨[], tag, first, rest, rfl, hc, hs, List.prefix_rfl⟩
    obtain ⟨u', hu', hr⟩ := retargetList_getElem? hlist hu hs hsub
    exact ⟨u', by simp [at?_cons, parts, hu'], hr⟩

/-- At each `place` that renaming reaches in `t`, a tagged value is renamed as it would be by
itself. -/
theorem at?_retarget {t t' : Tree} (h : t.retarget ctx = .ok t') {place : List Nat} {tag : String}
    {payload : Tree} (hat : t.at? place = some (.tagged tag payload))
    (hout : ¬t.EntersExpression place) :
    ∃ u', t'.at? place = some u' ∧ (Tree.tagged tag payload).retarget ctx = .ok u' := by
  -- a step into a tagged value is one step with the step into its sequence
  induction hlen : place.length using Nat.strongRecOn generalizing t t' place with
  | ind length ih =>
    subst hlen
    cases place with
    | nil =>
      obtain rfl : t = .tagged tag payload := by simpa using hat
      exact ⟨t', rfl, h⟩
    | cons i place =>
      rw [at?_cons] at hat
      obtain ⟨u, hu, hatu⟩ := Option.bind_eq_some_iff.mp hat
      have hout' : ¬u.EntersExpression place := fun hin => hout (hin.cons hu)
      have hlt : place.length < (i :: place).length := by simp
      cases t with
      | tagged tag' payload' =>
        obtain ⟨rfl, rfl⟩ : i = 0 ∧ payload' = u := by
          cases i <;> simp_all [parts]
        cases place with
        | nil =>
          -- a tag stands on a text or a sequence, not on a tagged value
          obtain rfl : payload' = .tagged tag payload := by simpa using hatu
          obtain ⟨_, -, ⟨_, hs, -⟩ | ⟨_, _, _, -, hseq, -⟩⟩ := retarget_tagged_eq_ok h
          · cases hs
          · cases hseq
        | cons j place =>
          rw [at?_cons] at hatu
          obtain ⟨v, hv, hatv⟩ := Option.bind_eq_some_iff.mp hatu
          have hstr : ∀ s, v ≠ .str s := by
            rintro s rfl
            cases place <;> simp [at?_cons, parts] at hatv
          have hfirst : ¬(Tree.tagged tag' payload').EntersExpression [0, j] :=
            fun hin => hout (hin.append place)
          obtain ⟨v', hv', hr⟩ := retarget_tagged_part h hv hstr hfirst
          have hout'' : ¬v.EntersExpression place := fun hin => hout' (hin.cons hv)
          have hlt' : place.length < (j :: place).length := by simp
          obtain ⟨u', hu', hr'⟩ := ih _ (Nat.lt_trans hlt' hlt) hr hatv hout'' rfl
          have hat' : t'.at? ([0, j] ++ place) = some u' := by
            rw [at?_append, hv']
            exact hu'
          exact ⟨u', hat', hr'⟩
      | _ =>
        obtain ⟨v, hv, hr⟩ := retarget_part h (by simp) hu
        obtain ⟨u', hu', hr'⟩ := ih _ hlt hr hatu hout' rfl
        refine ⟨u', ?_, hr'⟩
        rw [at?_cons, hv]
        exact hu'

end NestedStacks.Tree
