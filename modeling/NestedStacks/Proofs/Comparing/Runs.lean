/-
Work that goes alike in two worlds.

A work `x` in a world `w` and a work `x'` in a world `w'` are related when both succeed with values
`a` and `a'` with `V a a'`, or both fail with errors `e` and `e'` with `E e e'`.  Whether the
identifiers count that they draw is a parameter: `Run.Related draws w w' E V x x'`.  The relation is
closed under everything that work is made of, so that it carries over to whole programs; what is
different in the two worlds is looked at only where files are read.

* `World.SameDraws`, `Results`, `Run.Related` — the relation;
* `Run.Related.bind`, `Run.Related.mapM`, `Run.Related.read_bind` — its rules;
* `Run.Alike` — the works that go alike as long as they draw the same identifiers, and
  `Run.Alike.results`, what it says of a whole run;
* `Run.SameFaults` — the works in one world that fail alike whatever was drawn.
-/
import NestedStacks.Proofs.Outcomes

namespace NestedStacks

variable {ε ε' ε₁ ε₁' α α' β β' : Type}

/-- `w.SameDraws w' n n' k`: the `k` identifiers of `w` from number `n` on are those of `w'` from
number `n'` on. -/
def World.SameDraws (w w' : World) (n n' draws : Nat) : Prop :=
  ∀ i < draws, w.identifier (n + i) = w'.identifier (n' + i)

/-- `Results E V r r'`: the results `r` and `r'` are values `a` and `a'` with `V a a'`, or errors
`e` and `e'` with `E e e'`. -/
inductive Results (E : ε → ε' → Prop) (V : α → α' → Prop) : Except ε α → Except ε' α' → Prop
  | ok {a : α} {a' : α'} (h : V a a') : Results E V (.ok a) (.ok a')
  | error {e : ε} {e' : ε'} (h : E e e') : Results E V (.error e) (.error e')

/-- `Run.Related draws w w' E V x x'`: after `n` draws of `w` and `n'` of `w'` the results of `x` in
`w` and of `x'` in `w'` are in `Results E V`.  If `draws` holds, the identifiers count: this is
asked only where both works draw the same ones, and then both draw equally many. -/
def Run.Related (draws : Prop) (w w' : World) (E : ε → ε' → Prop) (V : α → α' → Prop)
    (x : Run ε α) (x' : Run ε' α') : Prop :=
  ∀ n n', (draws → w.SameDraws w' n n' (x w n).drawn) →
    (draws → (x w n).drawn = (x' w' n').drawn) ∧ Results E V (x w n).result (x' w' n').result

/-- `Run.Alike w w' E V x x'`: as long as `x` in `w` and `x'` in `w'` draw the same identifiers,
both draw equally many, and their results are in `Results E V`. -/
abbrev Run.Alike (w w' : World) (E : ε → ε' → Prop) (V : α → α' → Prop) (x : Run ε α)
    (x' : Run ε' α') : Prop := Run.Related True w w' E V x x'

/-- `Run.SameFaults w V x x'`: whatever was drawn before each of them, `x` and `x'` fail in `w` with
one error or give values `a` and `a'` with `V a a'`. -/
abbrev Run.SameFaults (w : World) (V : α → α' → Prop) (x : Run ε α) (x' : Run ε α') : Prop :=
  Run.Related False w w Eq V x x'

variable {w w' : World} {E : ε → ε' → Prop} {V : α → α' → Prop}

namespace Results

variable {r : Except ε α} {r' : Except ε' α'}

theorem of_ok {a : α} (h : Results E V r r') (hr : r = .ok a) : ∃ a', r' = .ok a' ∧ V a a' := by
  subst hr
  cases h with
  | ok h => exact ⟨_, rfl, h⟩

theorem of_error {e : ε} (h : Results E V r r') (hr : r = .error e) :
    ∃ e', r' = .error e' ∧ E e e' := by
  subst hr
  cases h with
  | error h => exact ⟨_, rfl, h⟩

theorem mapError {E₁ : ε₁ → ε₁' → Prop} {f : ε → ε₁} {f' : ε' → ε₁'} (h : Results E V r r')
    (hE : ∀ e e', E e e' → E₁ (f e) (f' e')) :
    Results E₁ V (r.mapError f) (r'.mapError f') := by
  cases h with
  | ok h => exact .ok h
  | error h => exact .error (hE _ _ h)

theorem imp {V' : α → α' → Prop} (h : Results E V r r') (hV : ∀ a a', V a a' → V' a a') :
    Results E V' r r' := by
  cases h with
  | ok h => exact .ok (hV _ _ h)
  | error h => exact .error h

/-- The rule for two parts: `f a` and `f' a'` go together after values `a` and `a'` that do. -/
theorem bind {V' : β → β' → Prop} {f : α → Except ε β} {f' : α' → Except ε' β'}
    (h : Results E V r r') (hf : ∀ a a', V a a' → Results E V' (f a) (f' a')) :
    Results E V' (r >>= f) (r' >>= f') := by
  cases h with
  | ok h => exact hf _ _ h
  | error h => exact .error h

/-- One result `r` goes with itself if its error does. -/
theorem same {E : ε → ε → Prop} {r : Except ε α} (h : ∀ e, r = .error e → E e e) :
    Results E Eq r r := by
  cases r with
  | ok a => exact .ok rfl
  | error e => exact .error (h e rfl)

/-- Results `r` and `r'` that are the same part by part are the same. -/
theorem eq {r r' : Except ε α} (h : Results Eq Eq r r') : r = r' := by
  cases h with
  | ok h => rw [h]
  | error h => rw [h]

theorem error_iff {r : Except ε α} {r' : Except ε α'} (h : Results Eq V r r') {e : ε} :
    r = .error e ↔ r' = .error e := by
  cases h with
  | ok _ => simp
  | error h => simp [h]

/-- Results `r` and `r'` that fail alike go together if their values do. -/
theorem of_errors {r : Except ε α} {r' : Except ε α'} (h : ∀ e, r = .error e ↔ r' = .error e)
    (hV : ∀ a a', r = .ok a → r' = .ok a' → V a a') : Results Eq V r r' := by
  cases r with
  | error e =>
    rw [(h e).mp rfl]
    exact .error rfl
  | ok a =>
    cases r' with
    | error e => exact absurd ((h e).mpr rfl) (by simp)
    | ok a' => exact .ok (hV a a' rfl rfl)

end Results

namespace World

theorem sameDraws_zero (n n' : Nat) : w.SameDraws w' n n' 0 := by
  intro i hi
  exact absurd hi (Nat.not_lt_zero i)

theorem SameDraws.refl (h : w.identifier = w'.identifier) (n draws : Nat) :
    w.SameDraws w' n n draws := by
  intro i _
  rw [h]

theorem SameDraws.front {n n' k m : Nat} (h : w.SameDraws w' n n' (k + m)) :
    w.SameDraws w' n n' k := by
  intro i hi
  exact h i (by omega)

theorem SameDraws.back {n n' k m : Nat} (h : w.SameDraws w' n n' (k + m)) :
    w.SameDraws w' (n + k) (n' + k) m := by
  intro i hi
  have hshift := h (k + i) (by omega)
  rw [← Nat.add_assoc, ← Nat.add_assoc] at hshift
  exact hshift

end World

namespace Run

theorem drawn_bind_ok {x : Run ε α} {n : Nat} {a : α} (f : α → Run ε β)
    (h : (x w n).result = .ok a) :
    ((x >>= f) w n).drawn = (x w n).drawn + (f a w (n + (x w n).drawn)).drawn := by
  rw [bind_ok f h, Outcome.drawn, List.countP_append]
  rfl

theorem drawn_bind_error {x : Run ε α} {n : Nat} {e : ε} (f : α → Run ε β)
    (h : (x w n).result = .error e) : ((x >>= f) w n).drawn = (x w n).drawn := by
  rw [bind_error f h]
  rfl

namespace Related

variable {draws : Prop}

/-- Works `x` and `x'` without draws are related if their results are. -/
theorem of_results {x : Run ε α} {x' : Run ε' α'} (hx : ∀ n, (x w n).drawn = 0)
    (hx' : ∀ n, (x' w' n).drawn = 0)
    (h : ∀ n n', Results E V (x w n).result (x' w' n').result) : Related draws w w' E V x x' := by
  intro n n' _
  exact ⟨fun _ => (hx n).trans (hx' n').symm, h n n'⟩

/-- Where identifiers do not count, `x` and `x'` are related if their results are, whatever was
drawn. -/
theorem of_uncounted {x : Run ε α} {x' : Run ε' α'}
    (h : ∀ n n', Results E V (x w n).result (x' w' n').result) : Related False w w' E V x x' :=
  fun n n' _ => ⟨False.elim, h n n'⟩

theorem ofExcept {r : Except ε α} {r' : Except ε' α'} (h : Results E V r r') :
    Related draws w w' E V (ofExcept r) (ofExcept r') :=
  of_results (fun _ => rfl) (fun _ => rfl) fun _ _ => h

theorem pure {a : α} {a' : α'} (h : V a a') :
    Related draws w w' E V (Pure.pure a : Run ε α) (Pure.pure a' : Run ε' α') := ofExcept (.ok h)

theorem fail {e : ε} {e' : ε'} (h : E e e') : Related draws w w' E V (Run.fail e) (Run.fail e') :=
  ofExcept (.error h)

/-- Two identifiers `s` and `s'` are the same if they count. -/
theorem draw {V : String → String → Prop} (h : ∀ s s', (draws → s = s') → V s s') :
    Related draws w w' E V (Run.draw : Run ε String) (Run.draw : Run ε' String) := by
  intro n n' hdraws
  refine ⟨fun _ => rfl, ?_⟩
  show Results E V (.ok (w.identifier n)) (.ok (w'.identifier n'))
  exact .ok (h _ _ fun hcount => hdraws hcount 0 Nat.zero_lt_one)

/-- The rule for two parts: `f a` and `f' a'` are related after values `a` and `a'` with `V a a'`
that `x` and `x'` give. -/
theorem bind {V' : β → β' → Prop} {x : Run ε α} {x' : Run ε' α'} {f : α → Run ε β}
    {f' : α' → Run ε' β'} (hx : Related draws w w' E V x x')
    (hf : ∀ n a m a', x.Yields w n a m → V a a' → Related draws w w' E V' (f a) (f' a')) :
    Related draws w w' E V' (x >>= f) (x' >>= f') := by
  intro n n' hdraws
  cases hr : (x w n).result with
  | error e =>
    rw [drawn_bind_error f hr] at hdraws ⊢
    obtain ⟨hdrawn, hresults⟩ := hx n n' hdraws
    obtain ⟨e', hr', hE⟩ := hresults.of_error hr
    rw [drawn_bind_error f' hr', bind_error f hr, bind_error f' hr']
    exact ⟨hdrawn, .error hE⟩
  | ok a =>
    rw [drawn_bind_ok f hr] at hdraws ⊢
    obtain ⟨hdrawn, hresults⟩ := hx n n' fun hcount => (hdraws hcount).front
    obtain ⟨a', hr', hV⟩ := hresults.of_ok hr
    -- if the identifiers count, the second parts start from the same ones
    have hback : draws → w.SameDraws w' (n + (x w n).drawn) (n' + (x' w' n').drawn)
        (f a w (n + (x w n).drawn)).drawn := by
      intro hcount
      rw [← hdrawn hcount]
      exact (hdraws hcount).back
    obtain ⟨hdrawn', hresults'⟩ := hf n a _ a' (yields_of_result hr) hV _ _ hback
    rw [drawn_bind_ok f' hr', bind_ok f hr, bind_ok f' hr']
    exact ⟨fun hcount => congrArg₂ (· + ·) (hdrawn hcount) (hdrawn' hcount), hresults'⟩

/-- What is known of the values of `x` and `x'` may be said in another way, `V'`. -/
theorem imp {V' : α → α' → Prop} {x : Run ε α} {x' : Run ε' α'} (h : Related draws w w' E V x x')
    (hV : ∀ n a m a', x.Yields w n a m → V a a' → V' a a') : Related draws w w' E V' x x' := by
  have hpure := h.bind fun n a m a' hyields ha => pure (hV n a m a' hyields ha)
  rwa [bind_pure, bind_pure] at hpure

theorem mapError {E₁ : ε₁ → ε₁' → Prop} {f : ε → ε₁} {f' : ε' → ε₁'} {x : Run ε α} {x' : Run ε' α'}
    (h : Related draws w w' E V x x') (hE : ∀ e e', E e e' → E₁ (f e) (f' e')) :
    Related draws w w' E₁ V (x.mapError f) (x'.mapError f') := by
  intro n n' hdraws
  obtain ⟨hdrawn, hresults⟩ := h n n' hdraws
  exact ⟨hdrawn, hresults.mapError hE⟩

/-- What becomes of related works is in `Results E V`. -/
theorem attempt {x : Run ε α} {x' : Run ε' α'} (h : Related draws w w' E V x x')
    (E₁ : ε₁ → ε₁' → Prop) : Related draws w w' E₁ (Results E V) x.attempt x'.attempt := by
  intro n n' hdraws
  obtain ⟨hdrawn, hresults⟩ := h n n' hdraws
  exact ⟨hdrawn, .ok hresults⟩

/-- What is reported does not count: `f ()` and `f' ()` are related also behind two notes. -/
theorem note_bind {l l' : Level} {g g' : Origin} {s s' : String} {f : Unit → Run ε α}
    {f' : Unit → Run ε' α'} (h : Related draws w w' E V (f ()) (f' ())) :
    Related draws w w' E V (note l g s >>= f) (note l' g' s' >>= f') := by
  have hnote : Related draws w w' E (fun _ _ => True) (note l g s : Run ε Unit)
      (note l' g' s' : Run ε' Unit) :=
    of_results (fun _ => rfl) (fun _ => rfl) fun _ _ => .ok trivial
  exact hnote.bind fun _ _ _ _ _ _ => h

theorem noteAll_bind {l l' : Level} {g g' : Origin} {ss ss' : List String} {f : Unit → Run ε α}
    {f' : Unit → Run ε' α'} (h : Related draws w w' E V (f ()) (f' ())) :
    Related draws w w' E V (noteAll l g ss >>= f) (noteAll l' g' ss' >>= f') := by
  have hdrawn : ∀ (w : World) (ε : Type) (l : Level) (g : Origin) (ss : List String) (n : Nat),
      ((noteAll l g ss : Run ε Unit) w n).drawn = 0 := by
    intro w ε l g ss n
    have hyields : (noteAll l g ss : Run ε Unit).Yields w n () n := yields_noteAll.mpr rfl
    have hsum := hyields.2
    omega
  have hnote : Related draws w w' E (fun _ _ => True) (noteAll l g ss : Run ε Unit)
      (noteAll l' g' ss' : Run ε' Unit) :=
    of_results (hdrawn w ε l g ss) (hdrawn w' ε' l' g' ss') fun _ _ => .ok trivial
  exact hnote.bind fun _ _ _ _ _ _ => h

/-- Files that read alike may stand at different paths `p` and `p'`: the rest is related after their
text, and the faults go together. -/
theorem read_bind {p p' : Path} {c : FileFault → ε} {c' : FileFault → ε'} {f : String → Run ε α}
    {f' : String → Run ε' α'} (hread : w.read p = w'.read p')
    (hfault : ∀ fault, w.read p = .error fault → E (c fault) (c' fault))
    (htext : ∀ text, w.read p = .ok text → Related draws w w' E V (f text) (f' text)) :
    Related draws w w' E V ((Run.read p).mapError c >>= f) ((Run.read p').mapError c' >>= f') := by
  have hreads : Related draws w w' E (fun text text' => text = text' ∧ w.read p = .ok text)
      ((Run.read p).mapError c) ((Run.read p').mapError c') := by
    refine of_results (fun _ => rfl) (fun _ => rfl) fun n n' => ?_
    show Results E _ ((w.read p).mapError c) ((w'.read p').mapError c')
    rw [← hread]
    cases hp : w.read p with
    | ok text => exact .ok ⟨rfl, rfl⟩
    | error fault => exact .error (hfault fault hp)
  refine hreads.bind fun _ text _ text' _ hsame => ?_
  obtain ⟨rfl, hp⟩ := hsame
  exact htext text hp

/-- Works on the list `xs` are related if `f x` and `f' x` are for each element `x`. -/
theorem mapM {γ : Type} {f : γ → Run ε α} {f' : γ → Run ε' α} {xs : List γ}
    (h : ∀ x ∈ xs, Related draws w w' E Eq (f x) (f' x)) :
    Related draws w w' E Eq (xs.mapM f) (xs.mapM f') := by
  induction xs with
  | nil => exact pure rfl
  | cons x xs ih =>
    rw [List.mapM_cons, List.mapM_cons]
    refine (h x (by simp)).bind fun _ y _ y' _ hy => ?_
    subst hy
    refine (ih fun z hz => h z (by simp [hz])).bind fun _ ys _ ys' _ hys => ?_
    subst hys
    exact pure rfl

end Related

namespace Alike

theorem draw : Alike w w' E Eq (Run.draw : Run ε String) (Run.draw : Run ε' String) :=
  Related.draw fun _ _ h => h trivial

/-- If `x` and `x'` go alike and draw the same identifiers, `x'` gives the value of `x`, or fails as
`x` does. -/
theorem results {x : Run ε α} {x' : Run ε' α} (h : Alike w w' E Eq x x') {n n' : Nat}
    (hdraws : w.SameDraws w' n n' (x w n).drawn) :
    (∃ a, (x w n).result = .ok a ∧ (x' w' n').result = .ok a) ∨
      ∃ e e', (x w n).result = .error e ∧ (x' w' n').result = .error e' ∧ E e e' := by
  obtain ⟨-, hresults⟩ := h n n' fun _ => hdraws
  cases hr : (x w n).result with
  | ok a =>
    obtain ⟨_, hr', rfl⟩ := hresults.of_ok hr
    exact .inl ⟨a, rfl, hr'⟩
  | error e =>
    obtain ⟨e', hr', hE⟩ := hresults.of_error hr
    exact .inr ⟨e, e', rfl, hr', hE⟩

/-- If `x` and `x'` go alike with the same errors, and draw the same identifiers, they have one
result. -/
theorem result_eq {P : ε → Prop} {x x' : Run ε α}
    (h : Alike w w' (fun e e' => e = e' ∧ P e) Eq x x') {n n' : Nat}
    (hdraws : w.SameDraws w' n n' (x w n).drawn) :
    (x' w' n').result = (x w n).result ∧ ∀ e, (x w n).result = .error e → P e := by
  rcases h.results hdraws with ⟨a, ha, ha'⟩ | ⟨e, _, he, he', rfl, hP⟩
  · refine ⟨ha'.trans ha.symm, fun e he => ?_⟩
    rw [ha] at he
    cases he
  · refine ⟨he'.trans he.symm, fun e₁ he₁ => ?_⟩
    rw [he] at he₁
    obtain rfl := Except.error.inj he₁
    exact hP

end Alike

namespace SameFaults

/-- If `x` fails with `e` after `n` draws, `x'` fails with `e` after `n'` draws. -/
theorem error {x : Run ε α} {x' : Run ε α'} (h : SameFaults w V x x') {n : Nat} {e : ε}
    (he : (x w n).result = .error e) (n' : Nat) : (x' w n').result = .error e :=
  (h n n' False.elim).2.error_iff.mp he

end SameFaults

end Run

end NestedStacks
