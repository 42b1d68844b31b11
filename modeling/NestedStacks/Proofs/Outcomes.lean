/-
What the success or the failure of some work says about its parts.

`Except` and `Run` are opened here once: other proofs take work apart with these lemmas and never
unfold either monad.

* `Except.bind_eq_ok`, `Except.mapM_eq_ok` — success of pure work is success of each part;
* `Run.bind_eq_ok`, `Run.mapM_eq_ok` — the same for work with steps;
* `Run.FailsWith` — a property that all failures of some work have, with its rules.
-/
import NestedStacks.Run.Basic
import Mathlib.Data.List.Forall2
import Mathlib.Data.List.Perm.Basic

namespace NestedStacks

/-- A world without files. -/
def World.empty : World := ⟨⟨"/"⟩, fun _ => .error .missing, 1, fun _ => ""⟩

variable {ε ε' α β : Type}

/-! ### Lists -/

theorem forall₂_exists_left {R : α → β → Prop} {xs : List α} {ys : List β}
    (h : List.Forall₂ R xs ys) {y : β} (hy : y ∈ ys) : ∃ x ∈ xs, R x y := by
  induction h with
  | nil => simp at hy
  | @cons x z xs zs hxz _ ih =>
    rcases List.mem_cons.mp hy with rfl | hy
    · exact ⟨x, by simp, hxz⟩
    · obtain ⟨x', hx', h'⟩ := ih hy
      exact ⟨x', by simp [hx'], h'⟩

theorem forall₂_getElem? {R : α → β → Prop} {xs : List α} {ys : List β}
    (h : List.Forall₂ R xs ys) {i : Nat} {x : α} (hx : xs[i]? = some x) :
    ∃ y, ys[i]? = some y ∧ R x y := by
  induction h generalizing i with
  | nil => simp at hx
  | @cons a b as bs hab _ ih =>
    cases i with
    | zero =>
      obtain rfl : a = x := by simpa using hx
      exact ⟨b, rfl, hab⟩
    | succ i => exact ih hx

theorem forall₂_of_mem {R S : α → β → Prop} {xs : List α} {ys : List β}
    (h : List.Forall₂ R xs ys) (hS : ∀ x ∈ xs, ∀ y, R x y → S x y) : List.Forall₂ S xs ys := by
  induction h with
  | nil => exact .nil
  | cons hxy _ ih => exact .cons (hS _ (by simp) _ hxy) (ih fun x hx => hS x (by simp [hx]))

/-- The pairs in `xs` and `ys` go together if their first parts do by `S` and their second parts by
`R`. -/
theorem forall₂_pairs {R : α → β → Prop} {γ γ' : Type} {S : γ → γ' → Prop} {xs : List (γ × α)}
    {ys : List (γ' × β)} :
    List.Forall₂ (fun x y => S x.1 y.1 ∧ R x.2 y.2) xs ys ↔
      List.Forall₂ S (xs.map (·.1)) (ys.map (·.1)) ∧
        List.Forall₂ R (xs.map (·.2)) (ys.map (·.2)) := by
  induction xs generalizing ys with
  | nil => cases ys <;> simp
  | cons x xs ih => cases ys <;> simp [ih, and_and_and_comm]

/-- The pairs in `xs` and `ys` go together if they agree in the first parts and their second parts
go together by `R`. -/
theorem forall₂_fields {R : α → β → Prop} {γ : Type} {xs : List (γ × α)} {ys : List (γ × β)} :
    List.Forall₂ (fun x y => x.1 = y.1 ∧ R x.2 y.2) xs ys ↔
      xs.map (·.1) = ys.map (·.1) ∧ List.Forall₂ R (xs.map (·.2)) (ys.map (·.2)) := by
  rw [forall₂_pairs, List.forall₂_eq_eq_eq]

/-- What goes with `xs` goes with `ys` if this is so for each pair of elements. -/
theorem forall₂_congr_left {γ : Type} {R : α → γ → Prop} {S : β → γ → Prop} {xs : List α}
    {ys : List β} (h : List.Forall₂ (fun x y => ∀ z, R x z ↔ S y z) xs ys) (zs : List γ) :
    List.Forall₂ R xs zs ↔ List.Forall₂ S ys zs := by
  induction h generalizing zs with
  | nil => cases zs <;> simp
  | cons hxy _ ih => cases zs <;> simp [hxy, ih]

/-- Something goes with `xs` if something goes with each element. -/
theorem exists_forall₂_iff {R : α → β → Prop} {xs : List α} :
    (∃ ys, List.Forall₂ R xs ys) ↔ ∀ x ∈ xs, ∃ y, R x y := by
  induction xs with
  | nil => simp
  | cons x xs ih => simp [List.forall₂_cons_left_iff, ← ih]

/-- All elements of one of two lists are as `P` says if those of the other one are as `Q` says, and
the other way round, if this is so for each pair of elements. -/
theorem forall_mem_congr_of_forall₂ {P : α → Prop} {Q : β → Prop} {xs : List α} {ys : List β}
    (h : List.Forall₂ (fun x y => P x ↔ Q y) xs ys) : (∀ x ∈ xs, P x) ↔ ∀ y ∈ ys, Q y := by
  induction h with
  | nil => simp
  | cons hxy _ ih => simp [hxy, ih]

/-- What goes with `xs ++ xs'` goes with each of them. -/
theorem exists_append_of_forall₂ {R : α → β → Prop} {xs xs' : List α} {ys : List β}
    (h : List.Forall₂ R (xs ++ xs') ys) :
    ∃ zs zs', ys = zs ++ zs' ∧ List.Forall₂ R xs zs ∧ List.Forall₂ R xs' zs' := by
  induction xs generalizing ys with
  | nil => exact ⟨[], ys, rfl, .nil, h⟩
  | cons x xs ih =>
    cases h with
    | cons hxy hrest =>
      obtain ⟨zs, zs', rfl, hzs, hzs'⟩ := ih hrest
      exact ⟨_ :: zs, zs', rfl, .cons hxy hzs, hzs'⟩

/-- What `f` is on the elements of `xs` is all that matters. -/
theorem mapM_congr {m : Type → Type} [Monad m] [LawfulMonad m] {f g : α → m β} {xs : List α}
    (h : ∀ x ∈ xs, f x = g x) : xs.mapM f = xs.mapM g := by
  induction xs with
  | nil => rfl
  | cons x xs ih =>
    rw [List.mapM_cons, List.mapM_cons, h x (by simp), ih fun y hy => h y (by simp [hy])]

/-- Work on the list of all `g x`: if `f' (g x)` is `f x` with `g'` after it, so is the work on
the list. -/
theorem mapM_map {m : Type → Type} [Monad m] [LawfulMonad m] {α' β' : Type} {f : α → m β}
    {f' : α' → m β'} {g : α → α'} {g' : β → β'} (h : ∀ x, f' (g x) = g' <$> f x) (xs : List α) :
    (xs.map g).mapM f' = List.map g' <$> xs.mapM f := by
  induction xs with
  | nil => simp
  | cons x xs ih => simp [h, ih]

/-- If `f x` is `pure (g x)` on each element of `xs`, there are no steps. -/
theorem mapM_eq_pure_map {m : Type → Type} [Monad m] [LawfulMonad m] {f : α → m β} {g : α → β}
    {xs : List α} (h : ∀ x ∈ xs, f x = pure (g x)) : xs.mapM f = pure (xs.map g) := by
  induction xs with
  | nil => simp
  | cons x xs ih =>
    rw [List.mapM_cons, h x (by simp), ih fun y hy => h y (by simp [hy])]
    simp

/-- If `f x` is `pure x` on each element of `xs`, the list stays as it is. -/
theorem mapM_eq_self {m : Type → Type} [Monad m] [LawfulMonad m] {f : α → m α} {xs : List α}
    (h : ∀ x ∈ xs, f x = pure x) : xs.mapM f = pure xs := by
  rw [mapM_eq_pure_map (g := id) h, List.map_id]

/-! ### Pure work -/

namespace Except

theorem map_ok (f : α → β) (a : α) : f <$> (.ok a : Except ε α) = .ok (f a) := rfl

@[simp] theorem pure_eq_ok {a b : α} : (pure a : Except ε α) = .ok b ↔ a = b := by
  simp [pure, Except.pure]

@[simp] theorem pure_ne_error {a : α} {e : ε} : (pure a : Except ε α) ≠ .error e := by
  simp [pure, Except.pure]

theorem bind_eq_ok {x : Except ε α} {f : α → Except ε β} {b : β} :
    x >>= f = .ok b ↔ ∃ a, x = .ok a ∧ f a = .ok b := by
  cases x <;> simp [bind, Except.bind]

theorem bind_eq_error {x : Except ε α} {f : α → Except ε β} {e : ε} :
    x >>= f = .error e ↔ x = .error e ∨ ∃ a, x = .ok a ∧ f a = .error e := by
  cases x <;> simp [bind, Except.bind]

theorem mapError_eq_ok {f : ε → ε'} {x : Except ε α} {a : α} :
    x.mapError f = .ok a ↔ x = .ok a := by
  cases x <;> simp [Except.mapError]

theorem mapError_eq_error {f : ε → ε'} {x : Except ε α} {e' : ε'} :
    x.mapError f = .error e' ↔ ∃ e, x = .error e ∧ f e = e' := by
  cases x <;> simp [Except.mapError]

/-- The work `f` on `xs` gives `ys` when it gives each of them for its element. -/
theorem mapM_eq_ok {f : α → Except ε β} {xs : List α} {ys : List β} :
    xs.mapM f = .ok ys ↔ List.Forall₂ (fun x y => f x = .ok y) xs ys := by
  induction xs generalizing ys with
  | nil => cases ys <;> simp
  | cons x xs ih =>
    rw [List.mapM_cons, bind_eq_ok]
    constructor
    · rintro ⟨y, hy, hrest⟩
      obtain ⟨ys', hys, h⟩ := bind_eq_ok.mp hrest
      obtain rfl := pure_eq_ok.mp h
      exact .cons hy (ih.mp hys)
    · intro h
      cases h with
      | cons hy hys => exact ⟨_, hy, bind_eq_ok.mpr ⟨_, ih.mpr hys, rfl⟩⟩

/-- If `f` succeeds on `xs`, it succeeds on `xs'`, the same elements in another order. -/
theorem exists_mapM_perm {f : α → Except ε β} {xs xs' : List α} {ys : List β}
    (hperm : xs.Perm xs') (h : xs.mapM f = .ok ys) : ∃ ys', xs'.mapM f = .ok ys' ∧ ys.Perm ys' := by
  obtain ⟨ys', hys', hperm'⟩ := List.perm_comp_forall₂ hperm.symm (mapM_eq_ok.mp h)
  exact ⟨ys', mapM_eq_ok.mpr hys', hperm'.symm⟩

/-- If `f` succeeds on each element of `xs` and `P` holds of each result, `f` succeeds on `xs` and
`P` holds of all results. -/
theorem exists_mapM {f : α → Except ε β} {P : β → Prop} {xs : List α}
    (h : ∀ x ∈ xs, ∃ y, f x = .ok y ∧ P y) : ∃ ys, xs.mapM f = .ok ys ∧ ∀ y ∈ ys, P y := by
  induction xs with
  | nil => exact ⟨[], rfl, by simp⟩
  | cons x xs ih =>
    obtain ⟨y, hy, hP⟩ := h x (by simp)
    obtain ⟨ys, hys, hPs⟩ := ih fun z hz => h z (by simp [hz])
    refine ⟨y :: ys, mapM_eq_ok.mpr (.cons hy (mapM_eq_ok.mp hys)), ?_⟩
    intro z hz
    rcases List.mem_cons.mp hz with rfl | hz
    · exact hP
    · exact hPs z hz

/-- If `f` and `g` succeed on each pair of elements of `xs` and `xs'`, with results in `R`, they
succeed on the lists, and the results go together by `R`. -/
theorem exists_mapM_forall₂ {α' β' : Type} {f : α → Except ε β} {g : α' → Except ε β'}
    {R : β → β' → Prop} {xs : List α} {xs' : List α'}
    (h : List.Forall₂ (fun x x' => ∃ y y', f x = .ok y ∧ g x' = .ok y' ∧ R y y') xs xs') :
    ∃ ys ys', xs.mapM f = .ok ys ∧ xs'.mapM g = .ok ys' ∧ List.Forall₂ R ys ys' := by
  induction h with
  | nil => exact ⟨[], [], rfl, rfl, .nil⟩
  | cons hx _ ih =>
    obtain ⟨y, y', hy, hy', hR⟩ := hx
    obtain ⟨ys, ys', hys, hys', hRs⟩ := ih
    exact ⟨y :: ys, y' :: ys', mapM_eq_ok.mpr (.cons hy (mapM_eq_ok.mp hys)),
      mapM_eq_ok.mpr (.cons hy' (mapM_eq_ok.mp hys')), .cons hR hRs⟩

/-- If `f`, and then `g` on its result, succeed on each element of `xs`, they do so on the list.  If
`k` then gives the same at once, it does so on the list. -/
theorem exists_mapM_mapM {γ : Type} {f : α → Except ε β} {g : β → Except ε γ} {k : α → Except ε γ}
    {xs : List α} (h : ∀ x ∈ xs, ∃ y z, f x = .ok y ∧ g y = .ok z ∧ k x = .ok z) :
    ∃ ys zs, xs.mapM f = .ok ys ∧ ys.mapM g = .ok zs ∧ xs.mapM k = .ok zs := by
  induction xs with
  | nil => exact ⟨[], [], rfl, rfl, rfl⟩
  | cons x xs ih =>
    obtain ⟨y, z, hy, hz, hk⟩ := h x (by simp)
    obtain ⟨ys, zs, hys, hzs, hks⟩ := ih fun x hx => h x (by simp [hx])
    exact ⟨y :: ys, z :: zs, mapM_eq_ok.mpr (.cons hy (mapM_eq_ok.mp hys)),
      mapM_eq_ok.mpr (.cons hz (mapM_eq_ok.mp hzs)), mapM_eq_ok.mpr (.cons hk (mapM_eq_ok.mp hks))⟩

/-- If `f` fails on `xs`, it fails with the failure of one element. -/
theorem mapM_eq_error {f : α → Except ε β} {xs : List α} {e : ε} (h : xs.mapM f = .error e) :
    ∃ x ∈ xs, f x = .error e := by
  induction xs with
  | nil => exact absurd h pure_ne_error
  | cons x xs ih =>
    rw [List.mapM_cons, bind_eq_error] at h
    rcases h with hx | ⟨y, -, h⟩
    · exact ⟨x, by simp, hx⟩
    · rcases bind_eq_error.mp h with hxs | ⟨ys, -, h⟩
      · obtain ⟨z, hz, hf⟩ := ih hxs
        exact ⟨z, by simp [hz], hf⟩
      · exact absurd h pure_ne_error

end Except

/-! ### Work with steps -/

namespace Run

theorem ofExcept_ok (a : α) : (ofExcept (.ok a) : Run ε α) = pure a := rfl

theorem depth_bind (f : Nat → Run ε β) (w : World) (n : Nat) :
    (depth >>= f) w n = f w.depth w n := rfl

theorem bind_eq_ok {x : Run ε α} {f : α → Run ε β} {w : World} {n : Nat} {b : β} :
    ((x >>= f) w n).result = .ok b ↔
      ∃ a, (x w n).result = .ok a ∧ (f a w (n + (x w n).drawn)).result = .ok b := by
  cases h : (x w n).result with
  | error e => simp [bind_error f h]
  | ok a => simp [bind_ok f h]

/-- If `x >>= f` fails with `e`, then `x` does, or `x` gives a value `a` and `f a` fails with `e`
after that. -/
theorem bind_eq_error {x : Run ε α} {f : α → Run ε β} {w : World} {n : Nat} {e : ε}
    (h : ((x >>= f) w n).result = .error e) :
    (x w n).result = .error e ∧ ((x >>= f) w n).steps = (x w n).steps ∨
      ∃ a, (x w n).result = .ok a ∧ (f a w (n + (x w n).drawn)).result = .error e ∧
        ((x >>= f) w n).steps = (x w n).steps ++ (f a w (n + (x w n).drawn)).steps := by
  cases hx : (x w n).result with
  | error e' =>
    rw [bind_error f hx] at h ⊢
    obtain rfl : e' = e := by simpa using h
    exact .inl ⟨rfl, rfl⟩
  | ok a =>
    rw [bind_ok f hx] at h ⊢
    exact .inr ⟨a, rfl, h, rfl⟩

theorem bind_eq_error_iff {x : Run ε α} {f : α → Run ε β} {w : World} {n : Nat} {e : ε} :
    ((x >>= f) w n).result = .error e ↔ (x w n).result = .error e ∨
      ∃ a, (x w n).result = .ok a ∧ (f a w (n + (x w n).drawn)).result = .error e := by
  cases h : (x w n).result with
  | error e' => simp [bind_error f h]
  | ok a => simp [bind_ok f h]

/-- What cannot fail does not count for the failures of `x` in front of it. -/
theorem bind_pure_eq_error {x : Run ε α} {g : α → β} {w : World} {n : Nat} {e : ε} :
    ((x >>= fun a => pure (g a)) w n).result = .error e ↔ (x w n).result = .error e := by
  rw [bind_eq_error_iff]
  simp

theorem result_note_bind (l : Level) (g : Origin) (s : String) (f : Unit → Run ε β) (w : World)
    (n : Nat) : ((note l g s >>= f) w n).result = (f () w n).result := by
  rw [bind_ok (a := ()) f rfl]
  rfl

/-- If the work `f` on `xs` gives `ys`, it gives each of them for its element, after some draws. -/
theorem mapM_eq_ok {f : α → Run ε β} {w : World} {xs : List α} {ys : List β} {n : Nat}
    (h : (xs.mapM f w n).result = .ok ys) :
    List.Forall₂ (fun x y => ∃ k, (f x w k).result = .ok y) xs ys := by
  induction xs generalizing ys n with
  | nil =>
    obtain rfl : [] = ys := by simpa using h
    exact .nil
  | cons x xs ih =>
    rw [List.mapM_cons] at h
    obtain ⟨y, hy, h⟩ := bind_eq_ok.mp h
    obtain ⟨ys', hys, h⟩ := bind_eq_ok.mp h
    obtain rfl : y :: ys' = ys := by simpa using h
    exact .cons ⟨n, hy⟩ (ih hys)

/-! ### Success with the identifiers drawn -/

/-- `x.Yields w n a n'`: the work `x` in `w` gives `a`, and leads from `n` to `n'` identifiers
drawn. -/
def Yields (x : Run ε α) (w : World) (n : Nat) (a : α) (n' : Nat) : Prop :=
  (x w n).result = .ok a ∧ n + (x w n).drawn = n'

theorem yields_of_result {x : Run ε α} {w : World} {n : Nat} {a : α}
    (h : (x w n).result = .ok a) : x.Yields w n a (n + (x w n).drawn) := ⟨h, rfl⟩

theorem Yields.unique {x : Run ε α} {w : World} {n n₁ n₂ : Nat} {a₁ a₂ : α}
    (h₁ : x.Yields w n a₁ n₁) (h₂ : x.Yields w n a₂ n₂) : a₁ = a₂ ∧ n₁ = n₂ :=
  ⟨Except.ok.inj (h₁.1.symm.trans h₂.1), h₁.2.symm.trans h₂.2⟩

theorem yields_bind {x : Run ε α} {f : α → Run ε β} {w : World} {n n' : Nat} {b : β} :
    (x >>= f).Yields w n b n' ↔ ∃ a m, x.Yields w n a m ∧ (f a).Yields w m b n' := by
  unfold Yields
  cases h : (x w n).result with
  | error e => simp [bind_error f h]
  | ok a => simp [bind_ok f h, Outcome.drawn, ← Nat.add_assoc]

@[simp] theorem yields_pure {a b : α} {w : World} {n n' : Nat} :
    (pure a : Run ε α).Yields w n b n' ↔ a = b ∧ n = n' := by
  simp [Yields, Outcome.drawn]

@[simp] theorem yields_ofExcept {r : Except ε α} {a : α} {w : World} {n n' : Nat} :
    (ofExcept r).Yields w n a n' ↔ r = .ok a ∧ n = n' := by
  simp [Yields, Outcome.drawn]

@[simp] theorem yields_note {l : Level} {g : Origin} {m : String} {u : Unit} {w : World}
    {n n' : Nat} : (note l g m : Run ε Unit).Yields w n u n' ↔ n = n' := by
  simp [Yields, Outcome.drawn, Step.draws]

@[simp] theorem yields_noteAll {l : Level} {g : Origin} {ms : List String} {u : Unit} {w : World}
    {n n' : Nat} : (noteAll l g ms : Run ε Unit).Yields w n u n' ↔ n = n' := by
  have h : (ms.map fun m => Step.noted ⟨l, g, m⟩).countP Step.draws = 0 := by
    simp [List.countP_eq_zero, Step.draws]
  simp [Yields, Outcome.drawn, h]

/-- Work on `x :: xs` fails with the failure of `x`, or of `xs` after that. -/
theorem mapM_cons_eq_error {f : α → Run ε β} {x : α} {xs : List α} {w : World} {n : Nat} {e : ε} :
    ((x :: xs).mapM f w n).result = .error e ↔ (f x w n).result = .error e ∨
      ∃ y m, (f x).Yields w n y m ∧ (xs.mapM f w m).result = .error e := by
  rw [List.mapM_cons, bind_eq_error_iff]
  simp only [bind_pure_eq_error, Yields, and_assoc, exists_and_left, exists_eq_left']

theorem yields_mapError {ε' : Type} {f : ε → ε'} {x : Run ε α} {a : α} {w : World} {n n' : Nat} :
    (x.mapError f).Yields w n a n' ↔ x.Yields w n a n' := by
  simp only [Yields, mapError_run, Except.mapError_eq_ok]
  rfl

@[simp] theorem yields_workingDirectory {p : Path} {w : World} {n n' : Nat} :
    (workingDirectory : Run ε Path).Yields w n p n' ↔ w.workingDirectory = p ∧ n = n' := by
  simp [Yields, workingDirectory, Outcome.drawn]

@[simp] theorem yields_read {p : Path} {text : String} {w : World} {n n' : Nat} :
    (read p).Yields w n text n' ↔ w.read p = .ok text ∧ n = n' := by
  simp [Yields, read, Outcome.drawn, Step.draws]

@[simp] theorem not_yields_fail {e : ε} {a : α} {w : World} {n n' : Nat} :
    ¬(fail e : Run ε α).Yields w n a n' := by
  simp [Yields]

/-- In `w`, what follows `x` matters only for what `x` gives there. -/
theorem bind_congr_of_yields {x : Run ε α} {f g : α → Run ε β} {w : World}
    (h : ∀ n a n', x.Yields w n a n' → f a w = g a w) : (x >>= f) w = (x >>= g) w := by
  funext n
  cases hx : (x w n).result with
  | error e => rw [bind_error f hx, bind_error g hx]
  | ok a => rw [bind_ok f hx, bind_ok g hx, h n a _ ⟨hx, rfl⟩]

/-- What `x` is in `w` is all that matters there. -/
theorem bind_congr_left {x y : Run ε α} {w : World} (h : x w = y w) (f : α → Run ε β) :
    (x >>= f) w = (y >>= f) w := by
  funext n
  have hn : x w n = y w n := congrFun h n
  cases hy : (y w n).result with
  | error e => rw [bind_error f hy, bind_error f (hn ▸ hy), hn]
  | ok a => rw [bind_ok f hy, bind_ok f (hn ▸ hy), hn]

/-- Work on the list of all `g x` in a world `w`: it is enough that `f' (g x)` is `f x` with `g'`
after it in `w`. -/
theorem mapM_map {α' β' : Type} {f : α → Run ε β} {f' : α' → Run ε β'} {g : α → α'} {g' : β → β'}
    {w : World} (h : ∀ x, f' (g x) w = (g' <$> f x) w) (xs : List α) :
    (xs.map g).mapM f' w = (List.map g' <$> xs.mapM f) w := by
  induction xs with
  | nil => rfl
  | cons x xs ih =>
    rw [List.map_cons, List.mapM_cons, List.mapM_cons, bind_congr_left (h x), map_bind,
      bind_map_left]
    refine bind_congr_of_yields fun _ y _ _ => ?_
    rw [bind_congr_left ih, map_bind, bind_map_left]
    simp only [map_pure, List.map_cons]

/-! ### Work without steps, and the files that work opens -/

section

variable {w : World} {n m : Nat}

theorem steps_bind {x : Run ε α} {f : α → Run ε β} (hx : ∀ n, (x w n).steps = [])
    (hf : ∀ a n, (f a w n).steps = []) (n : Nat) : ((x >>= f) w n).steps = [] := by
  cases h : (x w n).result with
  | error e => rw [bind_error f h, hx]
  | ok a => rw [bind_ok f h, hx, hf, List.append_nil]

theorem steps_mapM {f : α → Run ε β} {xs : List α} (h : ∀ x ∈ xs, ∀ n, (f x w n).steps = [])
    (n : Nat) : (xs.mapM f w n).steps = [] := by
  induction xs generalizing n with
  | nil => rfl
  | cons x xs ih =>
    rw [List.mapM_cons]
    refine steps_bind (h x (by simp)) (fun y n => ?_) n
    exact steps_bind (ih fun z hz => h z (by simp [hz])) (fun _ _ => rfl) n

/-- Work opens the files that its first part `x` opens, and then those of the second one `f a`. -/
theorem opened_bind {x : Run ε α} {a : α} (h : x.Yields w n a m) (f : α → Run ε β) :
    ((x >>= f) w n).opened = (x w n).opened ++ (f a w m).opened := by
  rw [bind_ok f h.1, h.2, Outcome.opened, Outcome.opened, Outcome.opened, List.filterMap_append]

theorem opened_note_bind (l : Level) (g : Origin) (s : String) (f : Unit → Run ε β) :
    ((note l g s >>= f) w n).opened = (f () w n).opened := by
  have hnote : (note l g s : Run ε Unit).Yields w n () n := yields_note.mpr rfl
  rw [opened_bind hnote]
  rfl

/-- Reading a file at `p` that is there opens it and goes on with its text. -/
theorem read_bind_ok {p : Path} {text : String} (h : w.read p = .ok text) (c : FileFault → ε)
    (f : String → Run ε β) :
    (((read p).mapError c >>= f) w n).opened = p :: (f text w n).opened ∧
      (((read p).mapError c >>= f) w n).result = (f text w n).result := by
  have hread : ((read p).mapError c).Yields w n text n :=
    yields_mapError.mpr (yields_read.mpr ⟨h, rfl⟩)
  rw [opened_bind hread, bind_ok f hread.1, hread.2]
  exact ⟨rfl, rfl⟩

/-- Reading a file at `p` that is not there opens it in vain. -/
theorem read_bind_error {p : Path} {fault : FileFault} (h : w.read p = .error fault)
    (c : FileFault → ε) (f : String → Run ε β) :
    (((read p).mapError c >>= f) w n).opened = [p] ∧
      (((read p).mapError c >>= f) w n).result = .error (c fault) := by
  have hread : ((read p).mapError c w n).result = .error (c fault) :=
    Except.mapError_eq_error.mpr ⟨fault, h, rfl⟩
  rw [bind_error f hread]
  exact ⟨rfl, rfl⟩

/-- If `f a` opens no file, `x >>= f` opens the files of `x`, also if it fails. -/
theorem opened_bind_of_silent {x : Run ε α} {f : α → Run ε β}
    (hf : ∀ a n, (f a w n).opened = []) : ((x >>= f) w n).opened = (x w n).opened := by
  cases h : (x w n).result with
  | error e =>
    rw [bind_error _ h]
    rfl
  | ok a => rw [opened_bind ⟨h, rfl⟩, hf, List.append_nil]

/-- If `f x` opens no file for any `x` in `xs`, work on the list opens none. -/
theorem opened_mapM_of_silent {f : α → Run ε β} {xs : List α}
    (h : ∀ x ∈ xs, ∀ n, (f x w n).opened = []) (n : Nat) : (xs.mapM f w n).opened = [] := by
  induction xs generalizing n with
  | nil => rfl
  | cons x xs ih =>
    rw [List.mapM_cons, opened_bind_of_silent fun y n => ?_]
    · exact h x (by simp) n
    · rw [opened_bind_of_silent fun _ _ => rfl]
      exact ih (fun z hz => h z (by simp [hz])) n

end

/-! ### Properties of failures -/

/-- `x.FailsWith w P`: whenever `x` fails in `w`, its error `e` and the steps that it took are in
`P`. -/
def FailsWith (w : World) (P : ε → List Step → Prop) (x : Run ε α) : Prop :=
  ∀ n e, (x w n).result = .error e → P e (x w n).steps

variable {w : World} {P : ε → List Step → Prop}

theorem FailsWith.pure (a : α) : FailsWith w P (Pure.pure a : Run ε α) := by
  intro n e h
  simp at h

theorem FailsWith.of_ok {x : Run ε α} (h : ∀ n, ∃ a, (x w n).result = .ok a) :
    FailsWith w P x := by
  intro n e he
  obtain ⟨a, ha⟩ := h n
  simp [ha] at he

theorem FailsWith.ofExcept {r : Except ε α} (h : ∀ e, r = .error e → P e []) :
    FailsWith w P (Run.ofExcept r) :=
  fun _ e he => h e he

theorem FailsWith.mapError {f : ε → ε'} {P : ε' → List Step → Prop} {x : Run ε α}
    (h : FailsWith w (fun e steps => P (f e) steps) x) : FailsWith w P (x.mapError f) := by
  intro n e' he'
  obtain ⟨e, he, rfl⟩ := Except.mapError_eq_error.mp he'
  exact h n e he

/-- The rule for two parts `x` and `f a`, where further steps around the failure do not matter. -/
theorem FailsWith.bind {x : Run ε α} {f : α → Run ε β}
    (hP : ∀ e before steps, P e steps → P e (before ++ steps)) (hx : FailsWith w P x)
    (hf : ∀ n a, (x w n).result = .ok a → FailsWith w P (f a)) : FailsWith w P (x >>= f) := by
  intro n e h
  rcases bind_eq_error h with ⟨he, hsteps⟩ | ⟨a, ha, he, hsteps⟩
  · rw [hsteps]
    exact hx n e he
  · rw [hsteps]
    exact hP e _ _ (hf n a ha _ e he)

theorem FailsWith.mapM {f : α → Run ε β} {xs : List α}
    (hP : ∀ e before steps, P e steps → P e (before ++ steps))
    (hf : ∀ x ∈ xs, FailsWith w P (f x)) : FailsWith w P (xs.mapM f) := by
  induction xs with
  | nil => exact FailsWith.pure []
  | cons x xs ih =>
    rw [List.mapM_cons]
    refine .bind hP (hf x (by simp)) fun _ y _ => .bind hP (ih fun z hz => hf z (by simp [hz])) ?_
    exact fun _ ys _ => FailsWith.pure _

end Run

end NestedStacks
