/-
Work that reads files, draws identifiers and reports what it does.

Such work is a function of its world, and its outcome lists the steps that were taken.  So what
is read, drawn and reported are values that statements can speak about; the result of a part
never depends on the steps in front of it, apart from how many identifiers were drawn.

* `Run` — the monad of such work; `Run.pure_run`, `Run.bind_ok`, `Run.bind_error` say how it
  goes on;
* `Run.read`, `Run.draw`, `Run.note` — the three kinds of steps;
* `World` — what there is to read.
-/
import NestedStacks.Run.Files
import NestedStacks.Run.Note

namespace NestedStacks

/-- The surroundings of some work. -/
structure World where
  /-- An absolute path. -/
  workingDirectory : Path
  /-- The text of the file at an absolute path. -/
  lookup : Path → Except FileFault String
  /-- How far files may lead from one to another. -/
  depth : Nat
  /-- The identifiers that can be drawn. -/
  identifier : Nat → String

/-- The text of the file at any path. -/
def World.read (w : World) (p : Path) : Except FileFault String :=
  if p.text = "" then .error .missing else w.lookup (w.workingDirectory.join p)

/-- A file system as a world.  Different files that lead from one to the next are no more than
there are entries. -/
def Files.world (fs : Files) (workingDirectory : Path) (identifier : Nat → String) : World :=
  ⟨workingDirectory, fs.read, fs.entries.length + 1, identifier⟩

/-- One step of some work. -/
inductive Step where
  | opened (path : Path)
  | drew
  | noted (note : Note)
  deriving DecidableEq, Repr

/-- Whether a step draws an identifier. -/
def Step.draws : Step → Bool
  | .drew => true
  | _ => false

/-- The note of a step. -/
def Step.note? : Step → Option Note
  | .noted n => some n
  | _ => none

/-- The path that a step opens. -/
def Step.path? : Step → Option Path
  | .opened p => some p
  | _ => none

/-- What has become of some work. -/
structure Outcome (ε α : Type) where
  steps : List Step
  result : Except ε α

namespace Outcome

variable {ε α : Type}

/-- How many identifiers were drawn. -/
def drawn (o : Outcome ε α) : Nat := o.steps.countP Step.draws

/-- The notes in order. -/
def notes (o : Outcome ε α) : List Note := o.steps.filterMap Step.note?

/-- The paths that were opened, in order. -/
def opened (o : Outcome ε α) : List Path := o.steps.filterMap Step.path?

end Outcome

/-- Work in a world, with the number of identifiers that were drawn before. -/
def Run (ε α : Type) := World → Nat → Outcome ε α

namespace Run

variable {ε α β : Type}

/-- Work without any step. -/
def ofExcept (r : Except ε α) : Run ε α := fun _ _ => ⟨[], r⟩

/-- First some work and then, if it succeeds, more of it. -/
def andThen (x : Run ε α) (f : α → Run ε β) : Run ε β := fun w drawn =>
  let first := x w drawn
  match first.result with
  | .error e => ⟨first.steps, .error e⟩
  | .ok a =>
    let second := f a w (drawn + first.drawn)
    ⟨first.steps ++ second.steps, second.result⟩

instance : Monad (Run ε) where
  pure a := ofExcept (.ok a)
  bind := andThen

/-- Work that fails. -/
def fail (e : ε) : Run ε α := ofExcept (.error e)

/-- The same work with other errors. -/
def mapError {ε' : Type} (f : ε → ε') (x : Run ε α) : Run ε' α := fun w drawn =>
  let o := x w drawn
  ⟨o.steps, o.result.mapError f⟩

/-- Work that cannot fail: it tells whether it would. -/
def attempt {ε' : Type} (x : Run ε α) : Run ε' (Except ε α) := fun w drawn =>
  let o := x w drawn
  ⟨o.steps, .ok o.result⟩

/-- Reports something. -/
def note (level : Level) (origin : Origin) (message : String) : Run ε Unit := fun _ _ =>
  ⟨[.noted ⟨level, origin, message⟩], .ok ()⟩

/-- Reports several things in order. -/
def noteAll (level : Level) (origin : Origin) (messages : List String) : Run ε Unit := fun _ _ =>
  ⟨messages.map fun m => .noted ⟨level, origin, m⟩, .ok ()⟩

/-- Reads a file. -/
def read (p : Path) : Run FileFault String := fun w _ => ⟨[.opened p], w.read p⟩

/-- Draws a fresh identifier. -/
def draw : Run ε String := fun w drawn => ⟨[.drew], .ok (w.identifier drawn)⟩

/-- The working directory.  It is a part of the world, so asking for it does not fail: a directory
that is removed while the work goes on is left out. -/
def workingDirectory : Run ε Path := fun w _ => ⟨[], .ok w.workingDirectory⟩

/-- How far files may lead from one to another. -/
def depth : Run ε Nat := fun w _ => ⟨[], .ok w.depth⟩

@[simp] theorem pure_run (a : α) (w : World) (n : Nat) :
    (pure a : Run ε α) w n = ⟨[], .ok a⟩ := rfl

@[simp] theorem ofExcept_run (r : Except ε α) (w : World) (n : Nat) :
    ofExcept r w n = ⟨[], r⟩ := rfl

@[simp] theorem fail_run (e : ε) (w : World) (n : Nat) :
    (fail e : Run ε α) w n = ⟨[], .error e⟩ := rfl

@[simp] theorem note_run (l : Level) (g : Origin) (m : String) (w : World) (n : Nat) :
    (note l g m : Run ε Unit) w n = ⟨[.noted ⟨l, g, m⟩], .ok ()⟩ := rfl

@[simp] theorem noteAll_run (l : Level) (g : Origin) (ms : List String) (w : World) (n : Nat) :
    (noteAll l g ms : Run ε Unit) w n = ⟨ms.map fun m => .noted ⟨l, g, m⟩, .ok ()⟩ := rfl

@[simp] theorem mapError_run {ε' : Type} (f : ε → ε') (x : Run ε α) (w : World) (n : Nat) :
    x.mapError f w n = ⟨(x w n).steps, (x w n).result.mapError f⟩ := rfl

@[simp] theorem attempt_run {ε' : Type} (x : Run ε α) (w : World) (n : Nat) :
    (x.attempt : Run ε' _) w n = ⟨(x w n).steps, .ok (x w n).result⟩ := rfl

/-- Work that succeeds is followed by the rest. -/
theorem bind_ok {x : Run ε α} {w : World} {n : Nat} {a : α} (f : α → Run ε β)
    (h : (x w n).result = .ok a) :
    (x >>= f) w n =
      ⟨(x w n).steps ++ (f a w (n + (x w n).drawn)).steps, (f a w (n + (x w n).drawn)).result⟩ := by
  show andThen x f w n = _
  simp [andThen, h]

/-- Work that fails is the end. -/
theorem bind_error {x : Run ε α} {w : World} {n : Nat} {e : ε} (f : α → Run ε β)
    (h : (x w n).result = .error e) : (x >>= f) w n = ⟨(x w n).steps, .error e⟩ := by
  show andThen x f w n = _
  simp [andThen, h]

theorem andThen_pure (x : Run ε α) : andThen x (fun a => ofExcept (.ok a)) = x := by
  funext w n
  rcases h : x w n with ⟨steps, r⟩
  cases r <;> simp [andThen, h]

theorem pure_andThen (a : α) (f : α → Run ε β) : andThen (ofExcept (.ok a)) f = f a := by
  funext w n
  simp [andThen, Outcome.drawn]

theorem andThen_assoc {γ : Type} (x : Run ε α) (f : α → Run ε β) (g : β → Run ε γ) :
    andThen (andThen x f) g = andThen x fun a => andThen (f a) g := by
  funext w n
  rcases h : x w n with ⟨steps, r⟩
  cases r with
  | error e => simp [andThen, h]
  | ok a =>
    simp only [andThen, h]
    generalize hm : n + Outcome.drawn ⟨steps, .ok a⟩ = m
    rcases h' : f a w m with ⟨steps', r'⟩
    cases r' with
    | error e => simp
    | ok b =>
      simp only [Outcome.drawn, List.countP_append, ← Nat.add_assoc] at hm ⊢
      simp [hm]

instance : LawfulMonad (Run ε) :=
  LawfulMonad.mk' _ andThen_pure pure_andThen andThen_assoc

end Run

end NestedStacks
