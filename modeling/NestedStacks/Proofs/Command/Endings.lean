/-
How a run of the program ends.

The work of a run comes to a text or to a failure, and what is done with it is one of four things.
Other proofs about the program take a run apart with `Invocation.ends_runOn` and never unfold it.

* `Invocation.Ends`, `Invocation.ends_runOn` — the four endings;
* `Failure.kind?`, `exitCodeOf`, `Failure.exitCode_eq` — the exit code of a failure.
-/
import NestedStacks.Command.Program

namespace NestedStacks.Command

/-- `i.Ends fs directory o (report, fs')`: a run of `i` on the files `fs` in `directory`, whose work
comes to the outcome `o`, ends with `report` and the files `fs'`.  With an error `f` the report is
`.failed f` and `fs'` is `fs`.  With a text and `i.output = none` it is `.printed text`.  With a
text and a file for it, either `fs.write` fails and `fs'` is `fs`, or `fs'` are the files that it
gives. -/
inductive Invocation.Ends (i : Invocation) (fs : Files) (directory : Path)
    (o : Outcome Failure String) : Report × Files → Prop
  | failed {f : Failure} (hresult : o.result = .error f) :
    i.Ends fs directory o (.failed f o.notes, fs)
  | printed {text : String} (hresult : o.result = .ok text) (houtput : i.output = none) :
    i.Ends fs directory o (.printed text o.notes, fs)
  | unwritten {text output : String} {fault : FileFault} (hresult : o.result = .ok text)
    (houtput : i.output = some output)
    (hwrite : fs.write (directory.join ⟨output⟩) text = .error fault) :
    i.Ends fs directory o (.failed (.writing ⟨output⟩ fault) o.notes, fs)
  | stored {text output : String} {fs' : Files} (hresult : o.result = .ok text)
    (houtput : i.output = some output)
    (hwrite : fs.write (directory.join ⟨output⟩) text = .ok fs') :
    i.Ends fs directory o (.stored ⟨output⟩ o.notes, fs')

theorem Invocation.ends_runOn (i : Invocation) (fs : Files) (directory : Path)
    (identifier : Nat → String) :
    i.Ends fs directory (i.render (fs.world directory identifier) 0)
      (i.runOn fs directory identifier) := by
  unfold Invocation.runOn Invocation.pending Invocation.report
  generalize i.render (fs.world directory identifier) 0 = o
  cases hresult : o.result with
  | error f =>
    simp only [hresult]
    exact .failed hresult
  | ok text =>
    cases houtput : i.output with
    | none =>
      simp only [hresult]
      exact .printed hresult houtput
    | some output =>
      simp only [hresult]
      cases hwrite : fs.write (directory.join ⟨output⟩) text with
      | error fault => exact .unwritten hresult houtput hwrite
      | ok fs' => exact .stored hresult houtput hwrite

/-! ### Exit codes -/

/-- The sort of the error behind `f`: `none` if `f` has no error of a template. -/
def Failure.kind? (f : Failure) : Option ErrorKind := f.error?.map StackError.kind

/-- The exit code for a sort of errors: 2 for `notFound`, 3 for `parse` and `shape`, 4 for `config`,
and 1 for `io` and for failures that have no sort. -/
def exitCodeOf : Option ErrorKind → Nat
  | some .notFound => 2
  | some .parse | some .shape => 3
  | some .config => 4
  | some .io | none => 1

/-- The exit code of `f` is `exitCodeOf f.kind?`, unless the sort says no more than that something
went wrong and the headline of `f` speaks of configuration: then it is 4. -/
theorem Failure.exitCode_eq (f : Failure) :
    f.exitCode =
      if (f.kind? = none ∨ f.kind? = some .io) ∧ mentions "configuration" f.headline = true then 4
      else exitCodeOf f.kind? := by
  unfold Failure.exitCode
  rw [show f.error?.map StackError.kind = f.kind? from rfl]
  generalize f.kind? = kind
  cases kind with
  | none => simp [exitCodeOf]
  | some kind => cases kind <;> simp [exitCodeOf]

theorem Failure.exitCode_ne_zero (f : Failure) : f.exitCode ≠ 0 := by
  have hcode : exitCodeOf f.kind? ≠ 0 := by
    unfold exitCodeOf
    split <;> simp
  rw [f.exitCode_eq]
  split
  · simp
  · exact hcode

end NestedStacks.Command
