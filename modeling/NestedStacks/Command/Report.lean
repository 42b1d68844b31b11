/-
Reports: what the program ends with.

* `Report` — the exit code, standard output, the reason if there is no result, and all notes;
* `noteLine` — a note as a line of a log.
-/
import NestedStacks.Command.Arguments
import NestedStacks.Command.Failure
import NestedStacks.Plain.Data
import NestedStacks.Run.Note

namespace NestedStacks.Command

/-- Why there is no result. -/
inductive Complaint where
  | misuse
  | failure (failure : Failure)
  deriving DecidableEq, Repr

/-- What the program ends with. -/
structure Report where
  exit : Nat
  stdout : String
  complaint : Option Complaint := none
  notes : List Note := []

namespace Report

/-- The report of a failure. -/
def failed (f : Failure) (notes : List Note) : Report :=
  { exit := f.exitCode, stdout := "", complaint := some (.failure f), notes }

/-- The report of a result on standard output. -/
def printed (text : String) (notes : List Note) : Report :=
  { exit := 0, stdout := text ++ "\n", notes }

/-- The report of a result in a file. -/
def stored (path : Path) (notes : List Note) : Report :=
  { exit := 0, stdout := "", notes := notes ++ [⟨.info, .writing, "Wrote " ++ path.text⟩] }

/-- The report on arguments that make no sense. -/
def misused : Report := { exit := 2, stdout := "", complaint := some .misuse }

/-- The report on the version. -/
def version (command : Option Action) : Report :=
  let name := match command with
    | none => "stackfold"
    | some c => "stackfold-" ++ c.name
  { exit := 0, stdout := name ++ " 0.1.0\n" }

/-- The report with a short description of the arguments. -/
def help : Report :=
  { exit := 0
    stdout := "Usage: stackfold [-v] [-q] [--log-json] [--config FILE] flatten|retain TEMPLATE\n"
      ++ "         [--macros | --no-macros] [--format yaml|json] [-o FILE]\n" }

end Report

/-- A note as a line of a log: one object of plain data, or the level in five columns and the
message. -/
def noteLine (asData : Bool) (n : Note) : String :=
  if asData then
    (Data.obj
      [("level", .str n.level.name), ("fields", .obj [("message", .str n.message)]),
        ("target", .str n.origin.target)]).compact
  else "".pushn ' ' (5 - n.level.name.length) ++ n.level.name ++ " " ++ n.message

end NestedStacks.Command
