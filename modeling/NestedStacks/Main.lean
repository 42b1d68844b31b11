/-
The program on the files of the machine.

The work itself is a function of what can be read.  So it is done again and again, each time
with the files that it asked for, until it asks for no further ones.
-/
import NestedStacks.Command.Program
import NestedStacks.Run.Uuid

namespace NestedStacks.Command

/-- The number of an error of the machine, which may be negated, and its wording. -/
def systemFault : IO.Error → UInt32 × String
  | .alreadyExists _ code text | .invalidArgument _ code text | .permissionDenied _ code text
  | .resourceExhausted _ code text | .inappropriateType _ code text | .noSuchThing _ code text
  | .noFileOrDirectory _ code text | .interrupted _ code text | .otherError code text
  | .resourceBusy code text | .resourceVanished code text | .unsupportedOperation code text
  | .hardwareFault code text | .unsatisfiedConstraints code text | .illegalOperation code text
  | .protocolError code text | .timeExpired code text => (code, text)
  | .unexpectedEof => (0, "unexpected end of file")
  | .userError text => (0, text)

/-- The result of an action on a file. -/
def onFile {α : Type} (path : Path) (action : IO α) : IO (Except FileFault α) := do
  if path.text.toList.contains '\x00' then return .error .zeroInName
  match ← action.toBaseIO with
  | .ok a => return .ok a
  | .error e =>
    let (code, text) := systemFault e
    return .error (.ofCode code.toInt32.toInt.natAbs text.capitalize)

/-- The text of a file. -/
def readText (path : Path) : IO (Except FileFault String) := do
  match ← onFile path (IO.FS.readBinFile path.text) with
  | .error fault => return .error fault
  | .ok content =>
    match String.fromUTF8? content with
    | some text => return .ok text
    | none => return .error .notText

/-- What has been read so far, by absolute path. -/
abbrev Snapshot := List (Path × Except FileFault String)

/-- A snapshot as a world; what has not been read is not there. -/
def Snapshot.world (s : Snapshot) (workingDirectory : Path) (seed : UInt64) : World :=
  { workingDirectory
    lookup := fun p => ((s.find? (·.1 == p)).map (·.2)).getD (.error .missing)
    depth := s.length + 1
    identifier := Uuid.sequence seed }

/-- Does the work with more and more of the files that it asks for. -/
partial def settle (i : Invocation) (workingDirectory : Path) (seed : UInt64) (s : Snapshot) :
    IO (Outcome Failure String) := do
  let o := i.render (s.world workingDirectory seed) 0
  let mut known := s
  for p in o.opened.map workingDirectory.join do
    unless known.any (·.1 == p) do
      known := (p, ← readText p) :: known
  if known.length == s.length then return o
  settle i workingDirectory seed known

/-- Runs the program on the files of the machine. -/
def Invocation.runHere (i : Invocation) : IO Report := do
  let workingDirectory : Path := ⟨(← IO.currentDir).toString⟩
  let seed ← IO.rand 0 0xffffffffffffffff
  let o ← settle i workingDirectory seed.toUInt64 []
  match i.pending o with
  | none => return i.report o (.ok ())
  | some (path, text) => return i.report o (← onFile path (IO.FS.writeFile path.text text))

/-- Prints a report; the answer is the exit code. -/
def Report.print (r : Report) (line : Note → String) : IO UInt32 := do
  for n in r.notes do
    IO.eprintln (line n)
  IO.print r.stdout
  match r.complaint with
  | none => pure ()
  | some .misuse => IO.eprint Report.help.stdout
  | some (.failure f) => IO.eprintln ("Error: " ++ f.text)
  return r.exit.toUInt32

end NestedStacks.Command

open NestedStacks NestedStacks.Command in
/-- Does what the arguments ask for. -/
def main (arguments : List String) : IO UInt32 := do
  match Request.ofArguments (← IO.getEnv "STACKFOLD_CONFIG") arguments with
  | .run i =>
    let filter := i.noteFilter (← IO.getEnv "RUST_LOG")
    let r ← i.runHere
    Report.print { r with notes := r.notes.filter filter.keeps } (noteLine i.logJson)
  | request =>
    let (r, _) := request.runOn {} ⟨"/"⟩ (Uuid.sequence 0)
    r.print (noteLine false)
