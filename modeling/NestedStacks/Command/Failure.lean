/-
Failures of the program.

* `Failure.text` — the whole message: what was being done and what went wrong;
* `Failure.exitCode` — the sort of the failure as a number.
-/
import NestedStacks.Markup.Fault
import NestedStacks.Error

namespace NestedStacks.Command

/-- What can go wrong, together with what was being done. -/
inductive Failure where
  | settingsUnreadable (path : Path) (fault : FileFault)
  | settingsInvalid (path : Path) (fault : Markup.Fault)
  | flattening (path : Path) (error : StackError)
  | loading (path : Path) (error : StackError)
  /-- While marking a template or writing it as text. -/
  | working (error : StackError)
  | writing (path : Path) (fault : FileFault)
  deriving DecidableEq, Repr

namespace Failure

/-- The error behind a failure, if it is one of a template. -/
def error? : Failure → Option StackError
  | .flattening _ e | .loading _ e | .working e => some e
  | _ => none

/-- The first part of the message. -/
def headline : Failure → String
  | .settingsUnreadable path _ => "Configuration file not found: " ++ path.text
  | .settingsInvalid path _ => "Invalid configuration in " ++ path.text
  | .flattening path _ => "Failed to flatten " ++ path.text
  | .loading path _ => "Failed to load " ++ path.text
  | .working e => e.message
  | .writing path _ => "Failed to write " ++ path.text

/-- The message of an error and, if it comes from the system, the system's own words again. -/
def errorText (e : StackError) : String :=
  match e with
  | .document (.unreadable _ fault) => e.message ++ ": " ++ fault.message
  | _ => e.message

/-- The whole message. -/
def text (f : Failure) : String :=
  match f with
  | .settingsUnreadable _ fault | .writing _ fault => f.headline ++ ": " ++ fault.message
  | .settingsInvalid _ fault => f.headline ++ ": " ++ fault.message
  | .flattening _ e | .loading _ e => f.headline ++ ": " ++ errorText e
  | .working e => errorText e

/-- Whether characters hold those of a word next to each other. -/
def holds (word : List Char) : List Char → Bool
  | [] => word.isEmpty
  | c :: r => word.isPrefixOf (c :: r) || holds word r

/-- Whether a text holds a word, in any case. -/
def mentions (word : String) (s : String) : Bool :=
  holds word.toList (s.toList.map Char.toLower)

/-- The exit code: by the sort of the error; for errors of the system and those that are no
template errors, by whether the first part of the message speaks of configuration. -/
def exitCode (f : Failure) : Nat :=
  match f.error?.map StackError.kind with
  | some .notFound => 2
  | some .parse | some .shape => 3
  | some .config => 4
  | some .io | none => if mentions "configuration" f.headline then 4 else 1

end Failure

end NestedStacks.Command
