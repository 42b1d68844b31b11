/-
The settings file: a document with a fixed set of keys.

The values are read from the written document, so the spelling of a scalar counts and not what
a document would make of it.  Where a collection is needed, nothing at all is an empty one.

* `Settings.parse` — the settings in a text.
-/
import NestedStacks.Markup.Document
import NestedStacks.Text.Blank
import NestedStacks.Template.Retention

namespace NestedStacks.Command

/-- The settings of the program. -/
structure Settings where
  /-- Whether macros are replaced unless the arguments say otherwise. -/
  macros : Bool := false
  /-- The policy for stateful resources. -/
  policy : String := "Retain"
  /-- Further stateful types. -/
  extraTypes : List String := []
  deriving DecidableEq, Repr, Inhabited

namespace Settings

open Markup

/-- Reading a value of a written document. -/
abbrev Reader (α : Type) := Node Nat → Except Fault α

variable {α : Type}

/-- The node itself, or what it is an alias of. -/
def resolve (w : Written) (n : Node Nat) : Except Fault (Node Nat) :=
  match w.target? n with
  | some n => .ok n
  | none => .error .unknownAlias

/-- A scalar as it is written. -/
def readText (w : Written) : Reader String := fun n => do
  match ← resolve w n with
  | .scalar _ _ text => return text
  | _ => throw Fault.settingType

/-- A truth value: a plain scalar, or a literal block with the tag of truth values. -/
def readBool (w : Written) : Reader Bool := fun n => do
  match ← resolve w n with
  | .scalar props style text =>
    let fits := style == .plain || (style == .literal && props.tag == .bool)
    match boolWord? text, fits with
    | some b, true => return b
    | _, _ => throw Fault.settingType
  | _ => throw Fault.settingType

/-- A sequence of values. -/
def readList (w : Written) (item : Reader α) : Reader (List α) := fun n => do
  match ← resolve w n with
  | .seq _ items => items.mapM item
  | .scalar _ .plain "" => return []
  | _ => throw Fault.settingType

/-- A mapping whose keys are told apart by `field`, which puts each value into a record.  No
key may be given twice. -/
def readRecord (w : Written) (start : α)
    (field : String → Option (Node Nat → α → Except Fault α)) : Reader α := fun n => do
  match ← resolve w n with
  | .map _ entries =>
    let result ← entries.foldlM (fun (acc : List String × α) (entry : Node Nat × Node Nat) => do
      let key ← readText w entry.1
      match acc.1.contains key, field key with
      | false, some put => return (key :: acc.1, ← put entry.2 acc.2)
      | _, _ => throw Fault.settingKey) ([], start)
    return result.2
  | .scalar _ .plain "" => return start
  | _ => throw Fault.settingType

/-- The settings about retention, on top of others. -/
def readRetention (w : Written) (s : Settings) : Reader Settings :=
  readRecord w s fun
    | "deletion_policy" => some fun n s => do return { s with policy := ← readText w n }
    | "extra_stateful_types" => some fun n s => do
      return { s with extraTypes := ← readList w (readText w) n }
    | _ => none

/-- All settings. -/
def read (w : Written) : Reader Settings :=
  readRecord w {} fun
    | "macros" => some fun n s => do return { s with macros := ← readBool w n }
    | "retain" => some fun n s => readRetention w s n
    | _ => none

/-- The settings in a text; what is not there has its usual value. -/
def parse (text : String) : Except Fault Settings := do
  if (Text.trim text).isEmpty then return {}
  match ← write? text with
  | none => return {}
  | some w => read w w.root

/-- Which resources get which policy. -/
def marker (s : Settings) : Marker :=
  (Marker.standard.withTypes s.extraTypes).withPolicy s.policy

end Settings

end NestedStacks.Command
