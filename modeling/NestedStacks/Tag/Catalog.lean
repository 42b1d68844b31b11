/-
The tags that templates may use.

Intrinsic functions stand for values that are known when the stack is created; macros are
replaced while a template is loaded.  Each tag accepts payloads of a certain shape.

* `Tag.ofYaml?` — the tag with a spelling, macros by their short names too;
* `Tag.kind` — the payloads that a tag accepts;
* `Tag.ofYaml?_yamlName` — every tag is found under its own name.
-/

namespace NestedStacks

/-- The shapes of payload that the tags of the catalog accept.  No tag asks for a mapping, so there
is no kind that does. -/
inductive PayloadKind where
  | scalar
  | sequence
  | sequenceOrScalar
  deriving DecidableEq, Repr

/-- The name of a kind in messages. -/
def PayloadKind.name : PayloadKind → String
  | .scalar => "scalar"
  | .sequence => "sequence"
  | .sequenceOrScalar => "sequence or scalar"

/-- Intrinsic functions. -/
inductive Intrinsic where
  | and
  | condition
  | base64
  | equals
  | findInMap
  | getAtt
  | getAZs
  | ifElse
  | importValue
  | join
  | not
  | or
  | select
  | split
  | sub
  | ref
  deriving DecidableEq, Repr

namespace Intrinsic

/-- All intrinsic functions. -/
def all : List Intrinsic :=
  [.and, .condition, .base64, .equals, .findInMap, .getAtt, .getAZs, .ifElse, .importValue, .join,
    .not, .or, .select, .split, .sub, .ref]

/-- The spelling as a tag, without exclamation mark. -/
def yamlName : Intrinsic → String
  | .and => "And"
  | .condition => "Condition"
  | .base64 => "Base64"
  | .equals => "Equals"
  | .findInMap => "FindInMap"
  | .getAtt => "GetAtt"
  | .getAZs => "GetAZs"
  | .ifElse => "If"
  | .importValue => "ImportValue"
  | .join => "Join"
  | .not => "Not"
  | .or => "Or"
  | .select => "Select"
  | .split => "Split"
  | .sub => "Sub"
  | .ref => "Ref"

/-- The name of the function in plain data. -/
def functionName : Intrinsic → String
  | .ref => "Ref"
  | i => "Fn::" ++ i.yamlName

/-- The payloads that the function accepts. -/
def kind : Intrinsic → PayloadKind
  | .condition | .base64 | .getAZs | .importValue | .ref => .scalar
  | .getAtt | .sub => .sequenceOrScalar
  | .and | .equals | .findInMap | .ifElse | .join | .not | .or | .select | .split => .sequence

end Intrinsic

/-- Macros. -/
inductive MacroTag where
  /-- The text of a file. -/
  | includeString
  /-- The plain data of a document in a file, as text. -/
  | includeJson
  /-- A fresh identifier. -/
  | generateUuid
  deriving DecidableEq, Repr

namespace MacroTag

/-- All macros. -/
def all : List MacroTag := [.includeString, .includeJson, .generateUuid]

/-- A shorter spelling that is read too. -/
def shortName : MacroTag → String
  | .includeString => "IncludeString"
  | .includeJson => "IncludeJsonStringFromYamlFile"
  | .generateUuid => "GenerateUUID"

/-- The spelling as a tag, without exclamation mark. -/
def yamlName : MacroTag → String
  | .includeString => "Macro::IncludeString"
  | .includeJson => "Macro::IncludeJsonStringFromYamlFile"
  | .generateUuid => "Macro::GenerateUUID"

end MacroTag

/-- A tag of the catalog. -/
inductive Tag where
  | intrinsic (function : Intrinsic)
  | macroTag (name : MacroTag)
  deriving DecidableEq, Repr

namespace Tag

/-- The spelling without exclamation mark. -/
def yamlName : Tag → String
  | .intrinsic i => i.yamlName
  | .macroTag m => m.yamlName

/-- The spelling in a document. -/
def spelling (t : Tag) : String := "!" ++ t.yamlName

/-- The name in plain data. -/
def functionName : Tag → String
  | .intrinsic i => i.functionName
  | .macroTag m => m.yamlName

/-- The payloads that a tag accepts. -/
def kind : Tag → PayloadKind
  | .intrinsic i => i.kind
  | .macroTag _ => .scalar

/-- The intrinsic function of a tag. -/
def intrinsic? : Tag → Option Intrinsic
  | .intrinsic i => some i
  | .macroTag _ => none

/-- The macro of a tag. -/
def macroTag? : Tag → Option MacroTag
  | .intrinsic _ => none
  | .macroTag m => some m

/-- The tag with a name, without exclamation mark. -/
def ofName? (name : String) : Option Tag :=
  match Intrinsic.all.find? (fun i => i.yamlName == name) with
  | some i => some (.intrinsic i)
  | none =>
    (MacroTag.all.find? fun m => m.yamlName == name || m.shortName == name).map .macroTag

/-- The tag with a spelling; exclamation marks in front do not count. -/
def ofYaml? (spelling : String) : Option Tag :=
  ofName? (String.ofList (spelling.toList.dropWhile (· == '!')))

/-- Every tag is found under its own name. -/
theorem ofYaml?_yamlName (t : Tag) : ofYaml? t.yamlName = some t := by
  cases t with
  | intrinsic i => cases i <;> decide +kernel
  | macroTag m => cases m <;> decide +kernel

/-- Every tag is found under its spelling in documents. -/
theorem ofYaml?_spelling (t : Tag) : ofYaml? t.spelling = some t := by
  cases t with
  | intrinsic i => cases i <;> decide +kernel
  | macroTag m => cases m <;> decide +kernel

end Tag

end NestedStacks
