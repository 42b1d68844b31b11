/-
Plain data: null, truth values, numbers, strings, lists and records, without tags.

The fields of a record are kept in the order of their names, so that equal records are written
the same.

* `Data.setField` — a field given again takes the place of the earlier one;
* `Data.compact`, `Data.pretty` — the two written forms.
-/
import NestedStacks.Document.Number

namespace NestedStacks

/-- Plain data. -/
inductive Data where
  | null
  | bool (value : Bool)
  | num (value : Number)
  | str (text : String)
  | arr (items : List Data)
  | obj (fields : List (String × Data))
  deriving Inhabited

namespace Data

/-- Sets a field of a record whose fields are in the order of their names. -/
def setField (name : String) (value : Data) : List (String × Data) → List (String × Data)
  | [] => [(name, value)]
  | field :: rest =>
    if name < field.1 then (name, value) :: field :: rest
    else if name = field.1 then (name, value) :: rest
    else field :: setField name value rest

/-- A number as plain data: null if it is not finite. -/
def ofNumber (n : Number) : Data := if n.json?.isSome then .num n else .null

/-- A lower case hexadecimal digit. -/
def hexDigit (n : Nat) : Char := if n < 10 then Char.ofNat (48 + n) else Char.ofNat (87 + n)

/-- A character inside a written string. -/
def escaped (c : Char) : String :=
  if c == '\x22' then "\\\x22"
  else if c == '\\' then "\\\\"
  else if c == '\x08' then "\\b"
  else if c == '\x0c' then "\\f"
  else if c == '\n' then "\\n"
  else if c == '\r' then "\\r"
  else if c == '\t' then "\\t"
  else if c.toNat < 0x20 then
    (("\\u00").push (hexDigit (c.toNat / 16))).push (hexDigit (c.toNat % 16))
  else c.toString

/-- A string with its quotes. -/
def quoted (s : String) : String := "\x22" ++ String.join (s.toList.map escaped) ++ "\x22"

/-- A number, if it is finite. -/
def numberText (n : Number) : String := n.json?.getD "null"

mutual
/-- The form without any spaces. -/
def compact : Data → String
  | .null => "null"
  | .bool b => if b then "true" else "false"
  | .num n => numberText n
  | .str s => quoted s
  | .arr items => "[" ++ compactItems true items ++ "]"
  | .obj fields => "\x7b" ++ compactFields true fields ++ "\x7d"

/-- Items with a comma in front of all but the first. -/
def compactItems (first : Bool) : List Data → String
  | [] => ""
  | d :: rest => (if first then "" else ",") ++ d.compact ++ compactItems false rest

/-- Fields with a comma in front of all but the first. -/
def compactFields (first : Bool) : List (String × Data) → String
  | [] => ""
  | (name, d) :: rest =>
    (if first then "" else ",") ++ quoted name ++ ":" ++ d.compact ++ compactFields false rest
end

/-- The start of a line with two columns for each level. -/
def newLine (level : Nat) : String := "\n".pushn ' ' (2 * level)

mutual
/-- The form with a line for every item and field. -/
def prettyAt (level : Nat) : Data → String
  | .null => "null"
  | .bool b => if b then "true" else "false"
  | .num n => numberText n
  | .str s => quoted s
  | .arr [] => "[]"
  | .arr (d :: rest) =>
    "[" ++ newLine (level + 1) ++ prettyAt (level + 1) d ++ prettyItems (level + 1) rest
      ++ newLine level ++ "]"
  | .obj [] => "\x7b\x7d"
  | .obj ((name, d) :: rest) =>
    "\x7b" ++ newLine (level + 1) ++ quoted name ++ ": " ++ prettyAt (level + 1) d
      ++ prettyFields (level + 1) rest ++ newLine level ++ "\x7d"

/-- Further items. -/
def prettyItems (level : Nat) : List Data → String
  | [] => ""
  | d :: rest => "," ++ newLine level ++ prettyAt level d ++ prettyItems level rest

/-- Further fields. -/
def prettyFields (level : Nat) : List (String × Data) → String
  | [] => ""
  | (name, d) :: rest =>
    "," ++ newLine level ++ quoted name ++ ": " ++ prettyAt level d ++ prettyFields level rest
end

/-- The form with a line for every item and field. -/
def pretty (d : Data) : String := prettyAt 0 d

end Data

end NestedStacks
