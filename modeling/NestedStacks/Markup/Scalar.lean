/-
What the text of a scalar stands for.

* `plainValue` — the value of a plain scalar without a tag;
* `readsAsString` — whether a plain scalar is just its text;
* `scalarValue` — the value of any scalar, by its tag and style.
-/
import NestedStacks.Document.Tree
import NestedStacks.Markup.Node

namespace NestedStacks.Markup

/-- The words for no value. -/
def isNullWord (s : String) : Bool := s == "null" || s == "Null" || s == "NULL" || s == "~"

/-- The words for truth values. -/
def boolWord? (s : String) : Option Bool :=
  if s == "true" || s == "True" || s == "TRUE" then some true
  else if s == "false" || s == "False" || s == "FALSE" then some false
  else none

/-- A text without its sign, if it starts with one. -/
def dropSign : List Char → List Char
  | '-' :: cs => cs
  | '+' :: cs => cs
  | cs => cs

/-- Whether a text is all digits and more than one, the first of them zero: no number. -/
def hasLeadingZero (s : String) : Bool :=
  match dropSign s.toList with
  | '0' :: c :: cs => (c :: cs).all Char.isDigit
  | _ => false

/-- The value of digits in a base; at least one digit is needed. -/
def digitsIn? (base : Nat) : List Char → Option Nat
  | [] => none
  | cs => cs.foldlM (fun n c => (hexValue? c).bind fun d =>
      if d < base then some (base * n + d) else none) 0

/-- The value of a whole number without a sign: decimal, or in base 16, 8 or 2 behind the mark
of that base. -/
def magnitude? : List Char → Option Nat
  | '0' :: 'x' :: cs => digitsIn? 16 cs
  | '0' :: 'o' :: cs => digitsIn? 8 cs
  | '0' :: 'b' :: cs => digitsIn? 2 cs
  | '0' :: _ :: _ => none
  | cs => digitsIn? 10 cs

/-- The value of a whole number of any size. -/
def wholeNumber? (s : String) : Option Int :=
  match s.toList with
  | '-' :: cs => (magnitude? cs).map fun n => -(n : Int)
  | '+' :: cs => (magnitude? cs).map Int.ofNat
  | cs => (magnitude? cs).map Int.ofNat

/-- The word of a floating-point text that is finite or one of the special words. -/
def floatWord? (s : String) : Option UInt64 :=
  let unsigned := if s.startsWith "+" then (s.drop 1).toString else s
  if unsigned == ".inf" || unsigned == ".Inf" || unsigned == ".INF" then
    some (UInt64.ofNat Binary64.infinityBits)
  else if s == "-.inf" || s == "-.Inf" || s == "-.INF" then
    some (UInt64.ofNat (Binary64.signBit + Binary64.infinityBits))
  else if s == ".nan" || s == ".NaN" || s == ".NAN" then
    some (UInt64.ofNat Binary64.notANumberBits)
  else if s.startsWith "+" && (unsigned.startsWith "+" || unsigned.startsWith "-") then none
  else Decimal.wordOfText? unsigned.toList

/-- A whole number as a value: numbers of up to 64 bits are kept, longer ones of up to 128 bits
are refused, and still longer ones are no whole numbers. -/
def intValue (n : Int) : Except Fault (Option Tree) :=
  if -0x8000000000000000 ≤ n ∧ n ≤ 0xffffffffffffffff then .ok (some (.num (.int n)))
  else if -0x80000000000000000000000000000000 ≤ n ∧ n ≤ 0xffffffffffffffffffffffffffffffff then
    .error .scalarTag
  else .ok none

/-- The whole number that a text stands for. -/
def intText (s : String) : Except Fault (Option Tree) :=
  match wholeNumber? s with
  | some n => intValue n
  | none => .ok none

/-- The value of a plain scalar without a tag. -/
def plainValue (s : String) : Except Fault Tree := do
  if s.isEmpty || isNullWord s then return .null
  if let some b := boolWord? s then return .bool b
  if let some n ← intText s then return n
  if !hasLeadingZero s then
    if let some bits := floatWord? s then return .num (.float bits)
  return .str s

/-- Whether a plain scalar is just its text, so that the text needs no quotes. -/
def readsAsString (s : String) : Bool :=
  match plainValue s with
  | .ok (.str _) => !hasLeadingZero s
  | .ok _ => false
  | .error _ => false

/-- The value of a scalar. -/
def scalarValue (tag : NodeTag) (style : ScalarStyle) (s : String) : Except Fault Tree :=
  match tag with
  | .bool =>
    match boolWord? s with
    | some b => .ok (.bool b)
    | none => .error .scalarTag
  | .int => do
    match ← intText s with
    | some n => return n
    | none => throw Fault.scalarTag
  | .float =>
    match floatWord? s with
    | some bits => .ok (.num (.float bits))
    | none => .error .scalarTag
  | .null => if isNullWord s then .ok .null else .error .scalarTag
  | .other => .ok (.str s)
  | .none | .named _ => if style = .plain then plainValue s else .ok (.str s)

end NestedStacks.Markup
