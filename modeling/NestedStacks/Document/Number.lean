/-
Numbers of a document: whole numbers and binary64 values.

A binary64 value is kept as its word, so that two numbers are the same exactly when they are
written the same; `Number.same` is the coarser equality that compares keys.
-/
import NestedStacks.Decimal.Layout
import NestedStacks.Decimal.Reading

namespace NestedStacks

/-- A number as a document holds it. -/
inductive Number where
  | int (value : Int)
  | float (bits : UInt64)
  deriving DecidableEq, Repr, Inhabited

namespace Number

/-- Equality of keys: whole numbers and floats are never equal, all that are not numbers are
equal to each other, and so are the two zeros. -/
def same : Number → Number → Bool
  | .int a, .int b => a == b
  | .float a, .float b =>
    match Binary64.ofBits a, Binary64.ofBits b with
    | .notANumber, .notANumber => true
    | .finite _ ⟨0, _⟩, .finite _ ⟨0, _⟩ => true
    | _, _ => a == b
  | _, _ => false

/-- The text of a number in a document. -/
def text : Number → String
  | .int n => toString n
  | .float bits =>
    match Binary64.ofBits bits with
    | .notANumber => ".nan"
    | .infinite negative => if negative then "-.inf" else ".inf"
    | .finite negative m =>
      (if negative then "-" else "") ++ Layout.markup.render (Decimal.shortest m)

/-- The text of a number as plain data, which has no word for values that are not finite. -/
def json? : Number → Option String
  | .int n => some (toString n)
  | .float bits =>
    match Binary64.ofBits bits with
    | .finite negative m =>
      some ((if negative then "-" else "") ++ Layout.json.render (Decimal.shortest m))
    | _ => none

end Number

end NestedStacks
