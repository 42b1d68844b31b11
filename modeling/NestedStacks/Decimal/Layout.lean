/-
How a number with decimal digits is written down.

A layout says up to where the positional form is used and how an exponent is spelled.  The
positional form always shows a point, and an exponent follows the shortest digits.

* `Layout.markup` and `Layout.json` — the two layouts in use;
* `Layout.render` — a decimal in a given layout.
-/
import NestedStacks.Decimal.Shortest

namespace NestedStacks

/-- The choices of a notation for decimals. -/
structure Layout where
  /-- The positional form needs the point to stand behind more than this many places. -/
  pointAbove : Int
  /-- The positional form needs the point to stand behind at most this many places. -/
  pointUpTo : Int
  /-- Whether a positive exponent has a sign. -/
  plusSign : Bool

namespace Layout

/-- Documents use the positional form from `0.00001` to below `1e16`. -/
def markup : Layout := ⟨-5, 16, false⟩

/-- Plain data differs from documents in the sign of a positive exponent only. -/
def json : Layout := ⟨-5, 16, true⟩

/-- The digits with a point behind the first `point` of them, filled up with zeros. -/
def positional (digits : String) (point : Int) : String :=
  if point ≤ 0 then "0." ++ "".pushn '0' (-point).toNat ++ digits
  else
    let whole := point.toNat
    if digits.length ≤ whole then digits.pushn '0' (whole - digits.length) ++ ".0"
    else (digits.take whole).toString ++ "." ++ (digits.drop whole).toString

/-- The digits with a point behind the first one and an exponent. -/
def scientific (l : Layout) (digits : String) (point : Int) : String :=
  let exponent := point - 1
  let mantissa :=
    if digits.length ≤ 1 then digits
    else (digits.take 1).toString ++ "." ++ (digits.drop 1).toString
  let sign := if 0 ≤ exponent ∧ l.plusSign then "+" else ""
  mantissa ++ "e" ++ sign ++ toString exponent

/-- The text of a decimal that is not negative. -/
def render (l : Layout) (d : Decimal) : String :=
  if d.digits = 0 then "0.0"
  else
    let digits := Nat.repr d.digits
    let point := digits.length + d.scale
    if l.pointAbove < point ∧ point ≤ l.pointUpTo then positional digits point
    else l.scientific digits point

end Layout

end NestedStacks
