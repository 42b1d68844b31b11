/-
Reading decimal texts.

A text is an optional sign, digits with at most one point among them (at least one digit), and
an optional exponent.  It is read exactly and rounded once.

* `Decimal.parse?` — the sign, digits and scale of a text;
* `Decimal.toBits?` — the nearest binary64 word, `none` when it would be infinite.
-/
import NestedStacks.Decimal.Shortest

namespace NestedStacks.Decimal

/-- The value of a list of decimal digits, read after the digits of `start`. -/
def digitsValue (start : Nat) (cs : List Char) : Nat :=
  cs.foldl (fun n c => 10 * n + (c.toNat - 48)) start

/-- An exponent: the letter, an optional sign and at least one digit; nothing at all is zero. -/
def exponent? : List Char → Option Int
  | [] => some 0
  | e :: rest =>
    if e = 'e' ∨ e = 'E' then
      let (negative, digits) :=
        match rest with
        | '-' :: ds => (true, ds)
        | '+' :: ds => (false, ds)
        | ds => (false, ds)
      if digits.isEmpty || !digits.all Char.isDigit then none
      else
        let n : Int := digitsValue 0 digits
        some (if negative then -n else n)
    else none

/-- A decimal without a sign. -/
def unsigned? (cs : List Char) : Option Decimal :=
  let whole := cs.takeWhile Char.isDigit
  let (fraction, rest) :=
    match cs.dropWhile Char.isDigit with
    | '.' :: r => (r.takeWhile Char.isDigit, r.dropWhile Char.isDigit)
    | r => ([], r)
  if whole.isEmpty && fraction.isEmpty then none
  else
    (exponent? rest).map fun e =>
      ⟨digitsValue (digitsValue 0 whole) fraction, e - (fraction.length : Int)⟩

/-- A decimal with an optional sign; the first part says whether it is a minus. -/
def parse? : List Char → Option (Bool × Decimal)
  | '-' :: cs => (unsigned? cs).map (true, ·)
  | '+' :: cs => (unsigned? cs).map (false, ·)
  | cs => (unsigned? cs).map (false, ·)

/-- The word nearest to a decimal, `none` when the decimal is beyond the finite words. -/
def toBits? (d : Decimal) : Option Nat :=
  let point : Int := ((Nat.repr d.digits).length : Int) + d.scale
  if d.digits = 0 then some 0
  -- far outside the range of exponents no power of ten is computed
  else if 400 < point then none
  else if point < -400 then some 0
  else if 0 ≤ d.scale then Binary64.ofRatio (d.digits * Nat.pow 10 d.scale.toNat) 1
  else Binary64.ofRatio d.digits (Nat.pow 10 (-d.scale).toNat)

/-- The finite binary64 word that a decimal text stands for. -/
def wordOfText? (cs : List Char) : Option UInt64 :=
  (parse? cs).bind fun (negative, d) =>
    (toBits? d).map fun word =>
      UInt64.ofNat (if negative then Binary64.signBit + word else word)

end NestedStacks.Decimal
