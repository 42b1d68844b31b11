/-
Finite binary64 values as exact whole-number data.

A finite value without its sign is `significand * 2 ^ exponent`.  Nothing here runs
floating-point arithmetic: a word is taken apart into whole numbers, and `ofRatio` rounds an
exact quotient to the nearest word.

* `Binary64.ofBits` — the fields of a word, as a sign and an exact magnitude;
* `Binary64.ofRatio` — the word nearest to a quotient of whole numbers, a tie going to the
  even significand; `none` when the quotient is too large for a finite word;
* `roundDiv_le`, `lt_roundDiv` — rounding moves a quotient by at most one half.
-/

namespace NestedStacks

/-- The quotient `num / den` rounded to the nearest whole number, a tie going to the even one. -/
def roundDiv (num den : Nat) : Nat :=
  let q := num / den
  let twice := 2 * (num % den)
  if twice < den then q
  else if den < twice then q + 1
  else if q % 2 = 0 then q
  else q + 1

/-- Rounding never goes up by more than one half. -/
theorem roundDiv_le (num den : Nat) (h : 0 < den) :
    2 * (roundDiv num den * den) ≤ 2 * num + den := by
  have hdiv := Nat.div_add_mod num den
  have hcomm := Nat.mul_comm den (num / den)
  have hsucc := Nat.succ_mul (num / den) den
  simp only [roundDiv]
  split <;> (try split) <;> (try split) <;> simp only [Nat.succ_eq_add_one] at * <;> omega

/-- Rounding never goes down by more than one half. -/
theorem lt_roundDiv (num den : Nat) (h : 0 < den) :
    2 * num ≤ 2 * (roundDiv num den * den) + den := by
  have hdiv := Nat.div_add_mod num den
  have hmod := Nat.mod_lt num h
  have hcomm := Nat.mul_comm den (num / den)
  have hsucc := Nat.succ_mul (num / den) den
  simp only [roundDiv]
  split <;> (try split) <;> (try split) <;> simp only [Nat.succ_eq_add_one] at * <;> omega

namespace Binary64

/-- An exact magnitude `significand * 2 ^ exponent`. -/
structure Magnitude where
  significand : Nat
  exponent : Int
  deriving DecidableEq, Repr

/-- What a word of 64 bits stands for. -/
inductive Value where
  | notANumber
  | infinite (negative : Bool)
  | finite (negative : Bool) (magnitude : Magnitude)
  deriving DecidableEq, Repr

/-- The word of the positive infinity: every finite word is below it. -/
def infinityBits : Nat := 0x7ff <<< 52

/-- The weight of the sign bit. -/
def signBit : Nat := 1 <<< 63

/-- The word that stands for "not a number". -/
def notANumberBits : Nat := 0x7ff8 <<< 48

/-- The weight of the bit in front of the fraction, which a word does not hold. -/
def leadingBit : Nat := 1 <<< 52

/-- Reads the fields of a word. -/
def ofBits (bits : UInt64) : Value :=
  let word := bits.toNat
  let negative := decide (signBit ≤ word)
  let fraction : Nat := word % leadingBit
  let field : Nat := word / leadingBit % 0x800
  if field = 0x7ff then
    if fraction = 0 then .infinite negative else .notANumber
  else if field = 0 then .finite negative ⟨fraction, -1074⟩
  else .finite negative ⟨leadingBit + fraction, (field : Int) - 1075⟩

/-- The word nearest to `num / den`; `none` if that quotient is beyond the finite words. -/
def ofRatio (num den : Nat) : Option Nat :=
  if num = 0 then some 0
  else
    let guess : Int := (num.log2 : Int) - (den.log2 : Int) - 52
    -- the guess is at most one too high, and then one bit would be lost
    let tooHigh : Bool :=
      if 0 ≤ guess then decide (num < den <<< (52 + guess.toNat))
      else decide (num <<< (-guess).toNat < den <<< 52)
    let exponent : Int := max (-1074) (if tooHigh then guess - 1 else guess)
    let significand :=
      if 0 ≤ exponent then roundDiv num (den <<< exponent.toNat)
      else roundDiv (num <<< (-exponent).toNat) den
    -- a significand that rounds up to the next power of two carries into the exponent field
    let word := (exponent + 1074).toNat * leadingBit + significand
    if word < infinityBits then some word else none

end Binary64

end NestedStacks
