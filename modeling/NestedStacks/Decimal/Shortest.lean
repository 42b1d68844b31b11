/-
The fewest decimal digits that read back as a given binary64 value.

All reals between the midpoints to a value's two neighbours are rounded to that value (the
midpoints themselves too when its significand is even).  Of the decimals in that interval,
`shortest` takes those with the fewest digits, and of these the one nearest to the value.

* `Decimal.shortest` — digits and scale of a positive magnitude;
* `Interval.holds` — the test whether a point of a decimal grid reads back.
-/
import NestedStacks.Decimal.Binary64

namespace NestedStacks

/-- The decimal `digits * 10 ^ scale`. -/
structure Decimal where
  digits : Nat
  scale : Int
  deriving DecidableEq, Repr

namespace Decimal

/-- The reals that are rounded to one magnitude: all four numbers count the same unit, a
quarter of the last place times a power of ten, so that comparisons are exact. -/
structure Interval where
  low : Nat
  value : Nat
  high : Nat
  unit : Nat
  closed : Bool

/-- Whether the whole multiple `d` of the unit lies in the interval. -/
def Interval.holds (i : Interval) (d : Nat) : Bool :=
  if i.closed then i.low ≤ d * i.unit && d * i.unit ≤ i.high
  else i.low < d * i.unit && d * i.unit < i.high

/-- The interval of a magnitude, in units of `10 ^ scale`. -/
def Interval.ofMagnitude (m : Binary64.Magnitude) (scale : Int) : Interval :=
  -- below a power of two the lower neighbour is half as far away
  let below := if m.significand = Binary64.leadingBit ∧ m.exponent ≠ -1074 then 1 else 2
  let twos : Int := m.exponent - 2
  let up := Nat.pow 10 (-scale).toNat <<< twos.toNat
  { low := (4 * m.significand - below) * up
    value := 4 * m.significand * up
    high := (4 * m.significand + 2) * up
    unit := Nat.pow 10 scale.toNat <<< (-twos).toNat
    closed := m.significand % 2 = 0 }

/-- The whole multiple of the unit that the interval holds, the nearer one of two; of two
equally near ones the even one. -/
def Interval.pick (i : Interval) : Option Nat :=
  let d := i.value / i.unit
  match i.holds d, i.holds (d + 1) with
  | true, true => some (roundDiv i.value i.unit)
  | true, false => some d
  | false, true => some (d + 1)
  | false, false => none

/-- How many digits a positive magnitude has before its decimal point; zero or negative when
it starts after the point. -/
def pointPosition (m : Binary64.Magnitude) : Int :=
  -- every positive magnitude is well above `10 ^ (-400)`
  let scaled :=
    (m.significand * Nat.pow 10 400) <<< m.exponent.toNat >>> (-m.exponent).toNat
  ((Nat.repr scaled).length : Int) - 400

/-- Drops the final zeros of the digits; `fuel` bounds how many. -/
def trimZeros : Nat → Decimal → Decimal
  | 0, d => d
  | fuel + 1, d =>
    if d.digits ≠ 0 ∧ d.digits % 10 = 0 then trimZeros fuel ⟨d.digits / 10, d.scale + 1⟩ else d

/-- The first of the digit counts that gives a decimal which reads back. -/
def search (m : Binary64.Magnitude) (point : Int) : List Nat → Option Decimal
  | [] => none
  | n :: rest =>
    let scale := point - n
    match (Interval.ofMagnitude m scale).pick with
    | some d => some ⟨d, scale⟩
    | none => search m point rest

/-- The shortest decimal of a positive magnitude; seventeen digits always suffice. -/
def shortest (m : Binary64.Magnitude) : Decimal :=
  if m.significand = 0 then ⟨0, 0⟩
  else
    match search m (pointPosition m) ((List.range 18).drop 1) with
    | some d => trimZeros 20 d
    | none => ⟨m.significand, 0⟩

end Decimal

end NestedStacks
