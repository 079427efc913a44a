import RegionIR.Binary64
/-!
# Shortest decimals

The decimal with the fewest digits among those that round to a given double, and among these the one
nearest to it. All comparisons are between natural numbers.
-/
namespace RegionIR.Decimal

/-- What happens when two shortest decimals are equally near. -/
inductive Tie where
  | up
  | even
  deriving DecidableEq

/-- The number `coefficient * 10 ^ scale`. -/
structure Scaled where
  coefficient : Nat
  scale : Int
  deriving DecidableEq

/-- The reals that round to one double, scaled by a common denominator: `value` lies between `low`
and `high`, and the ends belong to the interval when `closed` holds. -/
structure Interval where
  low : Nat
  value : Nat
  high : Nat
  den : Nat
  closed : Bool

/-- The rounding interval of a finite positive double. The gap below a power of two is half the gap
above it. -/
def Interval.ofBinary64 (x : Binary64) : Interval :=
  let m := x.significand
  let q := x.exponent - 2
  let below := if x.fractionField = 0 ∧ 1 < x.exponentField then 1 else 2
  let unit := twoTo q.toNat
  { low := (4 * m - below) * unit
    value := 4 * m * unit
    high := (4 * m + 2) * unit
    den := twoTo (-q).toNat
    closed := m % 2 = 0 }

def digitCount (n : Nat) : Nat := (Nat.toDigits 10 n).length

/-- The greatest `e` with `10 ^ e ≤ num / den`, for positive `num` and `den`. -/
def floorLog10 (num den : Nat) : Int :=
  let guess := (digitCount num : Int) - digitCount den
  if den * tenTo guess.toNat ≤ num * tenTo (-guess).toNat then guess else guess - 1

/-- Whether `c * 10 ^ g` lies in the interval. -/
def Interval.contains (i : Interval) (c : Nat) (g : Int) : Bool :=
  let x := c * tenTo g.toNat * i.den
  let up := tenTo (-g).toNat
  if i.closed then i.low * up ≤ x && x ≤ i.high * up
  else i.low * up < x && x < i.high * up

/-- The multiple of `10 ^ g` in the interval that is nearest to its value, if there is one. Only the
two neighbours of the value can be. -/
def Interval.nearest? (tie : Tie) (i : Interval) (g : Int) : Option Nat :=
  let num := i.value * tenTo (-g).toNat
  let den := i.den * tenTo g.toNat
  let below := num / den
  let twice := 2 * (num % den)
  match i.contains below g, i.contains (below + 1) g with
  | false, false => none
  | true, false => some below
  | false, true => some (below + 1)
  | true, true =>
    if twice < den then some below
    else if den < twice then some (below + 1)
    else match tie with
      | .up => some (below + 1)
      | .even => some (below + below % 2)

/-- Tries the grids from `10 ^ g` on down, `steps` of them; each one is ten times finer. -/
def Interval.search (tie : Tie) (i : Interval) (g : Int) : Nat → Scaled
  | 0 => ⟨i.value * tenTo (-g).toNat / (i.den * tenTo g.toNat), g⟩
  | steps + 1 =>
    match i.nearest? tie g with
    | some c => ⟨c, g⟩
    | none => i.search tie (g - 1) steps

/-- The shortest decimal of a finite positive double. Seventeen digits always suffice. -/
def shortest (tie : Tie) (x : Binary64) : Scaled :=
  let i := Interval.ofBinary64 x
  i.search tie (floorLog10 i.value i.den) 17

end RegionIR.Decimal
