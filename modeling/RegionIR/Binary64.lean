/-!
# Binary64 numbers

Double-precision numbers as their 64 bits, with the exact value of a finite one as a whole
significand times a power of two. Arithmetic goes through exact quotients of natural numbers and is
rounded once, to the nearest double with ties to the even significand.
-/
namespace RegionIR

/-- Two to the given power. -/
def twoTo (k : Nat) : Nat := Nat.pow 2 k

/-- Ten to the given power. -/
def tenTo (k : Nat) : Nat := Nat.pow 10 k

/-- A double-precision number, given by its interchange bits. -/
structure Binary64 where
  bits : UInt64
  deriving DecidableEq, Inhabited

namespace Binary64

/-- The bits below the sign. -/
def magnitude (x : Binary64) : Nat := x.bits.toNat % twoTo 63

def isNegative (x : Binary64) : Bool := twoTo 63 ≤ x.bits.toNat

def exponentField (x : Binary64) : Nat := x.magnitude / twoTo 52

def fractionField (x : Binary64) : Nat := x.magnitude % twoTo 52

def isInfinite (x : Binary64) : Bool := x.magnitude == 2047 * twoTo 52

def isNaN (x : Binary64) : Bool := 2047 * twoTo 52 < x.magnitude

def isZero (x : Binary64) : Bool := x.magnitude == 0

/-- A finite number is `significand * 2 ^ exponent` up to its sign. -/
def significand (x : Binary64) : Nat :=
  if x.exponentField = 0 then x.fractionField else twoTo 52 + x.fractionField

def exponent (x : Binary64) : Int :=
  if x.exponentField = 0 then -1074 else (x.exponentField : Int) - 1075

/-- The number with the given sign and the given bits below it. -/
def ofMagnitude (negative : Bool) (magnitude : Nat) : Binary64 :=
  ⟨UInt64.ofNat (if negative then twoTo 63 + magnitude else magnitude)⟩

def zero (negative : Bool) : Binary64 := ofMagnitude negative 0

def infinity (negative : Bool) : Binary64 := ofMagnitude negative (2047 * twoTo 52)

def nan : Binary64 := ofMagnitude false (2047 * twoTo 52 + twoTo 51)

/-- The whole number nearest to `num / den`, a half going to the even neighbour. -/
def roundHalfEven (num den : Nat) : Nat :=
  let quotient := num / den
  let twice := 2 * (num % den)
  if twice < den then quotient
  else if den < twice then quotient + 1
  else quotient + quotient % 2

/-- The greatest `e` with `2 ^ e ≤ num / den`, for positive `num` and `den`. -/
def floorLog2 (num den : Nat) : Int :=
  let guess := (num.log2 : Int) - den.log2
  if den * twoTo guess.toNat ≤ num * twoTo (-guess).toNat then guess else guess - 1

/-- The double nearest to `num / den`, ties to even, infinite beyond the greatest finite one. The
significand carries into the exponent field by itself, so the fields are simply added. -/
def ofRatio (negative : Bool) (num den : Nat) : Binary64 :=
  if num = 0 then zero negative
  else
    let q := max (floorLog2 num den - 52) (-1074)
    let m := roundHalfEven (num * twoTo (-q).toNat) (den * twoTo q.toNat)
    ofMagnitude negative (min (m + (q + 1074).toNat * twoTo 52) (2047 * twoTo 52))

def ofNat (n : Nat) : Binary64 := ofRatio false n 1

def ofInt (n : Int) : Binary64 := ofRatio (n < 0) n.natAbs 1

/-- Numerator and denominator of a finite number without its sign. -/
def ratio (x : Binary64) : Nat × Nat :=
  (x.significand * twoTo x.exponent.toNat, twoTo (-x.exponent).toNat)

/-- The product of two finite numbers, rounded. -/
def mul (x y : Binary64) : Binary64 :=
  ofRatio (x.isNegative != y.isNegative) (x.ratio.1 * y.ratio.1) (x.ratio.2 * y.ratio.2)

/-- The quotient of two finite numbers, rounded; the divisor is not zero. -/
def div (x y : Binary64) : Binary64 :=
  ofRatio (x.isNegative != y.isNegative) (x.ratio.1 * y.ratio.2) (x.ratio.2 * y.ratio.1)

/-- Ten to the given power, rounded. -/
def pow10 (k : Nat) : Binary64 := ofNat (tenTo k)

def neg (x : Binary64) : Binary64 := ofMagnitude (!x.isNegative) x.magnitude

end Binary64

end RegionIR
