import RegionIR.Json.Cursor
import RegionIR.Json.Value
/-!
# JSON numbers

The reading of numbers. An integer keeps its value as long as it fits 64 bits. Everything else is a
double, computed in two rounded steps: the digits that fit an unsigned 64-bit significand are
collected and the others dropped, the significand becomes a double, and that is multiplied or divided
by a power of ten.
-/
namespace RegionIR.Json

/-- The number of values of an unsigned 64-bit word. -/
def wordCount : Nat := twoTo 64

def digitValue (c : Char) : Nat := c.toNat - '0'.toNat

/-- Appends digits to a significand until one no longer fits a word. Returns the significand and the
number of digits used. -/
def absorb (significand : Nat) : List Char → Nat × Nat
  | [] => (significand, 0)
  | d :: ds =>
    let next := significand * 10 + digitValue d
    if next < wordCount then
      let (s, used) := absorb next ds
      (s, used + 1)
    else (significand, 0)

/-- The greatest power of ten among the constants. -/
def greatestPower : Nat := 308

/-- Divides by `10 ^ e` in steps of the greatest power, `steps` of them at most. A zero stays zero,
so the remaining steps are left out. -/
def scaleDown (x : Binary64) (e : Nat) : Nat → Binary64
  | 0 => x
  | steps + 1 =>
    if e ≤ greatestPower then x.div (.pow10 e)
    else if x.isZero then x
    else scaleDown (x.div (.pow10 greatestPower)) (e - greatestPower) steps

/-- The product `significand * 10 ^ e` in double arithmetic, or nothing when it is out of range. -/
def scale? (significand : Nat) (e : Int) : Option Binary64 :=
  let x := Binary64.ofNat significand
  if e < 0 then some (scaleDown x e.natAbs (e.natAbs / greatestPower + 1))
  else if greatestPower < e.natAbs then if x.isZero then some x else none
  else
    let y := x.mul (.pow10 e.natAbs)
    if y.isInfinite then none else some y

namespace Reader

/-- The double of a significand and an exponent, with the sign applied last. -/
def scaled (negative : Bool) (significand : Nat) (e : Int) : Reader Number :=
  match scale? significand e with
  | none => failHere .numberOutOfRange
  | some x => return .float (if negative then x.neg else x)

/-- The greatest exponent that is read; a longer one is out of range or makes the number zero. -/
def exponentLimit : Nat := twoTo 31 - 1

/-- Reads further exponent digits after the value `e`. Stops right after a digit that exceeds the
limit, and says so. -/
def exponentDigits (e : Nat) : List Char → Reader (Nat × Bool)
  | [] => return (e, false)
  | d :: ds => do
    advance 1
    let next := e * 10 + digitValue d
    if exponentLimit < next then return (e, true) else exponentDigits next ds

/-- Reads an exponent after its letter has been seen. -/
def exponentPart (negative : Bool) (significand : Nat) (start : Int) : Reader Number := do
  advance 1
  let sign ← peek
  if sign = some '+' ∨ sign = some '-' then advance 1
  let down := sign = some '-'
  match ← peek with
  | none => failHere .endInValue
  | some c =>
    if !c.isDigit then failAhead .invalidNumber
    else
      let ds := (← get).rest.takeWhile Char.isDigit
      let (e, exceeded) ← exponentDigits 0 ds
      if !exceeded then scaled negative significand (if down then start - e else start + e)
      else if significand ≠ 0 ∧ !down then failHere .numberOutOfRange
      else
        let _ ← digits
        return .float (.zero negative)

/-- Reads what follows the digits before an exponent. -/
def afterDigits (negative : Bool) (significand : Nat) (start : Int) : Reader Number := do
  match ← peek with
  | some 'e' | some 'E' => exponentPart negative significand start
  | _ => scaled negative significand start

/-- Reads a fraction after its point has been seen. Each digit used lowers the exponent by one. -/
def fractionPart (negative : Bool) (significand : Nat) (start : Int) : Reader Number := do
  advance 1
  match ← peek with
  | none => failAhead .endInValue
  | some c =>
    if !c.isDigit then failAhead .invalidNumber
    else
      let (s, used) := absorb significand (← digits)
      afterDigits negative s (start - used)

/-- The number of an integer that fits a word. A negative zero and a negative integer below `-2^63`
are doubles. -/
def wholeNumber (negative : Bool) (n : Nat) : Number :=
  if !negative then .int n
  else if n = 0 ∨ twoTo 63 < n then .float (Binary64.ofNat n).neg
  else .int (-n)

/-- Reads a number after its sign. Integer digits that no longer fit raise the exponent. -/
def unsignedNumber (negative : Bool) : Reader Number := do
  match ← peek with
  | none => failHere .endInValue
  | some c =>
    if !c.isDigit then failAhead .invalidNumber
    else
      let ds ← (if c = '0' then do advance 1; return ['0'] else digits)
      let next ← peek
      if c = '0' ∧ next.any Char.isDigit then failAhead .invalidNumber
      else
        let (s, used) := absorb 0 ds
        let dropped := ds.length - used
        match next with
        | some '.' => fractionPart negative s dropped
        | some 'e' | some 'E' => exponentPart negative s dropped
        | _ => if dropped = 0 then return wholeNumber negative s else scaled negative s dropped

/-- Reads a number whose first character, a digit or a minus sign, is still unread. -/
def number : Reader Number := do
  if (← peek) = some '-' then
    advance 1
    unsignedNumber true
  else unsignedNumber false

end Reader

end RegionIR.Json
