import RegionIR.Decimal.Shortest
/-!
# Decimal texts of doubles

A `Layout` fixes how the shortest digits of a double are written: which exponents are written
positionally, whether a positive exponent carries a plus sign, and which way exact ties go. Two
layouts are in use, one for literals and attributes and one inside decoding messages.
-/
namespace RegionIR.Decimal

/-- The choices left open once the digits are known. -/
structure Layout where
  /-- The least exponent of the leading digit that is written positionally. -/
  least : Int
  /-- The greatest such exponent. -/
  greatest : Int
  /-- Whether a positive exponent is written with a plus sign. -/
  plus : Bool
  tie : Tie

/-- Literals and attributes: positional from `1e-4` up to below `1e16`, a tie goes up. -/
def Layout.literal : Layout := ⟨-4, 15, false, .up⟩

/-- Decoding messages: positional from `1e-5` up to below `1e16`, signed exponents. -/
def Layout.message : Layout := ⟨-5, 15, true, .even⟩

/-- Removes the zeros at the end of a list of digits. -/
def stripZeros (ds : List Char) : List Char :=
  (ds.reverse.dropWhile (· = '0')).reverse

/-- Digits with the decimal point after the one of weight `10 ^ 0`, where the first one has weight
`10 ^ e`. There is always a digit on each side of the point. -/
def positional (ds : List Char) (e : Int) : List Char :=
  if e < 0 then
    ['0', '.'] ++ List.replicate (-e - 1).toNat '0' ++ ds
  else
    let whole := e.toNat + 1
    let fraction := ds.drop whole
    ds.take whole ++ List.replicate (whole - ds.length) '0' ++ ['.'] ++
      (if fraction.isEmpty then ['0'] else fraction)

/-- Digits with the point after the first one, followed by the exponent. -/
def scientific (plus : Bool) (ds : List Char) (e : Int) : List Char :=
  let sign := if e < 0 then ['-'] else if plus then ['+'] else []
  ds.take 1 ++ (if ds.length ≤ 1 then [] else '.' :: ds.drop 1) ++ ['e'] ++ sign ++
    Nat.toDigits 10 e.natAbs

/-- The text of a finite positive double. -/
def Layout.digits (layout : Layout) (x : Binary64) : List Char :=
  let s := shortest layout.tie x
  let written := Nat.toDigits 10 s.coefficient
  let e := s.scale + (written.length : Int) - 1
  let ds := stripZeros written
  if layout.least ≤ e ∧ e ≤ layout.greatest then positional ds e
  else scientific layout.plus ds e

/-- The text of any double. -/
def Layout.text (layout : Layout) (x : Binary64) : String :=
  if x.isNaN then "NaN"
  else
    let body :=
      if x.isInfinite then ['i', 'n', 'f']
      else if x.isZero then ['0', '.', '0']
      else layout.digits x
    String.ofList (if x.isNegative then '-' :: body else body)

end RegionIR.Decimal
