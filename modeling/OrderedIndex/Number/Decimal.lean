import OrderedIndex.Number.Basic
/-!
# Decimal text of a number

A finite number is written with the fewest significant digits that read back as the same number;
of several such decimals the nearest is taken. All tests are exact comparisons of integers, in
quarters of a unit so that the midpoints between neighbouring numbers are whole.
-/

namespace OrderedIndex

/-- A decimal: `digits * 10 ^ exponent`. -/
structure Decimal where
  digits : Nat
  exponent : Int
  deriving DecidableEq, Repr

namespace Decimal

/-- The decimals with a given exponent are the multiples of a unit, in fractions of the unit of
numbers: the decimal `n` is `n * first` parts, of which a unit of numbers has `second`. -/
def grid (exponent : Int) : Nat × Nat :=
  if 0 ≤ exponent then (Number.one * Number.tenTo exponent.toNat, 1)
  else (Number.one, Number.tenTo (-exponent).toNat)

/-- What reads back as one number, between the midpoints to its neighbours, in quarters of a unit. -/
structure Range where
  lowest : Nat
  highest : Nat
  /-- Whether the ends belong to the range. -/
  closed : Bool
  deriving DecidableEq, Repr

/-- The range of a positive magnitude. Just above a power of two the numbers below are twice as
close. The ends round to the number that is even in its last kept place. -/
def rangeOf (magnitude : Nat) : Range :=
  let step := Number.twoTo (Number.excess magnitude)
  let below := if magnitude = Number.twoTo 52 * step ∧ 1 < step then step else 2 * step
  { lowest := 4 * magnitude - below
    highest := 4 * magnitude + 2 * step
    closed := magnitude / step % 2 = 0 }

def Range.contains (range : Range) (num den : Nat) : Bool :=
  if range.closed then range.lowest * den ≤ 4 * num ∧ 4 * num ≤ range.highest * den
  else range.lowest * den < 4 * num ∧ 4 * num < range.highest * den

/-- The decimal with the given exponent just below a magnitude, or equal to it. -/
def floorAt (exponent : Int) (magnitude : Nat) : Decimal where
  digits := magnitude * (grid exponent).2 / (grid exponent).1
  exponent := exponent

/-- The nearer of the two decimals around a magnitude that read back, with the given exponent; a tie
goes to the even digit. -/
def nearest? (range : Range) (magnitude : Nat) (exponent : Int) : Option Decimal :=
  let (unit, parts) := grid exponent
  let low := magnitude * parts / unit
  let high := low + 1
  match range.contains (low * unit) parts, range.contains (high * unit) parts with
  | false, false => none
  | true, false => some ⟨low, exponent⟩
  | false, true => some ⟨high, exponent⟩
  | true, true =>
    match compare (2 * (magnitude * parts % unit)) unit with
    | .lt => some ⟨low, exponent⟩
    | .gt => some ⟨high, exponent⟩
    | .eq => some ⟨if low % 2 = 0 then low else high, exponent⟩

/-- An exponent whose power of ten is above a magnitude, and at most a hundred times as great: the
count of binary places below one, times the logarithm of two. -/
def scale (magnitude : Nat) : Int := ((magnitude.log2 + 1 : Int) - 1074) * 30103 / 100000 + 1

/-- Tries grids of decimals from the coarsest on; `remaining` bounds the finer ones. -/
def search (range : Range) (magnitude : Nat) (exponent : Int) : Nat → Decimal
  | 0 => floorAt exponent magnitude
  | remaining + 1 =>
    match nearest? range magnitude exponent with
    | some d => d
    | none => search range magnitude (exponent - 1) remaining

def trim (d : Decimal) : Decimal :=
  if h : d.digits ≠ 0 ∧ d.digits % 10 = 0 then trim ⟨d.digits / 10, d.exponent + 1⟩ else d
termination_by d.digits
decreasing_by omega

/-- The shortest decimal of a positive magnitude. Seventeen digits always suffice, and the first two
grids may be too coarse to have any. -/
def shortest (magnitude : Nat) : Decimal :=
  (search (rangeOf magnitude) magnitude (scale magnitude - 1) 19).trim

/-- Where the notation changes: a number is written out in full while its point stands at most
21 places after, or 5 places before, its first digit; otherwise it has a signed exponent. -/
def text (d : Decimal) : String :=
  let digits := d.digits.repr
  let length : Int := digits.length
  let point := length + d.exponent
  let zeros (n : Int) := String.ofList (List.replicate n.toNat '0')
  if length ≤ point ∧ point ≤ 21 then digits ++ zeros (point - length)
  else if 0 < point ∧ point ≤ 21 then
    String.ofList (digits.toList.take point.toNat) ++ "." ++
      String.ofList (digits.toList.drop point.toNat)
  else if -6 < point ∧ point ≤ 0 then "0." ++ zeros (-point) ++ digits
  else
    let tail := digits.toList.drop 1
    let fraction := if tail.isEmpty then "" else "." ++ String.ofList tail
    let sign := if 0 < point then "+" else "-"
    String.ofList (digits.toList.take 1) ++ fraction ++ "e" ++ sign ++ (point - 1).natAbs.repr

end Decimal

def Number.text : Number → String
  | .nan => "NaN"
  | .infinite negative => if negative then "-Infinity" else "Infinity"
  | .finite _ 0 => "0"
  | .finite negative magnitude =>
    (if negative then "-" else "") ++ (Decimal.shortest magnitude).text

end OrderedIndex
