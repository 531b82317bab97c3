import OrderedIndex.Number.Decimal
import OrderedIndex.Text.Blank
/-!
# Numerals

How a number is read from a text. A numeral is a decimal, which may have a sign, a point and an
exponent, or a whole number in base 2, 8 or 16 with a letter for its base and no sign. Blanks around a
numeral are skipped, and a text of blanks is zero; every other text is not a number. Nothing is
rounded before the whole numeral has been read.
-/

namespace OrderedIndex

/-- The double nearest to a decimal. No power of ten is computed where the first digit stands so far
from the point that the decimal is beyond all doubles, or nearer to zero than to any other double. -/
def Decimal.toNumber (negative : Bool) (d : Decimal) : Number :=
  let point : Int := d.digits.repr.length + d.exponent
  if d.digits = 0 ∨ point < -400 then .finite negative 0
  else if 400 < point then .infinite negative
  else .ofDecimal negative (d.digits * Number.tenTo d.exponent.toNat) (-d.exponent).toNat

namespace Numeral

def digit? (c : Char) : Option Nat :=
  if c.isDigit then some (c.toNat - '0'.toNat)
  else if 'a' ≤ c ∧ c ≤ 'f' then some (c.toNat - 'a'.toNat + 10)
  else if 'A' ≤ c ∧ c ≤ 'F' then some (c.toNat - 'A'.toNat + 10)
  else none

def natural? (base : Nat) (cs : List Char) : Option Nat :=
  if cs.isEmpty then none
  else cs.foldlM (fun n c => ((digit? c).filter (· < base)).map (n * base + ·)) 0

/-- Whether a numeral starts with a minus sign, and what follows its sign. -/
def splitSign : List Char → Bool × List Char
  | '-' :: cs => (true, cs)
  | '+' :: cs => (false, cs)
  | cs => (false, cs)

/-- The exponent of a decimal, zero if nothing is written. -/
def exponent? : List Char → Option Int
  | [] => some 0
  | mark :: cs =>
    let (negative, digits) := splitSign cs
    if mark = 'e' ∨ mark = 'E' then (natural? 10 digits).map (Number.signed negative) else none

/-- A decimal without a sign: digits before a point, after it, or both, and then the exponent. -/
def decimal? (cs : List Char) : Option Decimal := do
  let whole := cs.takeWhile Char.isDigit
  let (fraction, rest) :=
    match cs.dropWhile Char.isDigit with
    | '.' :: rest => (rest.takeWhile Char.isDigit, rest.dropWhile Char.isDigit)
    | rest => ([], rest)
  let digits ← natural? 10 (whole ++ fraction)
  let exponent ← exponent? rest
  return ⟨digits, exponent - fraction.length⟩

def base? (c : Char) : Option Nat :=
  if c = 'x' ∨ c = 'X' then some 16
  else if c = 'o' ∨ c = 'O' then some 8
  else if c = 'b' ∨ c = 'B' then some 2
  else none

/-- A whole number with a zero and the letter of its base before its digits. -/
def inBase? : List Char → Option Number
  | '0' :: letter :: digits => do
    let base ← base? letter
    let n ← natural? base digits
    return .ofDecimal false n 0
  | _ => none

/-- A decimal, or the word for what is greater than all of them, after an optional sign. -/
def inTens? (cs : List Char) : Option Number :=
  let (negative, cs) := splitSign cs
  if cs = "Infinity".toList then some (.infinite negative)
  else (decimal? cs).map (Decimal.toNumber negative)

/-- The natural number of which a text is the plain decimal text. -/
def index? (s : String) : Option Nat := (natural? 10 s.toList).filter (·.repr = s)

end Numeral

def Number.ofText (s : String) : Number :=
  match Text.trim s.toList with
  | [] => 0
  | cs => (Numeral.inBase? cs <|> Numeral.inTens? cs).getD .nan

end OrderedIndex
