/-!
# Double-precision numbers, held exactly

A finite number is a sign and a whole count of the smallest positive double, so comparison is
comparison of integers and no operation has a hidden approximation: each one computes the exact
result and rounds it once, to 53 binary places with ties to even. Nothing here assumes that a
magnitude is itself a double; every statement about order holds for all of them.
-/

namespace OrderedIndex

/-- A number, finite ones in units of the smallest positive double; zero has a sign. -/
inductive Number where
  | nan
  | infinite (negative : Bool)
  | finite (negative : Bool) (magnitude : Nat)
  deriving DecidableEq, Repr, Inhabited

namespace Number

def twoTo (n : Nat) : Nat := Nat.pow 2 n

def tenTo (n : Nat) : Nat := Nat.pow 10 n

theorem twoTo_pos (n : Nat) : 0 < twoTo n := Nat.two_pow_pos n

/-- The number one, in units. -/
@[irreducible] def one : Nat := twoTo 1074

/-- The least magnitude that is too large to be finite, in units. -/
@[irreducible] def limit : Nat := twoTo 2098

theorem one_pos : 0 < one := by
  unfold one
  exact twoTo_pos _

def signed (negative : Bool) (magnitude : Nat) : Int :=
  if negative then -(magnitude : Int) else magnitude

@[simp] theorem signed_false (magnitude : Nat) : signed false magnitude = magnitude := rfl
@[simp] theorem signed_true (magnitude : Nat) : signed true magnitude = -(magnitude : Int) := rfl

/-- Both zeros are the same count. -/
@[simp] theorem signed_zero (negative : Bool) : signed negative 0 = 0 := by
  cases negative <;> rfl

/-! ## Rounding -/

/-- The whole number nearest to a ratio; of two equally near ones, the even one. -/
def roundHalfEven (num den : Nat) : Nat :=
  if 2 * (num % den) < den then num / den
  else if den < 2 * (num % den) then num / den + 1
  else num / den + num / den % 2

/-- How many binary places a count of units has beyond the 53 that are kept. -/
def excess (magnitude : Nat) : Nat := magnitude.log2 - 52

/-- The double nearest to a ratio of units. -/
def ofRatio (negative : Bool) (num den : Nat) : Number :=
  let step := twoTo (excess (num / den))
  let magnitude := roundHalfEven num (den * step) * step
  if magnitude < limit then .finite negative magnitude else .infinite negative

def ofDecimal (negative : Bool) (mantissa places : Nat) : Number :=
  ofRatio negative (mantissa * one) (tenTo places)

/-! ## Whole numbers -/

/-- A whole number, never rounded: counts are compared with limits exactly. -/
def ofInt (i : Int) : Number := .finite (i < 0) (i.natAbs * one)

def ofNat (n : Nat) : Number := ofInt n

instance : OfNat Number n := ⟨ofNat n⟩

/-- The whole part, toward zero; nothing is left of a number that is not finite. -/
def truncate : Number → Int
  | .finite negative magnitude => signed negative (magnitude / one)
  | _ => 0

def isWhole : Number → Bool
  | .finite _ magnitude => magnitude % one == 0
  | _ => false

def toNat? (x : Number) : Option Nat :=
  if x.isWhole ∧ 0 ≤ x.truncate then some x.truncate.toNat else none

/-- An integer is its sign and its amount. -/
theorem signed_natAbs (i : Int) : signed (i < 0) i.natAbs = i := by
  by_cases h : i < 0
  · rw [decide_eq_true h, signed_true]
    omega
  · rw [decide_eq_false h, signed_false]
    omega

/-- The whole part is taken of the amount, so a negative number is cut toward zero too. -/
@[simp] theorem truncate_finite (negative : Bool) (magnitude : Nat) :
    (finite negative magnitude).truncate = signed negative (magnitude / one) := rfl

/-- Whole numbers of any size are held without rounding. -/
@[simp] theorem truncate_ofInt (i : Int) : (ofInt i).truncate = i := by
  rw [ofInt, truncate_finite, Nat.mul_div_cancel _ one_pos, signed_natAbs]

@[simp] theorem truncate_ofNat (n : Nat) : (ofNat n).truncate = n := truncate_ofInt n

/-- A count of units is whole if the number one divides it. -/
@[simp] theorem isWhole_finite (negative : Bool) (magnitude : Nat) :
    (finite negative magnitude).isWhole = (magnitude % one == 0) := rfl

@[simp] theorem isWhole_ofInt (i : Int) : (ofInt i).isWhole = true := by
  rw [ofInt, isWhole_finite, Nat.mul_mod_left, beq_self_eq_true]

@[simp] theorem isWhole_ofNat (n : Nat) : (ofNat n).isWhole = true := isWhole_ofInt n

/-- A natural number is read back as it was. -/
@[simp] theorem toNat?_ofNat (n : Nat) : (ofNat n).toNat? = some n := by
  simp [toNat?]

/-! ## Order -/

/-- The order of two numbers; the two zeros are equal, and NaN is not comparable. -/
def compare? : Number → Number → Option Ordering
  | .nan, _ | _, .nan => none
  | .infinite a, .infinite b => some (if a = b then .eq else if a then .lt else .gt)
  | .infinite a, .finite _ _ => some (if a then .lt else .gt)
  | .finite _ _, .infinite b => some (if b then .gt else .lt)
  | .finite a m, .finite b n => some (compare (signed a m) (signed b n))

instance : LT Number := ⟨fun x y => compare? x y = some .lt⟩
instance : LE Number := ⟨fun x y => compare? x y = some .lt ∨ compare? x y = some .eq⟩

instance (x y : Number) : Decidable (x < y) := inferInstanceAs (Decidable (_ = _))
instance (x y : Number) : Decidable (x ≤ y) := inferInstanceAs (Decidable (_ ∨ _))

/-- Finite numbers are compared as signed counts of units. -/
@[simp] theorem compare?_finite (a b : Bool) (m n : Nat) :
    compare? (.finite a m) (.finite b n) = some (compare (signed a m) (signed b n)) := rfl

def equals (x y : Number) : Bool := compare? x y == some .eq

/-- Where a number stands to zero. -/
def sign (x : Number) : Option Ordering := compare? x 0

/-- NaN is neither below a number nor above one, since it is not compared. -/
theorem lt_iff {x y : Number} : x < y ↔ compare? x y = some .lt := Iff.rfl
theorem le_iff {x y : Number} : x ≤ y ↔ compare? x y = some .lt ∨ compare? x y = some .eq := Iff.rfl

/-- In any unit, an integer is its sign and its amount. -/
theorem signed_natAbs_mul (i : Int) (unit : Nat) :
    signed (i < 0) (i.natAbs * unit) = i * unit := by
  by_cases h : i < 0
  · have size : (i.natAbs : Int) = -i := by omega
    rw [decide_eq_true h, signed_true, Int.natCast_mul, size, Int.neg_mul, Int.neg_neg]
  · have size : (i.natAbs : Int) = i := by omega
    rw [decide_eq_false h, signed_false, Int.natCast_mul, size]

/-- Whole numbers are compared as integers, however large they are. -/
@[simp] theorem compare?_ofInt (i j : Int) : compare? (ofInt i) (ofInt j) = some (compare i j) := by
  have scaled (unit : Nat) (pos : 0 < unit) : compare (i * unit) (j * unit) = compare i j := by
    have pos : (0 : Int) < unit := by omega
    simp only [compare, compareOfLessAndEq, Int.mul_lt_mul_right pos,
      Int.mul_eq_mul_right_iff (Int.ne_of_gt pos)]
  rw [ofInt, ofInt, compare?_finite, signed_natAbs_mul, signed_natAbs_mul, scaled one one_pos]

@[simp] theorem ofInt_lt_ofInt {i j : Int} : ofInt i < ofInt j ↔ i < j := by
  rw [lt_iff, compare?_ofInt, Option.some.injEq, Int.compare_eq_lt]

@[simp] theorem ofInt_le_ofInt {i j : Int} : ofInt i ≤ ofInt j ↔ i ≤ j := by
  rw [le_iff, compare?_ofInt, Option.some.injEq, Option.some.injEq, Int.compare_eq_lt,
    Int.compare_eq_eq]
  omega

@[simp] theorem ofNat_lt_ofNat {m n : Nat} : ofNat m < ofNat n ↔ m < n := by
  simp [ofNat]

@[simp] theorem ofNat_le_ofNat {m n : Nat} : ofNat m ≤ ofNat n ↔ m ≤ n := by
  simp [ofNat]

/-! ## Arithmetic -/

def abs : Number → Number
  | .nan => .nan
  | .infinite _ => .infinite false
  | .finite _ magnitude => .finite false magnitude

instance : Neg Number where
  neg
    | .nan => .nan
    | .infinite negative => .infinite (!negative)
    | .finite negative magnitude => .finite (!negative) magnitude

/-- The rounded difference. A difference of zero is positive unless a negative zero loses a
positive one. -/
def sub : Number → Number → Number
  | .nan, _ | _, .nan => .nan
  | .infinite a, .infinite b => if a = b then .nan else .infinite a
  | .infinite a, .finite _ _ => .infinite a
  | .finite _ _, .infinite b => .infinite (!b)
  | .finite a m, .finite b n =>
    let difference := signed a m - signed b n
    if difference = 0 then .finite (a && !b) 0
    else ofRatio (difference < 0) difference.natAbs 1

instance : Sub Number := ⟨sub⟩
instance : Add Number := ⟨fun x y => x - -y⟩

/-- The counter that starts at zero and is stepped by one; it stands still from the first number on
whose successor is not a double. -/
def count : Nat → Number
  | 0 => 0
  | n + 1 => count n + 1

@[simp] theorem count_zero : count 0 = 0 := rfl

/-- Each step of the counter is a rounded sum. -/
@[simp] theorem count_succ (n : Nat) : count (n + 1) = count n + 1 := rfl

def divNat : Number → Nat → Number
  | .finite negative magnitude, n => ofRatio negative magnitude n
  | x, _ => x

/-- The greatest whole number that is not above. -/
def floor : Number → Number
  | .finite negative magnitude =>
    .finite negative
      ((if negative ∧ magnitude % one ≠ 0 then magnitude / one + 1 else magnitude / one) * one)
  | x => x

def ceil (x : Number) : Number := -(-x).floor

end Number

end OrderedIndex
