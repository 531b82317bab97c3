import OrderedIndex.Number.Basic
/-!
# Comparators

A comparator says how its first key stands to its second, or why it gives no order: the two may have
none, or one of them may be of a kind that the comparator cannot look at. Nothing is assumed of it here:
it may be inconsistent, constant, or never give an order. What it takes to be an order is stated where
it is needed.
-/

namespace OrderedIndex

inductive Obstacle where
  /-- The keys have no order. -/
  | unordered
  /-- One of the keys cannot be compared at all. -/
  | refused
  deriving DecidableEq, Repr

inductive Comparison where
  | ordered (order : Ordering)
  | blocked (why : Obstacle)
  deriving DecidableEq, Repr

def Comparison.ofOption : Option Ordering → Comparison
  | some order => .ordered order
  | none => .blocked .unordered

@[simp] theorem Comparison.ofOption_some (order : Ordering) :
    ofOption (some order) = .ordered order := rfl
@[simp] theorem Comparison.ofOption_none : ofOption none = .blocked .unordered := rfl

/-- At worst the keys have no order. -/
theorem Comparison.ofOption_ne_refused (order? : Option Ordering) :
    ofOption order? ≠ .blocked .refused := by
  cases order? <;> simp

abbrev Comparator (K : Type) := K → K → Comparison

namespace Comparator

variable {K : Type}

/-- The comparator that reads off the sign of a numeric answer; NaN means no order. -/
def ofMeasure (measure : K → K → Number) : Comparator K := fun a b => .ofOption (measure a b).sign

@[simp] theorem ofMeasure_apply (measure : K → K → Number) (a b : K) :
    ofMeasure measure a b = .ofOption (measure a b).sign := rfl

def refuses (compare : Comparator K) (a b : K) : Bool := compare a b == .blocked .refused

/-- The comparator refuses nothing. -/
def Answers (compare : Comparator K) : Prop := ∀ a b, compare.refuses a b = false

/-- A measure has a number for any two keys, if only NaN. -/
theorem answers_ofMeasure (measure : K → K → Number) : (ofMeasure measure).Answers :=
  fun _ _ => beq_false_of_ne (Comparison.ofOption_ne_refused _)

end Comparator

/-- What an index needs to know of its keys besides their order. -/
class Key (K : Type) where
  /-- Whether the key is a number that equals nothing, itself included. -/
  isNaN : K → Bool
  /-- The text of a key in a rendering or a message. -/
  text : K → String
  /-- The text of a key in a report, where a text key is quoted. -/
  quoted : K → String
  /-- The order that is used where no other is given. -/
  natural : Comparator K

instance : Key Nat where
  isNaN _ := false
  text n := n.repr
  quoted n := n.repr
  natural a b := .ordered (compare a b)

end OrderedIndex
