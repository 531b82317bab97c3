import OrderedIndex.Value.Primitive
import OrderedIndex.Text.Units
/-!
# The orders of values

Two stock orders, both as numeric answers whose sign is the order. The natural one covers all
values: values of different kinds are ordered by the names of their kinds, objects are unwrapped in
step, NaN is the least number and equal to itself. Only a record has no place in it. The simple one
says what `<` and `>` say, and calls equal what neither of them tells apart.
-/

namespace OrderedIndex

def Number.ofOrdering : Ordering → Number
  | .lt => -1
  | .eq => 0
  | .gt => 1

namespace Value

/-! ## The natural order -/

/-- One step from an object to what it stands for; a list stands for itself. -/
def unwrap : Value → Value
  | .boxed v => v
  | .date time => .number (timeNumber time)
  | v => v

/-- How many steps a value can be unwrapped. -/
def wraps : Value → Nat
  | .boxed v => v.wraps + 1
  | .date _ => 1
  | _ => 0

/-- Finite numbers are compared by their difference, where both zeros read as positive; NaN comes
before the other numbers. -/
def compareNumbers (x y : Number) : Number :=
  match x, y with
  | .finite _ _, .finite _ _ => if x.compare? y = some .eq then 0 else x - y
  | .nan, .nan => 0
  | .nan, _ => -1
  | _, .nan => 1
  | _, _ => .ofOrdering ((x.compare? y).getD .eq)

/-- The natural order where nothing is left to unwrap. -/
def compareUnwrapped : Value → Value → Number
  | .number x, .number y => compareNumbers x y
  | .bool a, .bool b => .ofOrdering (Ord.compare a.toNat b.toNat)
  | .string s, .string t => .ofOrdering (Text.compare s t)
  | .list xs, .list ys => .ofOrdering (Text.compare (listText xs) (listText ys))
  | a, b => .ofOrdering (Ord.compare a.rank b.rank)

/-- Whether two values are compared by what they stand for: objects, but not two lists. -/
def unwrapsWith (a b : Value) : Bool := a.isObject && b.isObject && !(a.isList && b.isList)

/-- Lists and records are not unwrapped, so a step may leave a value as it is. -/
theorem wraps_unwrap_le (v : Value) : v.unwrap.wraps ≤ v.wraps := by
  cases v <;> simp [unwrap, wraps]

/-- Every other object has a wrap less after a step, which is why unwrapping two values in step ends. -/
theorem wraps_unwrap_lt {v : Value} (object : v.isObject) (list : v.isList = false)
    (record : v.isRecord = false) : v.unwrap.wraps < v.wraps := by
  cases v <;> simp_all [unwrap, wraps, isObject, rank, isList, isRecord]

/-- The natural order. Objects are unwrapped in step; a record against another object than null has
no order. -/
def compare (a b : Value) : Number :=
  if _together : unwrapsWith a b then
    if _record : a.isRecord || b.isRecord then .nan else compare a.unwrap b.unwrap
  else compareUnwrapped a b
termination_by a.wraps + b.wraps
decreasing_by
  simp only [unwrapsWith, Bool.and_eq_true, Bool.not_eq_true', Bool.or_eq_true, not_or,
    Bool.not_eq_true] at _together _record
  obtain ⟨⟨objectA, objectB⟩, lists⟩ := _together
  have leA := wraps_unwrap_le a
  have leB := wraps_unwrap_le b
  cases listA : a.isList with
  | false =>
    have := wraps_unwrap_lt objectA listA _record.1
    omega
  | true =>
    have := wraps_unwrap_lt objectB (by simpa [listA] using lists) _record.2
    omega

/-! ## The simple order -/

/-- What `<` and `>` say between two values: texts are compared as texts, and where only one value is
a text, or none is, both are read as numbers. -/
def relation? (a b : Value) : Option Ordering :=
  match a.primitive, b.primitive with
  | .string s, .string t => some (Text.compare s t)
  | _, _ => a.toNumber.compare? b.toNumber

def compareSimple (a b : Value) : Number := .ofOrdering ((relation? a b).getD .eq)

end Value

end OrderedIndex
