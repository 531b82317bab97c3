import OrderedIndex.Value.Basic
import OrderedIndex.Number.Numeral
/-!
# Values read as numbers

Every value can be read as a number. An object first gives way to a primitive value, which is what it
stands for if that is not an object itself, and its text otherwise.
-/

namespace OrderedIndex

namespace Value

def primitive : Value → Value
  | .date time => .number (timeNumber time)
  | .boxed v => if v.isObject then .string (boxed v).text else v
  | v => if v.isObject then .string v.text else v

@[simp] theorem primitive_number (x : Number) : (number x).primitive = .number x := rfl
@[simp] theorem primitive_string (s : String) : (string s).primitive = .string s := rfl

/-- In a comparison a date is its time; only in a sum is it taken for its text. -/
@[simp] theorem primitive_date (time : Option Int) :
    (date time).primitive = .number (timeNumber time) := rfl

/-- A list is its text, also where the other value is a number. -/
@[simp] theorem primitive_list (items : List Value) :
    (list items).primitive = .string (listText items) :=
  congrArg string (text_list items)

/-- The number that a value reads as: null and false as zero, true as one, a text as its numeral. -/
def toNumber (v : Value) : Number :=
  match v.primitive with
  | .number x => x
  | .null => 0
  | .bool b => .ofNat b.toNat
  | .string s => .ofText s
  | _ => .nan

@[simp] theorem toNumber_number (x : Number) : (number x).toNumber = x := rfl
@[simp] theorem toNumber_date (time : Option Int) : (date time).toNumber = timeNumber time := rfl

/-- Whether a value counts as true: all do but nothing, false, zero, NaN and the empty text. -/
def holds : Value → Bool
  | .absent | .null => false
  | .bool b => b
  | .number x => x.sign.any (· != .eq)
  | .string s => !s.isEmpty
  | _ => true

/-- The value that an object gives way to in a sum, where a date is taken for its text. -/
def summand : Value → Value
  | .date time => .string (date time).text
  | v => v.primitive

/-- The value with one added to it, read as a number: a text takes the digit at its end. -/
def plusOne (v : Value) : Number :=
  match v.summand with
  | .string s => .ofText (s ++ "1")
  | u => u.toNumber + 1

end Value

end OrderedIndex
