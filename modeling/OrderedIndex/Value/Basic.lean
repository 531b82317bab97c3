import OrderedIndex.Number.Decimal
import OrderedIndex.Text.Quoted
import OrderedIndex.Calendar
/-!
# Loosely typed values

The values that may serve as keys and as stored values. A boxed value is an object that stands for
another value; a record is an object that only stands for itself. Every value has a text.
-/

namespace OrderedIndex

inductive Value where
  | absent
  | null
  | bool (b : Bool)
  | number (x : Number)
  | string (s : String)
  | list (items : List Value)
  | date (time : Option Int)
  | boxed (v : Value)
  | record (fields : List (String × Value))
  deriving Repr, Inhabited

namespace Value

/-! ## Kinds -/

/-- The place of a value's kind: the kinds boolean, number, object, string, undefined in the order
of their names, where null comes before the other objects. -/
def rank : Value → Nat
  | .bool _ => 0
  | .number _ => 1
  | .null => 2
  | .list _ | .date _ | .boxed _ | .record _ => 3
  | .string _ => 4
  | .absent => 5

/-- An object other than null. -/
def isObject (v : Value) : Bool := v.rank == 3

def isNothing : Value → Bool
  | .absent | .null => true
  | _ => false

def isList : Value → Bool
  | .list _ => true
  | _ => false

def isRecord : Value → Bool
  | .record _ => true
  | _ => false

/-! ## Dates -/

def timeLimit : Nat := 8640000000000000

/-- The date of a time in milliseconds: fractions are dropped, and a time out of range or not a
number gives an invalid date. -/
def ofTime (x : Number) : Value :=
  if x.abs ≤ .ofNat timeLimit then .date (some x.truncate) else .date none

/-- The time of a date as a number, NaN if the date is invalid. -/
def timeNumber : Option Int → Number
  | some time => .ofInt time
  | none => .nan

/-! ## Texts -/

mutual

def text : Value → String
  | .absent => "undefined"
  | .null => "null"
  | .bool b => if b then "true" else "false"
  | .number x => x.text
  | .string s => s
  | .list items => ",".intercalate (elementTexts items)
  | .date (some time) => Calendar.text time
  | .date none => "Invalid Date"
  | .boxed _ => "[object Object]"
  | .record _ => "[object Object]"

/-- The texts of list elements, where an absent or null element leaves its place empty. -/
def elementTexts : List Value → List String
  | [] => []
  | .absent :: rest => "" :: elementTexts rest
  | .null :: rest => "" :: elementTexts rest
  | v :: rest => v.text :: elementTexts rest

end

def listText (items : List Value) : String := ",".intercalate (elementTexts items)

/-- A list within a list leaves no mark of where it begins and ends. -/
@[simp] theorem text_list (items : List Value) : (list items).text = listText items := by
  simp [text, listText]

def quoted : Value → String
  | .string s => Text.quote s
  | v => v.text

/-! ## Parts -/

def toNat? : Value → Option Nat
  | .number x => x.toNat?
  | _ => none

def equalsNumber (v : Value) (x : Number) : Bool :=
  match v with
  | .number y => x.equals y
  | _ => false

def field (name : String) : Value → Value
  | .record fields => (fields.lookup name).getD .absent
  | _ => .absent

end Value

end OrderedIndex
