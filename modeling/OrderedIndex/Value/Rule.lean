import OrderedIndex.Value.Order
import OrderedIndex.Error
/-!
# Named orders of values

The two stock orders and a few others, by name: some on numbers, some on lengths or fields, and some
that ignore their arguments.
-/

namespace OrderedIndex

inductive Rule where
  | natural | simple
  | ascending | descending | magnitude | tens
  | length
  | nameAge
  | equal | less | greater | unordered
  deriving DecidableEq, Repr

namespace Value

def size : Value → Number
  | .string s => .ofNat (Text.size s)
  | .list items => .ofNat items.length
  | v => (v.field "length").toNumber

def compareNameAge (a b : Value) : Number :=
  match relation? (a.field "name") (b.field "name") with
  | some .gt => 1
  | some .lt => -1
  | _ => (a.field "age").toNumber - (b.field "age").toNumber

end Value

namespace Rule

open Value

/-- The numeric answer of an order. -/
def measure : Rule → Value → Value → Number
  | .natural, a, b => Value.compare a b
  | .simple, a, b => compareSimple a b
  | .ascending, a, b => a.toNumber - b.toNumber
  | .descending, a, b => b.toNumber - a.toNumber
  | .magnitude, a, b => a.toNumber.abs - b.toNumber.abs
  | .tens, a, b => (a.toNumber.divNat 10).floor - (b.toNumber.divNat 10).floor
  | .length, a, b => a.size - b.size
  | .nameAge, a, b => compareNameAge a b
  | .equal, _, _ => 0
  | .less, _, _ => -1
  | .greater, _, _ => 1
  | .unordered, _, _ => .nan

/-- Whether an order has nothing to look at in a value: nothing has neither a length nor fields. -/
def refuses (rule : Rule) (v : Value) : Bool :=
  (rule == .length || rule == .nameAge) && v.isNothing

def answer (rule : Rule) (a b : Value) : Except (Error Value) Number :=
  if rule.refuses a || rule.refuses b then .error .refused else .ok (rule.measure a b)

def comparator (rule : Rule) : Comparator Value := fun a b =>
  if rule.refuses a || rule.refuses b then .blocked .refused
  else Comparator.ofMeasure rule.measure a b

/-- The stock orders refuse nothing. -/
theorem comparator_natural : Rule.natural.comparator = .ofMeasure Value.compare := rfl

theorem comparator_simple : Rule.simple.comparator = .ofMeasure compareSimple := rfl

end Rule

instance : Key Value where
  isNaN
    | .number .nan => true
    | _ => false
  text := Value.text
  quoted := Value.quoted
  natural := Rule.natural.comparator

end OrderedIndex
