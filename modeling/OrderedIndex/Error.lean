import OrderedIndex.Comparator
import OrderedIndex.Value.Basic
/-!
# Errors

Why an operation on an index fails, and what is said about it.
-/

namespace OrderedIndex

inductive Error (K : Type) where
  /-- What was given as the order of a tree is not a whole number of at least three. -/
  | badOrder (order : Value)
  /-- A structural invariant does not hold, with one line for each failed check. -/
  | violation (message : String) (problems : List String)
  /-- A search for a key that no order places. -/
  | unorderedKey (key : K)
  /-- A branch without the child that a search goes to. -/
  | missingChild
  /-- A comparison with a key that cannot be compared. -/
  | refused
  /-- Two keys of a sorted list have no order. -/
  | incomparable
  | other (message : String)
  deriving Repr

namespace Error

variable {K : Type}

/-- A violation whose message is its only problem unless others are given. -/
def violated (message : String) (problems? : Option (List String)) : Error K :=
  .violation message (problems?.getD [message])

def broken (details : List String) : Error K :=
  violated (" ".intercalate ("B+ tree" :: details)) none

def message [Key K] : Error K → String
  | badOrder order => "B+ tree order must be an integer >= 3, got " ++ order.text
  | violation message _ => message
  | unorderedKey key => "B+ tree: key " ++ Key.text key ++ " is not ordered by the comparator"
  | missingChild => "B+ tree: a branch lacks a child"
  | refused => "B+ tree: a key cannot be compared"
  | incomparable => "Problem: compare failed"
  | other message => message

end Error

/-- Whether an operation gives a certain result can be decided, whatever it may fail with. -/
instance decidableEqOk {ε α : Type} [DecidableEq α] (outcome : Except ε α) (a : α) :
    Decidable (outcome = .ok a) :=
  match outcome with
  | .ok b => decidable_of_iff (b = a) (by simp)
  | .error _ => isFalse (by simp)

end OrderedIndex
