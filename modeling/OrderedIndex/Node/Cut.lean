import OrderedIndex.Value.Primitive
/-!
# Where to split a node

A cut is a place among the keys of a node. The usual one is a whole number: as many keys stay on the
left, the next key is the one that a branch gives up, and one child more than keys stays on the left.
Any other value gives a cut too, but the three need not fit together then.
-/

namespace OrderedIndex

structure Cut where
  /-- The place among the keys, which has to have keys on both sides. -/
  position : Number
  /-- The index of the key that a branch gives up, if the cut names one. -/
  separator : Option Nat
  /-- How many children of a branch stay on the left, if there is a limit to them. -/
  children : Option Nat
  /-- The cut in a message. -/
  text : String
  deriving Repr

namespace Cut

/-- How many keys stay on the left: a place between two keys counts as the lower one. -/
def keys (cut : Cut) : Nat := cut.position.truncate.toNat

/-- How many items stand before a place in a list; before an infinite one there is no limit. -/
def before : Number → Option Nat
  | .infinite false => none
  | x => some x.truncate.toNat

def leftChildren {α : Type} (cut : Cut) (items : List α) : List α :=
  cut.children.elim items (items.take ·)

def rightChildren {α : Type} (cut : Cut) (items : List α) : List α :=
  cut.children.elim [] (items.drop ·)

/-- The cut at a number. One that is not whole names no key, and its successor is rounded as a number
before it cuts the children. -/
def ofNumber (x : Number) : Cut where
  position := x
  separator := x.toNat?
  children := if x.isWhole then some (x.truncate.toNat + 1) else before (x + 1)
  text := x.text

def ofNat (n : Nat) : Cut := ofNumber (.ofNat n)

/-- The cut that a value gives. The place is the number that the value reads as, but the key is named
by the text of the value, which has to be the plain one of an index. -/
def ofValue : Value → Cut
  | .number x => ofNumber x
  | v => {
    position := v.toNumber
    separator := Numeral.index? v.text
    children := before v.plusOne
    text := Value.listText [v] }

@[simp] theorem position_ofNat (n : Nat) : (ofNat n).position = .ofNat n := rfl

@[simp] theorem keys_ofNat (n : Nat) : (ofNat n).keys = n := by
  simp [keys]

/-- The key that a branch gives up is the one after those that stay on the left. -/
@[simp] theorem separator_ofNat (n : Nat) : (ofNat n).separator = some n := Number.toNat?_ofNat n

/-- One child more than keys stays on the left. -/
@[simp] theorem children_ofNat (n : Nat) : (ofNat n).children = some (n + 1) := by
  simp [ofNat, ofNumber]

@[simp] theorem leftChildren_ofNat {α : Type} (n : Nat) (items : List α) :
    (ofNat n).leftChildren items = items.take (n + 1) := by
  rw [leftChildren, children_ofNat, Option.elim_some]

@[simp] theorem rightChildren_ofNat {α : Type} (n : Nat) (items : List α) :
    (ofNat n).rightChildren items = items.drop (n + 1) := by
  rw [rightChildren, children_ofNat, Option.elim_some]

end Cut

end OrderedIndex
