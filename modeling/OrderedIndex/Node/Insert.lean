import OrderedIndex.Node.Basic
import OrderedIndex.Node.Cut
/-!
# Insertion and splitting

An insertion into a subtree ends in one of three ways: the subtree absorbs it, it splits in two, or it
fails. A failure carries the subtree as it was left, because a check that fails after a split may find
the key already in place.
-/

namespace OrderedIndex

/-! ## Lists -/

namespace Position

variable {α : Type}

/-- Puts an item at a position, or at the end if the list is shorter. -/
def insert (items : List α) (i : Nat) (item : α) : List α := items.take i ++ item :: items.drop i

/-- Writes an item over a position; the positions skipped past the end hold the default item. -/
def write [Inhabited α] (items : List α) (i : Nat) (item : α) : List α :=
  items.take i ++ List.replicate (i - items.length) default ++ item :: items.drop (i + 1)

/-- Inside the list no position is skipped. -/
theorem write_of_lt [Inhabited α] {items : List α} {i : Nat} (inside : i < items.length)
    (item : α) : write items i item = items.set i item := by
  have none : i - items.length = 0 := by omega
  simp [write, none, List.set_eq_take_append_cons_drop, inside]

end Position

/-! ## Splitting -/

structure Split (K V : Type) where
  left : Node K V
  separator : K
  right : Node K V
  deriving Repr

inductive Insertion (K V : Type) where
  | absorbed (node : Node K V) (added : Bool)
  | split (halves : Split K V)
  | failed (node : Node K V) (error : Error K)
  deriving Repr

namespace Node

variable {K V : Type}

/-- Why a node cannot be split at a cut. -/
def splitError (cut : Cut) (node : Node K V) : Error K :=
  let kind := if node.isLeaf then "leaf" else "branch"
  .broken [kind ++ " split index", cut.text, "out of range for", node.keys.length.repr, "keys"]

/-- Splits a node at a cut inside it. A leaf keeps all its keys, and the first one on the right also
separates; a branch gives up the key that the cut names. -/
def splitAt [Inhabited K] (cut : Cut) : Node K V → Except (Error K) (Split K V)
  | leaf keys values =>
    if 0 < cut.position ∧ cut.position < .ofNat keys.length then
      .ok {
        left := leaf (keys.take cut.keys) (values.take cut.keys)
        separator := (keys.drop cut.keys).headD default
        right := leaf (keys.drop cut.keys) (values.drop cut.keys) }
    else .error (splitError cut (leaf keys values))
  | branch keys children =>
    if 0 < cut.position ∧ cut.position < .ofInt (keys.length - 1) then
      .ok {
        left := branch (keys.take cut.keys) (cut.leftChildren children)
        separator := cut.separator.elim default (keys.getD · default)
        right := branch (keys.drop (cut.keys + 1)) (cut.rightChildren children) }
    else .error (splitError cut (branch keys children))

/-- Splits a node where it stands: the left half takes its place, and a node that cannot be split stays
as it is. -/
def splitInPlace [Inhabited K] (cut : Cut) (node : Node K V) :
    Node K V × Except (Error K) (Split K V) :=
  match node.splitAt cut with
  | .ok halves => (halves.left, .ok halves)
  | .error e => (node, .error e)

/-- The end of an insertion that added a key to a node, which is split in the middle unless the key
fits. -/
def settle [Inhabited K] (fits : Bool) (node : Node K V) : Insertion K V :=
  if fits then .absorbed node true
  else
    match node.splitAt (.ofNat (node.keys.length / 2)) with
    | .ok halves => .split halves
    | .error e => .failed node e

/-- A leaf has room below the order, counting its keys. -/
def leafFits (order : Number) (keys : List K) : Bool := .ofNat keys.length < order

def branchFits (order : Number) (children : List (Node K V)) : Bool :=
  .ofNat children.length ≤ order

/-- The branch after an insertion into its child at an index: a child that has split leaves its left
half in place, and its right half is adopted after it. -/
def adopt [Inhabited K] (order : Number) (keys : List K) (children : List (Node K V)) (i : Nat) :
    Insertion K V → Insertion K V
  | .absorbed child added => .absorbed (branch keys (children.set i child)) added
  | .failed child e => .failed (branch keys (children.set i child)) e
  | .split halves =>
    let children := Position.insert (children.set i halves.left) (i + 1) halves.right
    settle (branchFits order children) (branch (Position.insert keys i halves.separator) children)

/-! ## Insertion -/

mutual

def insert [Key K] [Inhabited K] [Inhabited V] (order : Number) (compare : Comparator K)
    (key : K) (value : V) : Node K V → Insertion K V
  | leaf keys values =>
    match locate compare keys key with
    | .error e => .failed (leaf keys values) e
    | .ok (.found i) => .absorbed (leaf keys (Position.write values i value)) false
    | .ok (.gap i) =>
      let keys := Position.insert keys i key
      settle (leafFits order keys) (leaf keys (Position.insert values i value))
  | branch keys children =>
    match childIndex compare keys key with
    | .error e => .failed (branch keys children) e
    | .ok i =>
      match insertAt? order compare key value i children with
      | none => .failed (branch keys children) .missingChild
      | some result => adopt order keys children i result

def insertAt? [Key K] [Inhabited K] [Inhabited V] (order : Number) (compare : Comparator K)
    (key : K) (value : V) : Nat → List (Node K V) → Option (Insertion K V)
  | _, [] => none
  | 0, child :: _ => some (child.insert order compare key value)
  | i + 1, _ :: rest => insertAt? order compare key value i rest

end

/-- The recursion along the children comes to one of them. -/
theorem insertAt?_eq [Key K] [Inhabited K] [Inhabited V] (order : Number) (compare : Comparator K)
    (key : K) (value : V) (i : Nat) (children : List (Node K V)) :
    insertAt? order compare key value i children =
      children[i]?.map (·.insert order compare key value) := by
  induction children generalizing i with
  | nil => simp [insertAt?]
  | cons child rest ih => cases i <;> simp [insertAt?, ih]

end Node

end OrderedIndex
