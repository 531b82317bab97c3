import OrderedIndex.Node.Basic
import OrderedIndex.Number.Word
/-!
# Structural checks

Six properties of a node and all nodes below it, each decided on its own and for every node, however
malformed. The node itself counts as the root.
-/

namespace OrderedIndex

namespace Node

variable {K V : Type}

/-! ## Keys in order -/

def increasing (compare : Comparator K) : List K → Bool
  | a :: b :: rest => compare a b == .ordered .lt && increasing compare (b :: rest)
  | _ => true

mutual

def isSorted (compare : Comparator K) : Node K V → Bool
  | leaf keys _ => increasing compare keys
  | branch keys children => increasing compare keys && allSorted compare children

def allSorted (compare : Comparator K) : List (Node K V) → Bool
  | [] => true
  | child :: rest => child.isSorted compare && allSorted compare rest

end

/-! ## Separators -/

/-- A key is at or above a lower bound, if there is one. -/
def reaches (compare : Comparator K) (low : Option K) (key : K) : Bool :=
  low.all fun bound => compare key bound == .ordered .gt || compare key bound == .ordered .eq

def staysBelow (compare : Comparator K) (high : Option K) (key : K) : Bool :=
  high.all fun bound => compare key bound == .ordered .lt

def within (compare : Comparator K) (low high : Option K) (keys : List K) : Bool :=
  keys.all fun key => reaches compare low key && staysBelow compare high key

mutual

/-- Every branch has one child more than keys, and the keys of every node lie between the nearest
separators around it. -/
def isSeparated (compare : Comparator K) (low high : Option K) : Node K V → Bool
  | leaf keys _ => within compare low high keys
  | branch keys children =>
    within compare low high keys && (children.length == keys.length + 1 &&
      allSeparated compare low high keys children)

/-- The children beside the given separators; past the last one the upper bound is the branch's. -/
def allSeparated (compare : Comparator K) (low high : Option K) :
    List K → List (Node K V) → Bool
  | _, [] => true
  | [], child :: rest => child.isSeparated compare low high && allSeparated compare low high [] rest
  | key :: keys, child :: rest =>
    child.isSeparated compare low (some key) && allSeparated compare (some key) high keys rest

end

/-- Separators hold at every depth below a root, which has no bounds. -/
def separatorsValid (compare : Comparator K) (node : Node K V) : Bool :=
  node.isSeparated compare none none

/-! ## Height -/

mutual

/-- The depth that all leaves share; a branch without children counts as one above a leaf. -/
def uniformHeight? : Node K V → Option Nat
  | leaf _ _ => some 0
  | branch _ children => (commonHeight? none children).map (· + 1)

/-- The height that all children share with each other and with an expected one. -/
def commonHeight? (expected : Option Nat) : List (Node K V) → Option Nat
  | [] => some (expected.getD 0)
  | child :: rest =>
    match child.uniformHeight? with
    | none => none
    | some h => if expected.all (· == h) then commonHeight? (some h) rest else none

end

def isBalanced (node : Node K V) : Bool := node.uniformHeight?.isSome

/-! ## Sizes -/

/-- The most keys of a leaf. -/
def leafLimit (order : Number) : Number := order - 1

/-- The fewest keys of a leaf that is not the root. -/
def leafLeast (order : Number) : Int := order.halfWord

/-- The fewest children of a branch. -/
def branchLeast (order : Number) (isRoot : Bool) : Number :=
  if isRoot then 2 else (order.divNat 2).ceil

mutual

def withinFanout (order : Number) : Node K V → Bool
  | leaf keys _ => !(decide (leafLimit order < .ofNat keys.length))
  | branch _ children => !(decide (order < .ofNat children.length)) && allWithinFanout order children

def allWithinFanout (order : Number) : List (Node K V) → Bool
  | [] => true
  | child :: rest => child.withinFanout order && allWithinFanout order rest

end

mutual

/-- No leaf but a root has too few keys, and no branch too few children. -/
def isFilled (order : Number) (isRoot : Bool) : Node K V → Bool
  | leaf keys _ => isRoot || !(decide ((keys.length : Int) < leafLeast order))
  | branch _ children =>
    !(decide (.ofNat children.length < branchLeast order isRoot)) && allFilled order children

def allFilled (order : Number) : List (Node K V) → Bool
  | [] => true
  | child :: rest => child.isFilled order false && allFilled order rest

end

/-- Every node has its least occupancy, taken as a root. -/
def occupancyRespected (order : Number) (node : Node K V) : Bool := node.isFilled order true

mutual

def isAligned : Node K V → Bool
  | leaf keys values => values.length == keys.length
  | branch _ children => allAligned children

def allAligned : List (Node K V) → Bool
  | [] => true
  | child :: rest => child.isAligned && allAligned rest

end

/-- Sorted, separated, balanced and within fanout; occupancy and alignment are not required. -/
def isValid (compare : Comparator K) (order : Number) (node : Node K V) : Bool :=
  node.isSorted compare && node.separatorsValid compare && node.isBalanced &&
    node.withinFanout order

end Node

end OrderedIndex
