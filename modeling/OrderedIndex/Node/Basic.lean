import OrderedIndex.Error
import OrderedIndex.Search
/-!
# Nodes of a search tree

A leaf holds keys and a value for each; a branch holds separators and children, where the children
beside a separator hold the keys below it and the keys from it on. Nothing of this is built into the
type: a leaf may have too few values and a branch too few children. A value that a leaf lacks reads
as the default one, and a search that goes to a missing child fails.
-/

namespace OrderedIndex

inductive Node (K V : Type) where
  | leaf (keys : List K) (values : List V)
  | branch (keys : List K) (children : List (Node K V))
  deriving Repr

namespace Node

variable {K V : Type}

instance : Inhabited (Node K V) := ⟨leaf [] []⟩

mutual

def decEq [DecidableEq K] [DecidableEq V] : (a b : Node K V) → Decidable (a = b)
  | leaf keys values, leaf keys' values' =>
    decidable_of_iff (keys = keys' ∧ values = values') (by simp)
  | branch keys children, branch keys' children' =>
    have := decEqList children children'
    decidable_of_iff (keys = keys' ∧ children = children') (by simp)
  | leaf _ _, branch _ _ => isFalse (by simp)
  | branch _ _, leaf _ _ => isFalse (by simp)

def decEqList [DecidableEq K] [DecidableEq V] : (cs ds : List (Node K V)) → Decidable (cs = ds)
  | [], [] => isTrue rfl
  | c :: cs, d :: ds =>
    have := decEq c d
    have := decEqList cs ds
    decidable_of_iff (c = d ∧ cs = ds) (by simp)
  | [], _ :: _ => isFalse (by simp)
  | _ :: _, [] => isFalse (by simp)

end

/-- What a run leaves can be compared with what it should, node by node. -/
instance [DecidableEq K] [DecidableEq V] : DecidableEq (Node K V) := decEq

def isLeaf : Node K V → Bool
  | leaf _ _ => true
  | branch _ _ => false

def keys : Node K V → List K
  | leaf keys _ => keys
  | branch keys _ => keys

def children : Node K V → List (Node K V)
  | leaf _ _ => []
  | branch _ children => children

@[simp] theorem keys_leaf (ks : List K) (vs : List V) : (leaf ks vs).keys = ks := rfl
@[simp] theorem keys_branch (ks : List K) (cs : List (Node K V)) : (branch ks cs).keys = ks := rfl
@[simp] theorem children_leaf (ks : List K) (vs : List V) : (leaf ks vs).children = [] := rfl
@[simp] theorem children_branch (ks : List K) (cs : List (Node K V)) :
    (branch ks cs).children = cs := rfl

/-! ## Contents -/

/-- The pairs of a leaf: one for each key. -/
def pairUp [Inhabited V] : List K → List V → List (K × V)
  | [], _ => []
  | k :: ks, [] => (k, default) :: pairUp ks []
  | k :: ks, v :: vs => (k, v) :: pairUp ks vs

/-- A leaf has as many pairs as keys, however many values it has. -/
@[simp] theorem length_pairUp [Inhabited V] (ks : List K) (vs : List V) :
    (pairUp ks vs).length = ks.length := by
  induction ks generalizing vs with
  | nil => rfl
  | cons k ks ih => cases vs <;> simp [pairUp, ih]

/-- Values in excess are in no pair. -/
@[simp] theorem map_fst_pairUp [Inhabited V] (ks : List K) (vs : List V) :
    (pairUp ks vs).map Prod.fst = ks := by
  induction ks generalizing vs with
  | nil => rfl
  | cons k ks ih => cases vs <;> simp [pairUp, ih]

mutual

def pairs [Inhabited V] : Node K V → List (K × V)
  | leaf keys values => pairUp keys values
  | branch _ children => pairsOf children

def pairsOf [Inhabited V] : List (Node K V) → List (K × V)
  | [] => []
  | child :: rest => child.pairs ++ pairsOf rest

end

@[simp] theorem pairs_leaf [Inhabited V] (ks : List K) (vs : List V) :
    (leaf ks vs).pairs = pairUp ks vs := by simp [pairs]
@[simp] theorem pairs_branch [Inhabited V] (ks : List K) (cs : List (Node K V)) :
    (branch ks cs).pairs = pairsOf cs := by simp [pairs]
@[simp] theorem pairsOf_nil [Inhabited V] : pairsOf ([] : List (Node K V)) = [] := by
  simp [pairsOf]
@[simp] theorem pairsOf_cons [Inhabited V] (c : Node K V) (cs : List (Node K V)) :
    pairsOf (c :: cs) = c.pairs ++ pairsOf cs := by simp [pairsOf]

/-- Where siblings are cut apart, their pairs are too. -/
@[simp] theorem pairsOf_append [Inhabited V] (cs ds : List (Node K V)) :
    pairsOf (cs ++ ds) = pairsOf cs ++ pairsOf ds := by
  induction cs with
  | nil => simp
  | cons c cs ih => simp [ih]

/-! ## Search -/

/-- Where a key is, or belongs, among the keys of one node. A key without an order goes to the end,
unless it is NaN. -/
def locate [Key K] (compare : Comparator K) (keys : List K) (key : K) : Except (Error K) Slot :=
  match search (compare · key) keys with
  | .ok slot => .ok slot
  | .error .unordered =>
    if Key.isNaN key then .error (.unorderedKey key) else .ok (.gap keys.length)
  | .error .refused => .error .refused

/-- The index of the child that a key belongs to, beside the given separators. -/
def childIndex [Key K] (compare : Comparator K) (keys : List K) (key : K) : Except (Error K) Nat :=
  (locate compare keys key).map Slot.childIndex

/-- The child of a node that a key belongs to; a leaf has none. -/
def childFor [Key K] (compare : Comparator K) (key : K) : Node K V → Except (Error K) Nat
  | leaf _ _ => .error .missingChild
  | branch keys _ => childIndex compare keys key

mutual

def find? [Key K] [Inhabited V] (compare : Comparator K) (key : K) :
    Node K V → Except (Error K) (Option V)
  | leaf keys values =>
    match locate compare keys key with
    | .error e => .error e
    | .ok (.found i) => .ok (some (values.getD i default))
    | .ok (.gap _) => .ok none
  | branch keys children =>
    match childIndex compare keys key with
    | .error e => .error e
    | .ok i => findAt? compare key i children

def findAt? [Key K] [Inhabited V] (compare : Comparator K) (key : K) :
    Nat → List (Node K V) → Except (Error K) (Option V)
  | _, [] => .error .missingChild
  | 0, child :: _ => child.find? compare key
  | i + 1, _ :: rest => findAt? compare key i rest

end

/-- The recursion along the children comes to one of them, unless the index is past the last. -/
theorem findAt?_eq [Key K] [Inhabited V] (compare : Comparator K) (key : K) (i : Nat)
    (children : List (Node K V)) :
    findAt? compare key i children =
      match children[i]? with
      | some child => child.find? compare key
      | none => .error .missingChild := by
  induction children generalizing i with
  | nil => rfl
  | cons child rest ih =>
    cases i with
    | zero => rfl
    | succ i => exact ih i

def lookup [Key K] [Inhabited V] (compare : Comparator K) (key : K) (otherwise : V)
    (node : Node K V) : Except (Error K) V :=
  (node.find? compare key).map (·.getD otherwise)

def contains [Key K] [Inhabited V] (compare : Comparator K) (key : K) (node : Node K V) :
    Except (Error K) Bool :=
  (node.find? compare key).map Option.isSome

/-! ## Ends and height -/

def minKey : Node K V → Except (Error K) (Option K)
  | leaf keys _ => .ok keys.head?
  | branch _ [] => .error .missingChild
  | branch _ (child :: _) => child.minKey
termination_by structural node => node

mutual

def maxKey : Node K V → Except (Error K) (Option K)
  | leaf keys _ => .ok keys.getLast?
  | branch _ children => maxKeyOf children

def maxKeyOf : List (Node K V) → Except (Error K) (Option K)
  | [] => .error .missingChild
  | [child] => child.maxKey
  | _ :: rest => maxKeyOf rest

end

/-- The number of branches above the leftmost leaf. -/
def height : Node K V → Except (Error K) Nat
  | leaf _ _ => .ok 0
  | branch _ [] => .error .missingChild
  | branch _ (child :: _) => child.height.map (· + 1)
termination_by structural node => node

end Node

end OrderedIndex
