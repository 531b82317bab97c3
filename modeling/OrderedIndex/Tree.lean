import OrderedIndex.Node.Insert
import OrderedIndex.Node.Level
import OrderedIndex.Node.Validate
/-!
# Search trees

A tree is a root node with an order, a comparator and a count of its pairs. Insertion is the only way
to grow it: when the root splits, a new root takes the two halves, so the tree grows upward. An
operation that fails gives its error together with the tree as it was left.
-/

namespace OrderedIndex

/-- An ordered map. The order is the most children a branch may have; the count of pairs is a counter
that is kept, not derived, so that a tree put together by hand can be found to be wrong. Such a tree
may have any value there. -/
structure Tree (K V : Type) where
  order : Nat
  three_le_order : 3 ≤ order
  compare : Comparator K
  root : Node K V := .leaf [] []
  size : Value := .number 0

namespace Tree

variable {K V : Type}

def empty (order : Nat) (three_le_order : 3 ≤ order) (compare : Comparator K) : Tree K V where
  order := order
  three_le_order := three_le_order
  compare := compare

def orderNumber (tree : Tree K V) : Number := .ofNat tree.order

def maxLeafKeys (tree : Tree K V) : Number := Node.leafLimit tree.orderNumber

def isEmpty (tree : Tree K V) : Bool := tree.size.equalsNumber 0

/-! ## Growth -/

/-- The counter after one more pair. -/
def nextSize (tree : Tree K V) : Value := .number (tree.size.toNumber + 1)

def clear (tree : Tree K V) : Tree K V := { tree with root := .leaf [] [], size := .number 0 }

/-- Replaces the root, the count, or both, without any check. -/
def load (tree : Tree K V) (root? : Option (Node K V)) (size? : Option Value) : Tree K V :=
  { tree with root := root?.getD tree.root, size := size?.getD tree.size }

section Insertion

variable [Key K] [Inhabited K] [Inhabited V]

/-- Inserts a pair, or replaces the value if the key is there; says whether a key was added. -/
def insert (tree : Tree K V) (key : K) (value : V) : Tree K V × Except (Error K) Bool :=
  match tree.root.insert tree.orderNumber tree.compare key value with
  | .absorbed root added =>
    ({ tree with root := root, size := if added then tree.nextSize else tree.size }, .ok added)
  | .split halves =>
    ({ tree with
        root := .branch [halves.separator] [halves.left, halves.right]
        size := tree.nextSize }, .ok true)
  | .failed root e => ({ tree with root := root }, .error e)

/-- Inserts pairs one by one up to the first failure; gives the number of keys added. -/
def insertAll (tree : Tree K V) : List (K × V) → Tree K V × Except (Error K) Nat
  | [] => (tree, .ok 0)
  | (key, value) :: rest =>
    match tree.insert key value with
    | (tree, .error e) => (tree, .error e)
    | (tree, .ok added) =>
      let (tree, count) := insertAll tree rest
      (tree, count.map (· + added.toNat))

/-- The tree with the given pairs, under the natural order of keys unless another is given. The order
of the tree has to be a whole number of at least three. -/
def ofList (order : Value) (compare? : Option (Comparator K)) (entries : List (K × V)) :
    Except (Error K) (Tree K V) :=
  match order.toNat? with
  | some n =>
    if three_le_order : 3 ≤ n then
      let (tree, added) := (empty n three_le_order (compare?.getD Key.natural)).insertAll entries
      added.map fun _ => tree
    else .error (.badOrder order)
  | none => .error (.badOrder order)

end Insertion

/-! ## Queries -/

def lookup [Key K] [Inhabited V] (tree : Tree K V) (key : K) (otherwise : V) : Except (Error K) V :=
  tree.root.lookup tree.compare key otherwise

def contains [Key K] [Inhabited V] (tree : Tree K V) (key : K) : Except (Error K) Bool :=
  tree.root.contains tree.compare key

def minKey (tree : Tree K V) : Except (Error K) (Option K) := tree.root.minKey

def maxKey (tree : Tree K V) : Except (Error K) (Option K) := tree.root.maxKey

def height (tree : Tree K V) : Except (Error K) Nat := tree.root.height

def toList [Inhabited V] (tree : Tree K V) : List (K × V) := tree.root.pairs

def keys [Inhabited V] (tree : Tree K V) : List K := tree.toList.map Prod.fst

def values [Inhabited V] (tree : Tree K V) : List V := tree.toList.map Prod.snd

def render [Key K] (tree : Tree K V) : String := tree.root.render

/-! ## Checks -/

def report (tree : Tree K V) : Report K := tree.root.report tree.compare (.number tree.orderNumber)

def validate (tree : Tree K V) : Except (Error K) (Report K) :=
  tree.root.validate tree.compare (.number tree.orderNumber)

/-- One line for each problem of the report, and one more if the count of pairs is wrong. -/
def problems [Key K] [Inhabited V] (tree : Tree K V) : List String :=
  let counted := Number.count tree.toList.length
  tree.report.problems.map Problem.text ++
    if tree.size.equalsNumber counted then []
    else ["size mismatch: counted " ++ counted.text ++ " but stored " ++ tree.size.text]

/-- Fails with all problems, if there are any, or because a comparison is refused. -/
def checkValid [Key K] [Inhabited V] (tree : Tree K V) : Except (Error K) Unit :=
  if tree.root.isRefused tree.compare then .error .refused
  else if tree.problems.isEmpty then .ok ()
  else .error (.violation ("B+ tree is invalid: " ++ "; ".intercalate tree.problems) tree.problems)

end Tree

end OrderedIndex
