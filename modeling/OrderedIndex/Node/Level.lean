import OrderedIndex.Node.Basic
/-!
# Levels

The nodes below a node level by level, and the rendering that shows one level a line. No two leaves
need to be on one level.
-/

namespace OrderedIndex

namespace Node

variable {K V : Type}

mutual

def count : Node K V → Nat
  | leaf _ _ => 1
  | branch _ children => countAll children + 1

def countAll : List (Node K V) → Nat
  | [] => 0
  | child :: rest => child.count + countAll rest

end

@[simp] theorem count_leaf (ks : List K) (vs : List V) : (leaf ks vs).count = 1 := by simp [count]
@[simp] theorem count_branch (ks : List K) (cs : List (Node K V)) :
    (branch ks cs).count = countAll cs + 1 := by simp [count]
@[simp] theorem countAll_nil : countAll ([] : List (Node K V)) = 0 := by simp [countAll]
@[simp] theorem countAll_cons (c : Node K V) (cs : List (Node K V)) :
    countAll (c :: cs) = c.count + countAll cs := by simp [countAll]

@[simp] theorem countAll_append (cs ds : List (Node K V)) :
    countAll (cs ++ ds) = countAll cs + countAll ds := by
  induction cs with
  | nil => simp
  | cons c cs ih => simp [ih, Nat.add_assoc]

/-- A leaf has no children to count. -/
theorem count_eq (node : Node K V) : node.count = countAll node.children + 1 := by
  cases node <;> simp

def childrenOf (nodes : List (Node K V)) : List (Node K V) := nodes.flatMap children

@[simp] theorem childrenOf_nil : childrenOf ([] : List (Node K V)) = [] := rfl

/-- The next level keeps the order of the nodes above it. -/
@[simp] theorem childrenOf_cons (node : Node K V) (rest : List (Node K V)) :
    childrenOf (node :: rest) = node.children ++ childrenOf rest := rfl

/-- One level down, exactly the nodes of the level itself are lost. -/
theorem countAll_childrenOf (nodes : List (Node K V)) :
    countAll (childrenOf nodes) + nodes.length = countAll nodes := by
  induction nodes with
  | nil => simp
  | cons node rest ih =>
    simp only [childrenOf_cons, countAll_append, List.length_cons, countAll_cons, count_eq node]
    omega

/-- The levels from the given one down, until one is empty. -/
def levelsFrom (nodes : List (Node K V)) : List (List (Node K V)) :=
  if _done : nodes = [] then [] else nodes :: levelsFrom (childrenOf nodes)
termination_by countAll nodes
decreasing_by
  have := countAll_childrenOf nodes
  have := List.length_pos_iff.mpr _done
  omega

def levels (node : Node K V) : List (List (Node K V)) := levelsFrom [node]

def label [Key K] (node : Node K V) : String :=
  "[" ++ " ".intercalate (node.keys.map Key.text) ++ "]"

/-- One line for each level, from the root down. -/
def render [Key K] (node : Node K V) : String :=
  "\n".intercalate (node.levels.map fun level => " ".intercalate (level.map label))

end Node

end OrderedIndex
