import OrderedIndex.Node.Report
/-!
# Validation

A report needs comparisons, and a comparator may refuse some of them. A node is validated if none of
the comparisons that a report makes is refused. Main statement: under a comparator that refuses
nothing, every node is validated, and the outcome is its report.
-/

namespace OrderedIndex

namespace Node

variable {K V : Type}

def refusedInRow (compare : Comparator K) : List K → Bool
  | a :: b :: rest => compare.refuses a b || refusedInRow compare (b :: rest)
  | _ => false

mutual

def isOrderRefused (compare : Comparator K) : Node K V → Bool
  | leaf keys _ => refusedInRow compare keys
  | branch keys children => refusedInRow compare keys || anyOrderRefused compare children

def anyOrderRefused (compare : Comparator K) : List (Node K V) → Bool
  | [] => false
  | child :: rest => child.isOrderRefused compare || anyOrderRefused compare rest

end

/-- Whether the comparison of a key with one of its bounds is refused. The upper bound is looked at
only if the key reaches the lower one. -/
def refusedByBounds (compare : Comparator K) (low high : Option K) (key : K) : Bool :=
  low.any (compare.refuses key) ||
    (reaches compare low key && high.any (compare.refuses key))

mutual

/-- Whether the comparison of a key with one of the nearest separators around its node is refused in
any node. The children of a branch with a wrong number of them are not looked at. -/
def isBoundRefused (compare : Comparator K) (low high : Option K) : Node K V → Bool
  | leaf keys _ => keys.any (refusedByBounds compare low high)
  | branch keys children =>
    keys.any (refusedByBounds compare low high) || (children.length == keys.length + 1 &&
      anyBoundRefused compare low high keys children)

def anyBoundRefused (compare : Comparator K) (low high : Option K) :
    List K → List (Node K V) → Bool
  | _, [] => false
  | [], child :: rest =>
    child.isBoundRefused compare low high || anyBoundRefused compare low high [] rest
  | key :: keys, child :: rest =>
    child.isBoundRefused compare low (some key) || anyBoundRefused compare (some key) high keys rest

end

/-- Whether a comparison that a report makes is refused. -/
def isRefused (compare : Comparator K) (node : Node K V) : Bool :=
  node.isOrderRefused compare || node.isBoundRefused compare none none

/-- The report on a node, unless one of its comparisons is refused. -/
def validate (compare : Comparator K) (order : Value) (node : Node K V) :
    Except (Error K) (Report K) :=
  if node.isRefused compare then .error .refused else .ok (node.report compare order)

/-! ## Comparators that refuse nothing -/

variable {compare : Comparator K}

theorem refusedInRow_eq_false (answers : compare.Answers) (keys : List K) :
    refusedInRow compare keys = false := by
  fun_induction refusedInRow compare keys with
  | case1 a b rest ih => rw [answers a b, ih, Bool.or_false]
  | case2 => rfl

/-- It makes no difference which of the bounds there are. -/
theorem refusedByBounds_eq_false (answers : compare.Answers) (low high : Option K) (key : K) :
    refusedByBounds compare low high key = false := by
  have bound (bound? : Option K) : bound?.any (compare.refuses key) = false := by
    cases bound? with
    | none => rfl
    | some b => exact answers key b
  rw [refusedByBounds, bound, bound, Bool.and_false, Bool.or_false]

theorem any_refusedByBounds_eq_false (answers : compare.Answers) (low high : Option K)
    (keys : List K) : keys.any (refusedByBounds compare low high) = false := by
  rw [List.any_eq_false]
  intro key _
  rw [refusedByBounds_eq_false answers]
  exact Bool.false_ne_true

mutual

/-- No comparison within a node is refused, at any depth. -/
theorem isOrderRefused_eq_false (answers : compare.Answers) (node : Node K V) :
    node.isOrderRefused compare = false := by
  match node with
  | leaf keys _ => rw [isOrderRefused, refusedInRow_eq_false answers]
  | branch keys children =>
    rw [isOrderRefused, refusedInRow_eq_false answers, anyOrderRefused_eq_false answers children,
      Bool.or_false]

theorem anyOrderRefused_eq_false (answers : compare.Answers) (nodes : List (Node K V)) :
    anyOrderRefused compare nodes = false := by
  match nodes with
  | [] => rw [anyOrderRefused]
  | child :: rest =>
    rw [anyOrderRefused, isOrderRefused_eq_false answers child,
      anyOrderRefused_eq_false answers rest, Bool.or_false]

end

mutual

theorem isBoundRefused_eq_false (answers : compare.Answers) (low high : Option K)
    (node : Node K V) : node.isBoundRefused compare low high = false := by
  match node with
  | leaf keys _ => rw [isBoundRefused, any_refusedByBounds_eq_false answers]
  | branch keys children =>
    rw [isBoundRefused, any_refusedByBounds_eq_false answers,
      anyBoundRefused_eq_false answers low high keys children, Bool.and_false, Bool.or_false]

theorem anyBoundRefused_eq_false (answers : compare.Answers) (low high : Option K)
    (keys : List K) (nodes : List (Node K V)) :
    anyBoundRefused compare low high keys nodes = false := by
  match keys, nodes with
  | _, [] => rw [anyBoundRefused]
  | [], child :: rest =>
    rw [anyBoundRefused, isBoundRefused_eq_false answers low high child,
      anyBoundRefused_eq_false answers low high [] rest, Bool.or_false]
  | key :: keys, child :: rest =>
    rw [anyBoundRefused, isBoundRefused_eq_false answers low (some key) child,
      anyBoundRefused_eq_false answers (some key) high keys rest, Bool.or_false]

end

/-- No comparison that a report makes is refused. -/
theorem isRefused_eq_false (answers : compare.Answers) (node : Node K V) :
    node.isRefused compare = false := by
  rw [isRefused, isOrderRefused_eq_false answers, isBoundRefused_eq_false answers, Bool.or_false]

/-- Every node has a report, whatever its shape. -/
theorem validate_eq_ok (answers : compare.Answers) (order : Value) (node : Node K V) :
    node.validate compare order = .ok (node.report compare order) := by
  rw [validate, isRefused_eq_false answers, if_neg Bool.false_ne_true]

end Node

end OrderedIndex
