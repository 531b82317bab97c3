import OrderedIndex.Node.Basic

/-!
# The shape of subtrees

A subtree of a given height has all its leaves at that depth, a value for each key of a leaf, a child
more than separators in each branch, and no node with more than the order allows. How full its nodes
are is a second property, because the root is treated differently there. Neither property looks at the
order of keys.
-/
namespace OrderedIndex
namespace Node

variable {K V : Type}

/-- Induction over nodes, where a branch may use the statement of each of its children. -/
@[elab_as_elim]
theorem childInduction {motive : Node K V → Prop}
    (leaf : ∀ keys values, motive (leaf keys values))
    (branch : ∀ keys children, (∀ child ∈ children, motive child) → motive (branch keys children))
    (node : Node K V) : motive node :=
  @Node.rec K V motive (fun children => ∀ child ∈ children, motive child)
    leaf branch (by simp) (by intro child rest hc hr; simpa using ⟨hc, hr⟩) node

inductive Occurs (part : Node K V) : Nat → Node K V → Prop
  | here : Occurs part 0 part
  | under {depth : Nat} {keys : List K} {children : List (Node K V)} {child : Node K V}
      (mem : child ∈ children) (inside : Occurs part depth child) :
      Occurs part (depth + 1) (branch keys children)

def Everywhere (P : Node K V → Prop) (node : Node K V) : Prop :=
  ∀ depth part, Occurs part depth node → P part

section Everywhere

variable {P : Node K V → Prop} {keys : List K} {values : List V} {children : List (Node K V)}

theorem everywhere_leaf : (leaf keys values).Everywhere P ↔ P (leaf keys values) := by
  constructor
  · intro h
    exact h 0 _ .here
  · intro h depth part ho
    cases ho with
    | here => exact h

theorem everywhere_branch :
    (branch keys children).Everywhere P ↔
      P (branch keys children) ∧ ∀ child ∈ children, child.Everywhere P := by
  constructor
  · intro h
    exact ⟨h 0 _ .here, fun child hc depth part ho => h (depth + 1) part (.under hc ho)⟩
  · intro h depth part ho
    cases ho with
    | here => exact h.1
    | under mem inside => exact h.2 _ mem _ _ inside

end Everywhere

/-! ## Height and sizes -/

inductive Shaped (order : Nat) : Nat → Node K V → Prop
  | leaf {keys : List K} {values : List V} (room : keys.length < order)
      (aligned : values.length = keys.length) : Shaped order 0 (leaf keys values)
  | branch {height : Nat} {keys : List K} {children : List (Node K V)}
      (counted : children.length = keys.length + 1) (room : children.length ≤ order)
      (each : ∀ child ∈ children, Shaped order height child) :
      Shaped order (height + 1) (branch keys children)

variable {order height depth : Nat} {part node : Node K V}

/-- Every node of a shaped subtree is the root of a shaped subtree, lower by its depth. -/
theorem Shaped.occurs (hs : Shaped order height node) (ho : Occurs part depth node) :
    ∃ rest, height = rest + depth ∧ Shaped order rest part := by
  induction ho generalizing height with
  | here => exact ⟨height, rfl, hs⟩
  | under mem _ ih =>
    cases hs with
    | branch _ _ each =>
      obtain ⟨rest, hr, hp⟩ := ih (each _ mem)
      exact ⟨rest, by omega, hp⟩

/-- The height is what the leftmost leaf says. -/
theorem Shaped.height_eq (hs : Shaped order height node) : node.height = .ok height := by
  induction hs with
  | leaf => simp [Node.height]
  | @branch height keys children counted room each ih =>
    cases children with
    | nil => simp at counted
    | cons child rest => simp [Node.height, ih child (by simp), Except.map]

/-! ## Least sizes -/

/-- No node is too small: the root of a whole tree needs two children if it is a branch, every other
node the given number of keys or children. -/
inductive Filled (leafLeast branchLeast : Nat) : Bool → Node K V → Prop
  | leaf {isRoot : Bool} {keys : List K} {values : List V}
      (enough : isRoot = false → leafLeast ≤ keys.length) :
      Filled leafLeast branchLeast isRoot (leaf keys values)
  | branch {isRoot : Bool} {keys : List K} {children : List (Node K V)}
      (enough : (if isRoot then 2 else branchLeast) ≤ children.length)
      (each : ∀ child ∈ children, Filled leafLeast branchLeast false child) :
      Filled leafLeast branchLeast isRoot (branch keys children)

variable {leafLeast branchLeast : Nat} {isRoot : Bool}

/-- Every node below the root is filled as one that is not the root. -/
theorem Filled.occurs (hf : Filled leafLeast branchLeast isRoot node) (ho : Occurs part depth node) :
    Filled leafLeast branchLeast (isRoot && depth == 0) part := by
  induction ho generalizing isRoot with
  | here => simpa using hf
  | under mem _ ih =>
    cases hf with
    | branch _ each => simpa using ih (each _ mem)

end Node
end OrderedIndex
