import Mathlib.Algebra.Order.Ring.Nat
import OrderedIndex.Proofs.Node.Ends
import OrderedIndex.Proofs.Tree.Integrity

/-!
# Height against size

The most pairs that a subtree of some height can hold, and the fewest. Both grow with the height as
powers do, so the height of a tree that operations lead to is logarithmic in its number of pairs,
whatever the comparator says.
-/
namespace OrderedIndex

variable {K V : Type} [Inhabited V]

namespace Node

variable {order height leafLeast branchLeast : Nat} {node : Node K V}

/-- Every branch has at most as many children as the order, and every leaf a key less. -/
theorem Shaped.length_pairs_le (hs : Shaped order height node) :
    node.pairs.length ≤ order ^ height * (order - 1) := by
  induction hs with
  | @leaf keys values room aligned =>
    rw [pairs_leaf, length_pairUp, Nat.pow_zero, Nat.one_mul]
    omega
  | @branch height keys children counted room each ih =>
    calc (pairsOf children).length
        ≤ children.length * (order ^ height * (order - 1)) := length_pairsOf_le_mul ih
      _ ≤ order * (order ^ height * (order - 1)) := Nat.mul_le_mul_right _ room
      _ = order ^ (height + 1) * (order - 1) := by rw [pow_succ', Nat.mul_assoc]

/-- Below the root, every branch and every leaf has its least size. -/
theorem Filled.le_length_pairs (hs : Shaped order height node)
    (hf : Filled leafLeast branchLeast false node) :
    branchLeast ^ height * leafLeast ≤ node.pairs.length := by
  induction hs with
  | @leaf keys values room aligned =>
    cases hf with
    | leaf enough => simpa using enough rfl
  | @branch height keys children counted room each ih =>
    cases hf with
    | branch enough full =>
      have heach : ∀ child ∈ children, branchLeast ^ height * leafLeast ≤ child.pairs.length :=
        fun child hc => ih child hc (full child hc)
      calc branchLeast ^ (height + 1) * leafLeast
          = branchLeast * (branchLeast ^ height * leafLeast) := by rw [pow_succ', Nat.mul_assoc]
        _ ≤ children.length * (branchLeast ^ height * leafLeast) := Nat.mul_le_mul_right _ enough
        _ ≤ (pairsOf children).length := mul_le_length_pairsOf heach

/-- A root that is a branch may have as few as two children. -/
theorem Filled.le_length_pairs_root (hs : Shaped order (height + 1) node)
    (hf : Filled leafLeast branchLeast true node) :
    2 * (branchLeast ^ height * leafLeast) ≤ node.pairs.length := by
  cases hs with
  | @branch _ keys children counted room each =>
    cases hf with
    | branch enough full =>
      calc 2 * (branchLeast ^ height * leafLeast)
          ≤ children.length * (branchLeast ^ height * leafLeast) := Nat.mul_le_mul_right _ enough
        _ ≤ (pairsOf children).length :=
          mul_le_length_pairsOf fun child hc => (full child hc).le_length_pairs (each child hc)

end Node

namespace Tree

variable [Key K] [Inhabited K] {tree : Tree K V}

/-- The number of pairs, which is also what the counter says, lies between two powers of the height. -/
theorem Reached.length_between (h : Reached tree) :
    ∃ height, tree.height = .ok height ∧ Counts tree tree.toList.length ∧
      tree.toList.length ≤ tree.order ^ height * (tree.order - 1) ∧
      (1 ≤ height →
        2 * ((tree.order + 1) / 2) ^ (height - 1) * (tree.order / 2) ≤ tree.toList.length) := by
  obtain ⟨⟨height, hs⟩, hf, hc⟩ := h.grown
  refine ⟨height, hs.height_eq, hc, hs.length_pairs_le, fun hpos => ?_⟩
  obtain ⟨below, rfl⟩ := Nat.exists_eq_add_of_le' hpos
  rw [Nat.add_sub_cancel, Nat.mul_assoc]
  exact hf.le_length_pairs_root hs

/-- Where the order is three, a tree of height two has from four to eighteen pairs; this one has five. -/
theorem length_between_five :
    let tree : Tree Nat Nat :=
      (empty 3 (by decide) Key.natural).run
        [.insertAll [(1, 10), (2, 20), (3, 30), (4, 40), (5, 50)]]
    Reached tree ∧ tree.order = 3 ∧ tree.height = .ok 2 ∧ tree.toList.length = 5 ∧
      2 * ((tree.order + 1) / 2) ^ 1 * (tree.order / 2) ≤ tree.toList.length ∧
      tree.toList.length ≤ tree.order ^ 2 * (tree.order - 1) := by
  intro tree
  have hreached : Reached tree := reached_empty.run _
  obtain ⟨horder, hlength, hheight⟩ :
      tree.order = 3 ∧ tree.toList.length = 5 ∧ tree.height = .ok 2 := by
    unfold tree
    decide +kernel
  obtain ⟨height, hheight', _, hmost, hleast⟩ := hreached.length_between
  obtain rfl : height = 2 := by simpa [hheight] using hheight'.symm
  exact ⟨hreached, horder, hheight, hlength, hleast (by decide), hmost⟩

end Tree
end OrderedIndex
