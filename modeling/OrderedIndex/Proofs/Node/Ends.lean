import OrderedIndex.Proofs.Node.Shape

/-!
# The ends of a subtree

Where no leaf below the root is empty, the outermost leaves hold the first and the last pair, so the
walks along the two edges of a subtree end at the ends of its list of pairs. No list of a node is longer
than the list of pairs then.
-/
namespace OrderedIndex
namespace Node

variable {K V : Type} [Inhabited V] {order height leafLeast branchLeast : Nat} {isRoot : Bool}
  {node : Node K V}

theorem Filled.pairs_ne_nil (hs : Shaped order height node) (hl : 0 < leafLeast)
    (hf : Filled leafLeast branchLeast false node) : node.pairs ≠ [] := by
  induction hs with
  | @leaf keys values room aligned =>
    cases hf with
    | leaf enough =>
      have hk := enough rfl
      intro h
      have := congrArg List.length h
      simp only [pairs_leaf, length_pairUp, List.length_nil] at this
      omega
  | @branch height keys children counted room each ih =>
    cases hf with
    | branch enough full =>
      cases children with
      | nil => simp at counted
      | cons child rest =>
        have hc := ih child (by simp) (full child (by simp))
        simp [hc]

theorem mul_le_length_pairsOf {nodes : List (Node K V)} {n : Nat}
    (h : ∀ child ∈ nodes, n ≤ child.pairs.length) : nodes.length * n ≤ (pairsOf nodes).length := by
  induction nodes with
  | nil => simp
  | cons child rest ih =>
    have hchild := h child (by simp)
    have hrest := ih fun other ho => h other (by simp [ho])
    rw [pairsOf_cons, List.length_append, List.length_cons, Nat.succ_mul]
    omega

theorem length_pairsOf_le_mul {nodes : List (Node K V)} {n : Nat}
    (h : ∀ child ∈ nodes, child.pairs.length ≤ n) : (pairsOf nodes).length ≤ nodes.length * n := by
  induction nodes with
  | nil => simp
  | cons child rest ih =>
    have hchild := h child (by simp)
    have hrest := ih fun other ho => h other (by simp [ho])
    rw [pairsOf_cons, List.length_append, List.length_cons, Nat.succ_mul]
    omega

theorem length_le_pairsOf {nodes : List (Node K V)} (h : ∀ child ∈ nodes, child.pairs ≠ []) :
    nodes.length ≤ (pairsOf nodes).length := by
  have hmul := mul_le_length_pairsOf fun child hc => List.length_pos_iff.mpr (h child hc)
  omega

/-- No node of a subtree has more keys or children than the subtree has pairs. -/
theorem Filled.length_le_pairs (hs : Shaped order height node) (hl : 0 < leafLeast)
    (hf : Filled leafLeast branchLeast isRoot node) :
    node.Everywhere fun part =>
      part.keys.length ≤ node.pairs.length ∧ part.children.length ≤ node.pairs.length := by
  induction hs generalizing isRoot with
  | leaf => simp [everywhere_leaf]
  | @branch height keys children counted room each ih =>
    cases hf with
    | branch enough full =>
      have hall := length_le_pairsOf fun c hc => (full c hc).pairs_ne_nil (each c hc) hl
      rw [everywhere_branch, pairs_branch, keys_branch, children_branch]
      refine ⟨⟨by omega, hall⟩, ?_⟩
      intro child hc depth part ho
      have hpart := ih child hc (full child hc) depth part ho
      obtain ⟨before, after, rfl⟩ := List.append_of_mem hc
      simp only [pairsOf_append, pairsOf_cons, List.length_append]
      omega

omit [Inhabited V] in
theorem maxKeyOf_append (cs : List (Node K V)) (c : Node K V) : maxKeyOf (cs ++ [c]) = c.maxKey := by
  induction cs with
  | nil => simp [maxKeyOf]
  | cons first cs ih =>
    cases cs with
    | nil => simp [maxKeyOf]
    | cons second cs => simpa [maxKeyOf] using ih

/-- The walk along the left edge finds the first key. -/
theorem minKey_eq (hs : Shaped order height node) (hl : 0 < leafLeast)
    (hf : Filled leafLeast branchLeast isRoot node) :
    node.minKey = .ok (node.pairs.map Prod.fst).head? := by
  induction hs generalizing isRoot with
  | leaf => simp [minKey]
  | @branch height keys children counted room each ih =>
    cases hf with
    | branch enough full =>
      cases children with
      | nil => simp at counted
      | cons child rest =>
        have hc := ih child (by simp) (full child (by simp))
        have hne := (full child (by simp)).pairs_ne_nil (each child (by simp)) hl
        rw [minKey, hc, pairs_branch, pairsOf_cons, List.map_append, List.head?_append,
          Option.or_of_isSome (by simpa using hne)]

/-- The walk along the right edge finds the last key. -/
theorem maxKey_eq (hs : Shaped order height node) (hl : 0 < leafLeast)
    (hf : Filled leafLeast branchLeast isRoot node) :
    node.maxKey = .ok (node.pairs.map Prod.fst).getLast? := by
  induction hs generalizing isRoot with
  | leaf => simp [maxKey]
  | @branch height keys children counted room each ih =>
    cases hf with
    | branch enough full =>
      rcases List.eq_nil_or_concat children with rfl | ⟨rest, child, rfl⟩
      · simp at counted
      · rw [List.concat_eq_append] at *
        have hc := ih child (by simp) (full child (by simp))
        have hne := (full child (by simp)).pairs_ne_nil (each child (by simp)) hl
        rw [maxKey, maxKeyOf_append, hc, pairs_branch, pairsOf_append, List.map_append]
        simp only [pairsOf_cons, pairsOf_nil, List.append_nil]
        rw [List.getLast?_append, Option.or_of_isSome (by simpa using hne)]

end Node
end OrderedIndex
