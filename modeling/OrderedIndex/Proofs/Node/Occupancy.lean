import Mathlib.Algebra.Order.Ring.Nat
import OrderedIndex.Proofs.Node.Audit
import OrderedIndex.Proofs.Node.Sizes

/-!
# Half-full nodes

An order asks every node below the root to be half full. The check of occupancy decides just that, in
every node of whatever shape, as long as the order is below half of the word range. From there on the
least size of a leaf is taken of a word that has wrapped, and leaves that are too small pass the check.
-/
namespace OrderedIndex
namespace Node

variable {K V : Type} {order keyLeast childLeast : Nat} {node : Node K V}

/-- Every leaf below the root has at least so many keys and every branch below it so many children. The
root needs two children if it is a branch. -/
structure AtLeast (keyLeast childLeast : Nat) (node : Node K V) : Prop where
  leaves : ∀ depth keys values, Occurs (leaf keys values) (depth + 1) node → keyLeast ≤ keys.length
  branches : ∀ depth keys children, Occurs (branch keys children) (depth + 1) node →
    childLeast ≤ children.length
  root : node.isLeaf = false → 2 ≤ node.children.length

theorem filled_of_occurs
    (hleaf : ∀ depth keys values, Occurs (leaf keys values) depth node → keyLeast ≤ keys.length)
    (hbranch : ∀ depth keys children, Occurs (branch keys children) depth node →
      childLeast ≤ children.length) : Filled keyLeast childLeast false node := by
  induction node using childInduction with
  | leaf keys values => exact .leaf fun _ => hleaf 0 keys values .here
  | branch keys children ih =>
    refine .branch (hbranch 0 keys children .here) fun child hc => ih child hc ?_ ?_
    · intro depth ks vs ho
      exact hleaf (depth + 1) ks vs (.under hc ho)
    · intro depth ks cs ho
      exact hbranch (depth + 1) ks cs (.under hc ho)

/-- A root is filled exactly if the nodes below it have their least sizes and it has two children. -/
theorem filled_iff_atLeast :
    Filled keyLeast childLeast true node ↔ node.AtLeast keyLeast childLeast := by
  constructor
  · intro hf
    refine ⟨?_, ?_, ?_⟩
    · intro depth keys values ho
      cases hf.occurs ho with
      | leaf enough => exact enough rfl
    · intro depth keys children ho
      cases hf.occurs ho with
      | branch enough _ => exact enough
    · intro hroot
      cases hf with
      | leaf _ => exact absurd hroot.symm Bool.false_ne_true
      | branch enough _ => exact enough
  · rintro ⟨hleaf, hbranch, hroot⟩
    cases node with
    | leaf keys values => exact .leaf fun h => absurd h.symm Bool.false_ne_true
    | branch keys children =>
      refine .branch (hroot rfl) fun child hc => filled_of_occurs ?_ ?_
      · intro depth ks vs ho
        exact hleaf depth ks vs (.under hc ho)
      · intro depth ks cs ho
        exact hbranch depth ks cs (.under hc ho)

/-- Without a record, the walk decides the property that it is named for. -/
theorem verdict_auditOccupancy (order : Number) (node : Node K V) :
    (node.auditOccupancy order true [] : Audit K).verdict = .ok (node.occupancyRespected order) :=
  verdict_eq_ok (agrees_auditOccupancy order true [] node)

/-- Below half of the word range, all limits are exact, whatever the sizes of the nodes. -/
theorem occupancyRespected_iff_atLeast (h : 2 * order < Number.wordCount) :
    node.occupancyRespected (.ofNat order) = true ↔ node.AtLeast (order / 2) ((order + 1) / 2) := by
  have hexact : order < Number.twoTo 53 := by
    have hword : Number.wordCount ≤ Number.twoTo 53 := by decide
    omega
  rw [← leastKeys_eq h, ← filled_iff_atLeast, occupancyRespected]
  refine (filled_iff_of_counts fun _ part _ isRoot => ?_).symm
  cases isRoot with
  | true => exact Number.ofNat_lt_ofNat
  | false =>
    simp only [branchLeast, Bool.false_eq_true, if_false, Number.ceil_half hexact,
      Number.ofNat_lt_ofNat]

/-- Two children are enough for a root. -/
theorem not_two_lt_branchLeast (order : Number) : ¬ Number.ofNat 2 < branchLeast order true :=
  (Number.ofNat_lt_ofNat (m := 2) (n := 2)).not.mpr (by omega)

theorem occupancyRespected_pair_iff {order : Number} {keys ks ks' : List K} {vs vs' : List V} :
    (branch keys [leaf ks vs, leaf ks' vs']).occupancyRespected order = true ↔
      leafLeast order ≤ ks.length ∧ leafLeast order ≤ ks'.length := by
  simp only [occupancyRespected, isFilled, allFilled, List.length_cons, List.length_nil, Nat.zero_add,
    Nat.reduceAdd, decide_eq_false (not_two_lt_branchLeast order), Bool.not_false, Bool.true_and,
    Bool.false_or, Bool.and_true, Bool.and_eq_true, Bool.not_eq_true', decide_eq_false_iff_not, Int.not_lt]

/-- Two leaves with as many keys as the check asks for, which is too few if the word has wrapped. -/
def wrappedPair [Inhabited K] (order : Nat) : Node K V :=
  .branch [] [.leaf (.replicate (leastKeys order) default) [],
    .leaf (.replicate (leastKeys order) default) []]

theorem wrappedPair_occupancyRespected [Inhabited K] (order : Nat) :
    (wrappedPair order : Node K V).occupancyRespected (.ofNat order) = true := by
  have hkeys : leafLeast (.ofNat order) ≤ leastKeys order := Int.self_le_toNat _
  rw [wrappedPair, occupancyRespected_pair_iff, List.length_replicate]
  exact ⟨hkeys, hkeys⟩

theorem wrappedPair_not_atLeast [Inhabited K] (h : Number.wordCount ≤ 2 * order) :
    ¬ (wrappedPair order : Node K V).AtLeast (order / 2) ((order + 1) / 2) := by
  intro hleast
  have hfew := hleast.leaves 0 _ _ (.under List.mem_cons_self .here)
  rw [List.length_replicate] at hfew
  exact absurd (leastKeys_lt h) (by omega)

/-- The check of occupancy, run without a record, ends on every node of whatever shape. It succeeds
exactly if every leaf below the root has as many keys as half of the order, taken as a word, rounded
down, every branch below it as many children as half of the order, rounded up, and the root two if it is
a branch. This is half of the order for leaves too, in all nodes, exactly if the order is below half of
the word range. -/
theorem occupancy_decides [Inhabited K] (order : Nat) :
    (∀ node : Node K V, (node.Everywhere fun part => part.children.length < 2 ^ 32) →
      ∃ holds, (node.auditOccupancy (.ofNat order) true [] : Audit K).verdict = .ok holds ∧
        (holds = true ↔ node.AtLeast ((order : Int).bmod (2 ^ 32) / 2).toNat ((order + 1) / 2))) ∧
      ((∀ node : Node K V,
        ∃ holds, (node.auditOccupancy (.ofNat order) true [] : Audit K).verdict = .ok holds ∧
          (holds = true ↔ node.AtLeast (order / 2) ((order + 1) / 2))) ↔
        order < 2 ^ 31) := by
  refine ⟨?_, ?_, ?_⟩
  · intro node hshort
    refine ⟨_, verdict_auditOccupancy _ node, ?_⟩
    have hleast : leastKeys order = ((order : Int).bmod (2 ^ 32) / 2).toNat := by
      rw [leastKeys, leafLeast, Number.halfWord, Number.toWord, Number.truncate_ofNat]
      rfl
    have hlimit : 2 ^ 32 < Number.twoTo 50 := by decide
    rw [← hleast, ← filled_iff_atLeast, occupancyRespected]
    exact (filled_iff_of_counts fun depth part ho _ =>
      lt_branchLeast ((hshort depth part ho).trans hlimit)).symm
  · intro hdecides
    by_contra hlarge
    have hwrapped : Number.wordCount ≤ 2 * order := by
      unfold Number.wordCount
      omega
    obtain ⟨holds, hverdict, hiff⟩ := hdecides (wrappedPair order)
    rw [verdict_auditOccupancy, wrappedPair_occupancyRespected] at hverdict
    exact wrappedPair_not_atLeast hwrapped (hiff.mp (Except.ok.inj hverdict).symm)
  · intro hsmall node
    have hword : 2 * order < Number.wordCount := by
      unfold Number.wordCount
      omega
    exact ⟨_, verdict_auditOccupancy _ node, occupancyRespected_iff_atLeast hword⟩

def twoSingles : Node Nat Nat := .branch [5] [.leaf [1] [10], .leaf [7] [70]]

/-- For order 5 the two leaves are too small. For an order of six beyond the word range they are too
small as well, since the word is 6. -/
theorem occupancy_decides_twoSingles :
    (twoSingles.Everywhere fun part => part.children.length < 2 ^ 32) ∧
      (twoSingles.auditOccupancy (.ofNat 5) true [] : Audit Nat).verdict = .ok false ∧
      (twoSingles.auditOccupancy (.ofNat (2 ^ 32 + 6)) true [] : Audit Nat).verdict = .ok false := by
  have hshort : twoSingles.Everywhere fun part => part.children.length < 2 ^ 32 := by
    simp [twoSingles, everywhere_branch, everywhere_leaf]
  have hfew {keyLeast childLeast : Nat} (h : twoSingles.AtLeast keyLeast childLeast) : keyLeast ≤ 1 :=
    h.leaves 0 [1] [10] (.under (by simp) .here)
  obtain ⟨holds, hverdict, hiff⟩ := (occupancy_decides 5).2.mpr (by decide) twoSingles
  obtain ⟨holds', hverdict', hiff'⟩ := (occupancy_decides (2 ^ 32 + 6)).1 twoSingles hshort
  refine ⟨hshort, ?_, ?_⟩
  · rw [hverdict, Bool.eq_false_iff.mpr fun h => absurd (hfew (hiff.mp h)) (by decide)]
  · rw [hverdict', Bool.eq_false_iff.mpr fun h => absurd (hfew (hiff'.mp h)) (by decide)]

/-- For the order `2 ^ 31` they pass the check, where each of them should have `2 ^ 30` keys. -/
theorem twoSingles_pass :
    (twoSingles.auditOccupancy (.ofNat (2 ^ 31)) true [] : Audit Nat).verdict = .ok true ∧
      ¬ twoSingles.AtLeast (2 ^ 31 / 2) ((2 ^ 31 + 1) / 2) := by
  constructor
  · have hleaf : leafLeast (.ofNat (2 ^ 31)) ≤ 1 := by
      rw [leafLeast, Number.halfWord, Number.toWord, Number.truncate_ofNat]
      decide
    have hpass : twoSingles.occupancyRespected (.ofNat (2 ^ 31)) = true := by
      rw [twoSingles, occupancyRespected_pair_iff, List.length_singleton, List.length_singleton]
      exact ⟨hleaf, hleaf⟩
    rw [verdict_auditOccupancy, hpass]
  · intro hleast
    have hfew := hleast.leaves 0 [1] [10] (.under (by simp) .here)
    simp at hfew

end Node
end OrderedIndex
