import OrderedIndex.Node.Check
import OrderedIndex.Proofs.Node.Arranged
import OrderedIndex.Proofs.Number

/-!
# What the checks of sizes decide

The checks of height, fanout, occupancy and alignment, against the shape of subtrees. Limits are
rounded numbers, which may be off for huge orders; against the sizes of real lists they are exact.
-/
namespace OrderedIndex
namespace Node

variable {K V : Type} {order height n : Nat} {isRoot : Bool} {node : Node K V}

/-- The lists of all nodes are short enough for their lengths to be words. -/
def Small (node : Node K V) : Prop :=
  node.Everywhere fun part =>
    part.keys.length < Number.twoTo 30 ∧ part.children.length < Number.twoTo 30

def Counted (node : Node K V) : Prop :=
  node.Everywhere fun part => part.isLeaf = true ∨ part.children.length = part.keys.length + 1

theorem Arranged.counted {α : Type} [LinearOrder α] {used : K → Prop} {rank : K → α}
    {low high : Option α} (h : node.Arranged used rank low high) : node.Counted := by
  intro depth part ho
  obtain ⟨lo, hi, hpart, _⟩ := h.occurs ho
  cases part with
  | leaf keys values => exact .inl rfl
  | branch keys children => exact .inr (arranged_branch.mp hpart).2.length

/-! ## Limits -/

theorem lt_twoTo_fifty (h : n < Number.twoTo 30) : n < Number.twoTo 50 := by
  have hle : Number.twoTo 30 ≤ Number.twoTo 50 := Number.twoTo_le (by omega)
  omega

theorem Small.lengths_lt (h : node.Small) :
    node.Everywhere fun part => part.keys.length < Number.twoTo 50 :=
  fun depth part ho => lt_twoTo_fifty (h depth part ho).1

theorem leafLimit_lt (ho : 3 ≤ order) (h : n < Number.twoTo 50) :
    leafLimit (.ofNat order) < .ofNat n ↔ order ≤ n :=
  Number.ofNat_sub_one_lt (by omega) h

theorem lt_branchLeast (h : n < Number.twoTo 50) :
    .ofNat n < branchLeast (.ofNat order) isRoot ↔ n < if isRoot then 2 else (order + 1) / 2 := by
  cases isRoot with
  | true =>
    simp only [branchLeast, if_true]
    exact Number.ofNat_lt_ofNat
  | false =>
    simp only [branchLeast, Bool.false_eq_true, if_false]
    exact Number.ofNat_lt_ceil_half h

/-! ## Height, fanout and alignment -/

theorem shaped_leaf {keys : List K} {values : List V} :
    Shaped order height (leaf keys values) ↔
      height = 0 ∧ keys.length < order ∧ values.length = keys.length := by
  constructor
  · intro h
    cases h with
    | leaf room aligned => exact ⟨rfl, room, aligned⟩
  · rintro ⟨rfl, room, aligned⟩
    exact .leaf room aligned

theorem shaped_branch {keys : List K} {children : List (Node K V)} :
    Shaped order height (branch keys children) ↔
      ∃ h, height = h + 1 ∧ children.length = keys.length + 1 ∧ children.length ≤ order ∧
        ∀ child ∈ children, Shaped order h child := by
  constructor
  · intro h
    cases h with
    | branch counted room each => exact ⟨_, rfl, counted, room, each⟩
  · rintro ⟨h, rfl, counted, room, each⟩
    exact .branch counted room each

theorem commonHeight?_some {nodes : List (Node K V)} {h expected : Nat} :
    commonHeight? (some expected) nodes = some h ↔
      expected = h ∧ ∀ child ∈ nodes, child.uniformHeight? = some h := by
  induction nodes with
  | nil => simp [commonHeight?]
  | cons child rest ih =>
    rw [commonHeight?]
    cases hc : child.uniformHeight? with
    | none => simp [hc]
    | some h' =>
      by_cases heq : expected = h'
      · simp only [heq, Option.all_some, beq_self_eq_true, if_true] at ih ⊢
        rw [ih]
        simp only [List.forall_mem_cons, hc, Option.some.injEq]
        exact ⟨fun h => ⟨h.1, h.1, h.2⟩, fun h => ⟨h.1, h.2.2⟩⟩
      · simp only [Option.all_some, beq_eq_false_iff_ne.mpr heq, Bool.false_eq_true, if_false,
          reduceCtorEq, List.forall_mem_cons, hc, Option.some.injEq, false_iff]
        rintro ⟨he, hh, _⟩
        exact heq (he.trans hh.symm)

theorem commonHeight?_none {nodes : List (Node K V)} {h : Nat} (hne : nodes ≠ []) :
    commonHeight? none nodes = some h ↔ ∀ child ∈ nodes, child.uniformHeight? = some h := by
  obtain ⟨child, rest, rfl⟩ := List.exists_cons_of_ne_nil hne
  rw [commonHeight?, List.forall_mem_cons]
  cases hc : child.uniformHeight? with
  | none => simp
  | some h' =>
    simp only [Option.all_none, if_true]
    rw [commonHeight?_some, Option.some.injEq]

theorem allWithinFanout_iff {order : Number} {nodes : List (Node K V)} :
    allWithinFanout order nodes = true ↔ ∀ child ∈ nodes, child.withinFanout order = true := by
  induction nodes with
  | nil => simp [allWithinFanout]
  | cons child rest ih => simp [allWithinFanout, ih]

theorem allAligned_iff {nodes : List (Node K V)} :
    allAligned nodes = true ↔ ∀ child ∈ nodes, child.isAligned = true := by
  induction nodes with
  | nil => simp [allAligned]
  | cons child rest ih => simp [allAligned, ih]

/-- A subtree has its shape exactly if its height, its fanout and its leaves pass their checks, as long as
the rounded limit is exact for all lists of keys. -/
theorem shaped_iff_of_lengths (ho : 3 ≤ order)
    (hlengths : node.Everywhere fun part => part.keys.length < Number.twoTo 50)
    (hcounted : node.Counted) :
    Shaped order height node ↔
      node.uniformHeight? = some height ∧ node.withinFanout (.ofNat order) = true ∧
        node.isAligned = true := by
  induction node using childInduction generalizing height with
  | leaf keys values =>
    have hlimit := leafLimit_lt ho (everywhere_leaf.mp hlengths)
    rw [keys_leaf] at hlimit
    simp only [shaped_leaf, uniformHeight?, withinFanout, isAligned, hlimit, Option.some.injEq,
      Bool.not_eq_true', decide_eq_false_iff_not, beq_iff_eq, Nat.not_le, eq_comm (a := 0)]
  | branch keys children ih =>
    obtain ⟨_, hlengths⟩ := everywhere_branch.mp hlengths
    obtain ⟨hlen, hcounted⟩ := everywhere_branch.mp hcounted
    have hlen : children.length = keys.length + 1 := by simpa [isLeaf] using hlen
    have hne : children ≠ [] := by
      rintro rfl
      simp at hlen
    have each : ∀ h, (∀ child ∈ children, Shaped order h child) ↔
        ∀ child ∈ children, child.uniformHeight? = some h ∧
          child.withinFanout (.ofNat order) = true ∧ child.isAligned = true := by
      intro h
      constructor
      · intro hs child hc
        exact (ih child hc (hlengths child hc) (hcounted child hc)).mp (hs child hc)
      · intro hs child hc
        exact (ih child hc (hlengths child hc) (hcounted child hc)).mpr (hs child hc)
    simp only [shaped_branch, each, uniformHeight?, withinFanout, isAligned, Option.map_eq_some_iff,
      commonHeight?_none hne, allWithinFanout_iff, allAligned_iff, Bool.and_eq_true,
      Bool.not_eq_true', decide_eq_false_iff_not, Number.ofNat_lt_ofNat, Nat.not_lt]
    constructor
    · rintro ⟨h, rfl, _, hroom, hs⟩
      exact ⟨⟨h, fun child hc => (hs child hc).1, rfl⟩, ⟨hroom, fun child hc => (hs child hc).2.1⟩,
        fun child hc => (hs child hc).2.2⟩
    · rintro ⟨⟨h, hh, rfl⟩, ⟨hroom, hf⟩, ha⟩
      exact ⟨h, rfl, hlen, hroom, fun child hc => ⟨hh child hc, hf child hc, ha child hc⟩⟩

theorem shaped_iff (ho : 3 ≤ order) (hsmall : node.Small) (hcounted : node.Counted) :
    Shaped order height node ↔
      node.uniformHeight? = some height ∧ node.withinFanout (.ofNat order) = true ∧
        node.isAligned = true :=
  shaped_iff_of_lengths ho hsmall.lengths_lt hcounted

/-! ## Occupancy -/

theorem allFilled_iff {order : Number} {nodes : List (Node K V)} :
    allFilled order nodes = true ↔ ∀ child ∈ nodes, child.isFilled order false = true := by
  induction nodes with
  | nil => simp [allFilled]
  | cons child rest ih => simp [allFilled, ih]

/-- The fewest keys of a leaf as a count; a negative word asks for nothing. -/
def leastKeys (order : Nat) : Nat := (leafLeast (.ofNat order)).toNat

theorem leastKeys_le (order : Nat) : leastKeys order ≤ order / 2 := by
  have h := Number.halfWord_le order
  unfold leastKeys leafLeast
  omega

theorem leastKeys_eq (h : 2 * order < Number.wordCount) : leastKeys order = order / 2 := by
  unfold leastKeys leafLeast
  rw [Number.halfWord_ofNat h]
  omega

/-- From half of the word range on, the word wraps and asks for less than half of the order. -/
theorem leastKeys_lt (h : Number.wordCount ≤ 2 * order) : leastKeys order < order / 2 := by
  have hword : (Number.ofNat order).toWord < (Number.wordCount + 1) / 2 := by
    rw [Number.toWord]
    exact Int.bmod_lt (by decide)
  unfold leastKeys leafLeast Number.halfWord
  unfold Number.wordCount at h hword
  omega

/-- The check of occupancy asks for as much as an order does, if the least count of children is exact for
every branch. -/
theorem filled_iff_of_counts
    (hcounts : node.Everywhere fun part => ∀ isRoot,
      .ofNat part.children.length < branchLeast (.ofNat order) isRoot ↔
        part.children.length < if isRoot then 2 else (order + 1) / 2) :
    Filled (leastKeys order) ((order + 1) / 2) isRoot node ↔
      node.isFilled (.ofNat order) isRoot = true := by
  induction node using childInduction generalizing isRoot with
  | leaf keys values =>
    rw [isFilled, Bool.or_eq_true, Bool.not_eq_true', decide_eq_false_iff_not]
    constructor
    · intro h
      cases h with
      | leaf enough =>
        cases isRoot with
        | true => exact .inl rfl
        | false =>
          -- a negative word asks for nothing, and its count is zero
          have henough := enough rfl
          unfold leastKeys at henough
          right
          omega
    · intro h
      apply Filled.leaf
      rintro rfl
      unfold leastKeys
      simp only [Bool.false_eq_true, false_or] at h
      omega
  | branch keys children ih =>
    obtain ⟨hcount, hcounts⟩ := everywhere_branch.mp hcounts
    rw [children_branch] at hcount
    rw [isFilled, Bool.and_eq_true, Bool.not_eq_true', decide_eq_false_iff_not, hcount,
      allFilled_iff, Nat.not_lt]
    constructor
    · intro h
      cases h with
      | branch enough full =>
        exact ⟨enough, fun child hc => (ih child hc (hcounts child hc)).mp (full child hc)⟩
    · rintro ⟨enough, full⟩
      exact .branch enough fun child hc => (ih child hc (hcounts child hc)).mpr (full child hc)

/-- The check of occupancy asks for as much as the order of the tree does. -/
theorem filled_iff (hsmall : node.Small) :
    Filled (leastKeys order) ((order + 1) / 2) isRoot node ↔
      node.isFilled (.ofNat order) isRoot = true :=
  filled_iff_of_counts fun depth part ho _ => lt_branchLeast (lt_twoTo_fifty (hsmall depth part ho).2)

end Node
end OrderedIndex
