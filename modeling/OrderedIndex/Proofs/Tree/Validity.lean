import OrderedIndex.Proofs.Node.Checks
import OrderedIndex.Proofs.Node.Problems
import OrderedIndex.Proofs.Node.Sizes
import OrderedIndex.Proofs.Tree.Integrity
import OrderedIndex.Proofs.Tree.Sorted

/-!
# Validity is kept

If the comparator orders the keys used, a tree that passes its own check passes it after any operations,
however it was made. What the check stands for, said without it, holds at every depth.
-/
namespace OrderedIndex
namespace Tree

variable {K V α : Type} [LinearOrder α] {compare : Comparator K} {used : K → Prop} {rank : K → α}
  [Inhabited V] {tree : Tree K V} {key : K}

/-! ## The check -/

structure Lawful (used : K → Prop) (rank : K → α) (tree : Tree K V) : Prop where
  sorted : Sorted used rank tree
  filled : Node.Filled (Node.leastKeys tree.order) ((tree.order + 1) / 2) true tree.root
  counted : tree.size.equalsNumber (.count tree.toList.length) = true

theorem problems_eq_nil_iff [Key K] :
    tree.problems = [] ↔ tree.report.problems = [] ∧
      tree.size.equalsNumber (.count tree.toList.length) = true := by
  rw [problems, List.append_eq_nil_iff, List.map_eq_nil_iff]
  split <;> simp_all

theorem checkValid_eq_ok_iff [Key K] :
    tree.checkValid = .ok () ↔ tree.root.isRefused tree.compare = false ∧
      tree.report.problems = [] ∧ tree.size.equalsNumber (.count tree.toList.length) = true := by
  rw [checkValid, ← problems_eq_nil_iff, ← List.isEmpty_iff]
  cases tree.root.isRefused tree.compare with
  | true => simp
  | false => cases tree.problems.isEmpty <;> simp

/-- The check succeeds exactly for lawful trees, as long as the lists of their nodes are not huge. -/
theorem checkValid_iff_lawful [Key K] (hr : Ranks tree.compare used rank) (hu : tree.root.Uses used)
    (hsmall : tree.root.Small) : tree.checkValid = .ok () ↔ Lawful used rank tree := by
  have hnone : ∀ a ∈ (none : Option K), used a := by simp
  have harranged := Node.arranged_iff hr hu hnone hnone
  simp only [Option.map_none] at harranged
  have three := tree.three_le_order
  rw [checkValid_eq_ok_iff, report, Node.report_problems_eq_nil_iff, Value.toNumber_number, orderNumber]
  constructor
  · rintro ⟨_, ⟨hsorted, hseparated, hbalanced, hfanout, hoccupancy, haligned⟩, hcounted⟩
    have ha := harranged.mpr ⟨hsorted, hseparated⟩
    obtain ⟨height, hheight⟩ := Option.isSome_iff_exists.mp hbalanced
    have hs := (Node.shaped_iff three hsmall ha.counted).mpr ⟨hheight, hfanout, haligned⟩
    exact ⟨⟨hr, ⟨height, hs⟩, ha⟩, (Node.filled_iff hsmall).mpr hoccupancy, hcounted⟩
  · rintro ⟨⟨_, ⟨height, hs⟩, ha⟩, hfilled, hcounted⟩
    obtain ⟨hsorted, hseparated⟩ := harranged.mp ha
    obtain ⟨hheight, hfanout, haligned⟩ := (Node.shaped_iff three hsmall ha.counted).mp hs
    refine ⟨Node.isRefused_of_used hr hu, ⟨hsorted, hseparated, ?_, hfanout,
      (Node.filled_iff hsmall).mp hfilled, haligned⟩, hcounted⟩
    simp [Node.isBalanced, hheight]

/-- Fewer pairs than words can count are in lists that words can count. -/
theorem Grown.small (h : Grown tree) (few : tree.toList.length < Number.twoTo 30) :
    tree.root.Small := by
  obtain ⟨⟨height, hs⟩, hf, _⟩ := h
  have three := tree.three_le_order
  intro depth part ho
  obtain ⟨hkeys, hchildren⟩ := hf.length_le_pairs hs (by omega) depth part ho
  exact ⟨hkeys.trans_lt few, hchildren.trans_lt few⟩

/-! ## What the check stands for -/

/-- A valid tree, said without its check: every node has its keys strictly increasing, its separators
bound all keys below it, and it has the sizes that the order of the tree asks for, where half of an
order is taken of a word; all leaves are at one depth, and the count of pairs is right. -/
structure Sound (tree : Tree K V) : Prop where
  increasing : tree.root.Everywhere fun part =>
    part.keys.Pairwise fun a b => tree.compare a b = .ordered .lt
  separated : ∀ depth keys children, Node.Occurs (.branch keys children) depth tree.root →
    ∀ (i : Nat) (child : Node K V), children[i]? = some child →
      child.Everywhere fun inner => ∀ key ∈ inner.keys,
        (∀ separator ∈ keys.take i, tree.compare key separator ≠ .ordered .lt) ∧
          ∀ separator ∈ keys.drop i, tree.compare key separator = .ordered .lt
  level : ∃ height, ∀ depth keys values, Node.Occurs (.leaf keys values) depth tree.root →
    depth = height
  leaves : ∀ depth keys values, Node.Occurs (.leaf keys values) depth tree.root →
    keys.length ≤ tree.order - 1 ∧
      (0 < depth → Node.leafLeast tree.orderNumber ≤ (keys.length : Int)) ∧
      (0 < depth → 2 * tree.order < Number.wordCount → tree.order / 2 ≤ keys.length) ∧
      values.length = keys.length
  branches : ∀ depth keys children, Node.Occurs (.branch keys children) depth tree.root →
    children.length = keys.length + 1 ∧ children.length ≤ tree.order ∧ 2 ≤ children.length ∧
      (0 < depth → (tree.order + 1) / 2 ≤ children.length)
  counted : tree.size.equalsNumber (.count tree.toList.length) = true

theorem Lawful.sound (h : Lawful used rank tree) : Sound tree := by
  obtain ⟨⟨hr, ⟨height, hs⟩, ha⟩, hf, hc⟩ := h
  refine
    { increasing := ?_, separated := ?_, level := ⟨height, ?_⟩, leaves := ?_, branches := ?_
      counted := hc }
  · intro depth part ho
    obtain ⟨lo, hi, hpart, _⟩ := ha.occurs ho
    have hline := hpart.lined
    exact hline.increasing.imp_of_mem fun hma hmb hlt =>
      (hr.lt_iff _ _ (hline.used _ hma) (hline.used _ hmb)).mpr hlt
  · intro depth keys children ho i child hchild below inner hinner key hm
    obtain ⟨lo, hi, hpart, _⟩ := ha.occurs ho
    have hkeys := hpart.lined.used
    obtain ⟨hu, hbefore, hafter⟩ := hpart.separated hchild hinner hm
    constructor
    · intro separator hsep
      rw [ne_eq, hr.lt_iff key separator hu (hkeys _ (List.mem_of_mem_take hsep)), not_lt]
      exact hbefore separator hsep
    · intro separator hsep
      rw [hr.lt_iff key separator hu (hkeys _ (List.mem_of_mem_drop hsep))]
      exact hafter separator hsep
  · intro depth keys values ho
    exact (leaf_bounds hs hf ho).1
  · intro depth keys values ho
    obtain ⟨_, hroom, hleast, haligned⟩ := leaf_bounds hs hf ho
    refine ⟨by omega, fun hd => ?_, fun hd hword => ?_, haligned⟩
    · have henough := hleast hd
      unfold Node.leastKeys at henough
      unfold orderNumber
      omega
    -- below half the range of words the least count is half the order
    · rw [← Node.leastKeys_eq hword]
      exact hleast hd
  · intro depth keys children ho
    exact branch_bounds hs hf ho

theorem Lawful.uses (h : Lawful used rank tree) : tree.root.Uses used :=
  h.sorted.arranged.uses

/-! ## Operations -/

theorem Lawful.empty (hr : Ranks compare used rank) (order : Nat) (three_le_order : 3 ≤ order) :
    Lawful used rank (empty order three_le_order compare : Tree K V) where
  sorted := .empty hr order three_le_order
  filled := .leaf (by simp)
  counted := by
    have hzero : Number.compare? 0 0 = some .eq := Number.compare?_ofInt 0 0
    simp [Tree.empty, toList, Node.pairUp, Value.equalsNumber, Number.equals, hzero]

theorem Lawful.clear (h : Lawful used rank tree) : Lawful used rank tree.clear := by
  rw [clear_eq_empty]
  exact .empty h.sorted.ranks tree.order tree.three_le_order

omit [Inhabited V] in
/-- The counter takes a step and stays right. -/
theorem nextSize_equalsNumber {n : Nat} (h : tree.size.equalsNumber (.count n) = true) :
    tree.nextSize.equalsNumber (.count (n + 1)) = true := by
  unfold nextSize
  cases hs : tree.size with
  | number x =>
    rw [hs] at h
    exact Number.equals_add_one h
  | _ => simp [hs, Value.equalsNumber] at h

variable [Key K] [Inhabited K]

theorem Lawful.insert (h : Lawful used rank tree) (hu : used key) (value : V) :
    Lawful used rank (tree.insert key value).1 := by
  obtain ⟨added, _, hsorted, _⟩ := h.sorted.insert hu value
  obtain ⟨height, hs⟩ := h.sorted.shaped
  rcases insert_cases hs key value with ⟨e, he, _⟩ | ⟨result, ht, hi⟩
  · rw [he]
    exact h
  · rw [hi] at hsorted ⊢
    have hcounted := h.counted
    refine ⟨hsorted, ht.root_filled (Node.leastKeys_le _) (Nat.le_refl _) h.filled, ?_⟩
    simp only [toList] at hcounted ⊢
    rw [Insertion.pairs_root, ht.length_pairs]
    cases result.added with
    | false => simpa using hcounted
    | true => simpa using nextSize_equalsNumber hcounted

theorem Lawful.run (h : Lawful used rank tree) {operations : List (Operation K V)}
    (hu : ∀ operation ∈ operations, operation.Uses used) : Lawful used rank (tree.run operations) :=
  run_keeps h hu (fun _ _ value h hu => h.insert hu value) fun _ h => h.clear

/-! ## A tree put together by hand -/

/-- Both leaves are about to split. -/
def handMade : Tree Nat Nat :=
  (Tree.empty 3 (by decide) Key.natural).load
    (some (.branch [5] [.leaf [1, 2] [10, 20], .leaf [5, 8] [50, 80]])) (some (.number 4))

theorem handMade_small : handMade.root.Small := by
  have hlimit : 3 < Number.twoTo 30 := by decide
  simp [handMade, load, Node.Small, Node.everywhere_leaf, Node.everywhere_branch]
  omega

theorem run_handMade_small :
    (handMade.run [.insert 3 30, .insertAll [(8, 81), (9, 90)]]).root.Small := by
  have hroot : (handMade.run [.insert 3 30, .insertAll [(8, 81), (9, 90)]]).root =
      .branch [5] [.branch [2] [.leaf [1] [10], .leaf [2, 3] [20, 30]],
        .branch [8] [.leaf [5] [50], .leaf [8, 9] [81, 90]]] := by
    decide +kernel
  have hlimit : 3 < Number.twoTo 30 := by decide
  rw [hroot]
  simp [Node.Small, Node.everywhere_leaf, Node.everywhere_branch]
  omega

/-! ## Runs -/

/-- A fresh tree passes its check, and so does every tree that operations lead to from one that passes
it, whether that one was reached by operations or loaded. The keys brought and those in the tree are
ordered by the comparator, and no list of a node is so long that its length is no word. -/
theorem checkValid_run {compare : Comparator K} (ho : compare.Orders used) :
    (∀ order three_le_order, (empty order three_le_order compare : Tree K V).checkValid = .ok ()) ∧
      ∀ (tree : Tree K V) (operations : List (Operation K V)), tree.compare = compare →
        tree.root.Uses used → tree.root.Small → tree.checkValid = .ok () →
        (∀ operation ∈ operations, operation.Uses used) → (tree.run operations).root.Small →
        (tree.run operations).checkValid = .ok () ∧ Sound (tree.run operations) := by
  obtain ⟨α, _, rank, hr⟩ := exists_ranks ho
  constructor
  · intro order three_le_order
    have hlawful : Lawful used rank (empty order three_le_order compare : Tree K V) :=
      .empty hr order three_le_order
    apply (checkValid_iff_lawful hr hlawful.uses ?_).mpr hlawful
    exact Node.everywhere_leaf.mpr ⟨by simp [Number.twoTo_pos], by simp [Number.twoTo_pos]⟩
  · rintro tree operations rfl hu hsmall hvalid hops hsmall'
    have hlawful := (checkValid_iff_lawful hr hu hsmall).mp hvalid
    have hrun := hlawful.run hops
    exact ⟨(checkValid_iff_lawful hrun.sorted.ranks hrun.uses hsmall').mpr hrun, hrun.sound⟩

/-- Two operations split both leaves of a loaded tree, and then its root. -/
theorem checkValid_run_handMade :
    (Key.natural : Comparator Nat).Orders (fun _ => True) ∧ handMade.root.Uses (fun _ => True) ∧
      handMade.root.Small ∧ handMade.checkValid = .ok () ∧
      (handMade.run [.insert 3 30, .insertAll [(8, 81), (9, 90)]]).root.Small ∧
      (handMade.run [.insert 3 30, .insertAll [(8, 81), (9, 90)]]).checkValid = .ok () ∧
      Sound (handMade.run [.insert 3 30, .insertAll [(8, 81), (9, 90)]]) := by
  have huses : handMade.root.Uses (fun _ => True) := Node.uses_all _
  have hvalid : handMade.checkValid = .ok () := by
    decide +kernel
  have hrun := (checkValid_run ranks_natural.orders).2 handMade
    [.insert 3 30, .insertAll [(8, 81), (9, 90)]] rfl huses handMade_small hvalid
    (by simp [Operation.Uses]) run_handMade_small
  exact ⟨ranks_natural.orders, huses, handMade_small, hvalid, run_handMade_small, hrun⟩

end Tree
end OrderedIndex
