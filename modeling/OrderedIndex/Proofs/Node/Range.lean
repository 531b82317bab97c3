import OrderedIndex.Proofs.Node.Bounds
import OrderedIndex.Proofs.Node.Contract
import OrderedIndex.Proofs.Node.Keys
import OrderedIndex.Proofs.Node.Sizes

/-!
# Insertion between two bounds

What an insertion into any subtree promises to the branch above it, in terms of the checks of nodes and of
the answers of the comparator. The subtree need not come from insertions, and it may be less full than a
tree allows. What the branch needs to stay in order itself is that the separator of a split lies strictly
between the bounds around the subtree.
-/
namespace OrderedIndex
namespace Node

variable {K V : Type} {compare : Comparator K} {used : K → Prop} {order height : Nat}
  {low high : Option K} {node : Node K V}

/-! ## Subtrees between two bounds -/

structure Fits (compare : Comparator K) (order height : Nat) (low high : Option K)
    (node : Node K V) : Prop where
  sorted : node.isSorted compare = true
  separated : node.separatorsValid compare = true
  level : node.uniformHeight? = some height
  fanout : node.withinFanout (.ofNat order) = true
  aligned : node.isAligned = true
  between : node.Between compare low high

/-- A subtree fits if it has its shape and its keys in order, as long as the limit of keys is exact. -/
theorem fits_iff {α : Type} [LinearOrder α] {rank : K → α} (hr : Ranks compare used rank)
    (three : 3 ≤ order) (hu : node.Uses used) (hlow : ∀ a ∈ low, used a) (hhigh : ∀ b ∈ high, used b)
    (hlengths : node.Everywhere fun part => part.keys.length < Number.twoTo 50) :
    node.Fits compare order height low high ↔
      node.Arranged used rank (low.map rank) (high.map rank) ∧ Shaped order height node := by
  have harranged := arranged_iff_between hr hu hlow hhigh
  constructor
  · intro h
    have ha := harranged.mpr ⟨h.sorted, h.separated, h.between⟩
    have hs := (shaped_iff_of_lengths three hlengths ha.counted).mpr ⟨h.level, h.fanout, h.aligned⟩
    exact ⟨ha, hs⟩
  · rintro ⟨ha, hs⟩
    obtain ⟨sorted, separated, between⟩ := harranged.mp ha
    obtain ⟨level, fanout, aligned⟩ := (shaped_iff_of_lengths three hlengths ha.counted).mp hs
    exact ⟨sorted, separated, level, fanout, aligned, between⟩

/-! ## Pairs -/

inductive Puts (compare : Comparator K) (key : K) (value : V) :
    List (K × V) → List (K × V) → Bool → Prop
  | replaced {p₁ p₂ : List (K × V)} {k : K} {old : V}
      (lower : ∀ p ∈ p₁, compare p.1 key = .ordered .lt) (same : compare k key = .ordered .eq)
      (higher : ∀ p ∈ p₂, compare p.1 key = .ordered .gt) :
      Puts compare key value (p₁ ++ (k, old) :: p₂) (p₁ ++ (k, value) :: p₂) false
  | added {p₁ p₂ : List (K × V)} (lower : ∀ p ∈ p₁, compare p.1 key = .ordered .lt)
      (higher : ∀ p ∈ p₂, compare p.1 key = .ordered .gt) :
      Puts compare key value (p₁ ++ p₂) (p₁ ++ (key, value) :: p₂) true

theorem puts_of_upserts {α : Type} [LinearOrder α] {rank : K → α} (hr : Ranks compare used rank)
    {key : K} (hk : used key) {value : V} {pairs next : List (K × V)} {added : Bool}
    (hu : ∀ k ∈ pairs.map Prod.fst, used k) (h : Upserts rank key value pairs next added) :
    Puts compare key value pairs next added := by
  have hused (p : K × V) (hp : p ∈ pairs) : used p.1 := hu p.1 (List.mem_map_of_mem hp)
  cases h with
  | replaced lower same higher =>
    refine .replaced ?_ ((hr.eq_iff _ _ (hu _ (by simp)) hk).mpr same) ?_
    · exact fun p hp => (hr.lt_iff _ _ (hused p (by simp [hp])) hk).mpr (lower p hp)
    · exact fun p hp => (hr.gt_iff _ _ (hused p (by simp [hp])) hk).mpr (higher p hp)
  | added lower higher =>
    refine .added ?_ ?_
    · exact fun p hp => (hr.lt_iff _ _ (hused p (by simp [hp])) hk).mpr (lower p hp)
    · exact fun p hp => (hr.gt_iff _ _ (hused p (by simp [hp])) hk).mpr (higher p hp)

/-! ## The promise of an insertion -/

/-- How an insertion into a subtree between two bounds ends. The subtree absorbs the pair and fits as
before; or its halves fit on both sides of a separator strictly between the bounds, and each is half full.
It does not fail. -/
inductive Upholds [Inhabited V] (compare : Comparator K) (order height : Nat) (low high : Option K)
    (key : K) (value : V) (node : Node K V) : Insertion K V → Prop
  | absorbed {next : Node K V} {added : Bool} (fits : next.Fits compare order height low high)
      (pairs : Puts compare key value node.pairs next.pairs added) :
      Upholds compare order height low high key value node (.absorbed next added)
  | split {halves : Split K V}
      (left : halves.left.Fits compare order height low (some halves.separator))
      (right : halves.right.Fits compare order height (some halves.separator) high)
      (above : ∀ a ∈ low, compare halves.separator a = .ordered .gt)
      (below : ∀ b ∈ high, compare halves.separator b = .ordered .lt)
      (left_size : halves.left.HalfFull order) (right_size : halves.right.HalfFull order)
      (pairs : Puts compare key value node.pairs (halves.left.pairs ++ halves.right.pairs) true) :
      Upholds compare order height low high key value node (.split halves)

variable [Key K] {key : K} {value : V} {result : Insertion K V}

/-- The lists of keys stay far below the first length for which the limit is off. -/
theorem Takes.lengths_lt (ht : Takes order compare key value node result) (hsmall : node.Small) :
    ∀ part ∈ result.nodes, part.Everywhere fun inner => inner.keys.length < Number.twoTo 50 := by
  have hmost : node.Everywhere fun part => part.keys.length ≤ Number.twoTo 30 :=
    fun depth part ho => (hsmall depth part ho).1.le
  have hexact : Number.twoTo 30 + 1 < Number.twoTo 50 := by decide
  exact fun part hp depth inner ho => (ht.lengths hmost part hp depth inner ho).trans_lt hexact

theorem Takes.upholds [Inhabited V] {α : Type} [LinearOrder α] {rank : K → α}
    (ht : Takes order compare key value node result) (hr : Ranks compare used rank)
    (three : 3 ≤ order) (hu : node.Uses used) (hlow : ∀ a ∈ low, used a) (hhigh : ∀ b ∈ high, used b)
    (hk : used key) (hsmall : node.Small)
    (ha : node.Arranged used rank (low.map rank) (high.map rank)) (hs : Shaped order height node)
    (hin : Inside (low.map rank) (high.map rank) (rank key)) :
    Upholds compare order height low high key value node result := by
  have hstands := ht.stands three hr hk hin ha
  have hshaped := ht.shaped three hs
  obtain ⟨hseparators, huses⟩ := ht.uses hk hu
  have hputs := puts_of_upserts hr hk hu.pairs (ht.upserts three hr hk hin ha)
  have hlengths := ht.lengths_lt hsmall
  have hfits {part : Node K V} {lo hi : Option K} (hp : part ∈ result.nodes)
      (hlo : ∀ a ∈ lo, used a) (hhi : ∀ b ∈ hi, used b)
      (hpart : part.Arranged used rank (lo.map rank) (hi.map rank)) :
      part.Fits compare order height lo hi :=
    (fits_iff hr three (huses part hp) hlo hhi (hlengths part hp)).mpr ⟨hpart, hshaped part hp⟩
  cases result with
  | absorbed next added =>
    refine .absorbed (hfits (by simp) hlow hhigh (row_one.mp hstands.row)) ?_
    simpa using hputs
  | split halves =>
    have hsep : used halves.separator := hseparators halves.separator (by simp)
    have hbound : ∀ a ∈ some halves.separator, used a := by simpa using hsep
    obtain ⟨hleft, hright⟩ := row_cons.mp hstands.row
    have hinside := hstands.line.inside halves.separator (by simp)
    refine .split (hfits (by simp) hlow hbound hleft)
      (hfits (by simp) hbound hhigh (row_one.mp hright)) ?_ ?_ ht.halfFull.1 ht.halfFull.2 ?_
    · intro a hm
      apply (hr.gt_iff _ _ hsep (hlow a hm)).mpr
      exact hstands.strict halves.separator (by simp) _ (Option.mem_map_of_mem rank hm)
    · intro b hm
      apply (hr.lt_iff _ _ hsep (hhigh b hm)).mpr
      exact hinside.to_high _ (Option.mem_map_of_mem rank hm)
    · simpa using hputs
  | failed left e => exact absurd rfl ht.ne_failed

/-- An insertion of a key between the bounds of a subtree, whatever subtree fits between them, keeps all
that fits and sets the pair; the halves of a split fit on both sides of their separator. -/
theorem insert_upholds [Inhabited K] [Inhabited V] (ho : compare.Orders used) (three : 3 ≤ order)
    (hu : node.Uses used) (hlow : ∀ a ∈ low, used a) (hhigh : ∀ b ∈ high, used b) (hk : used key)
    (hsmall : node.Small) (fits : node.Fits compare order height low high)
    (inRange : InRange compare low high key) (value : V) :
    Upholds compare order height low high key value node
      (node.insert (.ofNat order) compare key value) := by
  obtain ⟨α, _, rank, hr⟩ := exists_ranks ho
  have hin := (inRange_iff_inside hr hk hlow hhigh).mp inRange
  obtain ⟨ha, hs⟩ := (fits_iff hr three hu hlow hhigh hsmall.lengths_lt).mp fits
  rcases insert_takes three hs compare key value with ⟨e, _, hfails, _⟩ | ht
  · -- a search among keys in order does not fail
    obtain ⟨found, hfind, _⟩ := ha.finds hr hk
    simp [hfails] at hfind
  · exact ht.upholds hr three hu hlow hhigh hk hsmall ha hs hin

/-- A branch with as many children as it may have over a leaf with as many keys as it may have; its other
leaves are less than half full. -/
def crowded : Node Nat Nat :=
  .branch [10, 20, 30]
    [.leaf [1] [1], .leaf [10, 12, 14] [2, 3, 4], .leaf [20] [5], .leaf [30] [6]]

theorem crowded_small : crowded.Small := by
  have hlimit : 4 < Number.twoTo 30 := by decide
  simp [crowded, Small, everywhere_leaf, everywhere_branch]
  omega

theorem crowded_fits : crowded.Fits Key.natural 4 1 (some 0) (some 40) := by
  refine (fits_iff ranks_natural (by decide) (uses_all crowded) (by simp) (by simp)
    crowded_small.lengths_lt).mpr ⟨?_, ?_⟩
  · simp [crowded, lined_all_iff, inside_iff]
  · simp [crowded, shaped_branch, shaped_leaf]

/-- One key splits the leaf and the branch above it. -/
theorem insert_upholds_crowded :
    (Key.natural : Comparator Nat).Orders (fun _ => True) ∧ crowded.Uses (fun _ => True) ∧
      crowded.Small ∧ crowded.Fits Key.natural 4 1 (some 0) (some 40) ∧
      InRange (Key.natural : Comparator Nat) (some 0) (some 40) 13 ∧
      Upholds Key.natural 4 1 (some 0) (some 40) 13 7 crowded
        (crowded.insert (.ofNat 4) Key.natural 13 7) := by
  have horders := ranks_natural.orders
  have huses := uses_all crowded
  have hin : InRange (Key.natural : Comparator Nat) (some 0) (some 40) 13 :=
    (inRange_iff_inside ranks_natural trivial (by simp) (by simp)).mpr (by simp [inside_iff])
  have hupholds := insert_upholds horders (by decide) huses (by simp) (by simp) trivial
    crowded_small crowded_fits hin 7
  exact ⟨horders, huses, crowded_small, crowded_fits, hin, hupholds⟩

end Node
end OrderedIndex
