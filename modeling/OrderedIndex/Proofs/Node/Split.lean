import OrderedIndex.Proofs.Node.Bounds
import OrderedIndex.Proofs.Node.Checked
import OrderedIndex.Proofs.Node.Insertion

/-!
# Splitting a node

A node can be split at every place that leaves keys on both sides, and at no other: it stays as it is
then. The two halves share out what the node has, whatever the lengths of its lists. If the keys of the
node are in order, the separator bounds both halves at every depth.
-/
namespace OrderedIndex
namespace Node

variable {K V α : Type} [LinearOrder α] {compare : Comparator K} {used : K → Prop} {rank : K → α}
  {low high : Option α} {node : Node K V} {halves : Split K V} {mid : Int}

/-- The first place that is too far right for a split. A branch gives up a key, so it needs one more. -/
def splitEnd : Node K V → Int
  | leaf keys _ => keys.length
  | branch keys _ => keys.length - 1

/-! ## How a node is split -/

inductive Splits : Node K V → Split K V → Prop
  | leaf {kl kr : List K} {separator : K} {values : List V} (left : kl ≠ []) :
      Splits (leaf (kl ++ separator :: kr) values)
        ⟨leaf kl (values.take kl.length), separator,
          leaf (separator :: kr) (values.drop kl.length)⟩
  | branch {kl kr : List K} {separator : K} {children : List (Node K V)} (left : kl ≠ [])
      (right : kr ≠ []) :
      Splits (branch (kl ++ separator :: kr) children)
        ⟨branch kl (children.take (kl.length + 1)), separator,
          branch kr (children.drop (kl.length + 1))⟩

/-- A place with keys on both sides splits a node. -/
theorem splitAt_splits [Inhabited K] (left : 0 < mid) (right : mid < node.splitEnd) :
    ∃ halves, node.splitAt (.ofNumber (.ofInt mid)) = .ok halves ∧ Splits node halves := by
  obtain ⟨n, rfl⟩ := Int.eq_ofNat_of_zero_le left.le
  cases node with
  | leaf keys values =>
    simp only [splitEnd] at right
    obtain ⟨kl, separator, kr, rfl, rfl⟩ := Position.parts_of_lt (show n < keys.length by omega)
    have hl : 0 < kl.length := by omega
    exact ⟨_, splitAt_leaf separator kr values hl, .leaf (List.ne_nil_of_length_pos hl)⟩
  | branch keys children =>
    simp only [splitEnd] at right
    obtain ⟨kl, separator, kr, rfl, rfl⟩ := Position.parts_of_lt (show n < keys.length by omega)
    have hl : 0 < kl.length := by omega
    have hr : 0 < kr.length := by
      simp only [List.length_append, List.length_cons] at right
      omega
    exact ⟨_, splitAt_branch separator children hl hr,
      .branch (List.ne_nil_of_length_pos hl) (List.ne_nil_of_length_pos hr)⟩

/-- Every other place is rejected. -/
theorem splitAt_rejects [Inhabited K] (outside : ¬(0 < mid ∧ mid < node.splitEnd)) :
    node.splitAt (.ofNumber (.ofInt mid)) = .error (node.splitError (.ofNumber (.ofInt mid))) := by
  have hrejects {last : Int} (hlast : node.splitEnd = last) :
      ¬((0 : Number) < .ofInt mid ∧ Number.ofInt mid < .ofInt last) := by
    rintro ⟨left, right⟩
    exact outside ⟨Number.ofInt_lt_ofInt.mp left, hlast ▸ Number.ofInt_lt_ofInt.mp right⟩
  cases node with
  | leaf keys values => exact if_neg (hrejects rfl)
  | branch keys children => exact if_neg (hrejects rfl)

/-! ## What the halves share out -/

/-- Two halves of the kind of a node, with keys in both, that share out what the node has. A leaf keeps
its separator as the first key on the right; a branch gives it up. -/
structure Shares [Inhabited V] (node : Node K V) (halves : Split K V) : Prop where
  left_kind : halves.left.isLeaf = node.isLeaf
  right_kind : halves.right.isLeaf = node.isLeaf
  left_keys : halves.left.keys ≠ []
  right_keys : halves.right.keys ≠ []
  leaf_keys : node.isLeaf = true → halves.left.keys ++ halves.right.keys = node.keys ∧
    halves.right.keys.head? = some halves.separator
  branch_keys : node.isLeaf = false →
    halves.left.keys ++ [halves.separator] ++ halves.right.keys = node.keys
  children : halves.left.children ++ halves.right.children = node.children
  counted : node.children.length = node.keys.length + 1 →
    halves.left.children.length = halves.left.keys.length + 1 ∧
      halves.right.children.length = halves.right.keys.length + 1
  pairs : halves.left.pairs ++ halves.right.pairs = node.pairs

theorem Splits.shares [Inhabited V] (hs : Splits node halves) : node.Shares halves := by
  cases hs with
  | @leaf kl kr separator values left =>
    have hpairs := pairUp_parts kl (separator :: kr) values
    exact ⟨rfl, rfl, left, by simp, by simp, nofun, rfl, nofun, by simp [hpairs, pairUp_take]⟩
  | @branch kl kr separator children left right =>
    have hparts := List.take_append_drop (kl.length + 1) children
    refine ⟨rfl, rfl, left, right, nofun, by simp, hparts, ?_, ?_⟩
    · intro hcounted
      simp only [children_branch, keys_branch, List.length_append, List.length_cons,
        List.length_take, List.length_drop] at hcounted ⊢
      omega
    · simp only [pairs_branch]
      rw [← pairsOf_append, hparts]

/-! ## Halves in order -/

theorem Splits.separator_mem (hs : Splits node halves) : halves.separator ∈ node.keys := by
  cases hs <;> simp

/-- The separator is a bound of both halves. -/
theorem Splits.arranged (hs : Splits node halves) (h : node.Arranged used rank low high) :
    halves.left.Arranged used rank low (some (rank halves.separator)) ∧
      halves.right.Arranged used rank (some (rank halves.separator)) high := by
  cases hs with
  | leaf => exact (arranged_leaf.mp h).cut
  | @branch kl kr separator children =>
    obtain ⟨hk, hrow⟩ := arranged_branch.mp h
    have hlen := hrow.length
    have hleft : (children.take (kl.length + 1)).length = kl.length + 1 := by
      simp only [List.length_append, List.length_cons] at hlen
      simp only [List.length_take]
      omega
    rw [← List.take_append_drop (kl.length + 1) children, row_append hleft] at hrow
    exact ⟨arranged_branch.mpr ⟨hk.cut.1, hrow.1⟩, arranged_branch.mpr ⟨hk.cut.2.tail, hrow.2⟩⟩

structure Divides (compare : Comparator K) (halves : Split K V) : Prop where
  left_sorted : halves.left.isSorted compare = true
  right_sorted : halves.right.isSorted compare = true
  left_separated : halves.left.separatorsValid compare = true
  right_separated : halves.right.separatorsValid compare = true
  below : halves.left.Between compare none (some halves.separator)
  above : halves.right.Between compare (some halves.separator) none

theorem Splits.divides (hs : Splits node halves) (ho : compare.Orders used) (hu : node.Uses used)
    (sorted : node.isSorted compare = true) (separated : node.separatorsValid compare = true) :
    Divides compare halves := by
  obtain ⟨α, _, rank, hr⟩ := exists_ranks ho
  have ha := arranged_of_checks hr hu sorted separated
  have hnone : ∀ a ∈ (none : Option K), used a := by simp
  have hsome : ∀ a ∈ some halves.separator, used a := by
    simpa using ha.lined.used _ hs.separator_mem
  obtain ⟨hleft, hright⟩ := hs.arranged ha
  obtain ⟨hls, hlv, hlb⟩ := (arranged_iff_between hr hleft.uses hnone hsome).mp hleft
  obtain ⟨hrs, hrv, hrb⟩ := (arranged_iff_between hr hright.uses hsome hnone).mp hright
  exact ⟨hls, hrs, hlv, hrv, hlb, hrb⟩

/-! ## Every node and every integer -/

/-- A split at an integer shares the node out, in order if the node is, or it is rejected by a check and
leaves the node as it is. -/
theorem splitInPlace_shares_or_rejects [Inhabited K] [Inhabited V] (node : Node K V) (mid : Int) :
    if 0 < mid ∧ mid < node.splitEnd then
      ∃ halves, node.splitInPlace (.ofNumber (.ofInt mid)) = (halves.left, .ok halves) ∧
        node.Shares halves ∧
        ∀ (compare : Comparator K) (used : K → Prop), compare.Orders used → node.Uses used →
          node.isSorted compare = true → node.separatorsValid compare = true →
          Divides compare halves
    else
      ∃ message, node.splitInPlace (.ofNumber (.ofInt mid)) =
        (node, .error (.violation message [message])) := by
  split
  · next inside =>
    obtain ⟨halves, hsplit, hs⟩ := splitAt_splits inside.1 inside.2
    exact ⟨halves, by simp only [splitInPlace, hsplit], hs.shares,
      fun compare used ho hu sorted separated => hs.divides ho hu sorted separated⟩
  · next outside => exact ⟨_, by simp only [splitInPlace, splitAt_rejects outside]; rfl⟩

/-- A branch that can be split at its second separator and nowhere else. -/
def fourLeaves : Node Nat Nat :=
  .branch [2, 4, 6] [.leaf [1] [10], .leaf [2, 3] [20, 30], .leaf [5] [50], .leaf [6] [60]]

/-- The third separator of a branch is too far right, where the third key of a leaf would not be. -/
theorem splitInPlace_shares_or_rejects_fourLeaves :
    (Key.natural : Comparator Nat).Orders (fun _ => True) ∧ fourLeaves.Uses (fun _ => True) ∧
      fourLeaves.isSorted Key.natural = true ∧ fourLeaves.separatorsValid Key.natural = true ∧
      (∃ halves, fourLeaves.splitInPlace (.ofNumber (.ofInt 1)) = (halves.left, .ok halves) ∧
        fourLeaves.Shares halves ∧ Divides Key.natural halves) ∧
      ∃ message, fourLeaves.splitInPlace (.ofNumber (.ofInt 2)) =
        (fourLeaves, .error (.violation message [message])) := by
  have horders := ranks_natural.orders
  have huses := uses_all fourLeaves
  have hsorted : fourLeaves.isSorted Key.natural = true := by decide
  have hseparated : fourLeaves.separatorsValid Key.natural = true := by decide
  have hsplit := splitInPlace_shares_or_rejects fourLeaves 1
  have hrejects := splitInPlace_shares_or_rejects fourLeaves 2
  rw [if_pos (by decide)] at hsplit
  rw [if_neg (by decide)] at hrejects
  obtain ⟨halves, hplace, hshares, hdivides⟩ := hsplit
  exact ⟨horders, huses, hsorted, hseparated,
    ⟨halves, hplace, hshares, hdivides _ _ horders huses hsorted hseparated⟩, hrejects⟩

end Node
end OrderedIndex
