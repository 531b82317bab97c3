import OrderedIndex.Proofs.Node.Checks
import OrderedIndex.Proofs.Node.Lookup

/-!
# Searches in nodes that pass the checks of order

Two checks are enough for searches: the keys of every node increase, and they lie between the nearest
separators around the node. Neither the depths of leaves nor the sizes of nodes matter, and a leaf may
lack values.
-/
namespace OrderedIndex
namespace Node

variable {K V : Type} {compare : Comparator K} {used : K → Prop} {node : Node K V}

/-- A node that passes both checks has its keys in order, as ranks. -/
theorem arranged_of_checks {α : Type} [LinearOrder α] {rank : K → α} (hr : Ranks compare used rank)
    (hu : node.Uses used) (sorted : node.isSorted compare = true)
    (separated : node.separatorsValid compare = true) : node.Arranged used rank none none := by
  have hnone : ∀ a ∈ (none : Option K), used a := by simp
  exact (arranged_iff hr hu hnone hnone).mpr ⟨sorted, separated⟩

variable [Inhabited V]

/-- The comparator calls the keys of all pairs strictly increasing. -/
theorem Arranged.pairwise_lt {α : Type} [LinearOrder α] {rank : K → α} {low high : Option α}
    (h : node.Arranged used rank low high) (hr : Ranks compare used rank) :
    (node.pairs.map Prod.fst).Pairwise (fun a b => compare a b = .ordered .lt) := by
  have hline := h.lined_pairs
  exact hline.increasing.imp_of_mem fun hma hmb hlt =>
    (hr.lt_iff _ _ (hline.used _ hma) (hline.used _ hmb)).mpr hlt

variable [Key K]

/-- In a node that passes both checks, all pairs are in order, and every search ends with the one pair
whose key is equal to what is sought, or with nothing if there is no such pair. -/
theorem search_of_checks (ho : compare.Orders used) (hu : node.Uses used)
    (sorted : node.isSorted compare = true) (separated : node.separatorsValid compare = true) :
    (node.pairs.map Prod.fst).Pairwise (fun a b => compare a b = .ordered .lt) ∧
      ∀ key, used key →
        (∃ there, node.contains compare key = .ok there ∧
          (there = true ↔ ∃ pair ∈ node.pairs, compare pair.1 key = .ordered .eq)) ∧
        (∀ before pair after, node.pairs = before ++ pair :: after →
          compare pair.1 key = .ordered .eq →
          (∀ other ∈ before ++ after, compare other.1 key ≠ .ordered .eq) ∧
            ∀ otherwise, node.lookup compare key otherwise = .ok pair.2) ∧
        ((∀ pair ∈ node.pairs, compare pair.1 key ≠ .ordered .eq) →
          ∀ otherwise, node.lookup compare key otherwise = .ok otherwise) := by
  obtain ⟨α, _, rank, hr⟩ := exists_ranks ho
  have ha := arranged_of_checks hr hu sorted separated
  refine ⟨ha.pairwise_lt hr, ?_⟩
  intro key hk
  have hline := ha.lined_pairs
  -- what the comparator calls equal has one rank, and the pairs are in line by rank
  have heq : ∀ pair ∈ node.pairs, compare pair.1 key = .ordered .eq ↔ rank pair.1 = rank key :=
    fun pair hm => hr.eq_iff _ _ (hline.used _ (List.mem_map_of_mem hm)) hk
  obtain ⟨found, hfind, hfinds⟩ := ha.finds hr hk
  have hthere : found.isSome = true ↔ ∃ pair ∈ node.pairs, compare pair.1 key = .ordered .eq := by
    rw [hfinds.isSome_iff]
    exact exists_congr fun pair => and_congr_right fun hm => (heq pair hm).symm
  refine ⟨⟨found.isSome, by simp [contains, hfind, Except.map], hthere⟩, ?_, ?_⟩
  · intro before pair after hparts hsame
    have hm : pair ∈ node.pairs := by simp [hparts]
    have hrank := (heq pair hm).mp hsame
    constructor
    · intro other hother hagain
      have hother' : other ∈ node.pairs := by
        rw [hparts]
        simp only [List.mem_append, List.mem_cons] at hother ⊢
        exact hother.imp_right .inr
      rw [hparts] at hline
      exact hline.rank_ne other hother (((heq other hother').mp hagain).trans hrank.symm)
    · intro otherwise
      rw [hfinds.eq_some hm hrank] at hfind
      simp [lookup, hfind, Except.map]
  · intro hno otherwise
    have hnone : found = none := by
      rw [← Option.not_isSome_iff_eq_none, hthere]
      rintro ⟨pair, hm, hsame⟩
      exact hno pair hm hsame
    rw [hnone] at hfind
    simp [lookup, hfind, Except.map]

/-- Leaves at different depths, a branch with a single child, an empty leaf, and a leaf that lacks a
value. -/
def uneven : Node Nat Nat :=
  .branch [5, 9] [.branch [] [.leaf [1, 3] [10]], .leaf [5, 7] [50, 70], .leaf [] []]

/-- The key 5 is a separator of the root and is found to its right; 6 is not there. -/
theorem search_of_checks_uneven :
    (Key.natural : Comparator Nat).Orders (fun _ => True) ∧ uneven.Uses (fun _ => True) ∧
      uneven.isSorted Key.natural = true ∧ uneven.separatorsValid Key.natural = true ∧
      uneven.isBalanced = false ∧ uneven.pairs = [(1, 10), (3, 0), (5, 50), (7, 70)] ∧
      uneven.lookup Key.natural 5 99 = .ok 50 ∧ uneven.lookup Key.natural 6 99 = .ok 99 := by
  have horders := ranks_natural.orders
  have huses := uses_all uneven
  have hsorted : uneven.isSorted Key.natural = true := by decide
  have hseparated : uneven.separatorsValid Key.natural = true := by decide
  have hpairs : uneven.pairs = [(1, 10), (3, 0), (5, 50), (7, 70)] := by decide
  obtain ⟨_, hsearch⟩ := search_of_checks horders huses hsorted hseparated
  refine ⟨horders, huses, hsorted, hseparated, by decide, hpairs, ?_, ?_⟩
  · exact ((hsearch 5 trivial).2.1 [(1, 10), (3, 0)] (5, 50) [(7, 70)] hpairs rfl).2 99
  · apply (hsearch 6 trivial).2.2
    simp [hpairs, Key.natural]

end Node
end OrderedIndex
