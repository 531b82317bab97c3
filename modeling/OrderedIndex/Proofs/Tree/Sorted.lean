import OrderedIndex.Proofs.Node.Contract
import OrderedIndex.Proofs.Tree.Run

/-!
# Trees in order

A tree whose comparator orders the keys used, with those keys in order. No insertion of such a key
fails: it replaces the value of the equal key, which stays as it is, or puts its pair where it belongs
between the others.
-/
namespace OrderedIndex

namespace Tree

variable {K V α : Type} [LinearOrder α] {used : K → Prop} {rank : K → α} {tree : Tree K V} {key : K}

structure Sorted (used : K → Prop) (rank : K → α) (tree : Tree K V) : Prop where
  ranks : Ranks tree.compare used rank
  shaped : ∃ height, Node.Shaped tree.order height tree.root
  arranged : tree.root.Arranged used rank none none

theorem Sorted.empty {compare : Comparator K} (hr : Ranks compare used rank) (order : Nat)
    (three_le_order : 3 ≤ order) :
    Sorted used rank (empty order three_le_order compare : Tree K V) where
  ranks := hr
  shaped := ⟨0, .leaf (by simp [Tree.empty]; omega) rfl⟩
  arranged := Node.arranged_leaf.mpr .nil

variable [Inhabited V]

theorem Sorted.lined (h : Sorted used rank tree) :
    Node.Lined used rank none none (tree.toList.map Prod.fst) :=
  h.arranged.lined_pairs

variable [Key K]

theorem Sorted.finds (h : Sorted used rank tree) (hu : used key) :
    ∃ found, tree.root.find? tree.compare key = .ok found ∧
      Finds rank (rank key) tree.toList found :=
  h.arranged.finds h.ranks hu

variable [Inhabited K]

/-- An insertion into a tree in order succeeds and leaves it in order. -/
theorem Sorted.insert (h : Sorted used rank tree) (hu : used key) (value : V) :
    ∃ added, (tree.insert key value).2 = .ok added ∧ Sorted used rank (tree.insert key value).1 ∧
      Upserts rank key value tree.toList (tree.insert key value).1.toList added := by
  obtain ⟨hr, ⟨height, hs⟩, ha⟩ := h
  rcases insert_cases hs key value with ⟨e, _, hfails, _⟩ | ⟨result, ht, hi⟩
  · obtain ⟨found, hfind, _⟩ := ha.finds hr hu
    simp [hfails] at hfind
  · have hroot := ht.root_arranged tree.three_le_order hr hu ha
    rw [hi]
    refine ⟨result.added, rfl, ⟨hr, ⟨_, ht.root_shaped tree.three_le_order hs⟩, hroot⟩, ?_⟩
    simp only [toList, Insertion.pairs_root]
    exact ht.upserts tree.three_le_order hr hu ⟨by simp, by simp⟩ ha

end Tree
end OrderedIndex
