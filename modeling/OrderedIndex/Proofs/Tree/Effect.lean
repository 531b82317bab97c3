import OrderedIndex.Proofs.Tree.Integrity

/-!
# What one insertion changes

In every tree that operations lead to, an insertion that succeeds changes exactly one place, whatever
the comparator says. Whether a key is added is what a search for it said before.
-/
namespace OrderedIndex
namespace Tree

variable {K V : Type} [Key K] [Inhabited K] [Inhabited V] {tree : Tree K V} {key : K} {value : V}

inductive Changes (key : K) (value : V) (tree next : Tree K V) : Bool → Prop
  /-- The value that the search for the key reads is another one; all else is the same. -/
  | replaced {path : List Nat} {i : Nat} (reads : Node.ReadsAt tree.compare key path i tree.root)
      (same : next = { tree with root := tree.root.writeAt value path i }) :
      Changes key value tree next false
  /-- One leaf has its pairs and the new one, in its place or in two leaves; all other leaves are the
  same, and the count goes up by one. -/
  | gained (leaves : Node.OneLeafGains key value tree.root.leaves next.root.leaves)
      (pairs : ∃ before after, tree.toList = before ++ after ∧
        next.toList = before ++ (key, value) :: after)
      (before : Counts tree tree.toList.length) (after : Counts next (tree.toList.length + 1)) :
      Changes key value tree next true

/-- An insertion that succeeds answers as the search for its key did before. It writes one value or puts
one pair into one leaf, and leaves all else as it was. -/
theorem Reached.changes (h : Reached tree) {added : Bool}
    (done : (tree.insert key value).2 = .ok added) :
    tree.contains key = .ok (!added) ∧
      Changes key value tree (tree.insert key value).1 added := by
  have hg := h.grown
  obtain ⟨⟨height, hs⟩, _, hc⟩ := hg
  rcases insert_cases hs key value with ⟨e, he, _⟩ | ⟨result, ht, hi⟩
  · simp [he] at done
  · rw [hi] at done ⊢
    simp only [Except.ok.injEq] at done
    cases added with
    | false =>
      obtain ⟨path, i, hr, rfl⟩ := ht.writes done
      obtain ⟨old, _, hf⟩ := hr.holds
      refine ⟨by simp [contains, Node.contains, hf, Except.map], .replaced hr ?_⟩
      simp [Insertion.root]
    | true =>
      obtain ⟨hf, hl⟩ := ht.gains done
      obtain ⟨before, after, hold, hnew⟩ := ht.pairs_gained done
      refine ⟨by simp [contains, Node.contains, hf, Except.map], .gained ?_ ⟨before, after, ?_⟩ hc ?_⟩
      · simpa using hl
      · exact ⟨hold, by simpa [toList] using hnew⟩
      · exact counts_of_stepped (by simp [done, nextSize, hc.stepped])

/-- Numbers on a circle of five, each below the two after it. This is no order. -/
def onCircle : Comparator Nat := fun a b =>
  .ordered <| match ((b : Int) - a) % 5 with
    | 0 => .eq
    | 1 | 2 => .lt
    | _ => .gt

/-- In a tree with two leaves, 5 finds 0 and replaces its value, and 3 is added to the second leaf, which
splits. -/
theorem changes_onCircle :
    let tree : Tree Nat Nat :=
      (empty 3 (by decide) onCircle).run [.insertAll [(0, 10), (1, 11), (2, 12)]]
    Reached tree ∧ tree.root = .branch [1] [.leaf [0] [10], .leaf [1, 2] [11, 12]] ∧
      (tree.insert 5 50).2 = .ok false ∧ tree.contains 5 = .ok true ∧
      Changes 5 50 tree (tree.insert 5 50).1 false ∧
      (tree.insert 5 50).1.root = .branch [1] [.leaf [0] [50], .leaf [1, 2] [11, 12]] ∧
      (tree.insert 3 13).2 = .ok true ∧ tree.contains 3 = .ok false ∧
      Changes 3 13 tree (tree.insert 3 13).1 true ∧
      (tree.insert 3 13).1.root =
        .branch [1, 2] [.leaf [0] [10], .leaf [1] [11], .leaf [2, 3] [12, 13]] := by
  intro tree
  have hreached : Reached tree := reached_empty.run _
  obtain ⟨hroot, hreplaced, hroot₅, hgained, hroot₃⟩ :
      tree.root = .branch [1] [.leaf [0] [10], .leaf [1, 2] [11, 12]] ∧
        (tree.insert 5 50).2 = .ok false ∧
        (tree.insert 5 50).1.root = .branch [1] [.leaf [0] [50], .leaf [1, 2] [11, 12]] ∧
        (tree.insert 3 13).2 = .ok true ∧
        (tree.insert 3 13).1.root =
          .branch [1, 2] [.leaf [0] [10], .leaf [1] [11], .leaf [2, 3] [12, 13]] := by
    unfold tree
    decide +kernel
  obtain ⟨hfound, hwritten⟩ := hreached.changes hreplaced
  obtain ⟨hmissing, hleaf⟩ := hreached.changes hgained
  exact ⟨hreached, hroot, hreplaced, hfound, hwritten, hroot₅, hgained, hmissing, hleaf, hroot₃⟩

end Tree
end OrderedIndex
