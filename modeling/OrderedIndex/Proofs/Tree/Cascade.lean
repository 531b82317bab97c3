import OrderedIndex.Proofs.Node.Cascade
import OrderedIndex.Proofs.Tree.Integrity

/-!
# Where a tree splits

In every tree that operations lead to, whatever the comparator says, the nodes that an insertion splits
are the full ones at the lower end of the path that a search for its key takes. If the whole path is
full, the tree gets a new root; it grows in no other way, and never by more than one level.
-/
namespace OrderedIndex
namespace Tree

variable {K V : Type} [Key K] {tree next : Tree K V} {key : K} {value : V} {height : Nat}

def path (tree : Tree K V) (key : K) : List (Node K V) := tree.root.path tree.compare key

def fullAtEnd (tree : Tree K V) (key : K) : Nat := Node.fullAtEnd tree.order (tree.path key)

variable [Inhabited K] [Inhabited V]

/-- The old root splits, and its halves are all that a new root with one key has below it. -/
def NewRoot (key : K) (value : V) (tree next : Tree K V) : Prop :=
  ∃ halves, tree.root.insert tree.orderNumber tree.compare key value = .split halves ∧
    next.root = .branch [halves.separator] [halves.left, halves.right]

/-- What an insertion that adds a key does to the nodes of a tree of some height. A node of the path
splits exactly if it is one of the full ones at its end, and each split makes two nodes of one. -/
structure Cascades (key : K) (value : V) (height : Nat) (tree next : Tree K V) : Prop where
  length : (tree.path key).length = height + 1
  splits : ∀ above part below, tree.path key = above ++ part :: below →
    ((∃ halves, part.insert tree.orderNumber tree.compare key value = .split halves) ↔
      below.length < tree.fullAtEnd key)
  stops : tree.fullAtEnd key < (tree.path key).length →
    next.root.count = tree.root.count + tree.fullAtEnd key ∧ next.height = .ok height
  overflows : tree.fullAtEnd key = (tree.path key).length →
    next.root.count = tree.root.count + tree.fullAtEnd key + 1 ∧ next.height = .ok (height + 1) ∧
      NewRoot key value tree next

/-- A root that splits gets a new one above it. -/
theorem newRoot_of_split {halves : Split K V}
    (h : tree.root.insert tree.orderNumber tree.compare key value = .split halves) :
    NewRoot key value tree (tree.insert key value).1 := by
  refine ⟨halves, h, ?_⟩
  rw [insert, h]

theorem cascades_of_takes (hs : Node.Shaped tree.order height tree.root) {result : Insertion K V}
    (ht : Node.Takes tree.order tree.compare key value tree.root result)
    (hnext : (tree.insert key value).1.root = result.root) (ha : result.added = true) :
    Cascades key value height tree (tree.insert key value).1 := by
  have three := tree.three_le_order
  have hfind := (ht.gains ha).1
  obtain ⟨hcount, hsplits⟩ : Node.countAll result.nodes = tree.root.count + tree.fullAtEnd key ∧
      result.separators.length =
        if tree.fullAtEnd key = (tree.path key).length then 1 else 0 := ht.cascade three hs ha
  have hlength := Node.length_path hs hfind
  have hsplit (above : List (Node K V)) (part : Node K V) (below : List (Node K V))
      (hp : tree.path key = above ++ part :: below) := Node.splits_iff three hs hfind hp value
  have hheight := (ht.root_shaped three hs).height_eq
  rw [← hnext] at hheight
  refine ⟨hlength, hsplit, fun hroom => ?_, fun hfull => ?_⟩
  · rw [if_neg (Nat.ne_of_lt hroom)] at hsplits
    rw [hsplits] at hheight
    refine ⟨?_, hheight⟩
    rw [hnext, Node.count_root, hcount, hsplits]
    rfl
  · rw [if_pos hfull] at hsplits
    rw [hsplits] at hheight
    refine ⟨?_, hheight, ?_⟩
    · rw [hnext, Node.count_root, hcount, hsplits]
    · -- the root is the first node of the path, and all of the path is full
      obtain ⟨below, hp⟩ : ∃ below, tree.path key = tree.root :: below :=
        Node.exists_path_eq_cons tree.compare key tree.root
      have hlt : below.length < tree.fullAtEnd key := by
        rw [hfull, hp]
        exact Nat.lt_succ_self _
      obtain ⟨halves, hroot⟩ := (hsplit [] tree.root below hp).mpr hlt
      exact newRoot_of_split hroot

/-- An insertion splits the full nodes at the end of its path and no others. It leaves the number of
nodes and the height as they are if it adds no key, and the height changes by one level at most, through
a new root. -/
theorem Reached.cascades (h : Reached tree) (key : K) (value : V) :
    ∃ height, tree.height = .ok height ∧
      ((tree.insert key value).2 = .ok true →
        Cascades key value height tree (tree.insert key value).1) ∧
      ((tree.insert key value).2 ≠ .ok true →
        (tree.insert key value).1.root.count = tree.root.count ∧
          (tree.insert key value).1.height = .ok height) ∧
      ((tree.insert key value).1.height = .ok height ∨
        (tree.insert key value).1.height = .ok (height + 1) ∧
          NewRoot key value tree (tree.insert key value).1) := by
  obtain ⟨height, hs⟩ := h.grown.shaped
  have three := tree.three_le_order
  refine ⟨height, hs.height_eq, ?_⟩
  rcases insert_cases hs key value with ⟨e, he, _⟩ | ⟨result, ht, hi⟩
  · rw [he]
    exact ⟨nofun, fun _ => ⟨rfl, hs.height_eq⟩, .inl hs.height_eq⟩
  · have hnext : (tree.insert key value).1.root = result.root := by rw [hi]
    have houtcome : (tree.insert key value).2 = .ok result.added := by rw [hi]
    cases ha : result.added with
    | false =>
      obtain ⟨hcount, hsplits⟩ := ht.no_splits ha
      have hheight := (ht.root_shaped three hs).height_eq
      rw [hsplits, ← hnext] at hheight
      refine ⟨?_, fun _ => ⟨?_, hheight⟩, .inl hheight⟩
      · rw [houtcome, ha]
        nofun
      · rw [hnext, Node.count_root, hcount, hsplits]
        rfl
    | true =>
      have hcascades := cascades_of_takes hs ht hnext ha
      refine ⟨fun _ => hcascades, fun hne => ?_, ?_⟩
      · rw [houtcome, ha] at hne
        exact absurd rfl hne
      · have hle := Node.fullAtEnd_le tree.order (tree.path key)
        -- the height changes only if the whole path is full, the root with it
        by_cases hfull : tree.fullAtEnd key = (tree.path key).length
        · exact .inr (hcascades.overflows hfull).2
        · exact .inl (hcascades.stops (Nat.lt_of_le_of_ne hle hfull)).2

/-- A root with three children and a leaf with two keys below it are full where the order is three. A
fifth key splits both: four nodes become seven, and the tree has two levels of branches. -/
theorem cascades_fifth :
    let tree : Tree Nat Nat :=
      (empty 3 (by decide) Key.natural).run [.insertAll [(1, 10), (2, 20), (3, 30), (4, 40)]]
    Reached tree ∧ (tree.insert 5 50).2 = .ok true ∧ tree.fullAtEnd 5 = 2 ∧ tree.root.count = 4 ∧
      Cascades 5 50 1 tree (tree.insert 5 50).1 ∧ (tree.insert 5 50).1.root.count = 7 ∧
      (tree.insert 5 50).1.height = .ok 2 := by
  intro tree
  have hreached : Reached tree := reached_empty.run _
  obtain ⟨hadds, hpath, hfull, hcount⟩ : (tree.insert 5 50).2 = .ok true ∧
      tree.path 5 = [tree.root, .leaf [3, 4] [30, 40]] ∧ tree.fullAtEnd 5 = 2 ∧
      tree.root.count = 4 := by
    unfold tree
    decide +kernel
  obtain ⟨height, hheight, hadded, _⟩ := hreached.cascades 5 50
  have hcascades := hadded hadds
  obtain rfl : height = 1 := by
    have hlength := hcascades.length
    rw [hpath] at hlength
    simpa using hlength.symm
  obtain ⟨hcount', hheight', _⟩ := hcascades.overflows (by rw [hfull, hpath]; rfl)
  rw [hcount, hfull] at hcount'
  exact ⟨hreached, hadds, hfull, hcount, hcascades, hcount', hheight'⟩

end Tree
end OrderedIndex
