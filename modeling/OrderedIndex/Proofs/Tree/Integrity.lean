import OrderedIndex.Proofs.Node.Ends
import OrderedIndex.Proofs.Node.Keys
import OrderedIndex.Proofs.Number
import OrderedIndex.Proofs.Tree.Run

/-!
# Integrity under any comparator

The shape of a tree, the least sizes of its nodes and its count of pairs do not depend on what the
comparator says: it may be inconsistent, constant, or give no order at all. So no check of a split ever
fails in a tree that operations have led to, and no search goes to a child that is not there.
-/
namespace OrderedIndex
namespace Tree

variable {K V : Type} [Key K] [Inhabited K] [Inhabited V] {tree : Tree K V}

structure Counts (tree : Tree K V) (n : Nat) : Prop where
  stepped : tree.size = .number (.count n)
  exact : n < Number.twoTo 53 → tree.size = .number (.ofNat n)

omit [Key K] [Inhabited K] [Inhabited V] in
theorem counts_of_stepped {n : Nat} (h : tree.size = .number (.count n)) : Counts tree n :=
  ⟨h, fun hn => by rw [h, Number.count_eq_ofNat hn]⟩

structure Grown (tree : Tree K V) : Prop where
  shaped : ∃ height, Node.Shaped tree.order height tree.root
  filled : Node.Filled (tree.order / 2) ((tree.order + 1) / 2) true tree.root
  counted : Counts tree tree.toList.length

omit [Key K] [Inhabited K] in
theorem Grown.empty (order : Nat) (three_le_order : 3 ≤ order) (compare : Comparator K) :
    Grown (empty order three_le_order compare : Tree K V) where
  shaped := ⟨0, .leaf (by simp [Tree.empty]; omega) rfl⟩
  filled := .leaf (by simp)
  counted := counts_of_stepped (by simp [Tree.empty, toList, Node.pairUp])

theorem Grown.insert (h : Grown tree) (key : K) (value : V) : Grown (tree.insert key value).1 := by
  obtain ⟨⟨height, hs⟩, hf, hc⟩ := h
  rcases insert_cases hs key value with ⟨e, he, _⟩ | ⟨result, ht, hi⟩
  · rw [he]
    exact ⟨⟨height, hs⟩, hf, hc⟩
  · rw [hi]
    refine ⟨⟨_, ht.root_shaped tree.three_le_order hs⟩,
      ht.root_filled (Nat.le_refl _) (Nat.le_refl _) hf, ?_⟩
    apply counts_of_stepped
    simp only [toList] at hc ⊢
    rw [Insertion.pairs_root, ht.length_pairs]
    cases result.added with
    | false => simpa using hc.stepped
    | true => simp [nextSize, hc.stepped]

theorem Grown.insertAll (h : Grown tree) (entries : List (K × V)) :
    Grown (tree.insertAll entries).1 :=
  insertAll_keeps h fun entry _ _ h => h.insert entry.1 entry.2

theorem Reached.grown (h : Reached tree) : Grown tree :=
  h.keeps Grown.empty fun _ key value h => h.insert key value

/-! ## The ends of a grown tree -/

section Ends

omit [Key K] [Inhabited K]

theorem Grown.minKey (h : Grown tree) : tree.minKey = .ok tree.keys.head? := by
  obtain ⟨⟨height, hs⟩, hf, _⟩ := h
  have three := tree.three_le_order
  exact Node.minKey_eq hs (by omega) hf

theorem Grown.maxKey (h : Grown tree) : tree.maxKey = .ok tree.keys.getLast? := by
  obtain ⟨⟨height, hs⟩, hf, _⟩ := h
  have three := tree.three_le_order
  exact Node.maxKey_eq hs (by omega) hf

end Ends

/-! ## Searches in a grown tree -/

section Searches

variable {height : Nat} {key : K} {value : V}

/-- A search fails only where the key cannot be placed. -/
theorem find?_error (hs : Node.Shaped tree.order height tree.root) {e : Error K}
    (h : tree.root.find? tree.compare key = .error e) : Node.SearchError tree.compare key e := by
  rcases insert_cases hs key default with ⟨e', _, hf, hk⟩ | ⟨result, ht, _⟩
  · rw [hf, Except.error.injEq] at h
    exact h ▸ hk
  · have hc := ht.contains_eq
    simp [Node.contains, h, Except.map] at hc

theorem insert_error (hs : Node.Shaped tree.order height tree.root) {e : Error K}
    (h : (tree.insert key value).2 = .error e) : Node.SearchError tree.compare key e := by
  rcases insert_cases hs key value with ⟨e', he, _, hk⟩ | ⟨result, _, hi⟩
  · rw [he, Except.error.injEq] at h
    exact h ▸ hk
  · simp [hi] at h

theorem insert_compare (tree : Tree K V) (key : K) (value : V) :
    (tree.insert key value).1.compare = tree.compare := by
  rw [insert]
  split <;> rfl

theorem insert_order (tree : Tree K V) (key : K) (value : V) :
    (tree.insert key value).1.order = tree.order := by
  rw [insert]
  split <;> rfl

/-- No operation changes the comparator. -/
theorem run_compare (tree : Tree K V) (operations : List (Operation K V)) :
    (tree.run operations).compare = tree.compare :=
  run_keeps (P := fun next : Tree K V => next.compare = tree.compare) rfl
    (fun operation _ => operation.uses_any)
    (fun next key value h _ => (insert_compare next key value).trans h) fun _ h => h

/-- No operation changes the order. -/
theorem run_order (tree : Tree K V) (operations : List (Operation K V)) :
    (tree.run operations).order = tree.order :=
  run_keeps (P := fun next : Tree K V => next.order = tree.order) rfl
    (fun operation _ => operation.uses_any)
    (fun next key value h _ => (insert_order next key value).trans h) fun _ h => h

theorem insertAll_error (hg : Grown tree) {entries : List (K × V)} {e : Error K}
    (h : (tree.insertAll entries).2 = .error e) :
    ∃ entry ∈ entries, Node.SearchError tree.compare entry.1 e := by
  induction entries generalizing tree with
  | nil => simp [insertAll] at h
  | cons entry rest ih =>
    obtain ⟨height, hs⟩ := hg.shaped
    rw [insertAll_cons] at h
    cases ho : (tree.insert entry.1 entry.2).2 with
    | error e' =>
      simp only [ho, Except.error.injEq] at h
      exact ⟨entry, by simp, h ▸ insert_error hs ho⟩
    | ok added =>
      simp only [ho] at h
      obtain ⟨later, hmem, hk⟩ := ih (hg.insert entry.1 entry.2) (map_eq_error h)
      exact ⟨later, by simp [hmem], insert_compare tree entry.1 entry.2 ▸ hk⟩

end Searches

/-! ## The keys of a grown tree -/

section Keys

variable {used : K → Prop} {key : K}

structure Keeps (used : K → Prop) (tree : Tree K V) : Prop where
  grown : Grown tree
  uses : tree.root.Uses used

omit [Key K] [Inhabited K] in
theorem Keeps.empty (order : Nat) (three_le_order : 3 ≤ order) (compare : Comparator K) :
    Keeps used (empty order three_le_order compare : Tree K V) where
  grown := .empty order three_le_order compare
  uses := Node.uses_leaf.mpr (by simp)

theorem Keeps.insert (h : Keeps used tree) (hkey : used key) (value : V) :
    Keeps used (tree.insert key value).1 := by
  refine ⟨h.grown.insert key value, ?_⟩
  obtain ⟨height, hs⟩ := h.grown.shaped
  rcases insert_cases hs key value with ⟨e, he, _⟩ | ⟨result, ht, hi⟩
  · rw [he]
    exact h.uses
  · rw [hi]
    exact ht.root_uses hkey h.uses

theorem Keeps.run (h : Keeps used tree) {operations : List (Operation K V)}
    (hu : ∀ operation ∈ operations, operation.Uses used) : Keeps used (tree.run operations) :=
  run_keeps h hu (fun _ _ value h hkey => h.insert hkey value) fun _ _ => .empty _ _ _

omit [Key K] [Inhabited K] in
theorem Keeps.mono {used' : K → Prop} (h : Keeps used tree) (more : ∀ k, used k → used' k) :
    Keeps used' tree :=
  ⟨h.grown, h.uses.mono more⟩

end Keys

/-! ## Integrity -/

structure Intact (tree : Tree K V) : Prop where
  leaves : ∀ depth keys values, Node.Occurs (.leaf keys values) depth tree.root →
    keys.length ≤ tree.order - 1 ∧ (0 < depth → tree.order / 2 ≤ keys.length) ∧
      values.length = keys.length
  branches : ∀ depth keys children, Node.Occurs (.branch keys children) depth tree.root →
    children.length = keys.length + 1 ∧ children.length ≤ tree.order ∧ 2 ≤ children.length ∧
      (0 < depth → (tree.order + 1) / 2 ≤ children.length)
  level : ∃ height, tree.height = .ok height ∧
    ∀ depth keys values, Node.Occurs (.leaf keys values) depth tree.root → depth = height
  counted : Counts tree tree.toList.length
  minKey : tree.minKey = .ok tree.keys.head?
  maxKey : tree.maxKey = .ok tree.keys.getLast?
  insert_fails : ∀ key value e, (tree.insert key value).2 = .error e →
    Node.SearchError tree.compare key e
  insertAll_fails : ∀ entries e, (tree.insertAll entries).2 = .error e →
    ∃ entry ∈ entries, Node.SearchError tree.compare entry.1 e
  lookup_fails : ∀ key otherwise e, tree.lookup key otherwise = .error e →
    Node.SearchError tree.compare key e
  contains_fails : ∀ key e, tree.contains key = .error e → Node.SearchError tree.compare key e

omit [Key K] [Inhabited K] [Inhabited V] in
theorem leaf_bounds {least height depth : Nat} {keys : List K} {values : List V}
    (hs : Node.Shaped tree.order height tree.root)
    (hf : Node.Filled least ((tree.order + 1) / 2) true tree.root)
    (ho : Node.Occurs (.leaf keys values) depth tree.root) :
    depth = height ∧ keys.length < tree.order ∧ (0 < depth → least ≤ keys.length) ∧
      values.length = keys.length := by
  obtain ⟨rest, hr, hp⟩ := hs.occurs ho
  cases hp with
  | leaf room aligned =>
    cases hf.occurs ho with
    | leaf enough =>
      refine ⟨by omega, room, fun hd => enough ?_, aligned⟩
      simp
      omega

omit [Key K] [Inhabited K] [Inhabited V] in
theorem branch_bounds {least height depth : Nat} {keys : List K} {children : List (Node K V)}
    (hs : Node.Shaped tree.order height tree.root)
    (hf : Node.Filled least ((tree.order + 1) / 2) true tree.root)
    (ho : Node.Occurs (.branch keys children) depth tree.root) :
    children.length = keys.length + 1 ∧ children.length ≤ tree.order ∧ 2 ≤ children.length ∧
      (0 < depth → (tree.order + 1) / 2 ≤ children.length) := by
  obtain ⟨rest, hr, hp⟩ := hs.occurs ho
  have three := tree.three_le_order
  cases hp with
  | branch counted room each =>
    cases hf.occurs ho with
    | branch enough full =>
      refine ⟨counted, room, ?_, fun hd => ?_⟩
      · split at enough <;> omega
      · have hroot : (depth == 0) = false := by simp; omega
        simpa [hroot] using enough

/-- What can be said of a tree without knowing its comparator. The sizes of nodes are those that the
order of the tree asks for, and no operation fails but for a key that its search cannot place. -/
theorem Reached.intact (h : Reached tree) : Intact tree := by
  have hg := h.grown
  obtain ⟨⟨height, hs⟩, hf, hc⟩ := h.grown
  refine
    { leaves := ?_, branches := ?_, level := ?_, counted := hc, minKey := hg.minKey
      maxKey := hg.maxKey, insert_fails := ?_, insertAll_fails := ?_, lookup_fails := ?_
      contains_fails := ?_ }
  · intro depth keys values ho
    obtain ⟨_, hroom, hl, ha⟩ := leaf_bounds hs hf ho
    exact ⟨by omega, hl, ha⟩
  · intro depth keys children ho
    exact branch_bounds hs hf ho
  · exact ⟨height, hs.height_eq, fun depth keys values ho => (leaf_bounds hs hf ho).1⟩
  · intro key value e he
    exact insert_error hs he
  · intro entries e he
    exact insertAll_error hg he
  · intro key otherwise e he
    exact find?_error hs (map_eq_error he)
  · intro key e he
    exact find?_error hs (map_eq_error he)

/-- Keys that the comparator never orders, one of them inserted twice, go to the end of the tree. -/
theorem intact_unordered :
    Reached ((empty 3 (by decide) (.ofMeasure fun _ _ => .nan) : Tree Nat Nat).run
        [.insertAll [(1, 10), (2, 20), (3, 30)], .insert 2 21]) ∧
      Intact ((empty 3 (by decide) (.ofMeasure fun _ _ => .nan) : Tree Nat Nat).run
        [.insertAll [(1, 10), (2, 20), (3, 30)], .insert 2 21]) ∧
      ((empty 3 (by decide) (.ofMeasure fun _ _ => .nan) : Tree Nat Nat).run
          [.insertAll [(1, 10), (2, 20), (3, 30)], .insert 2 21]).root =
        .branch [2, 3] [.leaf [1] [10], .leaf [2] [20], .leaf [3, 2] [30, 21]] := by
  refine ⟨reached_empty.run _, (reached_empty.run _).intact, ?_⟩
  decide +kernel

end Tree
end OrderedIndex
