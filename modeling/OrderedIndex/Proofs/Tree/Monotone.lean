import Mathlib.Data.List.Induction
import OrderedIndex.Proofs.Node.Edge
import OrderedIndex.Proofs.Tree.Integrity

/-!
# Monotone runs

Pairs inserted one by one into an empty tree, each with a key that passes all keys before it on one side.
None of them meets an equal key, so they come out in the order in which they came in, or in the reverse
of it. Only one edge of the tree grows, and off this edge all leaves have one size and all branches have
another. On the right edge a key also passes where it has no order at all.
-/
namespace OrderedIndex

/-- A list that was put together at one end, item by item. -/
def Side.collect {α : Type} : Side → List α → List α
  | first, items => items.reverse
  | last, items => items

theorem Side.collect_concat {α : Type} (side : Side) (items : List α) (item : α) :
    side.collect (items ++ [item]) = side.join item (side.collect items) := by
  cases side with
  | first => simp [collect, join]
  | last => rfl

namespace Tree

variable {K V : Type} [Key K] [Inhabited K] [Inhabited V] {side : Side} {tree : Tree K V}
  {entries before after : List (K × V)} {entry : K × V}

def Operation.ofPair (entry : K × V) : Operation K V := .insert entry.1 entry.2

/-- Each of the pairs, inserted after those before it, has a key that passes all keys of the tree. -/
def Monotone (side : Side) (tree : Tree K V) (entries : List (K × V)) : Prop :=
  ∀ before entry after, entries = before ++ entry :: after →
    Node.Admits entry.1 side ∧
      ∀ k ∈ (tree.run (before.map .ofPair)).keys, Node.Passes tree.compare entry.1 side k

/-! ## One pair more -/

structure Stacked (side : Side) (entries : List (K × V)) (tree : Tree K V) : Prop where
  keeps : Keeps (· ∈ tree.keys) tree
  packed : tree.root.Packed side tree.order
  listed : tree.toList = side.collect entries

omit [Key K] [Inhabited K] in
theorem Stacked.empty (order : Nat) (three_le_order : 3 ≤ order) (compare : Comparator K) :
    Stacked side [] (empty order three_le_order compare : Tree K V) where
  keeps := .empty order three_le_order compare
  packed := .leaf
  listed := by cases side <;> rfl

/-- What such an insertion does: the pair is added at the end. -/
theorem Stacked.insert (h : Stacked side entries tree) (admits : Node.Admits entry.1 side)
    (passes : ∀ k ∈ tree.keys, Node.Passes tree.compare entry.1 side k) :
    (tree.insert entry.1 entry.2).2 = .ok true ∧
      Stacked side (entries ++ [entry]) (tree.insert entry.1 entry.2).1 := by
  obtain ⟨hkeeps, hpacked, hlisted⟩ := h
  obtain ⟨height, hs⟩ := hkeeps.grown.shaped
  have hedge : tree.root.AtEdge side tree.compare entry.1 := (hkeeps.uses.mono passes).atEdge admits
  have hfind := hedge.find?_eq hs
  rcases insert_cases hs entry.1 entry.2 with ⟨e, _, he, _⟩ | ⟨result, ht, hi⟩
  · rw [hfind] at he
    cases he
  · have hadded : result.added = true := by
      have hcontains := ht.contains_eq
      simpa [Node.contains, hfind, Except.map] using hcontains
    have hlist : (tree.insert entry.1 entry.2).1.toList = side.join entry tree.toList := by
      rw [hi, toList, Insertion.pairs_root]
      exact ht.pairs_eq_join hedge hs
    have hkeys : ∀ k, k ∈ (tree.insert entry.1 entry.2).1.keys ↔ k = entry.1 ∨ k ∈ tree.keys := by
      intro k
      rw [keys, hlist, Side.map_join, Side.mem_join]
      rfl
    refine ⟨by rw [hi, hadded], ?_, ?_, ?_⟩
    · have hmore := hkeeps.mono fun k hk => (hkeys k).mpr (.inr hk)
      exact hmore.insert ((hkeys entry.1).mpr (.inl rfl)) entry.2
    · rw [hi]
      exact ht.root_packed tree.three_le_order hedge hs hpacked
    · rw [hlist, hlisted, Side.collect_concat]

/-! ## The run -/

theorem run_concat (tree : Tree K V) (before : List (K × V)) (entry : K × V) :
    tree.run ((before ++ [entry]).map .ofPair) =
      ((tree.run (before.map .ofPair)).insert entry.1 entry.2).1 := by
  rw [run, List.map_append, List.foldl_append]
  rfl

/-- The pairs up to any point of the run have been stacked. -/
theorem Monotone.stacked (h : Monotone side tree entries) (hempty : Stacked side [] tree)
    (hparts : entries = before ++ after) : Stacked side before (tree.run (before.map .ofPair)) := by
  induction before using List.reverseRecOn generalizing after with
  | nil => exact hempty
  | append_singleton before entry ih =>
    rw [List.append_assoc, List.singleton_append] at hparts
    obtain ⟨admits, passes⟩ := h before entry after hparts
    rw [run_concat]
    rw [← run_compare tree (before.map .ofPair)] at passes
    exact ((ih hparts).insert admits passes).2

/-- Every insertion of the run adds a key. -/
def AddsAll (tree : Tree K V) (entries : List (K × V)) : Prop :=
  ∀ before entry after, entries = before ++ entry :: after →
    ((tree.run (before.map .ofPair)).insert entry.1 entry.2).2 = .ok true

theorem Monotone.addsAll (h : Monotone side tree entries) (hempty : Stacked side [] tree) :
    AddsAll tree entries := by
  intro before entry after hparts
  obtain ⟨admits, passes⟩ := h before entry after hparts
  rw [← run_compare tree (before.map .ofPair)] at passes
  exact ((h.stacked hempty hparts).insert admits passes).1

/-- Whether a run is monotone can be seen from its pairs: each key has to pass those before it. -/
theorem monotone_of_pairwise {order : Nat} {three_le_order : 3 ≤ order} {compare : Comparator K}
    (admits : ∀ entry ∈ entries, Node.Admits entry.1 side)
    (passes : entries.Pairwise fun a b => Node.Passes compare b.1 side a.1) :
    Monotone side (empty order three_le_order compare) entries := by
  rintro before entry after rfl
  refine ⟨admits entry (by simp), fun k hk => ?_⟩
  have hkeeps : Keeps (∃ other ∈ before, other.1 = ·)
      ((empty order three_le_order compare : Tree K V).run (before.map .ofPair)) := by
    apply (Keeps.empty order three_le_order compare).run
    intro operation ho
    obtain ⟨other, hm, rfl⟩ := List.mem_map.mp ho
    exact ⟨other, hm, rfl⟩
  obtain ⟨other, hm, rfl⟩ := hkeeps.uses.pairs k hk
  exact (List.pairwise_append.mp passes).2.2 other hm entry (by simp)

/-- A monotone run from an empty tree, the same for both sides. -/
theorem Monotone.packs {order : Nat} {three_le_order : 3 ≤ order} {compare : Comparator K}
    (h : Monotone side (empty order three_le_order compare) entries) {built : Tree K V}
    (hbuilt : built = (empty order three_le_order compare).run (entries.map .ofPair)) :
    AddsAll (empty order three_le_order compare) entries ∧ built.toList = side.collect entries ∧
      (∃ outer others, built.root.leaves = side.join outer others ∧
        ∀ leaf ∈ others, leaf.keys.length = Node.leafHalf order side) ∧
      ∀ keys children, Node.OffEdge side (.branch keys children) built.root →
        children.length = Node.branchHalf order side := by
  have hstart : Stacked side [] (empty order three_le_order compare : Tree K V) :=
    .empty order three_le_order compare
  have hordered : built.order = order := hbuilt ▸ run_order _ _
  obtain ⟨_, hpacked, hlisted⟩ : Stacked side entries built :=
    hbuilt ▸ h.stacked hstart (List.append_nil entries).symm
  rw [hordered] at hpacked
  exact ⟨h.addsAll hstart, hlisted, hpacked.leaves, fun _ _ ho => hpacked.offEdge ho⟩

/-- In a run of keys that are not NaN, where each is greater than all before it or has no order with them,
every insertion adds its key, and the pairs of the tree are those of the run. All leaves but the last one
have half as many keys as the order, and all branches off the right edge one child more. If each key is
less than all before it, the pairs are those of the run from its end, and the nodes off the left edge have
half the order rounded up, the leaves in keys and the branches in children. -/
theorem monotone_run (order : Nat) (three_le_order : 3 ≤ order) (compare : Comparator K)
    (entries : List (K × V)) :
    let fresh : Tree K V := empty order three_le_order compare
    let built := fresh.run (entries.map .ofPair)
    (Monotone .last fresh entries →
      AddsAll fresh entries ∧ built.toList = entries ∧
        (∀ leaf ∈ built.root.leaves.dropLast, leaf.keys.length = order / 2) ∧
        ∀ keys children, Node.OffEdge .last (.branch keys children) built.root →
          children.length = order / 2 + 1) ∧
    (Monotone .first fresh entries →
      AddsAll fresh entries ∧ built.toList = entries.reverse ∧
        (∀ leaf ∈ built.root.leaves.tail, leaf.keys.length = (order + 1) / 2) ∧
        ∀ keys children, Node.OffEdge .first (.branch keys children) built.root →
          children.length = (order + 1) / 2) := by
  intro fresh built
  constructor
  · intro h
    obtain ⟨hadds, hlist, ⟨outer, others, hleaves, hhalves⟩, hbranches⟩ := h.packs rfl
    refine ⟨hadds, hlist, ?_, hbranches⟩
    rw [hleaves, Side.join, List.dropLast_concat]
    exact hhalves
  · intro h
    obtain ⟨hadds, hlist, ⟨outer, others, hleaves, hhalves⟩, hbranches⟩ := h.packs rfl
    refine ⟨hadds, hlist, ?_, hbranches⟩
    rw [hleaves, Side.join, List.tail_cons]
    exact hhalves

/-- Four equal keys that the comparator gives no order all go to the right; three falling ones come out
rising. -/
theorem monotone_run_sevens :
    let sevens : List (Nat × Nat) := [(7, 1), (7, 2), (7, 3), (7, 4)]
    let falling : List (Nat × Nat) := [(3, 1), (2, 2), (1, 3)]
    let unordered : Tree Nat Nat := empty 3 (by decide) (.ofMeasure fun _ _ => .nan)
    let natural : Tree Nat Nat := empty 3 (by decide) Key.natural
    Monotone .last unordered sevens ∧ AddsAll unordered sevens ∧
      (unordered.run (sevens.map .ofPair)).toList = sevens ∧
      Monotone .first natural falling ∧ AddsAll natural falling ∧
      (natural.run (falling.map .ofPair)).toList = [(1, 3), (2, 2), (3, 1)] := by
  intro sevens falling unordered natural
  have hsevens : Monotone .last unordered sevens := by
    apply monotone_of_pairwise
    · intro entry _
      rfl
    · exact List.pairwise_of_forall fun _ _ => .inr rfl
  have hfalling : Monotone .first natural falling := by
    apply monotone_of_pairwise
    · intro entry _
      trivial
    · have hcompare := LinearOrder.compare_eq_compareOfLessAndEq (α := Nat)
      simp [falling, Node.Passes, Key.natural, hcompare, compareOfLessAndEq]
  obtain ⟨haddsUp, hup, _⟩ := (monotone_run 3 (by decide) _ sevens).1 hsevens
  obtain ⟨haddsDown, hdown, _⟩ := (monotone_run 3 (by decide) _ falling).2 hfalling
  exact ⟨hsevens, haddsUp, hup, hfalling, haddsDown, hdown⟩

end Tree
end OrderedIndex
