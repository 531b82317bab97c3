import OrderedIndex.Proofs.Node.Separators
import OrderedIndex.Proofs.Tree.Lockstep

/-!
# Separators after operations

If the comparator orders the keys used, the separators of a tree are after any operations the first keys
of its leaves but the leftmost, the same keys and in the same order. So each stands for the least key to
its right, and none is there twice.
-/
namespace OrderedIndex
namespace Tree

variable {K V α : Type} [LinearOrder α] {compare : Comparator K} {used : K → Prop} {rank : K → α}
  {tree : Tree K V} {key : K}

structure Headed (used : K → Prop) (rank : K → α) (tree : Tree K V) : Prop where
  sorted : Sorted used rank tree
  led : ∃ first, tree.root.Led first

theorem Headed.empty (hr : Ranks compare used rank) (order : Nat) (three_le_order : 3 ≤ order) :
    Headed used rank (empty order three_le_order compare : Tree K V) where
  sorted := .empty hr order three_le_order
  led := ⟨none, Node.led_leaf.mpr rfl⟩

/-! ## Operations -/

section Operations

variable [Key K] [Inhabited K] [Inhabited V]

theorem Headed.insert (h : Headed used rank tree) (hu : used key) (value : V) :
    Headed used rank (tree.insert key value).1 := by
  obtain ⟨first, hled⟩ := h.led
  obtain ⟨height, hs⟩ := h.sorted.shaped
  obtain ⟨_, _, hsorted, _⟩ := h.sorted.insert hu value
  rcases insert_cases hs key value with ⟨e, he, _⟩ | ⟨result, ht, hi⟩
  · rw [he]
    exact h
  · refine ⟨hsorted, ?_⟩
    rw [hi]
    exact ht.root_led tree.three_le_order h.sorted.ranks hu h.sorted.arranged hled

theorem Headed.run (h : Headed used rank tree) {operations : List (Operation K V)}
    (hu : ∀ operation ∈ operations, operation.Uses used) : Headed used rank (tree.run operations) :=
  run_keeps h hu (fun _ _ value h hu => h.insert hu value)
    fun tree h => .empty h.sorted.ranks tree.order tree.three_le_order

end Operations

/-! ## Separators -/

variable [Inhabited V]

/-- The separators are in order. -/
theorem Headed.lined (h : Headed used rank tree) :
    Node.Lined used rank none none tree.root.separators := by
  obtain ⟨first, hled⟩ := h.led
  have hline := h.sorted.lined
  have hsub := (List.sublist_append_right first.toList _).trans hled.sublist
  exact ⟨fun k hk => hline.used k (hsub.subset hk), hline.increasing.sublist hsub,
    fun k hk => hline.inside k (hsub.subset hk)⟩

/-- No separator is there twice, and no two are equal for the comparator. -/
theorem Headed.apart (h : Headed used rank tree) {before after : List K}
    (hparts : tree.root.separators = before ++ key :: after) :
    ∀ other ∈ before ++ after, other ≠ key ∧ tree.compare other key ≠ .ordered .eq := by
  have hline := h.lined
  rw [hparts] at hline
  obtain ⟨hlower, hhigher⟩ := hline.sides
  intro other ho
  obtain ⟨hm, hne⟩ : other ∈ before ++ key :: after ∧ rank other ≠ rank key := by
    rcases List.mem_append.mp ho with hb | ha
    · exact ⟨by simp [hb], (hlower other hb).ne⟩
    · exact ⟨by simp [ha], (hhigher other ha).ne'⟩
  refine ⟨fun heq => hne (congrArg rank heq), ?_⟩
  rwa [ne_eq, h.sorted.ranks.eq_iff other key (hline.used other hm) (hline.used key (by simp))]

/-- The separators below a root and the first keys of its leaves, as lists of the very keys that are
stored: they are the same but for the leftmost leaf, each separator is the least key of the child after
it, and the first key of every other leaf is one separator and no other is equal to it. -/
structure Labelled (compare : Comparator K) (root : Node K V) : Prop where
  all : root.separators.map some = root.leaves.tail.map (·.keys.head?)
  each : ∀ depth keys children, Node.Occurs (.branch keys children) depth root →
    ∀ (i : Nat) (key : K), keys[i]? = some key →
      ∃ child, children[i + 1]? = some child ∧ child.minKey = .ok (some key)
  once : ∀ leaf ∈ root.leaves.tail, ∃ key before after, leaf.keys.head? = some key ∧
    root.separators = before ++ key :: after ∧
      ∀ other ∈ before ++ after, other ≠ key ∧ compare other key ≠ .ordered .eq

theorem Headed.labelled (h : Headed used rank tree) : Labelled tree.compare tree.root := by
  obtain ⟨first, hled⟩ := h.led
  have hall : tree.root.separators.map some = tree.root.leaves.tail.map (·.keys.head?) := by
    rw [List.map_tail, hled.leaves_eq, List.tail_cons]
  refine ⟨hall, ?_, ?_⟩
  · intro depth keys children ho i key hkey
    obtain ⟨lead, hbranch⟩ := hled.occurs ho
    obtain ⟨child, hchild, hlead⟩ := (Node.led_branch.mp hbranch).get hkey
    exact ⟨child, hchild, hlead.minKey⟩
  · intro leaf hleaf
    have hm : leaf.keys.head? ∈ tree.root.separators.map some := by
      rw [hall]
      exact List.mem_map_of_mem hleaf
    obtain ⟨key, hkey, hhead⟩ := List.mem_map.mp hm
    obtain ⟨before, after, hparts⟩ := List.append_of_mem hkey
    exact ⟨key, before, after, hhead.symm, hparts, h.apart hparts⟩

/-! ## Runs -/

variable [Key K] [Inhabited K]

/-- Whatever operations bring keys that the comparator orders to an empty tree, the separators are the
first keys of the leaves. -/
theorem labelled_run (ho : compare.Orders used) (order : Nat) (three_le_order : 3 ≤ order)
    (operations : List (Operation K V)) (hu : ∀ operation ∈ operations, operation.Uses used) :
    Labelled compare ((empty order three_le_order compare).run operations).root := by
  obtain ⟨α, _, rank, hr⟩ := exists_ranks ho
  have hheaded : Headed used rank (empty order three_le_order compare : Tree K V) :=
    .empty hr order three_le_order
  have hlabelled := (hheaded.run hu).labelled
  rwa [run_compare] at hlabelled

/-- Three leaves and a branch are cut. A key equal to 20 does not take its place, and one below all
others comes to stand first in the leftmost leaf. -/
theorem labelled_run_byTens :
    byTens.Orders (fun _ => True) ∧ ∃ root : Node Nat Nat,
      root = ((empty 3 (by decide) byTens).run
        [.insertAll [(10, 1), (20, 2), (30, 3), (40, 4), (50, 5)], .insert 25 6, .insert 5 7]).root ∧
      Labelled byTens root ∧ root.separators = [20, 30, 40] ∧
      root.leaves = [.leaf [5, 10] [7, 1], .leaf [20] [6], .leaf [30] [3], .leaf [40, 50] [4, 5]] := by
  have horders : byTens.Orders (fun _ => True) := (ranks_of_rank (· / 10) _).orders
  have hlabelled := labelled_run (V := Nat) horders 3 (by decide)
    [.insertAll [(10, 1), (20, 2), (30, 3), (40, 4), (50, 5)], .insert 25 6, .insert 5 7]
    (by simp [Operation.Uses])
  have hroot : ((empty 3 (by decide) byTens).run
      [.insertAll [(10, 1), (20, 2), (30, 3), (40, 4), (50, 5)], .insert 25 6,
        .insert 5 7] : Tree Nat Nat).root =
      .branch [30] [.branch [20] [.leaf [5, 10] [7, 1], .leaf [20] [6]],
        .branch [40] [.leaf [30] [3], .leaf [40, 50] [4, 5]]] := by
    decide +kernel
  exact ⟨horders, _, rfl, hlabelled, by simp [hroot], by simp [hroot]⟩

end Tree
end OrderedIndex
