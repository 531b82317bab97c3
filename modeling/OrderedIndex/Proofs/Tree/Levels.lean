import Mathlib.Data.List.Nodup
import OrderedIndex.Proofs.Node.Depth
import OrderedIndex.Proofs.Node.Effect
import OrderedIndex.Proofs.Node.Listing

/-!
# Lines of a rendering

A rendering goes from one level to the next and never looks back. What it shows on one line is what a
walk through the whole subtree finds at one depth, from left to right: there is a line for each depth
down to the deepest node, and every node is shown once. If all leaves are equally deep, the last line
shows the leaves.
-/
namespace OrderedIndex
namespace Node

variable {K V : Type} {node : Node K V} {depth : Nat}

/-! ## Levels -/

def atDepth : Nat → Node K V → List (Node K V)
  | 0, node => [node]
  | depth + 1, node => node.children.flatMap (atDepth depth)

theorem atDepth_branch (depth : Nat) (keys : List K) (children : List (Node K V)) :
    (branch keys children).atDepth (depth + 1) = children.flatMap (atDepth depth) := rfl

/-- One level down from a row of nodes, everything is one level less deep. -/
theorem flatMap_atDepth_succ (nodes : List (Node K V)) (depth : Nat) :
    nodes.flatMap (atDepth (depth + 1)) = (childrenOf nodes).flatMap (atDepth depth) := by
  rw [childrenOf, List.flatMap_assoc]
  rfl

/-- The levels of a row of nodes end where nothing is left. -/
theorem getElem?_levelsFrom (nodes : List (Node K V)) (depth : Nat) :
    (levelsFrom nodes)[depth]? =
      if nodes.flatMap (atDepth depth) = [] then none else some (nodes.flatMap (atDepth depth)) := by
  fun_induction levelsFrom nodes generalizing depth with
  | case1 => simp
  | case2 nodes hne ih =>
    cases depth with
    | zero =>
      have hzero : nodes.flatMap (atDepth 0) = nodes := List.flatMap_singleton' nodes
      rw [hzero, if_neg hne, List.getElem?_cons_zero]
    | succ depth => rw [List.getElem?_cons_succ, ih, flatMap_atDepth_succ]

theorem getElem?_levels (node : Node K V) (depth : Nat) :
    node.levels[depth]? = if node.atDepth depth = [] then none else some (node.atDepth depth) := by
  have hone : [node].flatMap (atDepth depth) = node.atDepth depth := List.flatMap_singleton _ _
  rw [levels, getElem?_levelsFrom, hone]

theorem lt_length_levels_iff : depth < node.levels.length ↔ node.atDepth depth ≠ [] := by
  rw [← not_le, ← List.getElem?_eq_none_iff, getElem?_levels]
  by_cases h : node.atDepth depth = []
  · simp [h]
  · simp [h]

theorem levels_eq (node : Node K V) :
    node.levels = (List.range node.levels.length).map fun depth => node.atDepth depth := by
  apply List.ext_getElem?
  intro depth
  rw [List.getElem?_map, getElem?_levels]
  by_cases h : node.atDepth depth = []
  · have hle : node.levels.length ≤ depth := not_lt.mp fun hlt => lt_length_levels_iff.mp hlt h
    simp [h, hle]
  · have hlt := lt_length_levels_iff.mpr h
    simp [h, hlt]

/-! ## Places at one depth -/

def placesAt (depth : Nat) (places : List (List Nat × Node K V)) : List (List Nat × Node K V) :=
  places.filter fun place => place.1.length = depth

@[simp] theorem mem_placesAt {places : List (List Nat × Node K V)} {place : List Nat × Node K V} :
    place ∈ placesAt depth places ↔ place ∈ places ∧ place.1.length = depth := by
  simp [placesAt]

/-- A walk down a subtree comes to the nodes of one depth from left to right. -/
theorem map_placesAt_listing (path : List Nat) (node : Node K V) (depth : Nat) :
    (placesAt (path.length + depth) (node.listing path)).map Prod.snd = node.atDepth depth := by
  induction depth generalizing path node with
  | zero =>
    have hbelow : ∀ place ∈ listingFrom path 0 node.children, ¬ place.1.length = path.length := by
      intro place hplace
      obtain ⟨i, below, hpath, -⟩ := (mem_listingFrom path 0 node.children).mp hplace
      simp [hpath]
    simpa [listing_eq, placesAt, atDepth] using hbelow
  | succ depth ih =>
    have hrow (index : Nat) (nodes : List (Node K V)) :
        (placesAt (path.length + (depth + 1)) (listingFrom path index nodes)).map Prod.snd =
          nodes.flatMap (atDepth depth) := by
      induction nodes generalizing index with
      | nil => rfl
      | cons child rest each =>
        have hchild := ih (path ++ [index]) child
        rw [List.length_append, List.length_singleton, Nat.add_assoc, Nat.add_comm 1] at hchild
        rw [listingFrom, placesAt, List.filter_append, List.map_append, List.flatMap_cons, ← hchild,
          ← each (index + 1), placesAt, placesAt]
    rw [listing_eq, placesAt, List.filter_cons_of_neg (by simp)]
    exact hrow 0 node.children

theorem InPreorder.nodup {places : List (List Nat × Node K V)} (h : node.InPreorder places) :
    places.Nodup := by
  apply h.increasing.imp
  rintro place _ hlt rfl
  exact List.lt_irrefl place.1 hlt

/-- Taken depth by depth, every place is there once. -/
theorem perm_flatMap_placesAt {places : List (List Nat × Node K V)} {last : Nat}
    (nodup : places.Nodup) (deepest : ∀ place ∈ places, place.1.length ≤ last) :
    ((List.range (last + 1)).flatMap fun depth => placesAt depth places).Perm places := by
  rw [List.perm_ext_iff_of_nodup _ nodup]
  · intro place
    simp only [List.mem_flatMap, List.mem_range, mem_placesAt]
    constructor
    · rintro ⟨_, _, hplace, _⟩
      exact hplace
    · intro hplace
      exact ⟨_, Nat.lt_succ_of_le (deepest place hplace), hplace, rfl⟩
  · rw [List.nodup_flatMap]
    refine ⟨fun depth _ => nodup.filter _, List.nodup_range.imp fun hne => ?_⟩
    intro place hplace hplace'
    exact hne ((mem_placesAt.mp hplace).2.symm.trans (mem_placesAt.mp hplace').2)

/-! ## The level of the leaves -/

theorem leavesOf_eq_flatMap (nodes : List (Node K V)) : leavesOf nodes = nodes.flatMap leaves := by
  induction nodes with
  | nil => simp
  | cons child rest ih => simp [ih]

theorem Bearing.leaves_ne_nil (hb : node.Bearing) : node.leaves ≠ [] := by
  induction node using childInduction with
  | leaf keys values => simp
  | branch keys children ih =>
    obtain ⟨hne, hbc⟩ := bearing_branch.mp hb
    obtain ⟨child, hc⟩ := List.exists_mem_of_ne_nil children hne
    rw [leaves_branch, leavesOf_eq_flatMap, Ne, List.flatMap_eq_nil_iff]
    exact fun hall => ih child hc (hbc child hc) (hall child hc)

/-- If all leaves are at one depth, there is nothing else at it and nothing below it. -/
theorem LeavesAt.atDepth_eq (h : node.LeavesAt depth) (hb : node.Bearing) :
    node.atDepth depth = node.leaves ∧ node.atDepth (depth + 1) = [] := by
  induction node using childInduction generalizing depth with
  | leaf keys values =>
    obtain rfl := leavesAt_leaf.mp h
    simp [atDepth]
  | branch keys children ih =>
    obtain ⟨above, rfl, heach⟩ := (leavesAt_branch hb).mp h
    have hbc := (bearing_branch.mp hb).2
    rw [atDepth_branch, atDepth_branch, leaves_branch, leavesOf_eq_flatMap]
    constructor
    · exact List.flatMap_congr fun child hc => (ih child hc (heach child hc) (hbc child hc)).1
    · rw [List.flatMap_eq_nil_iff]
      exact fun child hc => (ih child hc (heach child hc) (hbc child hc)).2

/-- The levels of a balanced subtree are as many as its height and one more. -/
theorem LeavesAt.length_levels (h : node.LeavesAt depth) (hb : node.Bearing) :
    node.levels.length = depth + 1 := by
  obtain ⟨hleaves, hbelow⟩ := h.atDepth_eq hb
  have hlast : depth < node.levels.length := by
    rw [lt_length_levels_iff, hleaves]
    exact hb.leaves_ne_nil
  have hend : ¬ depth + 1 < node.levels.length := fun hlt => lt_length_levels_iff.mp hlt hbelow
  omega

end Node

namespace Tree

variable {K V : Type}

/-- A rendering has a line for each depth from the root down to the deepest node. The line of a depth
shows the labels of all nodes at that depth from left to right, so that the lines together show every
node once. If the tree is balanced and no branch of it is without children, the last line is that of the
height, and it shows the leaves in the order in which their pairs are listed. -/
theorem render_lines [Key K] [Inhabited V] (tree : Tree K V) :
    ∃ places, tree.root.InPreorder places ∧
      ∃ last, (∃ place ∈ places, place.1.length = last) ∧
        (∀ place ∈ places, place.1.length ≤ last) ∧
        tree.render = "\n".intercalate ((List.range (last + 1)).map fun depth =>
          " ".intercalate ((Node.placesAt depth places).map fun place => place.2.label)) ∧
        ((List.range (last + 1)).flatMap fun depth => Node.placesAt depth places).Perm places ∧
        (tree.root.Bearing → tree.root.isBalanced = true →
          tree.height = .ok last ∧
            (Node.placesAt last places).map Prod.snd = tree.root.leaves ∧
            Node.pairsOf tree.root.leaves = tree.toList) := by
  have hpreorder := Node.inPreorder_listing tree.root
  have hlines (depth : Nat) : (Node.placesAt depth (tree.root.listing [])).map Prod.snd =
      tree.root.atDepth depth := by
    simpa using Node.map_placesAt_listing [] tree.root depth
  -- a level that is built has nodes, so there are as many levels as depths
  have hreached {depth : Nat} :
      depth < tree.root.levels.length ↔ Node.placesAt depth (tree.root.listing []) ≠ [] := by
    rw [Node.lt_length_levels_iff, ← hlines, Ne, List.map_eq_nil_iff]
  obtain ⟨last, hlast⟩ : ∃ last, tree.root.levels.length = last + 1 :=
    Nat.exists_eq_add_one.mpr (Node.lt_length_levels_iff.mpr (List.cons_ne_nil _ _))
  have hdeepest : ∀ place ∈ tree.root.listing [], place.1.length ≤ last := by
    intro place hplace
    have hlt := hreached.mpr (List.ne_nil_of_mem (Node.mem_placesAt.mpr ⟨hplace, rfl⟩))
    omega
  refine ⟨tree.root.listing [], hpreorder, last, ?_, hdeepest, ?_, ?_, ?_⟩
  · obtain ⟨place, hplace⟩ :=
      List.exists_mem_of_ne_nil _ (hreached.mp (show last < tree.root.levels.length by omega))
    exact ⟨place, Node.mem_placesAt.mp hplace⟩
  · rw [render, Node.render, Node.levels_eq, hlast, List.map_map]
    congr 1
    apply List.map_congr_left
    intro depth _
    rw [Function.comp_apply, ← hlines, List.map_map]
    rfl
  · exact Node.perm_flatMap_placesAt hpreorder.nodup hdeepest
  · intro hbearing hbalanced
    obtain ⟨depth, hdepth⟩ := Option.isSome_iff_exists.mp hbalanced
    have hleaves := (Node.uniformHeight?_eq_some_iff hbearing).mp hdepth
    obtain rfl : depth = last := by
      have hlength := hleaves.length_levels hbearing
      omega
    rw [hlines]
    exact ⟨hleaves.height_eq hbearing, (hleaves.atDepth_eq hbearing).1, Node.pairsOf_leaves tree.root⟩

/-- Leaves at two depths, and a branch without children between them. -/
example : (.branch [9, 2] [.branch [4] [.leaf [7] []], .leaf [] [1], .branch [] []] :
    Node Nat Nat).render = "[9 2]\n[4] [] []\n[7]" := by cbv

/-- Ten keys in five leaves, two levels below the root. -/
def tall : Tree Nat Nat :=
  (Tree.empty 4 (by decide) Key.natural).load
    (some (.branch [7]
      [.branch [3, 5] [.leaf [1, 2] [10, 20], .leaf [3, 4] [30, 40], .leaf [5, 6] [50, 60]],
        .branch [9] [.leaf [7, 8] [70, 80], .leaf [9, 10] [90, 100]]])) (some (.number 10))

theorem render_lines_tall :
    tall.root.Bearing ∧ tall.root.isBalanced = true ∧
      tall.render = "[7]\n[3 5] [9]\n[1 2] [3 4] [5 6] [7 8] [9 10]" ∧
      ∃ places, tall.root.InPreorder places ∧
        (Node.placesAt 2 places).map (fun place => place.2.keys) =
          [[1, 2], [3, 4], [5, 6], [7, 8], [9, 10]] := by
  have hbearing : tall.root.Bearing := by
    simp [tall, load, Node.Bearing, Node.everywhere_branch, Node.everywhere_leaf, Node.isLeaf]
  have hbalanced : tall.root.isBalanced = true := by decide
  have hheight : tall.height = .ok 2 := rfl
  obtain ⟨places, hpreorder, last, _, _, _, _, hleaves⟩ := render_lines tall
  obtain ⟨hlast, hline, _⟩ := hleaves hbearing hbalanced
  obtain rfl : 2 = last := Except.ok.inj (hheight.symm.trans hlast)
  refine ⟨hbearing, hbalanced, by cbv, places, hpreorder, ?_⟩
  have hkeys := congrArg (List.map Node.keys) hline
  rw [List.map_map] at hkeys
  exact hkeys

end Tree
end OrderedIndex
