import OrderedIndex.Proofs.Node.Effect
import OrderedIndex.Proofs.Node.Keys

/-!
# Insertions along an edge

A key that belongs before all others, or after all others, goes down one edge of a subtree. Only nodes of
that edge grow then. A node that is cut leaves one half on the edge, and the other half is never touched
again, so it keeps the size that it had when it was cut: all nodes off the edge have the size of that half,
which is one for leaves and one for branches.
-/
namespace OrderedIndex

/-! ## Ends of lists -/

inductive Side where
  | first | last
  deriving DecidableEq, Repr

namespace Side

variable {α : Type} {side : Side} {item : α} {before after others : List α}

def join : Side → α → List α → List α
  | first, item, others => item :: others
  | last, item, others => others ++ [item]

/-- Of the items before and after a place, those between the place and the end. -/
def beyond : Side → List α → List α → List α
  | first, before, _ => before
  | last, _, after => after

def border : Side → List α → Nat
  | first, _ => 0
  | last, items => items.length

theorem join_nil (side : Side) (item : α) : side.join item [] = [item] := by
  cases side <;> rfl

theorem mem_join {x : α} : x ∈ side.join item others ↔ x = item ∨ x ∈ others := by
  cases side with
  | first => exact List.mem_cons
  | last => simp [join, or_comm]

theorem map_join {β : Type} (f : α → β) (side : Side) (item : α) (others : List α) :
    (side.join item others).map f = side.join (f item) (others.map f) := by
  cases side <;> simp [join]

theorem join_inj {other : α} {rest : List α} (h : side.join item others = side.join other rest) :
    item = other ∧ others = rest := by
  cases side with
  | first => exact List.cons.inj h
  | last =>
    obtain ⟨hrest, hitem⟩ := List.append_inj' h rfl
    exact ⟨List.head_eq_of_cons_eq hitem, hrest⟩

theorem beyond_eq_nil_iff :
    side.beyond before after = [] ↔ before.length = side.border (before ++ after) := by
  cases side <;> simp [beyond, border]

/-- Whether something lies between a place and the end depends on the lengths on both sides only. -/
theorem beyond_eq_nil_congr {β : Type} {left right : List β} (hl : left.length = before.length)
    (hr : right.length = after.length) (h : side.beyond before after = []) :
    side.beyond left right = [] := by
  cases side with
  | first =>
    obtain rfl : before = [] := h
    exact List.eq_nil_of_length_eq_zero hl
  | last =>
    obtain rfl : after = [] := h
    exact List.eq_nil_of_length_eq_zero hr

/-- A list that stands at the end of a longer one with an item at its own end. -/
theorem append_join_append (h : side.beyond before after = []) :
    before ++ side.join item others ++ after = side.join item (before ++ others ++ after) := by
  cases side with
  | first =>
    obtain rfl : before = [] := h
    rfl
  | last =>
    obtain rfl : after = [] := h
    simp [join]

theorem append_cons_eq_join (h : side.beyond before after = []) :
    before ++ item :: after = side.join item (before ++ after) := by
  have hjoin : before ++ side.join item [] ++ after = side.join item (before ++ [] ++ after) :=
    append_join_append h
  rw [join_nil, List.append_nil] at hjoin
  rw [← hjoin, List.append_assoc, List.singleton_append]

end Side

namespace Node

variable {K V : Type} {side : Side} {order height : Nat}

/-! ## Sizes off an edge -/

/-- How many keys a leaf has that is cut off the growing edge. -/
def leafHalf (order : Nat) : Side → Nat
  | .first => (order + 1) / 2
  | .last => order / 2

def branchHalf (order : Nat) : Side → Nat
  | .first => (order + 1) / 2
  | .last => order / 2 + 1

/-- A node has the size of a half that was cut off. -/
def IsHalf (side : Side) (order : Nat) : Node K V → Prop
  | leaf keys _ => keys.length = leafHalf order side
  | branch _ children => children.length = branchHalf order side

/-- All nodes but those on one edge are such halves. -/
inductive Packed (side : Side) (order : Nat) : Node K V → Prop
  | leaf {keys : List K} {values : List V} : Packed side order (leaf keys values)
  | branch {keys : List K} {children others : List (Node K V)} {outer : Node K V}
      (row : children = side.join outer others) (edge : Packed side order outer)
      (off : ∀ other ∈ others, other.Everywhere (IsHalf side order)) :
      Packed side order (branch keys children)

def PackedRow (side : Side) (order : Nat) (nodes : List (Node K V)) : Prop :=
  ∃ outer others, nodes = side.join outer others ∧ outer.Packed side order ∧
    ∀ other ∈ others, other.Everywhere (IsHalf side order)

variable {keys : List K} {children cs₁ cs₂ cl cr nodes : List (Node K V)} {node part child : Node K V}

theorem packed_branch : (branch keys children).Packed side order ↔ PackedRow side order children := by
  constructor
  · intro h
    cases h with
    | branch row edge off => exact ⟨_, _, row, edge, off⟩
  · rintro ⟨outer, others, row, edge, off⟩
    exact .branch row edge off

theorem packedRow_join {outer : Node K V} {others : List (Node K V)} :
    PackedRow side order (side.join outer others) ↔
      outer.Packed side order ∧ ∀ other ∈ others, other.Everywhere (IsHalf side order) := by
  constructor
  · rintro ⟨_, _, row, edge, off⟩
    obtain ⟨rfl, rfl⟩ := Side.join_inj row
    exact ⟨edge, off⟩
  · rintro ⟨edge, off⟩
    exact ⟨outer, others, rfl, edge, off⟩

theorem packedRow_single : PackedRow side order [node] ↔ node.Packed side order := by
  rw [← Side.join_nil side, packedRow_join, and_iff_left_iff_imp]
  exact fun _ => nofun

/-- The sibling at the end is the one on the edge. -/
theorem PackedRow.hole (h : PackedRow side order (cs₁ ++ child :: cs₂))
    (hend : side.beyond cs₁ cs₂ = []) :
    child.Packed side order ∧ ∀ other ∈ cs₁ ++ cs₂, other.Everywhere (IsHalf side order) := by
  rw [Side.append_cons_eq_join hend] at h
  exact packedRow_join.mp h

/-- Other halves beside a packed row, away from the edge. -/
theorem PackedRow.around (h : PackedRow side order nodes) (hend : side.beyond cs₁ cs₂ = [])
    (hothers : ∀ other ∈ cs₁ ++ cs₂, other.Everywhere (IsHalf side order)) :
    PackedRow side order (cs₁ ++ nodes ++ cs₂) := by
  obtain ⟨outer, others, rfl, edge, off⟩ := h
  refine ⟨outer, cs₁ ++ others ++ cs₂, Side.append_join_append hend, edge, ?_⟩
  rw [List.forall_mem_append] at hothers
  simp only [List.forall_mem_append]
  exact ⟨⟨hothers.1, off⟩, hothers.2⟩

/-- A row cut in the middle, each part under a branch: the one away from the edge is a half. -/
theorem PackedRow.cut {kl kr : List K} (ho : 3 ≤ order) (h : PackedRow side order (cl ++ cr))
    (hl : cl.length = order / 2 + 1) (hr : cr.length = (order + 1) / 2) :
    PackedRow side order [branch kl cl, branch kr cr] := by
  obtain ⟨outer, others, row, edge, off⟩ := h
  cases side with
  | first =>
    obtain ⟨c, cl, rfl⟩ := List.exists_cons_of_length_eq_add_one hl
    rw [List.cons_append] at row
    obtain ⟨rfl, rfl⟩ := List.cons.inj row
    rw [List.forall_mem_append] at off
    refine ⟨branch kl (c :: cl), [branch kr cr], rfl, .branch rfl edge off.1, ?_⟩
    simpa using everywhere_branch.mpr ⟨hr, off.2⟩
  | last =>
    rcases List.eq_nil_or_concat cr with rfl | ⟨cr, c, rfl⟩
    · simp at hr
      omega
    · rw [List.concat_eq_append] at row ⊢
      rw [← List.append_assoc] at row
      obtain ⟨rfl, hc⟩ := List.append_inj' row rfl
      obtain rfl := List.head_eq_of_cons_eq hc
      rw [List.forall_mem_append] at off
      refine ⟨branch kr (cr ++ [c]), [branch kl cl], rfl, .branch rfl edge off.2, ?_⟩
      simpa using everywhere_branch.mpr ⟨hl, off.1⟩

/-! ## Nodes off the edge -/

inductive OffEdge (side : Side) (part : Node K V) : Node K V → Prop
  | aside {depth : Nat} {keys : List K} {children others : List (Node K V)} {outer other : Node K V}
      (row : children = side.join outer others) (mem : other ∈ others)
      (inside : Occurs part depth other) : OffEdge side part (branch keys children)
  | along {keys : List K} {children others : List (Node K V)} {outer : Node K V}
      (row : children = side.join outer others) (inside : OffEdge side part outer) :
      OffEdge side part (branch keys children)

theorem Packed.offEdge (h : node.Packed side order) (ho : OffEdge side part node) :
    part.IsHalf side order := by
  induction ho with
  | aside row mem inside =>
    rw [packed_branch, row, packedRow_join] at h
    exact h.2 _ mem _ _ inside
  | along row inside ih =>
    rw [packed_branch, row, packedRow_join] at h
    exact ih h.1

theorem mem_leavesOf {nodes : List (Node K V)} (h : part ∈ leavesOf nodes) :
    ∃ node ∈ nodes, part ∈ node.leaves := by
  induction nodes with
  | nil => simp at h
  | cons first rest ih =>
    rw [leavesOf_cons, List.mem_append] at h
    rcases h with h | h
    · exact ⟨first, by simp, h⟩
    · obtain ⟨node, hn, hp⟩ := ih h
      exact ⟨node, List.mem_cons_of_mem first hn, hp⟩

/-- The leaves of a subtree are leaves that occur in it. -/
theorem occurs_of_mem_leaves (h : part ∈ node.leaves) :
    part.isLeaf = true ∧ ∃ depth, Occurs part depth node := by
  induction node using childInduction with
  | leaf keys values =>
    obtain rfl : part = leaf keys values := by simpa using h
    exact ⟨rfl, 0, .here⟩
  | branch keys children ih =>
    rw [leaves_branch] at h
    obtain ⟨child, hc, hp⟩ := mem_leavesOf h
    obtain ⟨hleaf, depth, ho⟩ := ih child hc hp
    exact ⟨hleaf, depth + 1, .under hc ho⟩

theorem IsHalf.length_keys (h : part.IsHalf side order) (hleaf : part.isLeaf = true) :
    part.keys.length = leafHalf order side := by
  cases part with
  | leaf keys values => exact h
  | branch keys children => cases hleaf

/-- All leaves but the one at the end are halves. -/
theorem Packed.leaves (h : node.Packed side order) :
    ∃ outer others, node.leaves = side.join outer others ∧
      ∀ leaf ∈ others, leaf.keys.length = leafHalf order side := by
  induction h with
  | @leaf keys values => exact ⟨.leaf keys values, [], by simp [Side.join_nil], by simp⟩
  | @branch keys children others outer row edge off ih =>
    obtain ⟨leaf, leaves, hleaves, hhalves⟩ := ih
    have hoff : ∀ leaf ∈ leavesOf others, leaf.keys.length = leafHalf order side := by
      intro leaf hm
      obtain ⟨other, ho, hp⟩ := mem_leavesOf hm
      obtain ⟨hleaf, depth, hocc⟩ := occurs_of_mem_leaves hp
      exact (off other ho depth leaf hocc).length_keys hleaf
    have hall := List.forall_mem_append.mpr ⟨hhalves, hoff⟩
    rw [leaves_branch, row]
    cases side with
    | first =>
      refine ⟨leaf, leaves ++ leavesOf others, ?_, hall⟩
      simp [Side.join, hleaves]
    | last =>
      refine ⟨leaf, leavesOf others ++ leaves, ?_, ?_⟩
      · simp [Side.join, hleaves]
      · exact List.forall_mem_append.mpr ⟨hoff, hhalves⟩

/-! ## Pairs at an end -/

section Pairs

variable [Inhabited V]

theorem beyond_pairsOf (h : side.beyond cs₁ cs₂ = []) :
    side.beyond (pairsOf cs₁) (pairsOf cs₂) = [] := by
  cases side with
  | first =>
    obtain rfl : cs₁ = [] := h
    exact pairsOf_nil
  | last =>
    obtain rfl : cs₂ = [] := h
    exact pairsOf_nil

/-- The pairs of a leaf with one more at the gap of its key. -/
theorem pairUp_placed {key : K} {value : V} {ks₁ ks₂ : List K} {vs₁ vs₂ : List V}
    (hl : vs₁.length = ks₁.length) (h : side.beyond ks₁ ks₂ = []) :
    pairUp (ks₁ ++ key :: ks₂) (vs₁ ++ value :: vs₂) =
      side.join (key, value) (pairUp (ks₁ ++ ks₂) (vs₁ ++ vs₂)) := by
  have hpairs : side.beyond (pairUp ks₁ vs₁) (pairUp ks₂ vs₂) = [] :=
    Side.beyond_eq_nil_congr (length_pairUp ks₁ vs₁) (length_pairUp ks₂ vs₂) h
  rw [pairUp_append hl, pairUp, Side.append_cons_eq_join hpairs, pairUp_append hl]

end Pairs

/-! ## Keys that pass all others -/

section Search

variable [Key K] {compare : Comparator K} {key : K} {value : V} {ks₁ ks₂ : List K}
  {result : Insertion K V}

/-- A key that passes another one on a side. One that has no order passes on the right, like a key that is
greater. -/
def Passes (compare : Comparator K) (key : K) : Side → K → Prop
  | .first, k => compare k key = .ordered .gt
  | .last, k => compare k key = .ordered .lt ∨ compare k key = .blocked .unordered

/-- A key can be brought to a side: NaN cannot go to the right of a key. -/
def Admits (key : K) : Side → Prop
  | .first => True
  | .last => Key.isNaN key = false

/-- A key that passes all keys of a node goes to the gap at the end. -/
theorem locate_border (admits : Admits key side) (h : ∀ k ∈ keys, Passes compare key side k) :
    locate compare keys key = .ok (.gap (side.border keys)) := by
  cases side with
  | first =>
    have hgap : search (compare · key) ([] ++ keys) = .ok (.gap 0) := search_eq_gap nofun h
    exact locate_of_search_ok hgap
  | last =>
    rcases search_eq_end h with hs | hs
    · exact locate_of_search_ok hs
    · have hnan : Key.isNaN key = false := admits
      simp [locate, hs, hnan, Side.border]

/-- In every node of a subtree, the key goes to the gap at one end. -/
def AtEdge (side : Side) (compare : Comparator K) (key : K) (node : Node K V) : Prop :=
  node.Everywhere fun part => locate compare part.keys key = .ok (.gap (side.border part.keys))

theorem Uses.atEdge (h : node.Uses (Passes compare key side)) (admits : Admits key side) :
    node.AtEdge side compare key :=
  fun depth part ho => locate_border admits (h depth part ho)

/-- Such a key is not found. -/
theorem AtEdge.find?_eq [Inhabited V] (h : node.AtEdge side compare key)
    (hs : Shaped order height node) : node.find? compare key = .ok none := by
  induction hs with
  | leaf room aligned =>
    have hgap := everywhere_leaf.mp h
    rw [keys_leaf] at hgap
    simp only [find?, hgap]
  | @branch height keys children counted room each ih =>
    obtain ⟨hgap, hchildren⟩ := everywhere_branch.mp h
    have hroute : childIndex compare keys key = .ok (side.border keys) := by
      rw [keys_branch] at hgap
      simp [childIndex, hgap, Except.map]
    have hle := childIndex_le hroute
    obtain ⟨cs₁, child, cs₂, rfl, hl⟩ :=
      Position.parts_of_lt (show side.border keys < children.length by omega)
    rw [← hl] at hroute
    rw [find?_branch hroute]
    exact ih child (by simp) (hchildren child (by simp))

/-- The child that such a key is sent to is the one at the end. -/
theorem AtEdge.route (h : (branch (ks₁ ++ ks₂) (cs₁ ++ child :: cs₂)).AtEdge side compare key)
    (hs : Shaped order height (branch (ks₁ ++ ks₂) (cs₁ ++ child :: cs₂)))
    (hr : childIndex compare (ks₁ ++ ks₂) key = .ok ks₁.length) (hl : cs₁.length = ks₁.length) :
    side.beyond cs₁ cs₂ = [] ∧ child.AtEdge side compare key ∧
      ∃ height, Shaped order height child := by
  obtain ⟨hgap, hchildren⟩ := everywhere_branch.mp h
  cases hs with
  | branch counted room each =>
    simp only [List.length_append, List.length_cons] at counted
    rw [keys_branch] at hgap
    simp only [childIndex, hgap, Except.map, Slot.childIndex_gap, Except.ok.injEq] at hr
    have hkeys : side.beyond ks₁ ks₂ = [] := Side.beyond_eq_nil_iff.mpr hr.symm
    exact ⟨Side.beyond_eq_nil_congr hl (by omega) hkeys, hchildren child (by simp), _,
      each child (by simp)⟩

/-! ## Insertions of such keys -/

/-- The pair of such a key comes before or after all others. -/
theorem Takes.pairs_eq_join [Inhabited V] (ht : Takes order compare key value node result)
    (h : node.AtEdge side compare key) (hs : Shaped order height node) :
    pairsOf result.nodes = side.join (key, value) node.pairs := by
  induction ht generalizing height with
  | replaced found =>
    have hgap := everywhere_leaf.mp h
    rw [keys_leaf, found] at hgap
    cases hgap
  | placed gap level fits =>
    have hgap := everywhere_leaf.mp h
    rw [keys_leaf, gap, Except.ok.injEq, Slot.gap.injEq, ← Side.beyond_eq_nil_iff] at hgap
    simpa using pairUp_placed level hgap
  | @halved ks₁ ks₂ kl kr vs₁ vs₂ vl vr separator gap level full keysCut valuesCut half levelCut =>
    have hgap := everywhere_leaf.mp h
    rw [keys_leaf, gap, Except.ok.injEq, Slot.gap.injEq, ← Side.beyond_eq_nil_iff] at hgap
    have hpairs : pairUp (ks₁ ++ key :: ks₂) (vs₁ ++ value :: vs₂) = _ := pairUp_placed level hgap
    rw [keysCut, valuesCut, pairUp_append levelCut] at hpairs
    simpa using hpairs
  | @adopted ks₁ ks₂ cs₁ cs₂ child result route level inside fits ih =>
    obtain ⟨hend, hchild, _, hshaped⟩ := h.route hs route level
    have hjoin : pairsOf cs₁ ++ side.join (key, value) child.pairs ++ pairsOf cs₂ = _ :=
      Side.append_join_append (beyond_pairsOf hend)
    rw [← ih hchild hshaped] at hjoin
    simpa using hjoin
  | @parted ks₁ ks₂ kl kr cs₁ cs₂ cl cr child separator result route level inside grown full
      keysCut childrenCut half levelCut ih =>
    obtain ⟨hend, hchild, _, hshaped⟩ := h.route hs route level
    have hjoin : pairsOf cs₁ ++ side.join (key, value) child.pairs ++ pairsOf cs₂ = _ :=
      Side.append_join_append (beyond_pairsOf hend)
    rw [← ih hchild hshaped, ← pairsOf_append, ← pairsOf_append, childrenCut] at hjoin
    simpa using hjoin

/-- Nodes off the edge stay as they are, and those that are cut off have the right size. -/
theorem Takes.packed (ht : Takes order compare key value node result) (ho : 3 ≤ order)
    (h : node.AtEdge side compare key) (hs : Shaped order height node)
    (hp : node.Packed side order) : PackedRow side order result.nodes := by
  induction ht generalizing height with
  | replaced found => exact packedRow_single.mpr .leaf
  | placed gap level fits => exact packedRow_single.mpr .leaf
  | @halved ks₁ ks₂ kl kr vs₁ vs₂ vl vr separator gap level full keysCut valuesCut half levelCut =>
    have hlength := full
    simp only [keysCut, List.length_append, List.length_cons] at hlength
    -- growing on the left, the leaf cut off is the right half, which keeps the separator
    cases side with
    | first =>
      refine ⟨leaf kl vl, [leaf (separator :: kr) vr], rfl, .leaf, ?_⟩
      have hhalf : (separator :: kr).length = (order + 1) / 2 := by
        rw [List.length_cons]
        omega
      simpa using everywhere_leaf.mpr hhalf
    | last =>
      refine ⟨leaf (separator :: kr) vr, [leaf kl vl], rfl, .leaf, ?_⟩
      simpa using everywhere_leaf.mpr half
  | @adopted ks₁ ks₂ cs₁ cs₂ child result route level inside fits ih =>
    obtain ⟨hend, hchild, _, hshaped⟩ := h.route hs route level
    obtain ⟨edge, off⟩ := (packed_branch.mp hp).hole hend
    have hrow := (ih hchild hshaped edge).around hend off
    exact packedRow_single.mpr (packed_branch.mpr hrow)
  | @parted ks₁ ks₂ kl kr cs₁ cs₂ cl cr child separator result route level inside grown full
      keysCut childrenCut half levelCut ih =>
    obtain ⟨hend, hchild, _, hshaped⟩ := h.route hs route level
    obtain ⟨edge, off⟩ := (packed_branch.mp hp).hole hend
    have hrow := (ih hchild hshaped edge).around hend off
    rw [childrenCut] at hrow full
    rw [List.length_append] at full
    exact hrow.cut ho (by omega) (by omega)

/-- The root after the insertion is packed as well. -/
theorem Takes.root_packed (ht : Takes order compare key value node result) (ho : 3 ≤ order)
    (h : node.AtEdge side compare key) (hs : Shaped order height node)
    (hp : node.Packed side order) : result.root.Packed side order := by
  have hrow := ht.packed ho h hs hp
  cases result with
  | absorbed node added => exact packedRow_single.mp hrow
  | split halves => exact packed_branch.mpr hrow
  | failed node e => exact packedRow_single.mp hrow

end Search

end Node
end OrderedIndex
