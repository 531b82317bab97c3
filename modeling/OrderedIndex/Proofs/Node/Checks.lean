import OrderedIndex.Node.Check
import OrderedIndex.Node.Validate
import OrderedIndex.Proofs.Node.Arranged

/-!
# What the checks decide

The checks of a node that ask the comparator, against the property they stand for. Keys are in order
exactly if the checks of order and of separators succeed, given that the comparator orders the keys
used, and then no comparison is refused.
-/
namespace OrderedIndex
namespace Node

variable {K V α : Type} [LinearOrder α] {compare : Comparator K} {used : K → Prop} {rank : K → α}
  {low high : Option K}

def Uses (used : K → Prop) (node : Node K V) : Prop :=
  node.Everywhere fun part => ∀ k ∈ part.keys, used k

theorem uses_all (node : Node K V) : node.Uses fun _ => True := fun _ _ _ _ _ => trivial

theorem Arranged.uses {low high : Option α} {node : Node K V}
    (h : node.Arranged used rank low high) : node.Uses used := by
  intro depth part ho
  obtain ⟨lo, hi, hpart, _⟩ := h.occurs ho
  exact hpart.lined.used

/-! ## Keys in order -/

theorem increasing_iff (hr : Ranks compare used rank) {keys : List K} (hu : ∀ k ∈ keys, used k) :
    increasing compare keys = true ↔ keys.Pairwise (rank · < rank ·) := by
  fun_induction increasing compare keys with
  | case1 a b rest ih =>
    have hab := hr.lt_iff a b (hu a (by simp)) (hu b (by simp))
    rw [Bool.and_eq_true, beq_iff_eq, hab, ih fun k hk => hu k (by simp [hk])]
    simp only [List.pairwise_cons, List.forall_mem_cons]
    constructor
    · rintro ⟨hlt, hb, hrest⟩
      exact ⟨⟨hlt, fun k hk => hlt.trans (hb k hk)⟩, hb, hrest⟩
    · rintro ⟨⟨hlt, _⟩, hb, hrest⟩
      exact ⟨hlt, hb, hrest⟩
  | case2 keys hshort =>
    match keys, hshort with
    | [], _ => simp
    | [a], _ => simp
    | a :: b :: rest, hshort => exact absurd rfl (hshort a b rest)

@[mk_iff]
structure InRange (compare : Comparator K) (low high : Option K) (key : K) : Prop where
  from_low : ∀ a ∈ low, compare key a = .ordered .gt ∨ compare key a = .ordered .eq
  to_high : ∀ b ∈ high, compare key b = .ordered .lt

theorem inRange_iff_inside (hr : Ranks compare used rank) {key : K} (hu : used key)
    (hlow : ∀ a ∈ low, used a) (hhigh : ∀ b ∈ high, used b) :
    InRange compare low high key ↔ Inside (low.map rank) (high.map rank) (rank key) := by
  rw [inRange_iff, inside_iff]
  apply and_congr
  · cases low with
    | none => simp
    | some a => simp [hr.gt_iff _ _ hu (hlow a rfl), hr.eq_iff _ _ hu (hlow a rfl),
        le_iff_lt_or_eq, @eq_comm _ (rank key)]
  · cases high with
    | none => simp
    | some b => simp [hr.lt_iff _ _ hu (hhigh b rfl)]

theorem within_iff_inRange {keys : List K} :
    within compare low high keys = true ↔ ∀ key ∈ keys, InRange compare low high key := by
  simp only [within, List.all_eq_true, Bool.and_eq_true, inRange_iff]
  refine forall₂_congr fun key _ => and_congr ?_ ?_
  · cases low <;> simp [reaches]
  · cases high <;> simp [staysBelow]

theorem within_iff (hr : Ranks compare used rank) {keys : List K} (hu : ∀ k ∈ keys, used k)
    (hlow : ∀ a ∈ low, used a) (hhigh : ∀ b ∈ high, used b) :
    within compare low high keys = true ↔
      ∀ k ∈ keys, Inside (low.map rank) (high.map rank) (rank k) := by
  rw [within_iff_inRange]
  exact forall₂_congr fun k hk => inRange_iff_inside hr (hu k hk) hlow hhigh

theorem lined_iff (hr : Ranks compare used rank) {keys : List K} (hu : ∀ k ∈ keys, used k)
    (hlow : ∀ a ∈ low, used a) (hhigh : ∀ b ∈ high, used b) :
    Lined used rank (low.map rank) (high.map rank) keys ↔
      increasing compare keys = true ∧ within compare low high keys = true := by
  rw [increasing_iff hr hu, within_iff hr hu hlow hhigh]
  exact ⟨fun h => ⟨h.increasing, h.inside⟩, fun h => ⟨hu, h.1, h.2⟩⟩

/-- A row of children, given what the checks decide for each of them. -/
theorem row_iff {keys : List K} {children : List (Node K V)} (hu : ∀ k ∈ keys, used k)
    (hlow : ∀ a ∈ low, used a) (hhigh : ∀ b ∈ high, used b)
    (each : ∀ child ∈ children, ∀ lo hi : Option K, (∀ a ∈ lo, used a) → (∀ b ∈ hi, used b) →
      (child.Arranged used rank (lo.map rank) (hi.map rank) ↔
        child.isSorted compare = true ∧ child.isSeparated compare lo hi = true)) :
    Row used rank (low.map rank) (high.map rank) keys children ↔
      children.length = keys.length + 1 ∧ allSorted compare children = true ∧
        allSeparated compare low high keys children = true := by
  induction keys generalizing low children with
  | nil =>
    cases children with
    | nil => simp [Row]
    | cons child rest =>
      cases rest with
      | nil =>
        rw [row_one, each child (by simp) low high hlow hhigh]
        simp [allSorted, allSeparated]
      | cons second rest => simp [Row]
  | cons key keys ih =>
    cases children with
    | nil => simp [Row]
    | cons child rest =>
      have hkey : ∀ a ∈ some key, used a := by
        simpa using hu key (by simp)
      have hchild := each child (by simp) low (some key) hlow hkey
      have hrest := ih (fun k hk => hu k (by simp [hk])) hkey
        fun c hc => each c (List.mem_cons_of_mem child hc)
      simp only [Option.map_some] at hchild hrest
      rw [row_cons, hchild, hrest]
      simp only [allSorted, allSeparated, Bool.and_eq_true, List.length_cons]
      constructor
      · rintro ⟨⟨h₁, h₂⟩, h₃, h₄, h₅⟩
        exact ⟨by omega, ⟨h₁, h₄⟩, h₂, h₅⟩
      · rintro ⟨h₃, ⟨h₁, h₄⟩, h₂, h₅⟩
        exact ⟨⟨h₁, h₂⟩, by omega, h₄, h₅⟩

/-- The keys of a subtree are in order between two bounds exactly if both checks succeed. -/
theorem arranged_iff (hr : Ranks compare used rank) {node : Node K V} (hu : node.Uses used)
    (hlow : ∀ a ∈ low, used a) (hhigh : ∀ b ∈ high, used b) :
    node.Arranged used rank (low.map rank) (high.map rank) ↔
      node.isSorted compare = true ∧ node.isSeparated compare low high = true := by
  induction node using childInduction generalizing low high with
  | leaf keys values =>
    have hk : ∀ k ∈ keys, used k := everywhere_leaf.mp hu
    rw [arranged_leaf, lined_iff hr hk hlow hhigh, isSorted, isSeparated]
  | branch keys children ih =>
    obtain ⟨hk, hc⟩ : (∀ k ∈ keys, used k) ∧ _ := everywhere_branch.mp hu
    have hrow := row_iff hk hlow hhigh fun child hm lo hi hlo hhi =>
      ih child hm (hc child hm) hlo hhi
    rw [arranged_branch, lined_iff hr hk hlow hhigh, hrow, isSorted, isSeparated]
    simp only [Bool.and_eq_true, beq_iff_eq]
    constructor
    · rintro ⟨⟨h₁, h₂⟩, h₃, h₄, h₅⟩
      exact ⟨⟨h₁, h₄⟩, h₂, h₃, h₅⟩
    · rintro ⟨⟨h₁, h₄⟩, h₂, h₃, h₅⟩
      exact ⟨⟨h₁, h₂⟩, h₃, h₄, h₅⟩

/-! ## Comparisons that are not refused -/

theorem refusedInRow_of_used (hr : Ranks compare used rank) {keys : List K}
    (hu : ∀ k ∈ keys, used k) : refusedInRow compare keys = false := by
  fun_induction refusedInRow compare keys with
  | case1 a b rest ih =>
    have hab := hr.refuses_eq_false (hu a (by simp)) (hu b (by simp))
    rw [hab, ih fun k hk => hu k (by simp [hk]), Bool.or_false]
  | case2 => rfl

theorem any_refusedByBounds_of_used (hr : Ranks compare used rank) {keys : List K}
    (hu : ∀ k ∈ keys, used k) (hlow : ∀ a ∈ low, used a) (hhigh : ∀ b ∈ high, used b) :
    keys.any (refusedByBounds compare low high) = false := by
  have hbound : ∀ k ∈ keys, ∀ bound? : Option K, (∀ b ∈ bound?, used b) →
      bound?.any (compare.refuses k) = false := by
    intro k hk bound? hb
    cases bound? with
    | none => rfl
    | some b => exact hr.refuses_eq_false (hu k hk) (hb b rfl)
  rw [List.any_eq_false]
  intro k hk
  simp [refusedByBounds, hbound k hk low hlow, hbound k hk high hhigh]

theorem isOrderRefused_of_used (hr : Ranks compare used rank) {node : Node K V}
    (hu : node.Uses used) : node.isOrderRefused compare = false := by
  have hany : ∀ nodes : List (Node K V), (∀ child ∈ nodes, child.isOrderRefused compare = false) →
      anyOrderRefused compare nodes = false := by
    intro nodes each
    induction nodes with
    | nil => rw [anyOrderRefused]
    | cons child rest ih =>
      rw [anyOrderRefused, each child (by simp), ih fun c hc => each c (by simp [hc]), Bool.or_false]
  induction node using childInduction with
  | leaf keys values =>
    have hk : ∀ k ∈ keys, used k := everywhere_leaf.mp hu
    rw [isOrderRefused, refusedInRow_of_used hr hk]
  | branch keys children ih =>
    obtain ⟨hk, hc⟩ : (∀ k ∈ keys, used k) ∧ _ := everywhere_branch.mp hu
    rw [isOrderRefused, refusedInRow_of_used hr hk,
      hany children fun child hm => ih child hm (hc child hm), Bool.or_false]

theorem anyBoundRefused_of_used {keys : List K} {nodes : List (Node K V)} (hu : ∀ k ∈ keys, used k)
    (hlow : ∀ a ∈ low, used a) (hhigh : ∀ b ∈ high, used b)
    (each : ∀ child ∈ nodes, ∀ lo hi : Option K, (∀ a ∈ lo, used a) → (∀ b ∈ hi, used b) →
      child.isBoundRefused compare lo hi = false) :
    anyBoundRefused compare low high keys nodes = false := by
  induction nodes generalizing low keys with
  | nil => rw [anyBoundRefused]
  | cons child rest ih =>
    have hrest := fun c hc => each c (List.mem_cons_of_mem child hc)
    cases keys with
    | nil =>
      rw [anyBoundRefused, each child (by simp) low high hlow hhigh, ih hu hlow hrest, Bool.or_false]
    | cons key keys =>
      rw [List.forall_mem_cons] at hu
      have hkey : ∀ a ∈ some key, used a := by
        simpa using hu.1
      rw [anyBoundRefused, each child (by simp) low (some key) hlow hkey, ih hu.2 hkey hrest,
        Bool.or_false]

theorem isBoundRefused_of_used (hr : Ranks compare used rank) {node : Node K V}
    (hu : node.Uses used) (hlow : ∀ a ∈ low, used a) (hhigh : ∀ b ∈ high, used b) :
    node.isBoundRefused compare low high = false := by
  induction node using childInduction generalizing low high with
  | leaf keys values =>
    have hk : ∀ k ∈ keys, used k := everywhere_leaf.mp hu
    rw [isBoundRefused, any_refusedByBounds_of_used hr hk hlow hhigh]
  | branch keys children ih =>
    obtain ⟨hk, hc⟩ : (∀ k ∈ keys, used k) ∧ _ := everywhere_branch.mp hu
    have hchildren := anyBoundRefused_of_used hk hlow hhigh fun child hm lo hi hlo hhi =>
      ih child hm (hc child hm) hlo hhi
    rw [isBoundRefused, any_refusedByBounds_of_used hr hk hlow hhigh, hchildren, Bool.and_false,
      Bool.or_false]

/-- No comparison that a report makes of used keys is refused. -/
theorem isRefused_of_used (hr : Ranks compare used rank) {node : Node K V} (hu : node.Uses used) :
    node.isRefused compare = false := by
  have hnone : ∀ a ∈ (none : Option K), used a := by simp
  rw [isRefused, isOrderRefused_of_used hr hu, isBoundRefused_of_used hr hu hnone hnone,
    Bool.or_false]

end Node
end OrderedIndex
