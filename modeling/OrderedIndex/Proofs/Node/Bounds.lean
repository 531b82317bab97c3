import OrderedIndex.Proofs.Node.Checks

/-!
# Separators at every depth

The check of separators hands down only the nearest bounds: below a child, the separators beside it take
the place of those above. That is enough to bound the keys of every node by the separators of all
branches above it, because the separators are keys themselves and lie between the bounds they replace.
Nothing is assumed of the shape of nodes, or of the order of keys within a node.
-/
namespace OrderedIndex
namespace Node

variable {K V α : Type} [LinearOrder α] {compare : Comparator K} {used : K → Prop} {rank : K → α}
  {low high : Option K} {keys : List K} {children : List (Node K V)} {i : Nat} {child : Node K V}

/-! ## The separators beside a child -/

/-- The lower bound of the child at an index: the separator before it, or that of the branch. -/
def lowerAt (low : Option K) (keys : List K) : Nat → Option K
  | 0 => low
  | i + 1 => keys[i]?

def upperAt (high : Option K) (keys : List K) (i : Nat) : Option K := keys[i]?.or high

theorem used_lowerAt (hk : ∀ k ∈ keys, used k) (hlow : ∀ a ∈ low, used a) :
    ∀ a ∈ lowerAt low keys i, used a := by
  intro a ha
  cases i with
  | zero => exact hlow a ha
  | succ i => exact hk a (List.mem_of_getElem? ha)

theorem used_upperAt (hk : ∀ k ∈ keys, used k) (hhigh : ∀ b ∈ high, used b) :
    ∀ b ∈ upperAt high keys i, used b := by
  intro b hb
  rcases Option.or_eq_some_iff.mp hb with hb | ⟨_, hb⟩
  · exact hk b (List.mem_of_getElem? hb)
  · exact hhigh b hb

/-- The check of a row of children looks at each child beside its own separators. -/
theorem allSeparated_iff (hl : children.length = keys.length + 1) :
    allSeparated compare low high keys children = true ↔
      ∀ (i : Nat) (child : Node K V), children[i]? = some child →
        child.isSeparated compare (lowerAt low keys i) (upperAt high keys i) = true := by
  induction keys generalizing low children with
  | nil =>
    obtain ⟨child, rfl⟩ := List.length_eq_one_iff.mp hl
    simp only [allSeparated, Bool.and_true]
    constructor
    · intro h i child' hc
      cases i with
      | zero =>
        obtain rfl : child = child' := by simpa using hc
        exact h
      | succ i => simp at hc
    · intro h
      exact h 0 child rfl
  | cons key keys ih =>
    obtain ⟨child, rest, rfl⟩ := List.exists_cons_of_length_eq_add_one hl
    have hrest : rest.length = keys.length + 1 := by simpa using hl
    have hlower (i : Nat) : lowerAt (some key) keys i = lowerAt low (key :: keys) (i + 1) := by
      cases i <;> rfl
    rw [allSeparated, Bool.and_eq_true, ih hrest]
    constructor
    · rintro ⟨hfirst, heach⟩ i child' hc
      cases i with
      | zero =>
        obtain rfl : child = child' := by simpa using hc
        exact hfirst
      | succ i =>
        rw [← hlower]
        exact heach i child' hc
    · intro h
      refine ⟨h 0 child rfl, fun i child' hc => ?_⟩
      rw [hlower]
      exact h (i + 1) child' hc

/-- What lies between the separators beside a child is what lies between the bounds of the branch and,
on the way down from it, between its own separators. -/
theorem inside_beside_iff {r : α} (hi : i ≤ keys.length)
    (hk : ∀ key ∈ keys, Inside (low.map rank) (high.map rank) (rank key)) :
    Inside ((lowerAt low keys i).map rank) ((upperAt high keys i).map rank) r ↔
      Inside (low.map rank) (high.map rank) r ∧
        Inside ((lowerAt none keys i).map rank) ((upperAt none keys i).map rank) r := by
  have hlower : (∀ a ∈ (lowerAt low keys i).map rank, a ≤ r) ↔
      (∀ a ∈ low.map rank, a ≤ r) ∧ ∀ a ∈ (lowerAt none keys i).map rank, a ≤ r := by
    cases i with
    | zero => simp [lowerAt]
    | succ i =>
      -- the separator before the child is itself at or above the lower bound
      have hin := hk keys[i] (List.getElem_mem hi)
      simp only [lowerAt, List.getElem?_eq_getElem hi]
      refine ⟨fun h => ⟨fun a ha => (hin.from_low a ha).trans (h _ rfl), h⟩, fun h => h.2⟩
  have hupper : (∀ b ∈ (upperAt high keys i).map rank, r < b) ↔
      (∀ b ∈ high.map rank, r < b) ∧ ∀ b ∈ (upperAt none keys i).map rank, r < b := by
    cases hsep : keys[i]? with
    | none => simp [upperAt, hsep]
    | some separator =>
      have hin := hk separator (List.mem_of_getElem? hsep)
      simp only [upperAt, hsep, Option.some_or]
      refine ⟨fun h => ⟨fun b hb => (h _ rfl).trans (hin.to_high b hb), h⟩, fun h => h.2⟩
  rw [inside_iff, inside_iff, inside_iff, hlower, hupper]
  exact and_and_and_comm

/-! ## All bounds above -/

def Enclosed (rank : K → α) (low high : Option K) (node : Node K V) : Prop :=
  node.Everywhere fun part => ∀ key ∈ part.keys, Inside (low.map rank) (high.map rank) (rank key)

/-- The separators of a branch bound the keys of all nodes below it: there is one child more than
separators, and below each child, at any depth, the keys are at or above the separator before the child
and below the one after it. -/
def Bounded (compare : Comparator K) : Node K V → Prop
  | leaf _ _ => True
  | branch keys children => children.length = keys.length + 1 ∧
    ∀ (i : Nat) (child : Node K V), children[i]? = some child →
      child.Everywhere fun inner => ∀ key ∈ inner.keys,
        (∀ separator, 0 < i → keys[i - 1]? = some separator →
            compare key separator = .ordered .gt ∨ compare key separator = .ordered .eq) ∧
          ∀ separator, keys[i]? = some separator → compare key separator = .ordered .lt

/-- Between the separators beside a child, as the comparator answers. -/
theorem beside_iff (hr : Ranks compare used rank) (hk : ∀ k ∈ keys, used k) {key : K}
    (hu : used key) :
    ((∀ separator, 0 < i → keys[i - 1]? = some separator →
        compare key separator = .ordered .gt ∨ compare key separator = .ordered .eq) ∧
      ∀ separator, keys[i]? = some separator → compare key separator = .ordered .lt) ↔
      Inside ((lowerAt none keys i).map rank) ((upperAt none keys i).map rank) (rank key) := by
  rw [← inRange_iff_inside hr hu (used_lowerAt hk (by simp)) (used_upperAt hk (by simp)), inRange_iff]
  apply and_congr
  · cases i <;> simp [lowerAt]
  · simp [upperAt]

theorem bounded_branch_iff (hr : Ranks compare used rank) (hu : (branch keys children).Uses used) :
    (branch keys children).Bounded compare ↔ children.length = keys.length + 1 ∧
      ∀ (i : Nat) (child : Node K V), children[i]? = some child →
        child.Enclosed rank (lowerAt none keys i) (upperAt none keys i) := by
  obtain ⟨hk, hc⟩ := everywhere_branch.mp hu
  refine and_congr_right fun _ => forall₃_congr fun i child hchild => ?_
  have hinner := hc child (List.mem_of_getElem? hchild)
  exact forall₃_congr fun depth part ho => forall₂_congr fun key hm =>
    beside_iff hr hk (hinner depth part ho key hm)

/-- Below a child, the keys lie between its own separators exactly if they lie between those of the
branch on the way down from it, given that they lie between the bounds of the branch. -/
theorem enclosed_beside_iff (hi : i ≤ keys.length)
    (hk : ∀ key ∈ keys, Inside (low.map rank) (high.map rank) (rank key)) :
    child.Enclosed rank (lowerAt low keys i) (upperAt high keys i) ↔
      child.Enclosed rank low high ∧ child.Enclosed rank (lowerAt none keys i) (upperAt none keys i) := by
  simp only [Enclosed, Everywhere, inside_beside_iff hi hk]
  exact ⟨fun h => ⟨fun d p ho k hm => (h d p ho k hm).1, fun d p ho k hm => (h d p ho k hm).2⟩,
    fun h d p ho k hm => ⟨h.1 d p ho k hm, h.2 d p ho k hm⟩⟩

/-- Given what the check of each child decides, that of a row decides that all keys in it lie between
the bounds of the branch and beside its separators. -/
theorem allSeparated_iff_of_each (hl : children.length = keys.length + 1)
    (hk : ∀ key ∈ keys, Inside (low.map rank) (high.map rank) (rank key))
    (each : ∀ (i : Nat) (child : Node K V), children[i]? = some child →
      (child.isSeparated compare (lowerAt low keys i) (upperAt high keys i) = true ↔
        child.Enclosed rank (lowerAt low keys i) (upperAt high keys i) ∧
          child.Everywhere (Bounded compare))) :
    allSeparated compare low high keys children = true ↔
      (∀ child ∈ children, child.Enclosed rank low high) ∧
        (∀ (i : Nat) (child : Node K V), children[i]? = some child →
          child.Enclosed rank (lowerAt none keys i) (upperAt none keys i)) ∧
        ∀ child ∈ children, child.Everywhere (Bounded compare) := by
  have hparts (i : Nat) (child : Node K V) (hm : children[i]? = some child) :
      child.isSeparated compare (lowerAt low keys i) (upperAt high keys i) = true ↔
        (child.Enclosed rank low high ∧
            child.Enclosed rank (lowerAt none keys i) (upperAt none keys i)) ∧
          child.Everywhere (Bounded compare) := by
    have hi := (List.getElem?_eq_some_iff.mp hm).1
    rw [each i child hm, enclosed_beside_iff (by omega) hk]
  have hmem {P : Node K V → Prop} :
      (∀ child ∈ children, P child) ↔ ∀ (i : Nat) child, children[i]? = some child → P child := by
    simp only [List.mem_iff_getElem?, forall_exists_index]
    exact forall_comm
  rw [allSeparated_iff hl, hmem, hmem]
  constructor
  · intro h
    exact ⟨fun i child hm => ((hparts i child hm).mp (h i child hm)).1.1,
      fun i child hm => ((hparts i child hm).mp (h i child hm)).1.2,
      fun i child hm => ((hparts i child hm).mp (h i child hm)).2⟩
  · rintro ⟨henclosed, hbeside, hbelow⟩ i child hm
    exact (hparts i child hm).mpr ⟨⟨henclosed i child hm, hbeside i child hm⟩, hbelow i child hm⟩

/-- The check between two bounds decides that all keys lie between them and that the separators of every
branch bound the keys below it. -/
theorem isSeparated_iff (hr : Ranks compare used rank) {node : Node K V} (hu : node.Uses used)
    (hlow : ∀ a ∈ low, used a) (hhigh : ∀ b ∈ high, used b) :
    node.isSeparated compare low high = true ↔
      node.Enclosed rank low high ∧ node.Everywhere (Bounded compare) := by
  induction node using childInduction generalizing low high with
  | leaf keys values =>
    have hk : ∀ k ∈ keys, used k := everywhere_leaf.mp hu
    rw [isSeparated, within_iff hr hk hlow hhigh, Enclosed, everywhere_leaf, everywhere_leaf]
    simp [Bounded]
  | branch keys children ih =>
    obtain ⟨hk, hc⟩ : (∀ k ∈ keys, used k) ∧ _ := everywhere_branch.mp hu
    have hrow (hl : children.length = keys.length + 1)
        (hwithin : ∀ key ∈ keys, Inside (low.map rank) (high.map rank) (rank key)) :=
      allSeparated_iff_of_each hl hwithin fun i child hm =>
        have hmem := List.mem_of_getElem? hm
        ih child hmem (hc child hmem) (used_lowerAt hk hlow) (used_upperAt hk hhigh)
    rw [isSeparated, Bool.and_eq_true, Bool.and_eq_true, beq_iff_eq, within_iff hr hk hlow hhigh,
      Enclosed, everywhere_branch, everywhere_branch, bounded_branch_iff hr hu, keys_branch]
    constructor
    · rintro ⟨hwithin, hl, hall⟩
      obtain ⟨henclosed, hbeside, hbelow⟩ := (hrow hl hwithin).mp hall
      exact ⟨⟨hwithin, henclosed⟩, ⟨hl, hbeside⟩, hbelow⟩
    · rintro ⟨⟨hwithin, henclosed⟩, ⟨hl, hbeside⟩, hbelow⟩
      exact ⟨hwithin, hl, (hrow hl hwithin).mpr ⟨henclosed, hbeside, hbelow⟩⟩

theorem enclosed_none {node : Node K V} : node.Enclosed rank none none :=
  fun _ _ _ _ _ => ⟨by simp, by simp⟩

/-- All keys of a subtree, at any depth, are in the range between two bounds. -/
def Between (compare : Comparator K) (low high : Option K) (node : Node K V) : Prop :=
  node.Everywhere fun part => ∀ key ∈ part.keys, InRange compare low high key

theorem between_iff (hr : Ranks compare used rank) {node : Node K V} (hu : node.Uses used)
    (hlow : ∀ a ∈ low, used a) (hhigh : ∀ b ∈ high, used b) :
    node.Between compare low high ↔ node.Enclosed rank low high :=
  forall₃_congr fun depth part ho => forall₂_congr fun key hm =>
    inRange_iff_inside hr (hu depth part ho key hm) hlow hhigh

/-- A subtree has its keys in order between two bounds exactly if it passes both checks as a root and has
all keys between the bounds: the check of separators needs no bounds from above for that. -/
theorem arranged_iff_between (hr : Ranks compare used rank) {node : Node K V} (hu : node.Uses used)
    (hlow : ∀ a ∈ low, used a) (hhigh : ∀ b ∈ high, used b) :
    node.Arranged used rank (low.map rank) (high.map rank) ↔
      node.isSorted compare = true ∧ node.separatorsValid compare = true ∧
        node.Between compare low high := by
  have hnone : ∀ a ∈ (none : Option K), used a := by simp
  rw [arranged_iff hr hu hlow hhigh, separatorsValid, isSeparated_iff hr hu hnone hnone,
    isSeparated_iff hr hu hlow hhigh, between_iff hr hu hlow hhigh, and_iff_right enclosed_none,
    and_comm (a := node.Enclosed rank low high)]

/-- A root has no bounds, so its check decides the bounds of all separators in it, at every depth. -/
theorem separatorsValid_iff (ho : compare.Orders used) {node : Node K V} (hu : node.Uses used) :
    node.separatorsValid compare = true ↔ node.Everywhere (Bounded compare) := by
  obtain ⟨α, _, rank, hr⟩ := exists_ranks ho
  have hnone : ∀ a ∈ (none : Option K), used a := by simp
  rw [separatorsValid, isSeparated_iff hr hu hnone hnone, and_iff_right enclosed_none]

/-- Keys out of order within a leaf and within a branch, and no key at all between two separators in the
wrong order. -/
def unsorted : Node Nat Nat :=
  .branch [5] [.branch [4, 2] [.leaf [3, 1] [30, 10], .leaf [] [], .leaf [4, 2] [40, 20]],
    .leaf [8, 5] [80, 50]]

theorem separatorsValid_unsorted :
    (Key.natural : Comparator Nat).Orders (fun _ => True) ∧ unsorted.Uses (fun _ => True) ∧
      unsorted.isSorted Key.natural = false ∧ unsorted.separatorsValid Key.natural = true ∧
      unsorted.Everywhere (Bounded Key.natural) := by
  have horders := ranks_natural.orders
  have huses := uses_all unsorted
  have hvalid : unsorted.separatorsValid Key.natural = true := by decide
  exact ⟨horders, huses, by decide, hvalid, (separatorsValid_iff horders huses).mp hvalid⟩

end Node
end OrderedIndex
