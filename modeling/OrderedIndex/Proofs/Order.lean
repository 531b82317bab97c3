import Mathlib.Order.Antisymmetrization
import Mathlib.Order.Compare
import Mathlib.Order.WithBot
import OrderedIndex.Comparator
import OrderedIndex.Proofs.Search

/-!
# Comparators that order keys

What it takes for a comparator to order some keys: it always answers between them, and the answers are
those of a total preorder. Nothing is asked of other keys. Such keys have ranks in a linear order, where
equal keys share their rank, so statements about answers become inequalities.
-/
namespace OrderedIndex

variable {K : Type} {compare : Comparator K} {used : K → Prop}

/-- The comparator is a total preorder on the keys used. -/
structure Comparator.Orders (compare : Comparator K) (used : K → Prop) : Prop where
  answers : ∀ a b, used a → used b → ∃ order, compare a b = .ordered order
  self : ∀ a, used a → compare a a = .ordered .eq
  flip : ∀ a b, used a → used b → (compare a b = .ordered .lt ↔ compare b a = .ordered .gt)
  trans : ∀ a b c, used a → used b → used c → compare a b ≠ .ordered .gt →
    compare b c ≠ .ordered .gt → compare a c ≠ .ordered .gt

structure Ranks {α : Type} [LinearOrder α] (compare : Comparator K) (used : K → Prop)
    (rank : K → α) : Prop where
  lt_iff : ∀ a b, used a → used b → (compare a b = .ordered .lt ↔ rank a < rank b)
  gt_iff : ∀ a b, used a → used b → (compare a b = .ordered .gt ↔ rank b < rank a)
  eq_iff : ∀ a b, used a → used b → (compare a b = .ordered .eq ↔ rank a = rank b)

/-- Keys that are compared as their ranks are under a total preorder. -/
theorem Ranks.orders {α : Type} [LinearOrder α] {rank : K → α} (hr : Ranks compare used rank) :
    compare.Orders used where
  answers a b ha hb := by
    rcases lt_trichotomy (rank a) (rank b) with h | h | h
    · exact ⟨_, (hr.lt_iff a b ha hb).mpr h⟩
    · exact ⟨_, (hr.eq_iff a b ha hb).mpr h⟩
    · exact ⟨_, (hr.gt_iff a b ha hb).mpr h⟩
  self a ha := (hr.eq_iff a a ha ha).mpr rfl
  flip a b ha hb := by rw [hr.lt_iff a b ha hb, hr.gt_iff b a hb ha]
  trans a b c ha hb hc hab hbc := by
    rw [ne_eq, hr.gt_iff _ _ ‹_› ‹_›, not_lt] at hab hbc ⊢
    exact hab.trans hbc

/-- No comparison of used keys is refused. -/
theorem Ranks.refuses_eq_false {α : Type} [LinearOrder α] {rank : K → α}
    (hr : Ranks compare used rank) {a b : K} (ha : used a) (hb : used b) :
    compare.refuses a b = false := by
  obtain ⟨order, ho⟩ := hr.orders.answers a b ha hb
  simp [Comparator.refuses, ho]

/-- Keys that are compared as their places are, in any order on places, are under a total preorder. -/
theorem orders_of_place {β : Type} [Ord β] [Std.TransOrd β] {place : K → β}
    (h : ∀ a b, used a → used b → compare a b = .ordered (Ord.compare (place a) (place b))) :
    compare.Orders used where
  answers a b ha hb := ⟨_, h a b ha hb⟩
  self a ha := by rw [h a a ha ha, Std.ReflOrd.compare_self]
  flip a b ha hb := by
    rw [h a b ha hb, h b a hb ha, Std.OrientedOrd.eq_swap (a := place a)]
    cases Ord.compare (place b) (place a) <;> simp
  trans a b c ha hb hc := by
    have hle {a b : K} (ha : used a) (hb : used b) :
        compare a b ≠ .ordered .gt ↔ (Ord.compare (place a) (place b)).isLE := by
      rw [h a b ha hb]
      cases Ord.compare (place a) (place b) <;> simp
    rw [hle ha hb, hle hb hc, hle ha hc]
    exact Std.TransCmp.isLE_trans

structure Ordered (h : compare.Orders used) where
  key : K
  isUsed : used key

instance (h : compare.Orders used) : Preorder (Ordered h) where
  le a b := compare a.key b.key ≠ .ordered .gt
  le_refl a := by
    rw [h.self a.key a.isUsed]
    simp
  le_trans a b c hab hbc := h.trans a.key b.key c.key a.isUsed b.isUsed c.isUsed hab hbc

theorem Ordered.le_iff {h : compare.Orders used} {a b : Ordered h} :
    a ≤ b ↔ compare a.key b.key ≠ .ordered .gt := Iff.rfl

instance (h : compare.Orders used) : @Std.Total (Ordered h) (· ≤ ·) where
  total a b := by
    by_cases hab : compare a.key b.key = .ordered .gt
    · right
      rw [Ordered.le_iff, (h.flip b.key a.key b.isUsed a.isUsed).mpr hab]
      simp
    · exact .inl hab

open Classical in
/-- The rank of a key; keys that are not used come first. -/
noncomputable def rankOf (h : compare.Orders used) (k : K) :
    WithBot (Antisymmetrization (Ordered h) (· ≤ ·)) :=
  if hk : used k then toAntisymmetrization (· ≤ ·) (⟨k, hk⟩ : Ordered h) else ⊥

open Classical in
/-- Keys under a total preorder are compared as elements of some linear order are. -/
theorem exists_ranks (h : compare.Orders used) :
    ∃ (α : Type) (_ : LinearOrder α) (rank : K → α), Ranks compare used rank := by
  have hgt : ∀ a b, used a → used b → (compare a b = .ordered .gt ↔ rankOf h b < rankOf h a) := by
    intro a b ha hb
    simp only [rankOf, ha, hb, dite_true, WithBot.coe_lt_coe,
      toAntisymmetrization_lt_toAntisymmetrization_iff]
    constructor
    · intro hab
      have hle := Ordered.le_iff (a := (⟨a, ha⟩ : Ordered h)) (b := ⟨b, hb⟩)
      rcases Std.Total.total (r := (· ≤ ·)) (⟨a, ha⟩ : Ordered h) ⟨b, hb⟩ with h₁ | h₂
      · exact absurd hab (hle.mp h₁)
      · exact lt_of_le_not_ge h₂ fun h₁ => hle.mp h₁ hab
    · intro hlt
      by_contra hab
      exact hlt.not_ge (Ordered.le_iff.mpr hab)
  have hlt : ∀ a b, used a → used b → (compare a b = .ordered .lt ↔ rankOf h a < rankOf h b) := by
    intro a b ha hb
    rw [h.flip a b ha hb, hgt b a hb ha]
  refine ⟨_, inferInstance, rankOf h, hlt, hgt, ?_⟩
  intro a b ha hb
  obtain ⟨order, ho⟩ := h.answers a b ha hb
  rcases lt_trichotomy (rankOf h a) (rankOf h b) with hr | hr | hr
  · simp [(hlt a b ha hb).mpr hr, hr.ne]
  -- between equal ranks neither answer is left but that the keys are equal
  · have h₁ := (hlt a b ha hb).not.mpr hr.not_lt
    have h₂ := (hgt a b ha hb).not.mpr hr.not_gt
    rw [ho] at h₁ h₂ ⊢
    cases order <;> simp_all
  · simp [(hgt a b ha hb).mpr hr, hr.ne']

/-- Used keys that are equal are so either way round. -/
theorem Comparator.Orders.eq_symm (ho : compare.Orders used) {a b : K} (ha : used a) (hb : used b)
    (h : compare a b = .ordered .eq) : compare b a = .ordered .eq := by
  obtain ⟨α, _, rank, hr⟩ := exists_ranks ho
  rw [hr.eq_iff _ _ hb ha]
  exact ((hr.eq_iff _ _ ha hb).mp h).symm

/-- A comparator that compares ranks. -/
theorem ranks_of_rank {α : Type} [LinearOrder α] (rank : K → α) (used : K → Prop) :
    Ranks (fun a b => .ordered (Ord.compare (rank a) (rank b))) used rank where
  lt_iff a b _ _ := by rw [Comparison.ordered.injEq, compare_lt_iff_lt]
  gt_iff a b _ _ := by rw [Comparison.ordered.injEq, compare_gt_iff_gt]
  eq_iff a b _ _ := by rw [Comparison.ordered.injEq, compare_eq_iff_eq]

theorem ranks_natural : Ranks (Key.natural : Comparator Nat) (fun _ => True) id :=
  ranks_of_rank id _

/-- Where a rank belongs among increasing ones: at an item that has it, or between two items. -/
theorem parts_of_increasing {α β : Type} [LinearOrder α] {f : β → α} {items : List β}
    (h : items.Pairwise (f · < f ·)) (r : α) :
    ∃ before after, (∀ a ∈ before, f a < r) ∧ (∀ a ∈ after, r < f a) ∧
      (items = before ++ after ∨ ∃ item, f item = r ∧ items = before ++ item :: after) := by
  induction items with
  | nil => exact ⟨[], [], by simp, by simp, .inl rfl⟩
  | cons first rest ih =>
    rw [List.pairwise_cons] at h
    rcases lt_trichotomy (f first) r with hr | hr | hr
    · obtain ⟨before, after, hb, ha, hrest⟩ := ih h.2
      refine ⟨first :: before, after, by simpa using ⟨hr, hb⟩, ha, ?_⟩
      rcases hrest with rfl | ⟨item, hi, rfl⟩
      · exact .inl rfl
      · exact .inr ⟨item, hi, rfl⟩
    · exact ⟨[], rest, by simp, fun a ha => hr ▸ h.1 a ha, .inr ⟨first, hr, rfl⟩⟩
    · refine ⟨[], first :: rest, by simp, ?_, .inl rfl⟩
      simpa using ⟨hr, fun a ha => hr.trans (h.1 a ha)⟩

/-! ## Search by rank -/

section Search

variable {α β : Type} [LinearOrder α] {rank : K → α} {f : β → K} {key : K} {before after : List β}
  {item : β}

/-- A search for a key ends in the gap between the lower and the higher items. -/
theorem Ranks.search_gap (hr : Ranks compare used rank) (hk : used key)
    (hu : ∀ a ∈ before ++ after, used (f a)) (lower : ∀ a ∈ before, rank (f a) < rank key)
    (higher : ∀ a ∈ after, rank key < rank (f a)) :
    search (fun a => compare (f a) key) (before ++ after) = .ok (.gap before.length) := by
  apply search_eq_gap
  · intro a ha
    exact (hr.lt_iff _ _ (hu a (by simp [ha])) hk).mpr (lower a ha)
  · intro a ha
    exact (hr.gt_iff _ _ (hu a (by simp [ha])) hk).mpr (higher a ha)

/-- A search for a key ends at the item of its rank between the lower and the higher ones. -/
theorem Ranks.search_found (hr : Ranks compare used rank) (hk : used key)
    (hu : ∀ a ∈ before ++ item :: after, used (f a)) (lower : ∀ a ∈ before, rank (f a) < rank key)
    (same : rank (f item) = rank key) (higher : ∀ a ∈ after, rank key < rank (f a)) :
    search (fun a => compare (f a) key) (before ++ item :: after) = .ok (.found before.length) := by
  apply search_eq_found
  · intro a ha
    exact (hr.lt_iff _ _ (hu a (by simp [ha])) hk).mpr (lower a ha)
  · exact (hr.eq_iff _ _ (hu item (by simp)) hk).mpr same
  · intro a ha
    exact (hr.gt_iff _ _ (hu a (by simp [ha])) hk).mpr (higher a ha)

end Search

end OrderedIndex
