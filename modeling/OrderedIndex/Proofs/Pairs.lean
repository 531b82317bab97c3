import Mathlib.Data.List.Forall2
import Mathlib.Order.Lattice

/-!
# Pairs in order

Lists of pairs by the ranks of their keys: what a search finds, what setting a pair does where an equal
key stays, and when two lists are alike.
-/
namespace OrderedIndex

variable {K V α : Type} {rank : K → α} {p₁ p₂ : List (K × V)} {pairs entries : List (K × V)}

/-! ## Likeness -/

def Alike (rank : K → α) (pairs entries : List (K × V)) : Prop :=
  List.Forall₂ (fun p e => rank p.1 = rank e.1 ∧ p.2 = e.2) pairs entries

theorem Alike.append {e₁ e₂ : List (K × V)} (h₁ : Alike rank p₁ e₁) (h₂ : Alike rank p₂ e₂) :
    Alike rank (p₁ ++ p₂) (e₁ ++ e₂) :=
  List.rel_append h₁ h₂

theorem Alike.parts (h : Alike rank (p₁ ++ p₂) entries) :
    ∃ e₁ e₂, entries = e₁ ++ e₂ ∧ Alike rank p₁ e₁ ∧ Alike rank p₂ e₂ := by
  induction p₁ generalizing entries with
  | nil => exact ⟨[], entries, rfl, .nil, h⟩
  | cons p p₁ ih =>
    cases h with
    | @cons _ e _ entries hp hrest =>
      obtain ⟨e₁, e₂, rfl, h₁, h₂⟩ := ih hrest
      exact ⟨e :: e₁, e₂, rfl, .cons hp h₁, h₂⟩

/-- Around a pair there is a pair with an equal key and the same value, and the rest is alike. -/
theorem Alike.around {k : K} {value : V} (h : Alike rank (p₁ ++ (k, value) :: p₂) entries) :
    ∃ e₁ k' e₂, entries = e₁ ++ (k', value) :: e₂ ∧ rank k = rank k' ∧ Alike rank p₁ e₁ ∧
      Alike rank p₂ e₂ := by
  obtain ⟨e₁, rest, rfl, h₁, hrest⟩ := h.parts
  cases hrest with
  | @cons _ e _ e₂ hp h₂ =>
    obtain ⟨k', value'⟩ := e
    simp only at hp
    obtain ⟨hk, rfl⟩ := hp
    exact ⟨e₁, k', e₂, rfl, hk, h₁, h₂⟩

/-- What holds of all ranks in a list holds of those in a list alike. -/
theorem Alike.forall_rank {P : α → Prop} (h : Alike rank pairs entries)
    (hP : ∀ p ∈ pairs, P (rank p.1)) : ∀ e ∈ entries, P (rank e.1) := by
  induction h with
  | nil => simp
  | cons hp _ ih =>
    simp only [List.forall_mem_cons] at hP ⊢
    exact ⟨hp.1 ▸ hP.1, ih hP.2⟩

/-! ## Searching and setting -/

variable [LinearOrder α]

inductive Finds (rank : K → α) (r : α) : List (K × V) → Option V → Prop
  | absent {p₁ p₂ : List (K × V)} (lower : ∀ p ∈ p₁, rank p.1 < r) (higher : ∀ p ∈ p₂, r < rank p.1) :
      Finds rank r (p₁ ++ p₂) none
  | present {p₁ p₂ : List (K × V)} {k : K} {value : V} (lower : ∀ p ∈ p₁, rank p.1 < r)
      (same : rank k = r) (higher : ∀ p ∈ p₂, r < rank p.1) :
      Finds rank r (p₁ ++ (k, value) :: p₂) (some value)

/-- Lower pairs before and higher ones after do not matter. -/
theorem Finds.between {r : α} {pairs before after : List (K × V)} {found : Option V}
    (h : Finds rank r pairs found) (hb : ∀ p ∈ before, rank p.1 < r)
    (ha : ∀ p ∈ after, r < rank p.1) : Finds rank r (before ++ pairs ++ after) found := by
  have hlower : ∀ p₁ : List (K × V), (∀ p ∈ p₁, rank p.1 < r) →
      ∀ p ∈ before ++ p₁, rank p.1 < r := by
    intro p₁ hp₁ p hp
    rcases List.mem_append.mp hp with hp | hp
    · exact hb p hp
    · exact hp₁ p hp
  have hhigher : ∀ p₂ : List (K × V), (∀ p ∈ p₂, r < rank p.1) →
      ∀ p ∈ p₂ ++ after, r < rank p.1 := by
    intro p₂ hp₂ p hp
    rcases List.mem_append.mp hp with hp | hp
    · exact hp₂ p hp
    · exact ha p hp
  cases h with
  | absent lower higher => simpa using Finds.absent (hlower _ lower) (hhigher _ higher)
  | present lower same higher =>
    simpa using Finds.present (hlower _ lower) same (hhigher _ higher)

/-- What is found is the value of any pair with the rank, so there is only one. -/
theorem Finds.eq_some {r : α} {found : Option V} (h : Finds rank r pairs found) {pair : K × V}
    (hm : pair ∈ pairs) (same : rank pair.1 = r) : found = some pair.2 := by
  cases h with
  | absent lower higher =>
    rcases List.mem_append.mp hm with hm | hm
    · exact absurd same (lower pair hm).ne
    · exact absurd same (higher pair hm).ne'
  | present lower _ higher =>
    rw [List.mem_append, List.mem_cons] at hm
    rcases hm with hm | rfl | hm
    · exact absurd same (lower pair hm).ne
    · rfl
    · exact absurd same (higher pair hm).ne'

theorem Finds.isSome_iff {r : α} {found : Option V} (h : Finds rank r pairs found) :
    found.isSome = true ↔ ∃ pair ∈ pairs, rank pair.1 = r := by
  constructor
  · intro hsome
    cases h with
    | absent => simp at hsome
    | @present p₁ p₂ k value _ same _ => exact ⟨(k, value), by simp, same⟩
  · rintro ⟨pair, hm, same⟩
    rw [h.eq_some hm same, Option.isSome_some]

/-- What is found is determined by the pairs. -/
theorem Finds.unique {r : α} {found found' : Option V} (h : Finds rank r pairs found)
    (h' : Finds rank r pairs found') : found = found' := by
  cases found with
  | none =>
    have hnone : ¬ found'.isSome = true := fun hsome =>
      Bool.false_ne_true (h.isSome_iff.mpr (h'.isSome_iff.mp hsome))
    exact (Option.not_isSome_iff_eq_none.mp hnone).symm
  | some value =>
    obtain ⟨pair, hm, hrank⟩ := h.isSome_iff.mp rfl
    rw [h.eq_some hm hrank, h'.eq_some hm hrank]

/-- A pair is set in a list of pairs in order, and an equal key that is there already stays. The answer
says whether a key was added. -/
inductive Upserts (rank : K → α) (key : K) (value : V) :
    List (K × V) → List (K × V) → Bool → Prop
  | replaced {p₁ p₂ : List (K × V)} {k : K} {old : V} (lower : ∀ p ∈ p₁, rank p.1 < rank key)
      (same : rank k = rank key) (higher : ∀ p ∈ p₂, rank key < rank p.1) :
      Upserts rank key value (p₁ ++ (k, old) :: p₂) (p₁ ++ (k, value) :: p₂) false
  | added {p₁ p₂ : List (K × V)} (lower : ∀ p ∈ p₁, rank p.1 < rank key)
      (higher : ∀ p ∈ p₂, rank key < rank p.1) :
      Upserts rank key value (p₁ ++ p₂) (p₁ ++ (key, value) :: p₂) true

section Upserts

variable {key : K} {value : V} {next : List (K × V)} {added : Bool}

/-- A key was there before, or it is the one set and no equal key was there. -/
theorem Upserts.old_or_new (h : Upserts rank key value pairs next added) :
    ∀ pair ∈ next, (∃ old, (pair.1, old) ∈ pairs) ∨
      pair = (key, value) ∧ ∀ p ∈ pairs, rank p.1 ≠ rank key := by
  intro pair hm
  cases h with
  | @replaced p₁ p₂ k old lower same higher =>
    left
    rw [List.mem_append, List.mem_cons] at hm
    rcases hm with hm | rfl | hm
    · exact ⟨pair.2, by simp [hm]⟩
    · exact ⟨old, by simp⟩
    · exact ⟨pair.2, by simp [hm]⟩
  | @added p₁ p₂ lower higher =>
    rw [List.mem_append, List.mem_cons] at hm
    rcases hm with hm | rfl | hm
    · exact .inl ⟨pair.2, by simp [hm]⟩
    · right
      refine ⟨rfl, ?_⟩
      intro p hp
      rcases List.mem_append.mp hp with hp | hp
      · exact (lower p hp).ne
      · exact (higher p hp).ne'
    · exact .inl ⟨pair.2, by simp [hm]⟩

/-- No key is lost, and one equal to that of the pair is there. -/
theorem Upserts.covers (h : Upserts rank key value pairs next added) :
    (∀ p ∈ pairs, ∃ q ∈ next, q.1 = p.1) ∧ ∃ q ∈ next, rank q.1 = rank key := by
  cases h with
  | @replaced p₁ p₂ k old lower same higher =>
    refine ⟨?_, (k, value), by simp, same⟩
    intro p hp
    rw [List.mem_append, List.mem_cons] at hp
    rcases hp with hp | rfl | hp
    · exact ⟨p, by simp [hp], rfl⟩
    · exact ⟨(k, value), by simp, rfl⟩
    · exact ⟨p, by simp [hp], rfl⟩
  | @added p₁ p₂ lower higher =>
    refine ⟨?_, (key, value), by simp, rfl⟩
    intro p hp
    rcases List.mem_append.mp hp with hp | hp
    · exact ⟨p, by simp [hp], rfl⟩
    · exact ⟨p, by simp [hp], rfl⟩

/-- Pairs that cover a history cover it with the pair added to both. -/
theorem Upserts.covered (h : Upserts rank key value pairs next added) {history : List (K × V)}
    (covered : ∀ entry ∈ history, ∃ p ∈ pairs, rank p.1 = rank entry.1) :
    ∀ entry ∈ history ++ [(key, value)], ∃ p ∈ next, rank p.1 = rank entry.1 := by
  obtain ⟨hkept, hthere⟩ := h.covers
  rw [List.forall_mem_append, List.forall_mem_singleton]
  refine ⟨fun entry hm => ?_, hthere⟩
  obtain ⟨p, hp, hrank⟩ := covered entry hm
  obtain ⟨q, hq, hkey⟩ := hkept p hp
  exact ⟨q, hq, hkey ▸ hrank⟩

end Upserts

/-- A search finds the same in lists that are alike. -/
theorem Alike.finds {r : α} {found : Option V} (h : Alike rank pairs entries)
    (hf : Finds rank r pairs found) : Finds rank r entries found := by
  cases hf with
  | absent lower higher =>
    obtain ⟨e₁, e₂, rfl, h₁, h₂⟩ := h.parts
    exact .absent (h₁.forall_rank (P := (· < r)) lower) (h₂.forall_rank (P := (r < ·)) higher)
  | present lower same higher =>
    obtain ⟨e₁, k', e₂, rfl, hk, h₁, h₂⟩ := h.around
    exact .present (h₁.forall_rank (P := (· < r)) lower) (hk ▸ same)
      (h₂.forall_rank (P := (r < ·)) higher)

end OrderedIndex
