import OrderedIndex.Proofs.History
import OrderedIndex.Proofs.Pairs
import OrderedIndex.SortedPairs

/-!
# Sorted lists under an order

What searching and setting do to a sorted list of pairs, if its comparator orders the keys used. A pair
that is set again replaces the old one, key included.
-/
namespace OrderedIndex
namespace SortedPairs

variable {K V α : Type} [LinearOrder α] {used : K → Prop} {rank : K → α} {map : SortedPairs K V}
  {key : K} {value : V}

structure Uses (used : K → Prop) (rank : K → α) (map : SortedPairs K V) : Prop where
  ranks : Ranks map.compare used rank
  used : ∀ entry ∈ map.entries, used entry.1

section Search

variable {e₁ e₂ : List (K × V)} {e : K × V}

theorem Uses.locate_gap (h : Uses used rank map) (hu : used key) (he : map.entries = e₁ ++ e₂)
    (lower : ∀ e ∈ e₁, rank e.1 < rank key) (higher : ∀ e ∈ e₂, rank key < rank e.1) :
    map.locate key = .ok (.gap e₁.length) := by
  have hused := h.used
  rw [he] at hused
  rw [locate, he, h.ranks.search_gap hu hused lower higher]

theorem Uses.locate_found (h : Uses used rank map) (hu : used key)
    (he : map.entries = e₁ ++ e :: e₂) (lower : ∀ e ∈ e₁, rank e.1 < rank key)
    (same : rank e.1 = rank key) (higher : ∀ e ∈ e₂, rank key < rank e.1) :
    map.locate key = .ok (.found e₁.length) := by
  have hused := h.used
  rw [he] at hused
  rw [locate, he, h.ranks.search_found hu hused lower same higher]

end Search

theorem Uses.get (h : Uses used rank map) (hu : used key) {found : Option V}
    (hf : Finds rank (rank key) map.entries found) (otherwise : V) :
    map.get key otherwise = .ok (found.getD otherwise) := by
  generalize he : map.entries = entries at hf
  cases hf with
  | absent lower higher => simp [SortedPairs.get, h.locate_gap hu he lower higher]
  | present lower same higher => simp [SortedPairs.get, h.locate_found hu he lower same higher, he]

theorem Uses.contains (h : Uses used rank map) (hu : used key) {found : Option V}
    (hf : Finds rank (rank key) map.entries found) : map.contains key = .ok found.isSome := by
  generalize he : map.entries = entries at hf
  cases hf with
  | absent lower higher => simp [SortedPairs.contains, h.locate_gap hu he lower higher]
  | present lower same higher =>
    simp [SortedPairs.contains, h.locate_found hu he lower same higher]

/-- Setting a pair in a list adds a key exactly if it does so in a list alike, and leaves the two
alike. No other pair with an equal key is left. -/
theorem Uses.set (h : Uses used rank map) (hu : used key) {pairs next : List (K × V)} {added : Bool}
    (hs : Upserts rank key value pairs next added) (ha : Alike rank pairs map.entries) :
    ∃ entries, map.set key value = .ok ({ map with entries }, added) ∧ Alike rank next entries ∧
      ∀ e ∈ entries, e = (key, value) ∨ e ∈ map.entries ∧ rank e.1 ≠ rank key := by
  have hmem : ∀ {e₁ e₂ : List (K × V)}, (∀ e ∈ e₁, rank e.1 < rank key) →
      (∀ e ∈ e₂, rank key < rank e.1) → ∀ e ∈ e₁ ++ (key, value) :: e₂,
      e = (key, value) ∨ (e ∈ e₁ ∨ e ∈ e₂) ∧ rank e.1 ≠ rank key := by
    intro e₁ e₂ hlower hhigher e hm
    rw [List.mem_append, List.mem_cons] at hm
    rcases hm with hm | hm | hm
    · exact .inr ⟨.inl hm, (hlower e hm).ne⟩
    · exact .inl hm
    · exact .inr ⟨.inr hm, (hhigher e hm).ne'⟩
  -- what the list is made of comes from the list alike, whose cases are known
  generalize he : map.entries = old at ha
  cases hs with
  | replaced lower same higher =>
    obtain ⟨e₁, k', e₂, rfl, hk, h₁, h₂⟩ := ha.around
    have hlower := h₁.forall_rank (P := (· < rank key)) lower
    have hhigher := h₂.forall_rank (P := (rank key < ·)) higher
    refine ⟨e₁ ++ (key, value) :: e₂, ?_, h₁.append (.cons ⟨same, rfl⟩ h₂), ?_⟩
    · simp [SortedPairs.set, h.locate_found hu he hlower (hk ▸ same) hhigher, he]
    · intro e hm
      rcases hmem hlower hhigher e hm with h | ⟨h | h, hne⟩
      · exact .inl h
      · exact .inr ⟨by simp [h], hne⟩
      · exact .inr ⟨by simp [h], hne⟩
  | added lower higher =>
    obtain ⟨e₁, e₂, rfl, h₁, h₂⟩ := ha.parts
    have hlower := h₁.forall_rank (P := (· < rank key)) lower
    have hhigher := h₂.forall_rank (P := (rank key < ·)) higher
    refine ⟨e₁ ++ (key, value) :: e₂, ?_, h₁.append (.cons ⟨rfl, rfl⟩ h₂), ?_⟩
    · simp [SortedPairs.set, h.locate_gap hu he hlower hhigher, he]
    · intro e hm
      rcases hmem hlower hhigher e hm with h | ⟨h, hne⟩
      · exact .inl h
      · exact .inr ⟨List.mem_append.mpr h, hne⟩

section Next

variable {entries history : List (K × V)}

theorem Uses.next (h : Uses used rank map) (hu : used key)
    (old : ∀ e ∈ entries, e = (key, value) ∨ e ∈ map.entries ∧ rank e.1 ≠ rank key) :
    Uses used rank { map with entries } := by
  refine ⟨h.ranks, fun e hm => ?_⟩
  rcases old e hm with rfl | ⟨hm, _⟩
  · exact hu
  · exact h.used e hm

/-- Entries that are the last of their classes stay so, unless the new key is equal. -/
theorem Uses.last (h : Uses used rank map) (hu : used key)
    (old : ∀ e ∈ entries, e = (key, value) ∨ e ∈ map.entries ∧ rank e.1 ≠ rank key)
    {compare : Comparator K} (hr : Ranks compare used rank)
    (last : ∀ e ∈ map.entries, LastOf compare history e) :
    ∀ e ∈ entries, LastOf compare (history ++ [(key, value)]) e := by
  intro e hm
  rcases old e hm with rfl | ⟨hm, hrank⟩
  · exact lastOf_new
  · apply (last e hm).append
    intro hsame
    exact hrank ((hr.eq_iff _ _ hu (h.used e hm)).mp hsame).symm

end Next

end SortedPairs
end OrderedIndex
