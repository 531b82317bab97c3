import OrderedIndex.Node.Basic
import OrderedIndex.Proofs.Search

/-!
# Search in one node

Where a search among the keys of one node can end. Nothing is assumed of the comparator: a search ends
at a match, at a gap within the node or at its end, or it fails for one of two reasons.
-/
namespace OrderedIndex

theorem map_eq_error {ε α β : Type} {f : α → β} {x : Except ε α} {e : ε}
    (h : x.map f = .error e) : x = .error e := by
  cases x with
  | error e' => simpa [Except.map] using h
  | ok a => simp [Except.map] at h

theorem exists_map_ok {ε α β : Type} {x : Except ε α} (f : α → β) (h : ∀ e, x ≠ .error e) :
    ∃ b, x.map f = .ok b := by
  cases x with
  | error e => exact absurd rfl (h e)
  | ok a => exact ⟨f a, rfl⟩

namespace Node

variable {K : Type} [Key K] {compare : Comparator K} {keys : List K} {key : K} {i : Nat}

theorem locate_of_search_ok {slot : Slot} (h : search (compare · key) keys = .ok slot) :
    locate compare keys key = .ok slot := by
  simp [locate, h]

/-- A key that is found is called equal to what was sought. -/
theorem locate_found (h : locate compare keys key = .ok (.found i)) :
    ∃ k, keys[i]? = some k ∧ compare k key = .ordered .eq := by
  simp only [locate] at h
  split at h
  · next slot hs =>
    simp only [Except.ok.injEq] at h
    subst h
    exact search_found hs
  · split at h <;> simp at h
  · simp at h

theorem locate_found_lt (h : locate compare keys key = .ok (.found i)) : i < keys.length := by
  obtain ⟨k, hk, _⟩ := locate_found h
  exact (List.getElem?_eq_some_iff.mp hk).1

theorem locate_gap_le (h : locate compare keys key = .ok (.gap i)) : i ≤ keys.length := by
  simp only [locate] at h
  split at h
  · next slot hs =>
    simp only [Except.ok.injEq] at h
    subst h
    exact search_gap_le hs
  · split at h
    · simp at h
    · simp only [Except.ok.injEq, Slot.gap.injEq] at h
      omega
  · simp at h

inductive SearchError (compare : Comparator K) (key : K) : Error K → Prop
  | unordered (nan : Key.isNaN key = true) : SearchError compare key (.unorderedKey key)
  | refused {k : K} (refuses : compare.refuses k key = true) : SearchError compare key .refused

/-- Where no comparison is refused, only NaN cannot be placed. -/
theorem not_searchError (answers : compare.Answers) (hkey : Key.isNaN key = false) (e : Error K) :
    ¬ SearchError compare key e := by
  intro h
  cases h with
  | unordered nan => simp [hkey] at nan
  | @refused k refuses => simp [answers k key] at refuses

theorem locate_error {e : Error K} (h : locate compare keys key = .error e) :
    SearchError compare key e := by
  simp only [locate] at h
  split at h
  · simp at h
  · split at h
    · next hnan =>
      simp only [Except.error.injEq] at h
      exact h ▸ .unordered hnan
    · simp at h
  · next hs =>
    simp only [Except.error.injEq] at h
    obtain ⟨k, _, hk⟩ := search_error_iff.mp hs
    exact h ▸ .refused (k := k) (by simp [Comparator.refuses, hk])

/-- Whatever the answers, a key is sent to one of the children beside the separators. -/
theorem childIndex_le (h : childIndex compare keys key = .ok i) : i ≤ keys.length := by
  simp only [childIndex] at h
  cases hl : locate compare keys key with
  | error e => simp [hl, Except.map] at h
  | ok slot =>
    simp only [hl, Except.map, Except.ok.injEq] at h
    cases slot with
    | found j =>
      have := locate_found_lt hl
      simp only [Slot.childIndex_found] at h
      omega
    | gap j =>
      have := locate_gap_le hl
      simp only [Slot.childIndex_gap] at h
      omega

theorem childIndex_error {e : Error K} (h : childIndex compare keys key = .error e) :
    SearchError compare key e :=
  locate_error (map_eq_error h)

end Node
end OrderedIndex
