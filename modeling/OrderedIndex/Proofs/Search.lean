import OrderedIndex.Search

/-!
# What a search finds

Whatever the answers are, a match is where the search says it is and a gap lies within the list, and
only the items that the search looks at decide how it ends. If the answers run as a block of lower
items, a block of matches and a block of higher items, the search ends in the block of matches, or at
the border between the other two if there is no match.
-/
namespace OrderedIndex

variable {α : Type} {outcome : α → Comparison} {items : List α} {lo hi i m n : Nat}
  {bound : hi ≤ items.length}

theorem searchBetween_found (h : searchBetween outcome items lo hi bound = .ok (.found i)) :
    ∃ item, items[i]? = some item ∧ outcome item = .ordered .eq := by
  fun_induction searchBetween outcome items lo hi bound with
  | case1 lo hi bound hlt hout ih => exact ih h
  | case2 lo hi bound hlt hout ih => exact ih h
  | case3 lo hi bound hlt hout =>
    simp only [Except.ok.injEq, Slot.found.injEq] at h
    subst h
    exact ⟨_, List.getElem?_eq_getElem _, hout⟩
  | case4 => simp at h
  | case5 => simp at h

theorem searchBetween_gap (hle : lo ≤ hi)
    (h : searchBetween outcome items lo hi bound = .ok (.gap i)) : i ≤ hi := by
  fun_induction searchBetween outcome items lo hi bound with
  | case1 lo hi bound hlt hout ih => exact ih (by omega) h
  | case2 lo hi bound hlt hout ih =>
    have := ih (by omega) h
    omega
  | case3 => simp at h
  | case4 => simp at h
  | case5 lo hi bound hlt =>
    simp only [Except.ok.injEq, Slot.gap.injEq] at h
    omega

/-- A search stops exactly at an item that it looks at and that has no order. -/
theorem searchBetween_error_iff {why : Obstacle} :
    searchBetween outcome items lo hi bound = .error why ↔
      ∃ item ∈ probesBetween outcome items lo hi bound, outcome item = .blocked why := by
  fun_induction searchBetween outcome items lo hi bound with
  | case1 lo hi bound hlt hout ih =>
    rw [probesBetween, dif_pos hlt, hout, ih]
    simp [hout]
  | case2 lo hi bound hlt hout ih =>
    rw [probesBetween, dif_pos hlt, hout, ih]
    simp [hout]
  | case3 lo hi bound hlt hout =>
    rw [probesBetween, dif_pos hlt, hout]
    simp [hout]
  | case4 lo hi bound hlt other hout =>
    rw [probesBetween, dif_pos hlt, hout]
    simp [hout]
  | case5 lo hi bound hlt =>
    rw [probesBetween, dif_neg hlt]
    simp

/-- A search depends on nothing but how the items stand that it looks at. -/
theorem searchBetween_congr {other : α → Comparison}
    (h : ∀ item ∈ probesBetween outcome items lo hi bound, other item = outcome item) :
    searchBetween other items lo hi bound = searchBetween outcome items lo hi bound := by
  fun_induction searchBetween outcome items lo hi bound with
  | case1 lo hi bound hlt hout ih =>
    rw [probesBetween, dif_pos hlt, hout, List.forall_mem_cons, hout] at h
    rw [searchBetween, dif_pos hlt, h.1]
    exact ih h.2
  | case2 lo hi bound hlt hout ih =>
    rw [probesBetween, dif_pos hlt, hout, List.forall_mem_cons, hout] at h
    rw [searchBetween, dif_pos hlt, h.1]
    exact ih h.2
  | case3 lo hi bound hlt hout =>
    rw [probesBetween, dif_pos hlt, hout, List.forall_mem_cons, hout] at h
    rw [searchBetween, dif_pos hlt, h.1]
  | case4 lo hi bound hlt why hout =>
    rw [probesBetween, dif_pos hlt, hout, List.forall_mem_cons, hout] at h
    rw [searchBetween, dif_pos hlt, h.1]
  | case5 lo hi bound hlt => rw [searchBetween, dif_neg hlt]

/-- A match is an item that the comparison calls equal. -/
theorem search_found (h : search outcome items = .ok (.found i)) :
    ∃ item, items[i]? = some item ∧ outcome item = .ordered .eq :=
  searchBetween_found h

/-- A gap lies between two items, or at one of the ends. -/
theorem search_gap_le (h : search outcome items = .ok (.gap i)) : i ≤ items.length :=
  searchBetween_gap (Nat.zero_le _) h

/-- A search stops exactly at an item that it looks at and that has no order. -/
theorem search_error_iff {why : Obstacle} : search outcome items = .error why ↔
    ∃ item ∈ probes outcome items, outcome item = .blocked why :=
  searchBetween_error_iff

/-- A search depends on nothing but how the items stand that it looks at. -/
theorem search_congr {other : α → Comparison}
    (h : ∀ item ∈ probes outcome items, other item = outcome item) :
    search other items = search outcome items :=
  searchBetween_congr h

theorem mem_of_mem_probesBetween {item : α}
    (h : item ∈ probesBetween outcome items lo hi bound) : item ∈ items := by
  fun_induction probesBetween outcome items lo hi bound with
  | case1 lo hi bound hlt lower higher =>
    rcases List.mem_cons.mp h with rfl | hlater
    · exact List.getElem_mem _
    · split at hlater
      · exact lower hlater
      · exact higher hlater
      · simp at hlater
  | case2 => simp at h

/-- A search looks at nothing but the items of its list. -/
theorem mem_of_mem_probes {item : α} (h : item ∈ probes outcome items) : item ∈ items :=
  mem_of_mem_probesBetween h

/-- A search of a list with items looks at one of them at least. -/
theorem probes_ne_nil (h : items ≠ []) : probes outcome items ≠ [] := by
  rw [probes, probesBetween, dif_pos (List.length_pos_iff.mpr h)]
  exact List.cons_ne_nil _ _

structure Staged (outcome : α → Comparison) (items : List α) (m n : Nat) : Prop where
  ends : n ≤ items.length
  lower : ∀ j (hj : j < items.length), j < m → outcome items[j] = .ordered .lt
  equal : ∀ j (hj : j < items.length), m ≤ j → j < n → outcome items[j] = .ordered .eq
  higher : ∀ j (hj : j < items.length), n ≤ j → outcome items[j] = .ordered .gt

theorem Staged.cases (hs : Staged outcome items m n) {j : Nat} (hj : j < items.length) :
    j < m ∧ outcome items[j] = .ordered .lt ∨
      (m ≤ j ∧ j < n) ∧ outcome items[j] = .ordered .eq ∨ n ≤ j ∧ outcome items[j] = .ordered .gt := by
  by_cases hm : j < m
  · exact .inl ⟨hm, hs.lower j hj hm⟩
  · by_cases hn : j < n
    · exact .inr (.inl ⟨⟨by omega, hn⟩, hs.equal j hj (by omega) hn⟩)
    · exact .inr (.inr ⟨by omega, hs.higher j hj (by omega)⟩)

/-- The interval of a search never loses the block of matches, so a search that ends without a match
ends at the border. -/
theorem searchBetween_staged (hs : Staged outcome items m n) (hm : lo ≤ m) (hmn : m ≤ n)
    (hn : n ≤ hi) :
    searchBetween outcome items lo hi bound = .ok (.gap m) ∧ m = n ∨
      ∃ i, searchBetween outcome items lo hi bound = .ok (.found i) ∧ m ≤ i ∧ i < n := by
  fun_induction searchBetween outcome items lo hi bound with
  | case1 lo hi bound hlt hout ih =>
    have hmid := hs.cases (j := (lo + hi) / 2) (by omega)
    simp only [hout, reduceCtorEq, and_true, and_false, or_false, Comparison.ordered.injEq] at hmid
    exact ih (by omega) hn
  | case2 lo hi bound hlt hout ih =>
    have hmid := hs.cases (j := (lo + hi) / 2) (by omega)
    simp only [hout, reduceCtorEq, and_true, and_false, false_or, Comparison.ordered.injEq] at hmid
    exact ih hm hmid
  | case3 lo hi bound hlt hout =>
    have hmid := hs.cases (j := (lo + hi) / 2) (by omega)
    simp only [hout, reduceCtorEq, and_true, and_false, or_false, false_or,
      Comparison.ordered.injEq] at hmid
    exact .inr ⟨_, rfl, hmid⟩
  | case4 lo hi bound hlt why hout =>
    have hmid := hs.cases (j := (lo + hi) / 2) (by omega)
    simp only [hout, reduceCtorEq, and_false, or_false] at hmid
  | case5 lo hi bound hlt =>
    left
    exact ⟨by congr 2; omega, by omega⟩

theorem search_staged (hs : Staged outcome items m n) (hmn : m ≤ n) :
    search outcome items = .ok (.gap m) ∧ m = n ∨
      ∃ i, search outcome items = .ok (.found i) ∧ m ≤ i ∧ i < n :=
  searchBetween_staged hs (Nat.zero_le _) hmn hs.ends

/-! ## Lists put together from parts -/

section Parts

variable {before same after : List α} {item : α}

theorem staged_append (hb : ∀ a ∈ before, outcome a = .ordered .lt)
    (hs : ∀ a ∈ same, outcome a = .ordered .eq) (ha : ∀ a ∈ after, outcome a = .ordered .gt) :
    Staged outcome (before ++ same ++ after) before.length (before ++ same).length where
  ends := by simp
  lower := by
    intro j hj hlt
    rw [List.getElem_append_left (by simp; omega), List.getElem_append_left hlt]
    exact hb _ (List.getElem_mem _)
  equal := by
    intro j hj hle hlt
    rw [List.getElem_append_left hlt, List.getElem_append_right hle]
    exact hs _ (List.getElem_mem _)
  higher := by
    intro j hj hle
    rw [List.getElem_append_right hle]
    exact ha _ (List.getElem_mem _)

/-- Between lower and higher items there is a gap. -/
theorem search_eq_gap (hb : ∀ a ∈ before, outcome a = .ordered .lt)
    (ha : ∀ a ∈ after, outcome a = .ordered .gt) :
    search outcome (before ++ after) = .ok (.gap before.length) := by
  have hs : Staged outcome (before ++ [] ++ after) _ _ := staged_append hb (by simp) ha
  rw [List.append_nil] at hs
  rcases search_staged hs (Nat.le_refl _) with ⟨h, _⟩ | ⟨i, _, hle, hlt⟩
  · exact h
  · omega

/-- Among items that are lower or have no order, the search stops or ends after the last one. -/
theorem search_eq_end
    (h : ∀ item ∈ items, outcome item = .ordered .lt ∨ outcome item = .blocked .unordered) :
    search outcome items = .ok (.gap items.length) ∨ search outcome items = .error .unordered := by
  cases hs : search outcome items with
  | error why =>
    obtain ⟨item, hp, hblocked⟩ := search_error_iff.mp hs
    rcases h item (mem_of_mem_probes hp) with hlt | hunordered
    · simp [hlt] at hblocked
    · rw [hunordered, Comparison.blocked.injEq] at hblocked
      exact .inr (hblocked ▸ rfl)
  | ok slot =>
    -- the search has seen lower items only, so it would be the same if there were no others
    have hseen : ∀ item ∈ probes outcome items, Comparison.ordered .lt = outcome item := by
      intro item hp
      rcases h item (mem_of_mem_probes hp) with hlt | hunordered
      · exact hlt.symm
      · have hstops := search_error_iff.mpr ⟨item, hp, hunordered⟩
        simp [hs] at hstops
    have hlower : search (fun _ => .ordered .lt) (items ++ []) = .ok (.gap items.length) :=
      search_eq_gap (fun _ _ => rfl) nofun
    rw [List.append_nil, search_congr hseen, hs] at hlower
    exact .inl hlower

/-- A match between lower and higher items is found. -/
theorem search_eq_found (hb : ∀ a ∈ before, outcome a = .ordered .lt)
    (hi : outcome item = .ordered .eq) (ha : ∀ a ∈ after, outcome a = .ordered .gt) :
    search outcome (before ++ item :: after) = .ok (.found before.length) := by
  have hs : Staged outcome (before ++ [item] ++ after) _ _ :=
    staged_append hb (by simpa using hi) ha
  rw [List.append_assoc, List.singleton_append, List.length_append, List.length_singleton] at hs
  rcases search_staged hs (Nat.le_succ _) with ⟨_, h⟩ | ⟨i, h, hle, hlt⟩
  · omega
  · have he : i = before.length := by omega
    rw [h, he]

end Parts

end OrderedIndex
