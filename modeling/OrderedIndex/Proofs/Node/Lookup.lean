import OrderedIndex.Proofs.Node.Arranged
import OrderedIndex.Proofs.Node.Effect
import OrderedIndex.Proofs.Pairs

/-!
# Searches among keys in order

A search among increasing keys tells exactly where a key belongs: at an equal key, or in the one gap
where it fits. So a search in a subtree with its keys in order never fails, and it finds the value of
the only pair with an equal key. Nothing is assumed of the sizes of nodes.
-/
namespace OrderedIndex
namespace Node

variable {K V α : Type} [LinearOrder α] {used : K → Prop} {rank : K → α} {low high : Option α}
  {keys ks₁ ks₂ : List K}

theorem pairUp_cons [Inhabited V] (k : K) (keys : List K) (values : List V) :
    pairUp (k :: keys) values = (k, values.getD 0 default) :: pairUp keys (values.drop 1) := by
  cases values <;> simp [pairUp]

/-! ## Search in a line of keys -/

variable [Key K] {compare : Comparator K} {key : K}

/-- A search ends at a key of the same rank, or between the lower and the higher ones. -/
theorem Lined.locate (h : Lined used rank low high keys) (hr : Ranks compare used rank)
    (hu : used key) :
    ∃ ks₁ ks₂, (∀ k ∈ ks₁, rank k < rank key) ∧ (∀ k ∈ ks₂, rank key < rank k) ∧
      (keys = ks₁ ++ ks₂ ∧ locate compare keys key = .ok (.gap ks₁.length) ∨
        ∃ k, rank k = rank key ∧ keys = ks₁ ++ k :: ks₂ ∧
          locate compare keys key = .ok (.found ks₁.length)) := by
  obtain ⟨ks₁, ks₂, hb, ha, hparts⟩ := parts_of_increasing h.increasing (rank key)
  refine ⟨ks₁, ks₂, hb, ha, ?_⟩
  rcases hparts with rfl | ⟨k, hk, rfl⟩
  · left
    exact ⟨rfl, locate_of_search_ok (hr.search_gap (f := id) hu h.used hb ha)⟩
  · right
    exact ⟨k, hk, rfl, locate_of_search_ok (hr.search_found (f := id) hu h.used hb hk ha)⟩

/-- A gap lies between the lower and the higher keys. -/
theorem Lined.gap (h : Lined used rank low high (ks₁ ++ ks₂)) (hr : Ranks compare used rank)
    (hu : used key) (hg : Node.locate compare (ks₁ ++ ks₂) key = .ok (.gap ks₁.length)) :
    (∀ k ∈ ks₁, rank k < rank key) ∧ ∀ k ∈ ks₂, rank key < rank k := by
  obtain ⟨ks₁', ks₂', hb, ha, ⟨hparts, hgap⟩ | ⟨k, _, _, hfound⟩⟩ := h.locate hr hu
  · simp only [hg, Except.ok.injEq, Slot.gap.injEq] at hgap
    obtain ⟨rfl, rfl⟩ := List.append_inj hparts hgap
    exact ⟨hb, ha⟩
  · simp [hg] at hfound

/-- The child that a key is sent to has the separators up to the key before it. -/
theorem Lined.route (h : Lined used rank low high keys) (hr : Ranks compare used rank)
    (hu : used key) :
    ∃ ks₁ ks₂, keys = ks₁ ++ ks₂ ∧ childIndex compare keys key = .ok ks₁.length ∧
      (∀ k ∈ ks₁, rank k ≤ rank key) ∧ ∀ k ∈ ks₂, rank key < rank k := by
  obtain ⟨ks₁, ks₂, hb, ha, ⟨rfl, hgap⟩ | ⟨k, hk, rfl, hfound⟩⟩ := h.locate hr hu
  · exact ⟨ks₁, ks₂, rfl, by simp [childIndex, hgap, Except.map], fun k hk => (hb k hk).le, ha⟩
  · refine ⟨ks₁ ++ [k], ks₂, by simp, by simp [childIndex, hfound, Except.map], ?_, ha⟩
    intro k' hk'
    rcases List.mem_append.mp hk' with hk' | hk'
    · exact (hb k' hk').le
    · rw [List.mem_singleton.mp hk', hk]

/-- A key is sent to a child after the separators up to it and before those above it. -/
theorem Lined.around_route (h : Lined used rank low high (ks₁ ++ ks₂)) (hr : Ranks compare used rank)
    (hu : used key) (hroute : childIndex compare (ks₁ ++ ks₂) key = .ok ks₁.length) :
    (∀ k ∈ ks₁, rank k ≤ rank key) ∧ ∀ k ∈ ks₂, rank key < rank k := by
  obtain ⟨ks₁', ks₂', hparts, hindex, hb, ha⟩ := h.route hr hu
  simp only [hroute, Except.ok.injEq] at hindex
  obtain ⟨rfl, rfl⟩ := List.append_inj hparts hindex
  exact ⟨hb, ha⟩

/-- A key that lies between the bounds of a branch lies between those of the child it is sent to. -/
theorem Lined.inside_route (h : Lined used rank low high (ks₁ ++ ks₂))
    (hr : Ranks compare used rank) (hu : used key) (hin : Inside low high (rank key))
    (hroute : childIndex compare (ks₁ ++ ks₂) key = .ok ks₁.length) :
    Inside (lowest rank low ks₁) (highest rank high ks₂) (rank key) :=
  h.inside_iff.mpr ⟨hin, h.around_route hr hu hroute⟩

/-! ## Search in a subtree -/

variable [Inhabited V]

theorem Lined.finds {values : List V} (h : Lined used rank low high keys)
    (hr : Ranks compare used rank) (hu : used key) :
    ∃ found, (leaf keys values).find? compare key = .ok found ∧
      Finds rank (rank key) (pairUp keys values) found := by
  have hfst : ∀ (ks : List K) (vs : List V), ∀ p ∈ pairUp ks vs, p.1 ∈ ks := by
    intro ks vs p hp
    have hmem := List.mem_map_of_mem (f := Prod.fst) hp
    rwa [map_fst_pairUp] at hmem
  obtain ⟨ks₁, ks₂, hb, ha, ⟨rfl, hgap⟩ | ⟨k, hk, rfl, hfound⟩⟩ := h.locate hr hu
  · refine ⟨none, by simp [find?, hgap], ?_⟩
    rw [pairUp_parts]
    exact .absent (fun p hp => hb p.1 (hfst _ _ p hp)) fun p hp => ha p.1 (hfst _ _ p hp)
  · refine ⟨some (values.getD ks₁.length default), by simp [find?, hfound], ?_⟩
    have hvalue : (values.drop ks₁.length).getD 0 default = values.getD ks₁.length default := by
      simp [List.getD_eq_getElem?_getD]
    rw [pairUp_parts, pairUp_cons, hvalue]
    exact .present (fun p hp => hb p.1 (hfst _ _ p hp)) hk fun p hp => ha p.1 (hfst _ _ p hp)

/-- A search finds the value of the only pair with an equal key, or nothing if there is none. -/
theorem Arranged.finds {node : Node K V} (h : node.Arranged used rank low high)
    (hr : Ranks compare used rank) (hu : used key) :
    ∃ found, node.find? compare key = .ok found ∧ Finds rank (rank key) node.pairs found := by
  induction node using childInduction generalizing low high with
  | leaf keys values =>
    rw [pairs_leaf]
    exact (arranged_leaf.mp h).finds hr hu
  | branch keys children ih =>
    obtain ⟨hk, hrow⟩ := arranged_branch.mp h
    obtain ⟨ks₁, ks₂, rfl, hroute, hb, ha⟩ := hk.route hr hu
    have hlen := hrow.length
    rw [List.length_append] at hlen
    obtain ⟨cs₁, child, cs₂, rfl, hl⟩ :=
      Position.parts_of_lt (show ks₁.length < children.length by omega)
    obtain ⟨found, hfind, hfinds⟩ := ih child (by simp) (hrow.hole hl).1
    obtain ⟨hbefore, hafter⟩ := hrow.pairs_around hk hl
    rw [← hl] at hroute
    refine ⟨found, by rw [find?_branch hroute, hfind], ?_⟩
    rw [pairs_branch, pairsOf_append, pairsOf_cons, ← List.append_assoc]
    -- no equal key can be in another child
    apply hfinds.between
    · intro p hp
      obtain ⟨k, hk₁, hlt⟩ := hbefore p hp
      exact hlt.trans_le (hb k hk₁)
    · intro p hp
      obtain ⟨k, hk₂, hle⟩ := hafter p hp
      exact (ha k hk₂).trans_le hle

end Node
end OrderedIndex
