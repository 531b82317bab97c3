import OrderedIndex.Node.Insert
import OrderedIndex.Proofs.Node.Locate
import OrderedIndex.Proofs.Node.Shape

/-!
# Why a search fails

A search for a key goes down one path, and in each node of the path it compares a few keys with the one
that is sought. Nothing else decides how it ends, or how an insertion of the key does. In a subtree
without missing children it fails exactly at a comparison that gives no order: one that is refused, or
any other if the key that is sought is NaN. Every other key goes on after such a comparison, at the end
of the node.
-/
namespace OrderedIndex
namespace Node

variable {K V : Type} [Key K]

/-! ## The path of a search -/

mutual

def path (compare : Comparator K) (key : K) : Node K V → List (Node K V)
  | leaf keys values => [leaf keys values]
  | branch keys children =>
    branch keys children ::
      match childIndex compare keys key with
      | .error _ => []
      | .ok i => pathAt compare key i children

def pathAt (compare : Comparator K) (key : K) : Nat → List (Node K V) → List (Node K V)
  | _, [] => []
  | 0, child :: _ => child.path compare key
  | i + 1, _ :: rest => pathAt compare key i rest

end

/-- The keys that a search compares with the one that is sought. -/
def compared (compare : Comparator K) (key : K) (node : Node K V) : List K :=
  (node.path compare key).flatMap fun part => probes (compare · key) part.keys

variable {compare : Comparator K} {key : K}

theorem pathAt_eq {i : Nat} {children : List (Node K V)} {child : Node K V}
    (h : children[i]? = some child) : pathAt compare key i children = child.path compare key := by
  induction children generalizing i with
  | nil => simp at h
  | cons first rest ih =>
    cases i with
    | zero =>
      simp only [List.getElem?_cons_zero, Option.some.injEq] at h
      rw [pathAt, h]
    | succ i => exact ih h

@[simp] theorem compared_leaf (keys : List K) (values : List V) :
    (leaf keys values).compared compare key = probes (compare · key) keys := by
  simp [compared, path]

theorem compared_branch_error {keys : List K} {children : List (Node K V)} {e : Error K}
    (h : childIndex compare keys key = .error e) :
    (branch keys children).compared compare key = probes (compare · key) keys := by
  simp [compared, path, h]

theorem compared_branch {keys : List K} {children : List (Node K V)} {i : Nat} {child : Node K V}
    (h : childIndex compare keys key = .ok i) (hc : children[i]? = some child) :
    (branch keys children).compared compare key =
      probes (compare · key) keys ++ child.compared compare key := by
  simp [compared, path, h, pathAt_eq hc]

theorem mem_compared_of_mem_probes {node : Node K V} {k : K}
    (h : k ∈ probes (compare · key) node.keys) : k ∈ node.compared compare key := by
  cases node with
  | leaf keys values => rwa [compared_leaf]
  | branch keys children =>
    rw [compared, path, List.flatMap_cons]
    exact List.mem_append_left _ h

theorem compared_ne_nil {node : Node K V} (h : node.keys ≠ []) : node.compared compare key ≠ [] := by
  obtain ⟨k, hk⟩ := List.exists_mem_of_ne_nil _ (probes_ne_nil h)
  exact List.ne_nil_of_mem (mem_compared_of_mem_probes hk)

/-! ## Nothing else is compared -/

section Congruence

variable {other : Comparator K} {keys : List K}

theorem locate_congr (h : ∀ k ∈ probes (compare · key) keys, other k key = compare k key) :
    locate other keys key = locate compare keys key := by
  rw [locate, locate, search_congr h]

theorem childIndex_congr (h : ∀ k ∈ probes (compare · key) keys, other k key = compare k key) :
    childIndex other keys key = childIndex compare keys key := by
  rw [childIndex, childIndex, locate_congr h]

/-- A search depends on no other comparisons. -/
theorem find?_congr [Inhabited V] {node : Node K V}
    (h : ∀ k ∈ node.compared compare key, other k key = compare k key) :
    node.find? other key = node.find? compare key := by
  induction node using childInduction with
  | leaf keys values =>
    have hlocate : locate other keys key = locate compare keys key :=
      locate_congr fun k hk => h k (mem_compared_of_mem_probes hk)
    rw [find?, find?, hlocate]
  | branch keys children ih =>
    have hindex : childIndex other keys key = childIndex compare keys key :=
      childIndex_congr fun k hk => h k (mem_compared_of_mem_probes hk)
    rw [find?, find?, hindex]
    cases hi : childIndex compare keys key with
    | error e => rfl
    | ok i =>
      simp only [findAt?_eq]
      cases hc : children[i]? with
      | none => rfl
      | some child =>
        rw [compared_branch hi hc] at h
        exact ih child (List.mem_of_getElem? hc) fun k hk => h k (List.mem_append_right _ hk)

/-- An insertion makes no other comparisons than the search for its key. -/
theorem insert_congr [Inhabited K] [Inhabited V] {node : Node K V}
    (h : ∀ k ∈ node.compared compare key, other k key = compare k key) (order : Number) (value : V) :
    node.insert order other key value = node.insert order compare key value := by
  induction node using childInduction with
  | leaf keys values =>
    have hlocate : locate other keys key = locate compare keys key :=
      locate_congr fun k hk => h k (mem_compared_of_mem_probes hk)
    rw [insert, insert, hlocate]
  | branch keys children ih =>
    have hindex : childIndex other keys key = childIndex compare keys key :=
      childIndex_congr fun k hk => h k (mem_compared_of_mem_probes hk)
    rw [insert, insert, hindex]
    cases hi : childIndex compare keys key with
    | error e => rfl
    | ok i =>
      simp only [insertAt?_eq]
      cases hc : children[i]? with
      | none => rfl
      | some child =>
        rw [compared_branch hi hc] at h
        have hchild := ih child (List.mem_of_getElem? hc) fun k hk => h k (List.mem_append_right _ hk)
        rw [Option.map_some, Option.map_some, hchild]

end Congruence

/-! ## Failed comparisons -/

/-- The error that an obstacle gives in the search for a key, if it ends the search. -/
def raises (key : K) : Obstacle → Option (Error K)
  | .unordered => if Key.isNaN key then some (.unorderedKey key) else none
  | .refused => some .refused

/-- One of the comparisons with the given keys ends the search for a key with an error. -/
def Stops (compare : Comparator K) (key : K) (keys : List K) (e : Error K) : Prop :=
  ∃ k ∈ keys, ∃ why, compare k key = .blocked why ∧ raises key why = some e

theorem stops_append {keys more : List K} {e : Error K} :
    Stops compare key (keys ++ more) e ↔ Stops compare key keys e ∨ Stops compare key more e := by
  simp only [Stops, List.mem_append, or_and_right, exists_or]

/-- Where no comparison is refused, only NaN is stopped, at a comparison without an order. -/
theorem stops_iff (answers : compare.Answers) {keys : List K} {e : Error K} :
    Stops compare key keys e ↔ (Key.isNaN key = true ∧
      ∃ k ∈ keys, compare k key = .blocked .unordered) ∧ e = .unorderedKey key := by
  constructor
  · rintro ⟨k, hk, why, hblocked, hraises⟩
    cases why with
    | unordered =>
      obtain ⟨hnan, rfl⟩ : Key.isNaN key = true ∧ .unorderedKey key = e := by
        simpa [raises] using hraises
      exact ⟨⟨hnan, k, hk, hblocked⟩, rfl⟩
    | refused => simpa [Comparator.refuses, hblocked] using answers k key
  · rintro ⟨⟨hnan, k, hk, hblocked⟩, rfl⟩
    exact ⟨k, hk, .unordered, hblocked, by simp [raises, hnan]⟩

theorem locate_error_iff {keys : List K} {e : Error K} :
    locate compare keys key = .error e ↔ Stops compare key (probes (compare · key) keys) e := by
  have hlocate : locate compare keys key = .error e ↔
      ∃ why, search (compare · key) keys = .error why ∧ raises key why = some e := by
    rw [locate]
    cases search (compare · key) keys with
    | ok slot => simp
    | error why =>
      cases why with
      | unordered => cases hnan : Key.isNaN key <;> simp [raises, hnan]
      | refused => simp [raises]
  rw [hlocate]
  constructor
  · rintro ⟨why, hs, hr⟩
    obtain ⟨k, hk, hblocked⟩ := search_error_iff.mp hs
    exact ⟨k, hk, why, hblocked, hr⟩
  · rintro ⟨k, hk, why, hblocked, hr⟩
    exact ⟨why, search_error_iff.mpr ⟨k, hk, hblocked⟩, hr⟩

theorem childIndex_error_iff {keys : List K} {e : Error K} :
    childIndex compare keys key = .error e ↔ Stops compare key (probes (compare · key) keys) e := by
  rw [← locate_error_iff, childIndex]
  cases locate compare keys key <;> simp [Except.map]

/-- A search fails exactly where one of its comparisons stops it. -/
theorem find?_error_iff [Inhabited V] {order height : Nat} {node : Node K V}
    (hs : Shaped order height node) {e : Error K} :
    node.find? compare key = .error e ↔ Stops compare key (node.compared compare key) e := by
  induction hs with
  | @leaf keys values room aligned =>
    rw [compared_leaf, ← locate_error_iff, find?]
    cases locate compare keys key with
    | error e' => simp
    | ok slot => cases slot <;> simp
  | @branch height keys children counted room each ih =>
    cases hi : childIndex compare keys key with
    | error e' =>
      rw [compared_branch_error hi, ← childIndex_error_iff, find?, hi]
      simp only [Except.error.injEq]
    | ok i =>
      have hle := childIndex_le hi
      have hc := List.getElem?_eq_getElem (l := children) (i := i) (by omega)
      have hnot : ¬ Stops compare key (probes (compare · key) keys) e := by
        rw [← childIndex_error_iff, hi]
        simp
      rw [compared_branch hi hc, stops_append, or_iff_right hnot, ← ih _ (List.getElem_mem _), find?,
        hi]
      simp only [findAt?_eq, hc]

end Node
end OrderedIndex
