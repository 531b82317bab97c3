import OrderedIndex.Proofs.Node.Failure
import OrderedIndex.Proofs.Tree.Integrity
import OrderedIndex.Value.Rule

/-!
# Insertions that fail

An insertion into a tree that operations lead to makes the same comparisons as a search for its key, all
of them before anything is written. So it fails exactly as the search does, and a failure leaves nothing
behind. A batch is a series of single insertions that ends with the first one that fails.
-/
namespace OrderedIndex
namespace Tree

variable {K V : Type} [Key K]

def compared (tree : Tree K V) (key : K) : List K := tree.root.compared tree.compare key

variable [Inhabited K] [Inhabited V] {tree next last : Tree K V} {entries : List (K × V)} {count : Nat}

/-! ## Batches -/

inductive Inserts : Tree K V → List (K × V) → Nat → Tree K V → Prop
  | done (tree : Tree K V) : Inserts tree [] 0 tree
  | step {tree next last : Tree K V} {key : K} {value : V} {added : Bool} {rest : List (K × V)}
      {count : Nat} (inserted : tree.insert key value = (next, .ok added))
      (more : Inserts next rest count last) :
      Inserts tree ((key, value) :: rest) (count + added.toNat) last

inductive Batch (tree : Tree K V) (entries : List (K × V)) : Tree K V → Except (Error K) Nat → Prop
  | completed {last : Tree K V} {count : Nat} (all : Inserts tree entries count last) :
      Batch tree entries last (.ok count)
  | stopped {last : Tree K V} {before after : List (K × V)} {key : K} {value : V} {count : Nat}
      {e : Error K} (split : entries = before ++ (key, value) :: after)
      (inserted : Inserts tree before count last)
      (fails : last.insert key value = (last, .error e)) : Batch tree entries last (.error e)

theorem Batch.step {key : K} {value : V} {added : Bool} {outcome : Except (Error K) Nat}
    (inserted : tree.insert key value = (next, .ok added)) (h : Batch next entries last outcome) :
    Batch tree ((key, value) :: entries) last (outcome.map (· + added.toNat)) := by
  cases h with
  | completed all => exact .completed (.step inserted all)
  | stopped split more fails =>
    rw [split, ← List.cons_append]
    exact .stopped rfl (.step inserted more) fails

/-! ## What a failure leaves -/

/-- An insertion fails exactly as a search for the key does, and changes nothing then. -/
theorem Grown.insert_error_iff (h : Grown tree) {key : K} {value : V} {e : Error K} :
    tree.insert key value = (next, .error e) ↔ next = tree ∧ tree.contains key = .error e := by
  obtain ⟨height, hs⟩ := h.shaped
  rcases insert_cases hs key value with ⟨e', he, hf, _⟩ | ⟨result, ht, hi⟩
  · rw [he, Prod.mk.injEq, eq_comm, contains, Node.contains, hf]
    rfl
  · rw [hi, contains, ht.contains_eq]
    simp

omit [Inhabited K] in
theorem Grown.contains_error_iff (h : Grown tree) {key : K} {e : Error K} :
    tree.contains key = .error e ↔ Node.Stops tree.compare key (tree.compared key) e := by
  obtain ⟨height, hs⟩ := h.shaped
  rw [compared, ← Node.find?_error_iff hs, contains, Node.contains]
  cases tree.root.find? tree.compare key <;> simp [Except.map]

theorem Grown.batch (h : Grown tree) (entries : List (K × V)) :
    Batch tree entries (tree.insertAll entries).1 (tree.insertAll entries).2 := by
  induction entries generalizing tree with
  | nil => exact .completed (.done tree)
  | cons entry rest ih =>
    obtain ⟨key, value⟩ := entry
    rw [insertAll_cons]
    cases ho : (tree.insert key value).2 with
    | error e =>
      have hfails : tree.insert key value = ((tree.insert key value).1, .error e) := Prod.ext rfl ho
      have hsame := (h.insert_error_iff.mp hfails).1
      rw [hsame] at hfails ⊢
      exact .stopped (List.nil_append _).symm (.done tree) hfails
    | ok added => exact (ih (h.insert key value)).step (Prod.ext rfl ho)

/-! ## What a success adds -/

theorem Grown.length_insert (h : Grown tree) {key : K} {value : V} {added : Bool}
    (inserted : tree.insert key value = (next, .ok added)) :
    next.toList.length = tree.toList.length + added.toNat := by
  obtain ⟨height, hs⟩ := h.shaped
  rcases insert_cases hs key value with ⟨e, he, _⟩ | ⟨result, ht, hi⟩
  · simp [he] at inserted
  · simp only [hi, Prod.mk.injEq, Except.ok.injEq] at inserted
    obtain ⟨rfl, rfl⟩ := inserted
    simp only [toList, Insertion.pairs_root, ht.length_pairs]

theorem Inserts.grown (hi : Inserts tree entries count last) (h : Grown tree) :
    Grown last ∧ last.toList.length = tree.toList.length + count := by
  induction hi with
  | done tree => exact ⟨h, rfl⟩
  | @step tree next last key value added rest count inserted more ih =>
    have hn := h.insert key value
    rw [inserted] at hn
    obtain ⟨hg, hl⟩ := ih hn
    have hadded := h.length_insert inserted
    exact ⟨hg, by omega⟩

/-! ## Atomic insertions -/

structure Atomic (tree : Tree K V) : Prop where
  insert_fails : ∀ key value next e, tree.insert key value = (next, .error e) ↔
    next = tree ∧ tree.contains key = .error e
  contains_fails : tree.compare.Answers → ∀ key e, tree.contains key = .error e ↔
    (Key.isNaN key = true ∧
      ∃ k ∈ tree.compared key, tree.compare k key = .blocked .unordered) ∧ e = .unorderedKey key
  batch : ∀ entries, Batch tree entries (tree.insertAll entries).1 (tree.insertAll entries).2
  grows : ∀ entries last count, tree.insertAll entries = (last, .ok count) →
    Counts tree tree.toList.length ∧ Counts last (tree.toList.length + count)

/-- Insertions happen as a whole or not at all. One fails exactly as a search for its key does, which is
where NaN meets a comparison that gives no order, if the comparator refuses nothing. A batch ends with
the first insertion that fails, and otherwise with one pair more for each key that it adds. -/
theorem Reached.atomic (h : Reached tree) : Atomic tree where
  insert_fails _ _ _ _ := h.grown.insert_error_iff
  contains_fails answers _ _ := by rw [h.grown.contains_error_iff, Node.stops_iff answers]
  batch := h.grown.batch
  grows entries last count hdone := by
    have hbatch := h.grown.batch entries
    rw [hdone] at hbatch
    cases hbatch with
    | completed all =>
      obtain ⟨hg, hl⟩ := all.grown h.grown
      exact ⟨h.grown.counted, hl ▸ hg.counted⟩

/-- A tree does not take NaN if its search comes to a key that NaN has no order with. -/
theorem Atomic.insert_nan (h : Atomic tree) (answers : tree.compare.Answers) {key : K}
    (nan : Key.isNaN key = true)
    (met : ∃ k ∈ tree.compared key, tree.compare k key = .blocked .unordered) (value : V) :
    tree.insert key value = (tree, .error (.unorderedKey key)) := by
  have hcontains : tree.contains key = .error (.unorderedKey key) :=
    (h.contains_fails answers key _).mpr ⟨⟨nan, met⟩, rfl⟩
  exact (h.insert_fails key value tree _).mpr ⟨rfl, hcontains⟩

/-- Where numbers are compared by their differences, a tree with two leaves does not take NaN. A batch
with NaN in it adds what comes before and leaves out what comes after. -/
theorem atomic_nan :
    let tree : Tree Value Nat :=
      (empty 3 (by decide) (.ofMeasure Rule.ascending.measure)).run
        [.insertAll [(.number 1, 10), (.number 2, 20), (.number 3, 30)]]
    let entries : List (Value × Nat) := [(.number 5, 50), (.number .nan, 60), (.number 7, 70)]
    Reached tree ∧ tree.height = .ok 1 ∧
      tree.insert (.number .nan) 60 = (tree, .error (.unorderedKey (.number .nan))) ∧
      (tree.insert (.number 5) 50).2 = .ok true ∧
      tree.insertAll entries =
        ((tree.insert (.number 5) 50).1, .error (.unorderedKey (.number .nan))) ∧
      Batch tree entries (tree.insert (.number 5) 50).1 (.error (.unorderedKey (.number .nan))) := by
  intro tree entries
  have hreached : Reached tree := reached_empty.run _
  have hcompare : tree.compare = .ofMeasure Rule.ascending.measure := run_compare _ _
  obtain ⟨hheight, hadds⟩ : tree.height = .ok 1 ∧ (tree.insert (.number 5) 50).2 = .ok true := by
    unfold tree
    decide +kernel
  have hanswers : tree.compare.Answers := hcompare ▸ Comparator.answers_ofMeasure _
  -- in both trees NaN is compared with a separator of the root first
  have hnan : tree.insert (.number .nan) 60 = (tree, .error (.unorderedKey (.number .nan))) := by
    apply hreached.atomic.insert_nan hanswers rfl
    unfold tree
    decide +kernel
  have hnext : (tree.insert (.number 5) 50).1.insert (.number .nan) 60 =
      ((tree.insert (.number 5) 50).1, .error (.unorderedKey (.number .nan))) := by
    have hgrown : Reached (tree.insert (.number 5) 50).1 := hreached.performed (.insert (.number 5) 50)
    apply hgrown.atomic.insert_nan (insert_compare tree _ _ ▸ hanswers) rfl
    unfold tree
    decide +kernel
  have hall : tree.insertAll entries =
      ((tree.insert (.number 5) 50).1, .error (.unorderedKey (.number .nan))) := by
    rw [insertAll_cons, hadds, insertAll_cons, hnext]
    rfl
  have hbatch := hreached.atomic.batch entries
  rw [hall] at hbatch
  exact ⟨hreached, hheight, hnan, hadds, hall, hbatch⟩

end Tree
end OrderedIndex
