import OrderedIndex.Proofs.Node.Balance
import OrderedIndex.Proofs.Node.Effect
import OrderedIndex.Tree

/-!
# Runs of operations

The operations that change a tree, the trees reached by them from one just made, and what a single
insertion can do to a tree of any shape that operations leave. An operation that fails counts as
performed: the run goes on from the tree as it was left.
-/
namespace OrderedIndex
namespace Tree

variable {K V : Type}

inductive Operation (K V : Type) where
  | insert (key : K) (value : V)
  | insertAll (entries : List (K × V))
  | clear

def Operation.Uses (used : K → Prop) : Operation K V → Prop
  | insert key _ => used key
  | insertAll entries => ∀ entry ∈ entries, used entry.1
  | clear => True

theorem Operation.uses_any (operation : Operation K V) : operation.Uses fun _ => True := by
  cases operation <;> simp [Uses]

variable [Key K] [Inhabited K] [Inhabited V]

/-- The tree after an operation, whether it fails or not. -/
def perform (tree : Tree K V) : Operation K V → Tree K V
  | .insert key value => (tree.insert key value).1
  | .insertAll entries => (tree.insertAll entries).1
  | .clear => tree.clear

/-- The tree after some operations. -/
def run (tree : Tree K V) (operations : List (Operation K V)) : Tree K V :=
  operations.foldl perform tree

/-- A tree that operations lead to from one just made, with entries or without. -/
inductive Reached : Tree K V → Prop
  | made {order : Value} {compare? : Option (Comparator K)} {entries : List (K × V)}
      {tree : Tree K V} (h : ofList order compare? entries = .ok tree) : Reached tree
  | performed {tree : Tree K V} (h : Reached tree) (operation : Operation K V) :
      Reached (tree.perform operation)

theorem reached_empty {order : Nat} {three_le_order : 3 ≤ order} {compare : Comparator K} :
    Reached (empty order three_le_order compare : Tree K V) := by
  have hn : (Value.number (.ofNat order)).toNat? = some order := Number.toNat?_ofNat order
  have hmade : ofList (.number (.ofNat order)) (some compare) [] =
      .ok (empty order three_le_order compare : Tree K V) := by
    rw [ofList, hn]
    simp only [three_le_order, dite_true]
    rfl
  exact .made hmade

theorem Reached.run {tree : Tree K V} (h : Reached tree) (operations : List (Operation K V)) :
    Reached (tree.run operations) := by
  induction operations generalizing tree with
  | nil => exact h
  | cons operation rest ih => exact ih (h.performed operation)

omit [Key K] [Inhabited K] [Inhabited V] in
theorem clear_eq_empty (tree : Tree K V) :
    tree.clear = empty tree.order tree.three_le_order tree.compare := rfl

theorem insertAll_cons (tree : Tree K V) (key : K) (value : V) (rest : List (K × V)) :
    tree.insertAll ((key, value) :: rest) =
      match (tree.insert key value).2 with
      | .error e => ((tree.insert key value).1, .error e)
      | .ok added =>
        (((tree.insert key value).1.insertAll rest).1,
          ((tree.insert key value).1.insertAll rest).2.map (· + added.toNat)) := by
  rw [insertAll]
  rcases tree.insert key value with ⟨next, outcome⟩
  cases outcome <;> rfl

section Invariant

variable {P : Tree K V → Prop}

/-- What the insertion of each of its pairs keeps, a batch keeps, wherever it stops. -/
theorem insertAll_keeps {tree : Tree K V} {entries : List (K × V)} (h : P tree)
    (step : ∀ entry ∈ entries, ∀ tree, P tree → P (tree.insert entry.1 entry.2).1) :
    P (tree.insertAll entries).1 := by
  induction entries generalizing tree with
  | nil => exact h
  | cons entry rest ih =>
    have hn := step entry (by simp) tree h
    rw [insertAll_cons]
    cases (tree.insert entry.1 entry.2).2 with
    | error e => exact hn
    | ok added => exact ih hn fun later hl => step later (by simp [hl])

/-- What the insertion of a used key and the removal of all pairs keep, every run of operations that bring
used keys keeps. -/
theorem run_keeps {used : K → Prop} {tree : Tree K V} {operations : List (Operation K V)} (h : P tree)
    (hu : ∀ operation ∈ operations, operation.Uses used)
    (step : ∀ tree key value, P tree → used key → P (tree.insert key value).1)
    (clear : ∀ tree, P tree → P tree.clear) : P (tree.run operations) := by
  induction operations generalizing tree with
  | nil => exact h
  | cons operation rest ih =>
    have huses := hu operation (by simp)
    refine ih ?_ fun later hl => hu later (by simp [hl])
    cases operation with
    | insert key value => exact step tree key value h huses
    | insertAll entries =>
      exact insertAll_keeps h fun entry he tree h => step tree entry.1 entry.2 h (huses entry he)
    | clear => exact clear tree h

/-- A property of the empty tree that every insertion keeps holds of every tree that is reached. -/
theorem Reached.keeps {tree : Tree K V} (h : Reached tree)
    (start : ∀ order three_le_order compare, P (empty order three_le_order compare))
    (step : ∀ tree key value, P tree → P (tree.insert key value).1) : P tree := by
  induction h with
  | @made order compare? entries tree h =>
    simp only [ofList] at h
    split at h
    · next n hn =>
      split at h
      · next three_le_order =>
        have hall := insertAll_keeps (start n three_le_order (compare?.getD Key.natural))
          fun entry (_ : entry ∈ entries) tree => step tree entry.1 entry.2
        cases ha : ((empty n three_le_order (compare?.getD Key.natural)).insertAll entries).2 with
        | error e => simp [ha, Except.map] at h
        | ok count =>
          simp only [ha, Except.map, Except.ok.injEq] at h
          exact h ▸ hall
      · simp at h
    · simp at h
  | performed h operation ih =>
    cases operation with
    | insert key value => exact step _ key value ih
    | insertAll entries =>
      exact insertAll_keeps ih fun entry _ tree => step tree entry.1 entry.2
    | clear => exact start _ _ _

end Invariant

/-! ## One insertion -/

variable {tree : Tree K V} {height : Nat}

/-- An insertion into a shaped tree fails as the search for the key does and changes nothing, or it
follows the rules of insertion at the root. -/
theorem insert_cases (hs : Node.Shaped tree.order height tree.root) (key : K) (value : V) :
    (∃ e, tree.insert key value = (tree, .error e) ∧
        tree.root.find? tree.compare key = .error e ∧ Node.SearchError tree.compare key e) ∨
      ∃ result, Node.Takes tree.order tree.compare key value tree.root result ∧
        tree.insert key value =
          ({ tree with
              root := result.root
              size := if result.added then tree.nextSize else tree.size }, .ok result.added) := by
  rcases Node.insert_takes tree.three_le_order hs tree.compare key value with ⟨e, he, hf, hk⟩ | htakes
  · left
    exact ⟨e, by simp [insert, orderNumber, he], hf, hk⟩
  · right
    refine ⟨_, htakes, ?_⟩
    simp only [insert, orderNumber]
    cases hr : tree.root.insert (.ofNat tree.order) tree.compare key value with
    | absorbed root added => rfl
    | split halves => rfl
    | failed root e => exact absurd hr htakes.ne_failed

end Tree
end OrderedIndex
