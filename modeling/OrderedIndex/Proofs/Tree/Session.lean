import OrderedIndex.Proofs.Tree.Integrity
import OrderedIndex.Proofs.Value.Simple

/-!
# Sessions under two comparators

A session is a series of requests to one tree, changes and questions mixed. After each of them the answer
can be seen, and so can every node and the count of pairs. Two comparators that agree on the keys of a
session cannot be told apart by it. So on keys of one kind the simple order does all that the natural one
does.
-/
namespace OrderedIndex
namespace Tree

variable {K V : Type}

/-! ## Requests -/

inductive Request (K V : Type) where
  | change (operation : Operation K V)
  | lookup (key : K) (otherwise : V)
  | contains (key : K)

def Request.Uses (used : K → Prop) : Request K V → Prop
  | change operation => operation.Uses used
  | lookup key _ => used key
  | contains key => used key

inductive Answer (V : Type) where
  | inserted (added : Bool)
  | counted (added : Nat)
  | done
  | value (value : V)
  | there (there : Bool)
  deriving DecidableEq

structure Observation (K V : Type) where
  answer : Except (Error K) (Answer V)
  root : Node K V
  size : Value

variable [Key K] [Inhabited K] [Inhabited V]

def answer (tree : Tree K V) : Request K V → Except (Error K) (Answer V)
  | .change (.insert key value) => (tree.insert key value).2.map .inserted
  | .change (.insertAll entries) => (tree.insertAll entries).2.map .counted
  | .change .clear => .ok .done
  | .lookup key otherwise => (tree.lookup key otherwise).map .value
  | .contains key => (tree.contains key).map .there

def after (tree : Tree K V) : Request K V → Tree K V
  | .change operation => tree.perform operation
  | .lookup _ _ | .contains _ => tree

/-- What can be seen of a tree in a session, request by request. -/
def observe (tree : Tree K V) : List (Request K V) → List (Observation K V)
  | [] => []
  | request :: rest =>
    ⟨tree.answer request, (tree.after request).root, (tree.after request).size⟩ ::
      (tree.after request).observe rest

/-! ## Another comparator -/

def under (tree : Tree K V) (other : Comparator K) : Tree K V := { tree with compare := other }

section Agreement

variable {used : K → Prop} {tree : Tree K V} {other : Comparator K} {key : K} {request : Request K V}
  {requests : List (Request K V)}

theorem Keeps.after (h : Keeps used tree) (hr : request.Uses used) : Keeps used (tree.after request) := by
  cases request with
  | change operation => exact h.run (List.forall_mem_singleton.mpr hr)
  | lookup key otherwise => exact h
  | contains key => exact h

/-- One insertion does the same under both comparators. -/
theorem Keeps.insert_under (h : Keeps used tree)
    (agree : ∀ a b, used a → used b → other a b = tree.compare a b) (hkey : used key) (value : V) :
    (tree.under other).insert key value =
      ((tree.insert key value).1.under other, (tree.insert key value).2) := by
  have hroot : (tree.under other).root.insert (tree.under other).orderNumber
      (tree.under other).compare key value =
        tree.root.insert tree.orderNumber tree.compare key value :=
    h.uses.insert_eq (fun k hk => agree k key hk hkey) tree.orderNumber value
  rw [Tree.insert, hroot, Tree.insert]
  cases tree.root.insert tree.orderNumber tree.compare key value <;> rfl

theorem Keeps.insertAll_under (h : Keeps used tree)
    (agree : ∀ a b, used a → used b → other a b = tree.compare a b) {entries : List (K × V)}
    (hkeys : ∀ entry ∈ entries, used entry.1) :
    (tree.under other).insertAll entries =
      ((tree.insertAll entries).1.under other, (tree.insertAll entries).2) := by
  induction entries generalizing tree with
  | nil => rfl
  | cons entry rest ih =>
    obtain ⟨hentry, hrest⟩ := List.forall_mem_cons.mp hkeys
    have hnext := ih (h.insert hentry entry.2) (insert_compare tree entry.1 entry.2 ▸ agree) hrest
    rw [insertAll_cons, insertAll_cons, h.insert_under agree hentry]
    cases (tree.insert entry.1 entry.2).2 with
    | error e => rfl
    | ok added => simp only [hnext]

/-- So does every request. -/
theorem Keeps.request_under (h : Keeps used tree)
    (agree : ∀ a b, used a → used b → other a b = tree.compare a b) (hr : request.Uses used) :
    (tree.under other).answer request = tree.answer request ∧
      (tree.under other).after request = (tree.after request).under other := by
  have hfind : ∀ key, used key → tree.root.find? other key = tree.root.find? tree.compare key :=
    fun key hkey => h.uses.find?_eq fun k hk => agree k key hk hkey
  cases request with
  | change operation =>
    cases operation with
    | insert key value =>
      have hinsert := h.insert_under agree hr value
      exact ⟨by rw [answer, hinsert, answer], by rw [Tree.after, perform, hinsert]; rfl⟩
    | insertAll entries =>
      have hall := h.insertAll_under agree hr
      exact ⟨by rw [answer, hall, answer], by rw [Tree.after, perform, hall]; rfl⟩
    | clear => exact ⟨rfl, rfl⟩
  | lookup key otherwise =>
    refine ⟨?_, rfl⟩
    simp only [answer, Tree.lookup, Node.lookup, under, hfind key hr]
  | contains key =>
    refine ⟨?_, rfl⟩
    simp only [answer, Tree.contains, Node.contains, under, hfind key hr]

theorem after_compare (tree : Tree K V) (request : Request K V) :
    (tree.after request).compare = tree.compare := by
  cases request with
  | change operation => exact run_compare tree [operation]
  | lookup key otherwise => rfl
  | contains key => rfl

/-- Comparators that agree on the keys of a session show the same at every step of it. -/
theorem Keeps.observe_under (h : Keeps used tree)
    (agree : ∀ a b, used a → used b → other a b = tree.compare a b)
    (hrs : ∀ request ∈ requests, request.Uses used) :
    (tree.under other).observe requests = tree.observe requests := by
  induction requests generalizing tree with
  | nil => rfl
  | cons request rest ih =>
    obtain ⟨hr, hrest⟩ := List.forall_mem_cons.mp hrs
    obtain ⟨hanswer, hafter⟩ := h.request_under agree hr
    have hnext := ih (h.after hr) (after_compare tree request ▸ agree) hrest
    rw [observe, observe, hanswer, hafter, hnext]
    rfl

end Agreement

/-! ## Sessions without failures -/

section Answers

variable {used : K → Prop} {tree : Tree K V} {request : Request K V} {requests : List (Request K V)}

theorem Grown.answer_ok (h : Grown tree) (answers : tree.compare.Answers)
    (ordered : ∀ k, used k → Key.isNaN k = false) (hr : request.Uses used) :
    ∃ reply, tree.answer request = .ok reply := by
  obtain ⟨height, hs⟩ := h.shaped
  have hfails : ∀ key e, used key → ¬ Node.SearchError tree.compare key e :=
    fun key e hkey => Node.not_searchError answers (ordered key hkey) e
  cases request with
  | change operation =>
    cases operation with
    | insert key value =>
      exact exists_map_ok _ fun e he => hfails key e hr (insert_error hs he)
    | insertAll entries =>
      refine exists_map_ok _ fun e he => ?_
      obtain ⟨entry, hentry, herror⟩ := insertAll_error h he
      exact hfails entry.1 e (hr entry hentry) herror
    | clear => exact ⟨.done, rfl⟩
  | lookup key otherwise =>
    exact exists_map_ok _ fun e he => hfails key e hr (find?_error hs (map_eq_error he))
  | contains key =>
    exact exists_map_ok _ fun e he => hfails key e hr (find?_error hs (map_eq_error he))

/-- No request of a session without NaN fails. -/
theorem Keeps.observe_ok (h : Keeps used tree) (answers : tree.compare.Answers)
    (ordered : ∀ k, used k → Key.isNaN k = false) (hrs : ∀ request ∈ requests, request.Uses used) :
    ∀ observation ∈ tree.observe requests, ∃ reply, observation.answer = .ok reply := by
  induction requests generalizing tree with
  | nil => simp [observe]
  | cons request rest ih =>
    obtain ⟨hr, hrest⟩ := List.forall_mem_cons.mp hrs
    rw [observe, List.forall_mem_cons]
    exact ⟨h.grown.answer_ok answers ordered hr,
      ih (h.after hr) (after_compare tree request ▸ answers) hrest⟩

end Answers

/-! ## The simple order and the natural one -/

/-- On values of one kind the simple order and the natural one agree, and trees under the two cannot be
told apart: in every session they give the same answers, none of them a failure, and have the same nodes
and the same count after each request. -/
theorem simple_eq_natural (kind : Value.Kind) :
    (∀ a b, kind.Has a → kind.Has b → ∃ order,
      (Value.compareSimple a b).sign = some order ∧ (Value.compare a b).sign = some order) ∧
    ∀ (order : Nat) (three_le_order : 3 ≤ order) (requests : List (Request Value V)),
      (∀ request ∈ requests, request.Uses kind.Has) →
        (empty order three_le_order Rule.simple.comparator).observe requests =
            (empty order three_le_order Rule.natural.comparator).observe requests ∧
          ∀ observation ∈ (empty order three_le_order Rule.natural.comparator).observe requests,
            ∃ reply, observation.answer = .ok reply := by
  refine ⟨fun a b ha hb => ha.agree hb, ?_⟩
  intro order three_le_order requests hrs
  have hkeeps : Keeps kind.Has (empty order three_le_order Rule.natural.comparator : Tree Value V) :=
    .empty order three_le_order _
  have hanswers : Rule.natural.comparator.Answers := by
    rw [Rule.comparator_natural]
    exact Comparator.answers_ofMeasure _
  exact ⟨hkeeps.observe_under (fun a b ha hb => ha.comparator_eq hb) hrs,
    hkeeps.observe_ok hanswers (fun k hk => hk.isNaN_eq_false) hrs⟩

/-- Three dates in a tree of order three, which splits, and a question for one of them. -/
theorem simple_eq_natural_dates :
    let date (time : Int) : Value := .date (some time)
    let requests : List (Request Value Nat) :=
      [.change (.insertAll [(date 30, 1), (date 10, 2), (date 20, 3)]), .lookup (date 20) 0]
    (∀ request ∈ requests, request.Uses Value.Kind.date.Has) ∧
      (empty 3 (by decide) Rule.simple.comparator).observe requests =
        (empty 3 (by decide) Rule.natural.comparator).observe requests ∧
      ((empty 3 (by decide) Rule.natural.comparator).observe requests).map (·.answer) =
        [.ok (.counted 3), .ok (.value 3)] := by
  intro date requests
  have huses : ∀ request ∈ requests, request.Uses Value.Kind.date.Has := by
    have hdate : ∀ time, Value.Kind.date.Has (date time) := .date
    simp only [requests, List.forall_mem_cons, Request.Uses, Operation.Uses, hdate]
    simp
  let tree : Tree Value Nat := empty 3 (by decide) Rule.natural.comparator
  let batch : Request Value Nat := .change (.insertAll [(date 30, 1), (date 10, 2), (date 20, 3)])
  have hcounted : tree.answer batch = .ok (.counted 3) := by
    unfold tree batch date
    decide +kernel
  have hvalue : (tree.after batch).answer (.lookup (date 20) 0) = .ok (.value 3) := by
    unfold tree batch date
    decide +kernel
  exact ⟨huses, ((simple_eq_natural .date).2 3 (by decide) requests huses).1,
    congrArg₂ (fun first second => [first, second]) hcounted hvalue⟩

end Tree
end OrderedIndex
