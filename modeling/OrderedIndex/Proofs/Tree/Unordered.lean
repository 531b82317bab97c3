import OrderedIndex.Proofs.Tree.Failure
import OrderedIndex.Proofs.Tree.Validity

/-!
# NaN where the comparator cannot place it

A comparator may order all keys but NaN, as the one does that takes the difference of numbers. A tree
that has a key turns NaN away, because the search for NaN compares it with some key, and stays valid. An
empty tree has no key to compare with: it takes NaN in, and fails its own check from the next key on.
-/
namespace OrderedIndex

/-- The comparator is a total preorder on the keys used, and gives no order between NaN and any key. -/
structure Comparator.OrdersAllButNaN {K : Type} [Key K] (compare : Comparator K)
    (used : K → Prop) : Prop where
  orders : compare.Orders used
  apart : ∀ a b, Key.isNaN a = true ∨ Key.isNaN b = true → compare a b = .blocked .unordered

theorem Comparator.OrdersAllButNaN.isNaN_eq_false {K : Type} [Key K] {compare : Comparator K}
    {used : K → Prop} {key : K} (h : compare.OrdersAllButNaN used) (hu : used key) :
    Key.isNaN key = false := by
  by_contra hnan
  have hself := h.orders.self key hu
  rw [h.apart key key (.inl (by simpa using hnan))] at hself
  cases hself

namespace Tree

variable {K V : Type} [Key K] [Inhabited K] [Inhabited V] {compare : Comparator K} {used : K → Prop}
  {tree : Tree K V} {key : K}

/-! ## Trees with and without pairs -/

section Roots

omit [Key K] [Inhabited K]

/-- Only the root of an empty tree has no keys. -/
theorem Grown.root_eq_leaf (h : Grown tree) (hkeys : tree.root.keys = []) :
    tree.root = .leaf [] [] := by
  obtain ⟨⟨height, hs⟩, hf, _⟩ := h
  cases hroot : tree.root with
  | leaf keys values =>
    rw [hroot] at hs hkeys
    cases hs with
    | leaf room aligned =>
      obtain rfl : keys = [] := hkeys
      rw [List.eq_nil_of_length_eq_zero aligned]
  | branch keys children =>
    rw [hroot] at hs hf hkeys
    cases hs with
    | branch counted room each =>
      cases hf with
      | branch enough full =>
        obtain rfl : keys = [] := hkeys
        simp [counted] at enough

theorem Grown.keys_eq_nil_iff (h : Grown tree) : tree.root.keys = [] ↔ tree.toList = [] := by
  constructor
  · intro hkeys
    rw [toList, h.root_eq_leaf hkeys]
    rfl
  · intro hempty
    obtain ⟨⟨height, hs⟩, hf, _⟩ := h
    have three := tree.three_le_order
    have hle := (hf.length_le_pairs hs (by omega) 0 _ .here).1
    rw [toList] at hempty
    rw [hempty] at hle
    exact List.eq_nil_of_length_eq_zero (Nat.le_zero.mp hle)

end Roots

/-- A search for NaN fails where there is a key that it is compared with. -/
theorem Grown.insert_nan (h : Grown tree) (hc : tree.compare.OrdersAllButNaN used)
    (hnan : Key.isNaN key = true) (hne : tree.toList ≠ []) (value : V) :
    tree.insert key value = (tree, .error (.unorderedKey key)) := by
  obtain ⟨k, hk⟩ := List.exists_mem_of_ne_nil (tree.compared key)
    (Node.compared_ne_nil (h.keys_eq_nil_iff.not.mpr hne))
  have hstops : Node.Stops tree.compare key (tree.compared key) (.unorderedKey key) :=
    ⟨k, hk, .unordered, hc.apart k key (.inr hnan), by simp [Node.raises, hnan]⟩
  exact h.insert_error_iff.mpr ⟨rfl, h.contains_error_iff.mpr hstops⟩

/-- An empty tree takes every key, whatever the comparator says of it. -/
theorem Grown.insert_first (h : Grown tree) (hempty : tree.toList = []) (key : K) (value : V) :
    tree.insert key value =
      ({ tree with root := .leaf [key] [value], size := tree.nextSize }, .ok true) := by
  have three := tree.three_le_order
  have hfits : Node.leafFits tree.orderNumber [key] = true := by
    rw [orderNumber, Node.leafFits_ofNat]
    simp
    omega
  have hroot := h.root_eq_leaf (h.keys_eq_nil_iff.mpr hempty)
  simp [Tree.insert, hroot, Node.insert, Node.locate, Position.insert, Node.settle, hfits]

/-! ## Runs that bring NaN -/

/-- An operation brings used keys and NaN, but to an empty tree it brings a used key first. -/
def Operation.Spares (used : K → Prop) (tree : Tree K V) : Operation K V → Prop
  | insert key _ => used key ∨ Key.isNaN key = true ∧ tree.toList ≠ []
  | insertAll entries =>
    (∀ entry ∈ entries, used entry.1 ∨ Key.isNaN entry.1 = true) ∧
      (tree.toList = [] → ∀ entry ∈ entries.head?, used entry.1)
  | clear => True

inductive Spared (used : K → Prop) (compare : Comparator K) : Tree K V → Prop
  | fresh (order : Nat) (three_le_order : 3 ≤ order) :
      Spared used compare (empty order three_le_order compare)
  | performed {tree : Tree K V} {operation : Operation K V} (h : Spared used compare tree)
      (spares : operation.Spares used tree) : Spared used compare (tree.perform operation)

structure Clean {α : Type} [LinearOrder α] (used : K → Prop) (rank : K → α) (tree : Tree K V) :
    Prop where
  orders : tree.compare.OrdersAllButNaN used
  lawful : Lawful used rank tree
  grown : Grown tree

variable {α : Type} [LinearOrder α] {rank : K → α}

/-- A used key is taken, and the tree has a key then. -/
theorem Clean.insert_used (h : Clean used rank tree) (hu : used key) (value : V) :
    Clean used rank (tree.insert key value).1 ∧ (tree.insert key value).1.toList ≠ [] := by
  refine ⟨⟨?_, h.lawful.insert hu value, h.grown.insert key value⟩, ?_⟩
  · rw [insert_compare]
    exact h.orders
  · obtain ⟨added, _, _, hupserts⟩ := h.lawful.sorted.insert hu value
    obtain ⟨pair, hmem, _⟩ := hupserts.covers.2
    exact List.ne_nil_of_mem hmem

/-- A tree with a key takes used keys and turns NaN away. -/
theorem Clean.insert (h : Clean used rank tree) (hne : tree.toList ≠ [])
    (hkey : used key ∨ Key.isNaN key = true) (value : V) :
    Clean used rank (tree.insert key value).1 ∧ (tree.insert key value).1.toList ≠ [] := by
  rcases hkey with hu | hnan
  · exact h.insert_used hu value
  · rw [h.grown.insert_nan h.orders hnan hne]
    exact ⟨h, hne⟩

theorem Clean.insertAll (h : Clean used rank tree) (hne : tree.toList ≠ []) {entries : List (K × V)}
    (hkeys : ∀ entry ∈ entries, used entry.1 ∨ Key.isNaN entry.1 = true) :
    Clean used rank (tree.insertAll entries).1 ∧ (tree.insertAll entries).1.toList ≠ [] :=
  insertAll_keeps (P := fun tree => Clean used rank tree ∧ tree.toList ≠ []) ⟨h, hne⟩
    fun entry he _ h => h.1.insert h.2 (hkeys entry he) entry.2

theorem Clean.perform (h : Clean used rank tree) {operation : Operation K V}
    (spares : operation.Spares used tree) : Clean used rank (tree.perform operation) := by
  cases operation with
  | insert key value =>
    rcases spares with hu | ⟨hnan, hne⟩
    · exact (h.insert_used hu value).1
    · exact (h.insert hne (.inr hnan) value).1
  | insertAll entries =>
    obtain ⟨hkeys, hfirst⟩ := spares
    by_cases hempty : tree.toList = []
    · -- the first key is taken, and the others meet a tree with a key
      cases entries with
      | nil => exact h
      | cons entry rest =>
        obtain ⟨hnext, hne⟩ := h.insert_used (hfirst hempty entry (by simp)) entry.2
        rw [Tree.perform, insertAll_cons]
        cases (tree.insert entry.1 entry.2).2 with
        | error e => exact hnext
        | ok added => exact (hnext.insertAll hne fun later hl => hkeys later (by simp [hl])).1
    · exact (h.insertAll hempty hkeys).1
  | clear =>
    exact ⟨h.orders, h.lawful.clear, Grown.empty _ _ _⟩

theorem Spared.clean (h : Spared used compare tree) (hc : compare.OrdersAllButNaN used)
    (hr : Ranks compare used rank) : Clean used rank tree := by
  induction h with
  | fresh order three_le_order => exact ⟨hc, .empty hr _ _, .empty _ _ _⟩
  | performed h spares ih => exact ih.perform spares

/-- As long as no empty tree is given NaN first, no node holds NaN, the tree is valid, and NaN is turned
away wherever there is a key; an empty tree takes it in. -/
theorem Spared.turns_away (h : Spared used compare tree) (hc : compare.OrdersAllButNaN used) :
    tree.root.Uses (fun k => Key.isNaN k = false) ∧
      (tree.toList.length < Number.twoTo 30 → tree.checkValid = .ok ()) ∧
      ∀ key value, Key.isNaN key = true →
        (tree.toList ≠ [] → tree.insert key value = (tree, .error (.unorderedKey key))) ∧
        (tree.toList = [] → (tree.insert key value).2 = .ok true ∧
          (tree.insert key value).1.toList = [(key, value)]) := by
  obtain ⟨α, _, rank, hr⟩ := exists_ranks hc.orders
  obtain ⟨horders, hlawful, hgrown⟩ := h.clean hc hr
  refine ⟨?_, ?_, ?_⟩
  · intro depth part ho k hk
    exact hc.isNaN_eq_false (hlawful.uses depth part ho k hk)
  · intro hfew
    exact (checkValid_iff_lawful hlawful.sorted.ranks hlawful.uses (hgrown.small hfew)).mpr hlawful
  · intro key value hnan
    refine ⟨fun hne => hgrown.insert_nan horders hnan hne value, fun hempty => ?_⟩
    rw [hgrown.insert_first hempty]
    exact ⟨rfl, rfl⟩

end Tree

/-! ## Differences of numbers -/

namespace Value

/-- A number that is neither NaN nor infinite. -/
def Finite (v : Value) : Prop := ∃ negative magnitude, v = .number (.finite negative magnitude)

def amount : Value → Int
  | .number (.finite negative magnitude) => Number.signed negative magnitude
  | _ => 0

theorem eq_nan {v : Value} (h : Key.isNaN v = true) : v = .number .nan := by
  cases v with
  | number x => cases x <;> first | rfl | cases h
  | _ => cases h

/-- Differences order finite numbers and do not place NaN. -/
theorem ascending_ordersAllButNaN : Rule.ascending.comparator.OrdersAllButNaN Finite where
  orders := by
    have hamount (a b : Value) (ha : a.Finite) (hb : b.Finite) :
        Rule.ascending.comparator a b = .ordered (Ord.compare a.amount b.amount) := by
      obtain ⟨negA, m, rfl⟩ := ha
      obtain ⟨negB, n, rfl⟩ := hb
      exact congrArg Comparison.ofOption (Number.sign_finite_sub negA negB m n)
    exact orders_of_place hamount
  apart a b h := by
    have hsub (x : Number) : x - .nan = .nan := by cases x <;> rfl
    have hmeasure : Rule.ascending.measure a b = .nan := by
      rcases h with h | h
      · rw [eq_nan h]
        rfl
      · rw [eq_nan h]
        exact hsub a.toNumber
    exact congrArg (fun x => Comparison.ofOption x.sign) hmeasure

end Value

namespace Tree

/-- With a key in it, a tree compared by differences turns NaN away. -/
theorem turns_away_one :
    let tree : Tree Value Nat :=
      (empty 4 (by decide) Rule.ascending.comparator).perform (.insert (.number 1) 10)
    Rule.ascending.comparator.OrdersAllButNaN Value.Finite ∧
      Spared Value.Finite Rule.ascending.comparator tree ∧
      tree.insert (.number .nan) 20 = (tree, .error (.unorderedKey (.number .nan))) := by
  intro tree
  have hfinite : Value.Finite (.number 1) := ⟨_, _, rfl⟩
  have hspared : Spared Value.Finite Rule.ascending.comparator tree :=
    .performed (.fresh 4 (by decide)) (.inl hfinite)
  have hpairs : tree.toList = [(.number 1, 10)] := by
    have hempty : Grown (empty 4 (by decide) Rule.ascending.comparator : Tree Value Nat) :=
      .empty _ _ _
    have hfirst := hempty.insert_first rfl (.number 1) 10
    exact congrArg (fun result => result.1.toList) hfirst
  have haway := (hspared.turns_away Value.ascending_ordersAllButNaN).2.2 (.number .nan) 20 rfl
  exact ⟨Value.ascending_ordersAllButNaN, hspared, haway.1 (by simp [hpairs])⟩

/-- A tree compared by differences takes NaN as its first key, and the next key makes it fail. -/
theorem nan_taken :
    let tree : Tree Value Nat := empty 4 (by decide) Rule.ascending.comparator
    Rule.ascending.comparator.OrdersAllButNaN Value.Finite ∧
      (tree.insert (.number .nan) 1).2 = .ok true ∧
      (tree.run [.insert (.number .nan) 1, .insert (.number 5) 2]).checkValid ≠ .ok () := by
  intro tree
  have hgrown : Grown tree := .empty _ _ _
  have hfirst := hgrown.insert_first rfl (.number .nan) 1
  have hblocked : Rule.ascending.comparator (.number .nan) (.number 5) = .blocked .unordered := rfl
  have hcompare : (tree.run [.insert (.number .nan) 1, .insert (.number 5) 2]).compare =
      Rule.ascending.comparator := by
    simp [tree, Tree.run, Tree.perform, insert_compare, Tree.empty]
  have hroot : (tree.run [.insert (.number .nan) 1, .insert (.number 5) 2]).root =
      .leaf [.number .nan, .number 5] [1, 2] := by
    have hnumber : Key.isNaN (.number 5 : Value) = false := rfl
    have hlocate : Node.locate Rule.ascending.comparator [.number .nan] (.number 5) =
        .ok (.gap 1) := by
      simp [Node.locate, search, searchBetween, hblocked, hnumber]
    have hnext : tree.run [.insert (.number .nan) 1, .insert (.number 5) 2] =
        ((tree.insert (.number .nan) 1).1.insert (.number 5) 2).1 := rfl
    rw [hnext, hfirst]
    simp [Tree.insert, Node.insert, hlocate, Position.insert, Node.settle, orderNumber,
      Node.leafFits_ofNat, tree, Tree.empty]
  refine ⟨Value.ascending_ordersAllButNaN, by rw [hfirst], ?_⟩
  rw [ne_eq, checkValid_eq_ok_iff, report, Node.report_problems_eq_nil_iff, hroot, hcompare]
  rintro ⟨_, ⟨hsorted, _⟩, _⟩
  simp [Node.isSorted, Node.increasing, hblocked] at hsorted

end Tree
end OrderedIndex
