import Mathlib.Data.List.Pairwise
import Mathlib.Data.List.Sort
import OrderedIndex.Proofs.Tree.Failure
import OrderedIndex.Proofs.Tree.Lockstep

/-!
# The content of trees

What a tree answers after a history of pairs depends only on the first key and on the last value of each
class of equal keys. The order of the tree and the order in which the pairs come decide its shape, and
nothing that can be asked of it. No two pairs of a tree have equal keys, so its list of pairs is
determined by which pairs are in it.
-/
namespace OrderedIndex

variable {K V : Type} {compare : Comparator K} {used : K → Prop}

/-! ## Histories with the same effect -/

/-- Two histories that bring the same classes of equal keys, and for each class the same key first and
the same value last. -/
structure SameEffect (compare : Comparator K) (history other : List (K × V)) : Prop where
  covers : ∀ entry ∈ history, ∃ mate ∈ other, compare entry.1 mate.1 = .ordered .eq
  covered : ∀ mate ∈ other, ∃ entry ∈ history, compare mate.1 entry.1 = .ordered .eq
  first : ∀ a b, FirstOf compare history a → FirstOf compare other b →
    compare a b = .ordered .eq → a = b
  last : ∀ p q, LastOf compare history p → LastOf compare other q →
    compare p.1 q.1 = .ordered .eq → p.2 = q.2

section Histories

variable {history other : List (K × V)}

/-- The effect does not depend on which history is named first. -/
theorem SameEffect.symm (h : SameEffect compare history other) (ho : compare.Orders used)
    (hu : ∀ entry ∈ history, used entry.1) (hu' : ∀ entry ∈ other, used entry.1) :
    SameEffect compare other history where
  covers := h.covered
  covered := h.covers
  first a b ha hb heq := by
    obtain ⟨_, hma⟩ := ha.mem
    obtain ⟨_, hmb⟩ := hb.mem
    exact (h.first b a hb ha (ho.eq_symm (hu' _ hma) (hu _ hmb) heq)).symm
  last p q hp hq heq := (h.last q p hq hp (ho.eq_symm (hu' _ hp.mem) (hu _ hq.mem) heq)).symm

/-- Where no two keys are equal, the order of the pairs does not matter. -/
theorem sameEffect_of_perm (ho : compare.Orders used) (hu : ∀ entry ∈ history, used entry.1)
    (perm : history.Perm other)
    (unequal : history.Pairwise fun a b => compare a.1 b.1 ≠ .ordered .eq) :
    SameEffect compare history other := by
  obtain ⟨α, _, rank, hr⟩ := exists_ranks ho
  have hranks : history.Pairwise fun a b => rank a.1 ≠ rank b.1 :=
    unequal.imp_of_mem fun ha hb hne heq => hne ((hr.eq_iff _ _ (hu _ ha) (hu _ hb)).mpr heq)
  have : Std.Symm fun a b : K × V => rank a.1 ≠ rank b.1 := ⟨fun _ _ h => h.symm⟩
  have hsame : ∀ p ∈ history, ∀ q ∈ other, compare p.1 q.1 = .ordered .eq → p = q := by
    intro p hp q hq heq
    have hq' := perm.mem_iff.mpr hq
    by_contra hne
    exact hranks.forall hp hq' hne ((hr.eq_iff _ _ (hu p hp) (hu q hq')).mp heq)
  refine ⟨fun p hp => ⟨p, perm.mem_iff.mp hp, ho.self _ (hu p hp)⟩, fun q hq => ?_, ?_, ?_⟩
  · have hq' := perm.mem_iff.mpr hq
    exact ⟨q, hq', ho.self _ (hu q hq')⟩
  · intro a b ha hb heq
    obtain ⟨v, hma⟩ := ha.mem
    obtain ⟨w, hmb⟩ := hb.mem
    exact congrArg Prod.fst (hsame _ hma _ hmb heq)
  · intro p q hp hq heq
    exact congrArg Prod.snd (hsame p hp.mem q hq.mem heq)

end Histories

/-! ## Pairs that sum a history up -/

section Summaries

variable {α : Type} [LinearOrder α] {rank : K → α} {history other pairs others : List (K × V)}

structure SumsUp (compare : Comparator K) (rank : K → α) (history pairs : List (K × V)) : Prop where
  increasing : pairs.Pairwise fun a b => rank a.1 < rank b.1
  first : ∀ pair ∈ pairs, FirstOf compare history pair.1
  last : ∀ pair ∈ pairs, ∃ key, rank pair.1 = rank key ∧ LastOf compare history (key, pair.2)
  covered : ∀ entry ∈ history, ∃ pair ∈ pairs, rank pair.1 = rank entry.1

/-- Every pair that sums a history up is also there for a history with the same effect. -/
theorem SumsUp.subset (h : SumsUp compare rank history pairs) (h' : SumsUp compare rank other others)
    (hr : Ranks compare used rank) (hu : ∀ entry ∈ history, used entry.1)
    (hu' : ∀ entry ∈ other, used entry.1) (same : SameEffect compare history other) :
    ∀ pair ∈ pairs, pair ∈ others := by
  intro pair hm
  obtain ⟨value, hfirst⟩ := (h.first pair hm).mem
  obtain ⟨key, hkey, hlast⟩ := h.last pair hm
  obtain ⟨mate, hmate, heq⟩ := same.covers _ hfirst
  obtain ⟨pair', hm', hrank'⟩ := h'.covered mate hmate
  obtain ⟨value', hfirst'⟩ := (h'.first pair' hm').mem
  obtain ⟨key', hkey', hlast'⟩ := h'.last pair' hm'
  have hrank : rank pair.1 = rank pair'.1 :=
    ((hr.eq_iff _ _ (hu _ hfirst) (hu' mate hmate)).mp heq).trans hrank'.symm
  have hsameKey : pair.1 = pair'.1 := same.first _ _ (h.first pair hm) (h'.first pair' hm')
    ((hr.eq_iff _ _ (hu _ hfirst) (hu' _ hfirst')).mpr hrank)
  have hsameValue : pair.2 = pair'.2 := same.last (key, _) (key', _) hlast hlast'
    ((hr.eq_iff _ _ (hu _ hlast.mem) (hu' _ hlast'.mem)).mpr
      (hkey.symm.trans (hrank.trans hkey')))
  rw [Prod.ext hsameKey hsameValue]
  exact hm'

/-- Histories with the same effect are summed up by the same pairs. -/
theorem SumsUp.eq (h : SumsUp compare rank history pairs) (h' : SumsUp compare rank other others)
    (hr : Ranks compare used rank) (hu : ∀ entry ∈ history, used entry.1)
    (hu' : ∀ entry ∈ other, used entry.1) (same : SameEffect compare history other) :
    pairs = others := by
  have : Std.Irrefl fun a b : K × V => rank a.1 < rank b.1 := ⟨fun _ => lt_irrefl _⟩
  have : Std.Antisymm fun a b : K × V => rank a.1 < rank b.1 :=
    ⟨fun _ _ hab hba => absurd hab hba.not_gt⟩
  exact h.increasing.eq_of_mem_iff h'.increasing fun pair =>
    ⟨h.subset h' hr hu hu' same pair,
      h'.subset h hr hu' hu (same.symm hr.orders hu hu') pair⟩

end Summaries

namespace Tree

variable {α : Type} [LinearOrder α] {rank : K → α} [Inhabited V] {tree other : Tree K V}

/-! ## Trees with the same pairs -/

structure SameContent [Key K] (used : K → Prop) (tree other : Tree K V) : Prop where
  pairs : tree.toList = other.toList
  size : tree.size = other.size
  minKey : ∃ least, tree.minKey = .ok least ∧ other.minKey = .ok least
  maxKey : ∃ greatest, tree.maxKey = .ok greatest ∧ other.maxKey = .ok greatest
  lookup : ∀ key otherwise, used key →
    ∃ value, tree.lookup key otherwise = .ok value ∧ other.lookup key otherwise = .ok value
  contains : ∀ key, used key → ∃ there, tree.contains key = .ok there ∧ other.contains key = .ok there

/-- Two trees in order with the same pairs give the same answers, whatever their shapes. -/
theorem Sorted.sameContent [Key K] (h : Sorted used rank tree) (h' : Sorted used rank other)
    (hg : Grown tree) (hg' : Grown other) (pairs : tree.toList = other.toList) :
    SameContent used tree other := by
  have hfind : ∀ key, used key → ∃ found, tree.root.find? tree.compare key = .ok found ∧
      other.root.find? other.compare key = .ok found := by
    intro key hu
    obtain ⟨found, hfound, hfinds⟩ := h.finds hu
    obtain ⟨found', hfound', hfinds'⟩ := h'.finds hu
    rw [← pairs] at hfinds'
    obtain rfl := hfinds.unique hfinds'
    exact ⟨found, hfound, hfound'⟩
  have hkeys : tree.keys = other.keys := congrArg (List.map Prod.fst) pairs
  refine
    { pairs := pairs, size := ?_, minKey := ⟨_, hg.minKey, by rw [hg'.minKey, hkeys]⟩
      maxKey := ⟨_, hg.maxKey, by rw [hg'.maxKey, hkeys]⟩, lookup := ?_, contains := ?_ }
  · rw [hg.counted.stepped, hg'.counted.stepped, pairs]
  · intro key otherwise hu
    obtain ⟨found, hfound, hfound'⟩ := hfind key hu
    exact ⟨found.getD otherwise, by simp [lookup, Node.lookup, hfound, Except.map],
      by simp [lookup, Node.lookup, hfound', Except.map]⟩
  · intro key hu
    obtain ⟨found, hfound, hfound'⟩ := hfind key hu
    exact ⟨found.isSome, by simp [contains, Node.contains, hfound, Except.map],
      by simp [contains, Node.contains, hfound', Except.map]⟩

/-! ## Trees after a history -/

/-- The pairs of a tree sum its history up. -/
theorem InStep.sumsUp {history : List (K × V)} {map : SortedPairs K V}
    (h : InStep compare used rank history tree map) :
    SumsUp compare rank history tree.toList where
  increasing := by
    have hi := h.sorted.lined.increasing
    rwa [List.pairwise_map] at hi
  first := h.first
  last := by
    -- the sorted list that is in step with the tree has the last key of each class
    intro pair hm
    obtain ⟨before, after, hparts⟩ := List.append_of_mem hm
    have halike := h.alike
    rw [hparts] at halike
    obtain ⟨e₁, key, e₂, hentries, hkey, _⟩ := halike.around
    exact ⟨key, hkey, h.last _ (by simp [hentries])⟩
  covered := h.covered

variable [Key K] [Inhabited K]

/-- A batch that succeeds on an empty tree adds as many keys as there are pairs afterwards. -/
theorem count_eq_length {order count : Nat} {three_le_order : 3 ≤ order} {history : List (K × V)}
    (h : ((empty order three_le_order compare : Tree K V).insertAll history).2 = .ok count) :
    count = ((empty order three_le_order compare : Tree K V).insertAll history).1.toList.length := by
  have hempty := Grown.empty order three_le_order compare (V := V)
  have hbatch := hempty.batch history
  rw [h] at hbatch
  cases hbatch with
  | completed all =>
    rw [(all.grown hempty).2]
    simp [empty, toList, Node.pairUp]

/-- Two trees, of whatever orders, that are given histories with the same effect under one comparator
give the same answers. Histories of unequal keys have the same effect if one is a permutation of the
other. -/
theorem sameContent_of_sameEffect (ho : compare.Orders used) {m n : Nat} (hm : 3 ≤ m) (hn : 3 ≤ n)
    {history other : List (K × V)} (hu : ∀ entry ∈ history, used entry.1)
    (hu' : ∀ entry ∈ other, used entry.1) :
    (history.Perm other → (history.Pairwise fun a b => compare a.1 b.1 ≠ .ordered .eq) →
        SameEffect compare history other) ∧
      (SameEffect compare history other → ∃ (first second : Tree K V) (count : Nat),
        (empty m hm compare).insertAll history = (first, .ok count) ∧
          (empty n hn compare).insertAll other = (second, .ok count) ∧
          SameContent used first second) := by
  refine ⟨sameEffect_of_perm ho hu, fun same => ?_⟩
  obtain ⟨α, _, rank, hr⟩ := exists_ranks ho
  have hstart (order : Nat) (three_le_order : 3 ≤ order) :
      InStep compare used rank [] (empty order three_le_order compare : Tree K V) _ :=
    .empty hr order three_le_order
  obtain ⟨count, map, hcount, _, hstep⟩ := (hstart m hm).insertAll hu
  obtain ⟨count', map', hcount', _, hstep'⟩ := (hstart n hn).insertAll hu'
  rw [List.nil_append] at hstep hstep'
  have hpairs := hstep.sumsUp.eq hstep'.sumsUp hr hu hu' same
  have hgrown := (Grown.empty m hm compare (V := V)).insertAll history
  have hgrown' := (Grown.empty n hn compare (V := V)).insertAll other
  have hcounts : count = count' := by
    rw [count_eq_length hcount, count_eq_length hcount', hpairs]
  exact ⟨_, _, count, Prod.ext rfl hcount, Prod.ext rfl (hcounts ▸ hcount'),
    hstep.sorted.sameContent hstep'.sorted hgrown hgrown' hpairs⟩

/-- By their tens, 25 comes before 27 in the first history, and its last value is given with 27. -/
theorem sameEffect_byTens :
    SameEffect byTens [(25, 1), (11, 2), (38, 3), (27, 4)] [(38, 3), (25, 4), (11, 2)] := by
  have hfirst (a : Nat) (h : FirstOf byTens [(25, 1), (11, 2), (38, 3), (27, 4)] a) :
      a ∈ [25, 11, 38] := by
    simp only [firstOf_cons, not_firstOf_nil, and_false, or_false] at h
    obtain rfl | ⟨h25, rfl | ⟨-, rfl | ⟨-, rfl⟩⟩⟩ := h
    · decide
    · decide
    · decide
    · exact absurd rfl h25
  have hlast (p : Nat × Nat) (h : LastOf byTens [(25, 1), (11, 2), (38, 3), (27, 4)] p) :
      p ∈ [(11, 2), (38, 3), (27, 4)] := by
    simp only [lastOf_cons, not_lastOf_nil, or_false] at h
    obtain ⟨rfl, h27⟩ | ⟨rfl, -⟩ | ⟨rfl, -⟩ | ⟨rfl, -⟩ := h
    · exact absurd rfl (h27 (27, 4) (by decide))
    · decide
    · decide
    · decide
  have hkeys : ∀ a ∈ [25, 11, 38], ∀ q ∈ [(38, 3), (25, 4), (11, 2)],
      byTens a q.1 = .ordered .eq → a = q.1 := by decide
  have hvalues : ∀ p ∈ [(11, 2), (38, 3), (27, 4)], ∀ q ∈ [(38, 3), (25, 4), (11, 2)],
      byTens p.1 q.1 = .ordered .eq → p.2 = q.2 := by decide
  refine ⟨by decide, by decide, fun a b ha hb => ?_, fun p q hp hq => hvalues p (hlast p hp) q hq.mem⟩
  obtain ⟨value, hm⟩ := hb.mem
  exact hkeys a (hfirst a ha) (b, value) hm

/-- Two trees of different orders, given these histories, give the same answers. -/
theorem sameContent_byTens :
    SameEffect byTens [(25, 1), (11, 2), (38, 3), (27, 4)] [(38, 3), (25, 4), (11, 2)] ∧
      ∃ (first second : Tree Nat Nat) (count : Nat),
        (empty 3 (by decide) byTens).insertAll [(25, 1), (11, 2), (38, 3), (27, 4)] =
            (first, .ok count) ∧
          (empty 4 (by decide) byTens).insertAll [(38, 3), (25, 4), (11, 2)] =
            (second, .ok count) ∧
          SameContent (fun _ => True) first second := by
  have horders : byTens.Orders (fun _ => True) := (ranks_of_rank (· / 10) _).orders
  exact ⟨sameEffect_byTens, (sameContent_of_sameEffect horders (by decide) (by decide) (by simp)
    (by simp)).2 sameEffect_byTens⟩

end Tree
end OrderedIndex
