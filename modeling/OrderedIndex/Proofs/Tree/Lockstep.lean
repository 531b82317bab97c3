import OrderedIndex.Proofs.Node.Ends
import OrderedIndex.Proofs.SortedPairs
import OrderedIndex.Proofs.Tree.Integrity
import OrderedIndex.Proofs.Tree.Sorted

/-!
# Trees against sorted lists

A tree and a sorted list that are given the same pairs, one by one, stay in lockstep as long as the
comparator orders the keys used. They give the same answers; they differ only in which of several equal
keys they keep, the first one given or the last one.
-/
namespace OrderedIndex

variable {K V : Type}

/-! ## Equal pairs -/

section Equal

variable {R : K → K → Prop} {pairs entries : List (K × V)}

theorem rel_head? (h : List.Forall₂ (fun p e => R p.1 e.1 ∧ p.2 = e.2) pairs entries) :
    Option.Rel R (pairs.map Prod.fst).head? (entries.head?.map Prod.fst) := by
  cases h with
  | nil => exact .none
  | cons hp _ => exact .some hp.1

theorem rel_getLast? (h : List.Forall₂ (fun p e => R p.1 e.1 ∧ p.2 = e.2) pairs entries) :
    Option.Rel R (pairs.map Prod.fst).getLast? (entries.getLast?.map Prod.fst) := by
  have hr := rel_head? (List.forall₂_reverse_iff.mpr h)
  rwa [List.map_reverse, List.head?_reverse, List.head?_reverse] at hr

theorem Ranks.equal_pairs {α : Type} [LinearOrder α] {compare : Comparator K} {used : K → Prop}
    {rank : K → α} (hr : Ranks compare used rank) (h : Alike rank pairs entries)
    (hp : ∀ p ∈ pairs, used p.1) (he : ∀ e ∈ entries, used e.1) :
    List.Forall₂ (fun p e => compare p.1 e.1 = .ordered .eq ∧ p.2 = e.2) pairs entries := by
  induction h with
  | nil => exact .nil
  | cons hpair _ ih =>
    simp only [List.forall_mem_cons] at hp he
    exact .cons ⟨(hr.eq_iff _ _ hp.1 he.1).mpr hpair.1, hpair.2⟩ (ih hp.2 he.2)

end Equal

namespace Tree

/-! ## The run -/

variable {α : Type} [LinearOrder α] {used : K → Prop} {rank : K → α} [Inhabited V]
  {compare : Comparator K} {history : List (K × V)} {tree : Tree K V} {map : SortedPairs K V}

structure InStep (compare : Comparator K) (used : K → Prop) (rank : K → α) (history : List (K × V))
    (tree : Tree K V) (map : SortedPairs K V) : Prop where
  sorted : Sorted used rank tree
  uses : map.Uses used rank
  compares : tree.compare = compare
  alike : Alike rank tree.toList map.entries
  given : ∀ entry ∈ history, used entry.1
  first : ∀ pair ∈ tree.toList, FirstOf compare history pair.1
  last : ∀ entry ∈ map.entries, LastOf compare history entry
  covered : ∀ entry ∈ history, ∃ pair ∈ tree.toList, rank pair.1 = rank entry.1

theorem InStep.empty (hr : Ranks compare used rank) (order : Nat) (three_le_order : 3 ≤ order) :
    InStep compare used rank [] (empty order three_le_order compare : Tree K V) { compare } where
  sorted := .empty hr order three_le_order
  uses := ⟨hr, by simp⟩
  compares := rfl
  alike := by simp [toList, Tree.empty, Node.pairUp, Alike]
  given := by simp
  first := by simp [toList, Tree.empty, Node.pairUp]
  last := by simp
  covered := by simp

variable [Key K] [Inhabited K]

/-- The same pair keeps the two in step, and both give the same answer. -/
theorem InStep.insert (h : InStep compare used rank history tree map) {key : K} (hu : used key)
    (value : V) :
    ∃ added next, (tree.insert key value).2 = .ok added ∧ map.set key value = .ok (next, added) ∧
      InStep compare used rank (history ++ [(key, value)]) (tree.insert key value).1 next := by
  obtain ⟨hsorted, huses, rfl, halike, hgiven, hfirst, hlast, hcovered⟩ := h
  obtain ⟨added, hadded, hsorted', hupserts⟩ := hsorted.insert hu value
  obtain ⟨entries, hset, halike', hentries⟩ := huses.set hu hupserts halike
  refine ⟨added, { map with entries }, hadded, hset, hsorted', huses.next hu hentries,
    insert_compare tree key value, halike', ?_, ?_, ?_, hupserts.covered hcovered⟩
  · rw [List.forall_mem_append, List.forall_mem_singleton]
    exact ⟨hgiven, hu⟩
  · intro pair hm
    -- a key of the tree is as old as its class: an equal key before it would still be there
    rcases hupserts.old_or_new pair hm with ⟨old, hold⟩ | ⟨rfl, hnew⟩
    · exact (hfirst _ hold).append _
    · apply firstOf_new
      intro entry hm hentry
      obtain ⟨p, hp, hrank⟩ := hcovered entry hm
      exact hnew p hp (hrank.trans ((hsorted.ranks.eq_iff _ _ (hgiven entry hm) hu).mp hentry))
  · exact huses.last hu hentries hsorted.ranks hlast

/-- The two stay in step over any number of pairs, and none of them fails. -/
theorem InStep.insertAll (h : InStep compare used rank history tree map) {entries : List (K × V)}
    (hu : ∀ entry ∈ entries, used entry.1) :
    ∃ count next, (tree.insertAll entries).2 = .ok count ∧ map.setAll entries = .ok next ∧
      InStep compare used rank (history ++ entries) (tree.insertAll entries).1 next := by
  induction entries generalizing history tree map with
  | nil => exact ⟨0, map, rfl, rfl, by simpa [Tree.insertAll] using h⟩
  | cons entry rest ih =>
    obtain ⟨added, next, hadded, hset, hstep⟩ := h.insert (hu entry (by simp)) entry.2
    obtain ⟨count, last, hcount, hall, hrest⟩ := ih hstep fun later hl => hu later (by simp [hl])
    refine ⟨count + added.toNat, last, ?_, ?_, ?_⟩
    · rw [insertAll_cons, hadded]
      simp [hcount, Except.map]
    · simp [SortedPairs.setAll, hset, hall]
    · rw [insertAll_cons, hadded]
      simpa using hrest

/-! ## The same answers -/

/-- All that can be asked of a tree and a sorted list after the same history, and the answers: they
are the same, except for the key that is kept of several equal ones. -/
structure Lockstep (compare : Comparator K) (used : K → Prop) (history : List (K × V))
    (tree : Tree K V) (map : SortedPairs K V) : Prop where
  size : Counts tree map.size
  pairs : List.Forall₂ (fun p e => compare p.1 e.1 = .ordered .eq ∧ p.2 = e.2) tree.toList map.entries
  set : ∀ key value, used key → ∃ added next,
    (tree.insert key value).2 = .ok added ∧ map.set key value = .ok (next, added)
  get : ∀ key otherwise, used key → ∃ value,
    tree.lookup key otherwise = .ok value ∧ map.get key otherwise = .ok value
  contains : ∀ key, used key → ∃ there, tree.contains key = .ok there ∧ map.contains key = .ok there
  minKey : ∃ least, tree.minKey = .ok least ∧
    Option.Rel (fun a b => compare a b = .ordered .eq) least map.minKey
  maxKey : ∃ greatest, tree.maxKey = .ok greatest ∧
    Option.Rel (fun a b => compare a b = .ordered .eq) greatest map.maxKey
  first : ∀ pair ∈ tree.toList, FirstOf compare history pair.1
  last : ∀ entry ∈ map.entries, LastOf compare history entry

theorem InStep.lockstep (h : InStep compare used rank history tree map)
    (hg : Grown tree) : Lockstep compare used history tree map := by
  have hinsert := fun {key} (hu : used key) value => h.insert hu value
  obtain ⟨hsorted, huses, rfl, halike, hgiven, hfirst, hlast, _⟩ := h
  have hpairs := hsorted.ranks.equal_pairs halike
    (fun p hp => hsorted.lined.used p.1 (List.mem_map_of_mem hp)) huses.used
  refine
    { size := ?_, pairs := hpairs, set := ?_, get := ?_, contains := ?_, minKey := ?_, maxKey := ?_
      first := hfirst, last := hlast }
  · have hlen := halike.length_eq
    rw [SortedPairs.size, ← hlen]
    exact hg.counted
  · intro key value hu
    obtain ⟨added, next, hadded, hset, _⟩ := hinsert hu value
    exact ⟨added, next, hadded, hset⟩
  · intro key otherwise hu
    obtain ⟨found, hfind, hfinds⟩ := hsorted.finds hu
    refine ⟨found.getD otherwise, ?_, huses.get hu (halike.finds hfinds) otherwise⟩
    simp [lookup, Node.lookup, hfind, Except.map]
  · intro key hu
    obtain ⟨found, hfind, hfinds⟩ := hsorted.finds hu
    refine ⟨found.isSome, ?_, huses.contains hu (halike.finds hfinds)⟩
    simp [contains, Node.contains, hfind, Except.map]
  · exact ⟨_, hg.minKey, rel_head? hpairs⟩
  · exact ⟨_, hg.maxKey, rel_getLast? hpairs⟩

/-- After any history, the tree and the sorted list are in lockstep, and nothing has failed. -/
theorem lockstep_of_orders (ho : compare.Orders used) {order : Nat}
    (three_le_order : 3 ≤ order) (hu : ∀ entry ∈ history, used entry.1) :
    ∃ count map, ((empty order three_le_order compare : Tree K V).insertAll history).2 = .ok count ∧
      SortedPairs.ofList compare history = .ok map ∧
      Lockstep compare used history
        ((empty order three_le_order compare : Tree K V).insertAll history).1 map := by
  obtain ⟨α, _, rank, hr⟩ := exists_ranks ho
  have hstart : InStep compare used rank [] (empty order three_le_order compare : Tree K V) _ :=
    .empty hr order three_le_order
  obtain ⟨count, map, hcount, hmap, hstep⟩ := hstart.insertAll hu
  rw [List.nil_append] at hstep
  have hgrown := (Grown.empty order three_le_order compare (V := V)).insertAll history
  exact ⟨count, map, hcount, hmap, hstep.lockstep hgrown⟩

def byTens : Comparator Nat := fun a b => .ordered (Ord.compare (a / 10) (b / 10))

/-- The tree keeps 25, the sorted list 27; both have the value given last. -/
theorem lockstep_byTens :
    byTens.Orders (fun _ => True) ∧ ∃ (tree : Tree Nat Nat) (map : SortedPairs Nat Nat) (count : Nat),
      (empty 3 (by decide) byTens).insertAll [(25, 1), (11, 2), (38, 3), (27, 4)] =
          (tree, .ok count) ∧
        SortedPairs.ofList byTens [(25, 1), (11, 2), (38, 3), (27, 4)] = .ok map ∧
        Lockstep byTens (fun _ => True) [(25, 1), (11, 2), (38, 3), (27, 4)] tree map ∧
        tree.toList = [(11, 2), (25, 4), (38, 3)] ∧
        map.entries = [(11, 2), (27, 4), (38, 3)] := by
  have horders : byTens.Orders (fun _ => True) := (ranks_of_rank (· / 10) _).orders
  have hu : ∀ entry ∈ [(25, 1), (11, 2), (38, 3), (27, 4)], (fun _ : Nat => True) entry.1 := by simp
  obtain ⟨count, map, hcount, hmap, hstep⟩ := lockstep_of_orders horders (show 3 ≤ 3 by decide) hu
  have hentries : (SortedPairs.ofList byTens [(25, 1), (11, 2), (38, 3), (27, 4)]).map (·.entries) =
      .ok [(11, 2), (27, 4), (38, 3)] := by
    decide +kernel
  rw [hmap] at hentries
  refine ⟨horders, _, map, count, Prod.ext rfl hcount, hmap, hstep, ?_, ?_⟩
  · decide +kernel
  · exact Except.ok.inj hentries

end Tree
end OrderedIndex
