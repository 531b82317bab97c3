import OrderedIndex.Proofs.SortedPairs

/-!
# Runs of a sorted list

What a sorted list answers after any number of pairs were set, if its comparator orders the keys used:
for each class of equal keys there is one pair, the last one set, and no set or search ever fails. The
step is one set; a run is as many as one likes.
-/
namespace OrderedIndex

/-! ## Pairs in order -/

section Pairs

variable {K V α : Type} [LinearOrder α] {rank : K → α} {pairs entries next : List (K × V)} {key : K}
  {value : V} {added : Bool}

theorem exists_finds (h : pairs.Pairwise fun a b => rank a.1 < rank b.1) (r : α) :
    ∃ found, Finds rank r pairs found := by
  obtain ⟨p₁, p₂, hlower, hhigher, rfl | ⟨pair, hpair, rfl⟩⟩ :=
    parts_of_increasing (f := fun p : K × V => rank p.1) h r
  · exact ⟨none, .absent hlower hhigher⟩
  · exact ⟨some pair.2, .present hlower hpair hhigher⟩

theorem exists_upserts (h : pairs.Pairwise fun a b => rank a.1 < rank b.1) (key : K) (value : V) :
    ∃ next added, Upserts rank key value pairs next added := by
  obtain ⟨p₁, p₂, hlower, hhigher, rfl | ⟨pair, hpair, rfl⟩⟩ :=
    parts_of_increasing (f := fun p : K × V => rank p.1) h (rank key)
  · exact ⟨_, true, .added hlower hhigher⟩
  · exact ⟨_, false, .replaced hlower hpair hhigher⟩

theorem Upserts.increasing (hs : Upserts rank key value pairs next added)
    (h : pairs.Pairwise fun a b => rank a.1 < rank b.1) :
    next.Pairwise fun a b => rank a.1 < rank b.1 := by
  cases hs with
  | replaced _ _ _ => simpa [List.pairwise_append] using h
  | added lower higher =>
    simp only [List.pairwise_append, List.pairwise_cons, List.forall_mem_cons] at h ⊢
    exact ⟨h.1, ⟨higher, h.2.1⟩, fun p hp => ⟨lower p hp, h.2.2 p hp⟩⟩

/-- A key is added exactly if no equal one is there. -/
theorem Upserts.added_iff (hs : Upserts rank key value pairs next added) :
    added = true ↔ ∀ p ∈ pairs, rank p.1 ≠ rank key := by
  cases hs with
  | @replaced p₁ p₂ k old lower same higher =>
    simp only [Bool.false_eq_true, false_iff, not_forall]
    exact ⟨(k, old), by simp, not_not.mpr same⟩
  | @added p₁ p₂ lower higher =>
    simp only [true_iff]
    intro p hp
    rcases List.mem_append.mp hp with hp | hp
    · exact (lower p hp).ne
    · exact (higher p hp).ne'

omit [LinearOrder α] in
theorem Alike.refl (rank : K → α) (pairs : List (K × V)) : Alike rank pairs pairs :=
  List.forall₂_same.mpr fun _ _ => ⟨rfl, rfl⟩

omit [LinearOrder α] in
theorem Alike.ranks_eq (h : Alike rank pairs entries) :
    pairs.map (rank ·.1) = entries.map (rank ·.1) := by
  induction h with
  | nil => rfl
  | cons hp _ ih => rw [List.map_cons, List.map_cons, hp.1, ih]

theorem Alike.increasing (ha : Alike rank pairs entries)
    (h : pairs.Pairwise fun a b => rank a.1 < rank b.1) :
    entries.Pairwise fun a b => rank a.1 < rank b.1 := by
  have hranks : (pairs.map (rank ·.1)).Pairwise (· < ·) := List.pairwise_map.mpr h
  rw [ha.ranks_eq] at hranks
  exact List.pairwise_map.mp hranks

omit [LinearOrder α] in
theorem Alike.exists_rank {r : α} (ha : Alike rank pairs entries) (h : ∃ p ∈ pairs, rank p.1 = r) :
    ∃ e ∈ entries, rank e.1 = r := by
  have hm : r ∈ pairs.map (rank ·.1) := List.mem_map.mpr h
  rw [ha.ranks_eq] at hm
  exact List.mem_map.mp hm

end Pairs

namespace SortedPairs

variable {K V α : Type} [LinearOrder α] {compare : Comparator K} {used : K → Prop} {rank : K → α}
  {history : List (K × V)} {map : SortedPairs K V} {key : K}

/-! ## The invariant -/

structure Kept (compare : Comparator K) (used : K → Prop) (rank : K → α) (history : List (K × V))
    (map : SortedPairs K V) : Prop where
  uses : map.Uses used rank
  compares : map.compare = compare
  given : ∀ entry ∈ history, used entry.1
  increasing : map.entries.Pairwise fun a b => rank a.1 < rank b.1
  last : ∀ entry ∈ map.entries, LastOf compare history entry
  covered : ∀ entry ∈ history, ∃ mate ∈ map.entries, rank mate.1 = rank entry.1

theorem Kept.empty (hr : Ranks compare used rank) :
    Kept compare used rank [] ({ compare } : SortedPairs K V) where
  uses := ⟨hr, by simp⟩
  compares := rfl
  given := by simp
  increasing := .nil
  last := by simp
  covered := by simp

/-- No key of the list has a rank exactly if no key of the history has it. -/
theorem Kept.absent_iff (h : Kept compare used rank history map) (hu : used key) :
    (∀ entry ∈ map.entries, rank entry.1 ≠ rank key) ↔
      ∀ entry ∈ history, compare entry.1 key ≠ .ordered .eq := by
  have hr := h.compares ▸ h.uses.ranks
  have heq : ∀ entry ∈ history, compare entry.1 key = .ordered .eq ↔ rank entry.1 = rank key :=
    fun entry hm => hr.eq_iff _ _ (h.given entry hm) hu
  constructor
  · intro habsent entry hm hsame
    obtain ⟨mate, hmate, hrank⟩ := h.covered entry hm
    exact habsent mate hmate (hrank.trans ((heq entry hm).mp hsame))
  · intro habsent entry hm hsame
    have hgiven := (h.last entry hm).mem
    exact habsent entry hgiven ((heq entry hgiven).mpr hsame)

/-- One more pair is the last of its class, and every other class keeps its last pair. -/
theorem Kept.set (h : Kept compare used rank history map) (hu : used key) (value : V) :
    ∃ added next, map.set key value = .ok (next, added) ∧
      (added = true ↔ ∀ entry ∈ history, compare entry.1 key ≠ .ordered .eq) ∧
      Kept compare used rank (history ++ [(key, value)]) next := by
  obtain ⟨pairs, added, hupserts⟩ := exists_upserts h.increasing key value
  obtain ⟨entries, hset, halike, hentries⟩ := h.uses.set hu hupserts (.refl rank map.entries)
  have hr := h.compares ▸ h.uses.ranks
  refine ⟨added, { map with entries }, hset, ?_, h.uses.next hu hentries, h.compares, ?_, ?_, ?_, ?_⟩
  · rw [hupserts.added_iff, h.absent_iff hu]
  · rw [List.forall_mem_append, List.forall_mem_singleton]
    exact ⟨h.given, hu⟩
  · exact halike.increasing (hupserts.increasing h.increasing)
  · exact h.uses.last hu hentries hr h.last
  · exact fun entry hm => halike.exists_rank (hupserts.covered h.covered entry hm)

/-- Any number of pairs are set without a failure. -/
theorem Kept.setAll (h : Kept compare used rank history map) {later : List (K × V)}
    (hu : ∀ entry ∈ later, used entry.1) :
    ∃ next, map.setAll later = .ok next ∧ Kept compare used rank (history ++ later) next := by
  induction later generalizing history map with
  | nil => exact ⟨map, rfl, by simpa using h⟩
  | cons entry rest ih =>
    obtain ⟨added, next, hset, _, hnext⟩ := h.set (hu entry (by simp)) entry.2
    obtain ⟨last, hall, hlast⟩ := ih hnext fun later hl => hu later (by simp [hl])
    exact ⟨last, by simp [SortedPairs.setAll, hset, hall], by simpa using hlast⟩

/-! ## Answers -/

/-- A search in the list finds the value that the history leaves to the key. -/
theorem Kept.finds (h : Kept compare used rank history map) (hu : used key) :
    Finds rank (rank key) map.entries (lastValue? compare history key) := by
  have hr := h.compares ▸ h.uses.ranks
  obtain ⟨found, hfinds⟩ := exists_finds h.increasing (rank key)
  have hvalue : lastValue? compare history key = found := by
    cases found with
    | none =>
      apply lastValue?_eq_none
      rw [← h.absent_iff hu]
      intro entry hm hsame
      have hsome := hfinds.eq_some hm hsame
      simp at hsome
    | some value =>
      obtain ⟨entry, hm, hsame⟩ := hfinds.isSome_iff.mp rfl
      rw [hfinds.eq_some hm hsame]
      exact (h.last entry hm).lastValue?_eq hr h.given hu hsame
  rwa [hvalue]

/-- All that can be asked of a sorted list after a history, and the answers. Nothing that is asked
about a used key fails. -/
structure Recalls (compare : Comparator K) (used : K → Prop) (history : List (K × V))
    (map : SortedPairs K V) : Prop where
  increasing : (map.entries.map Prod.fst).Pairwise fun a b => compare a b = .ordered .lt
  set : ∀ key value, used key → ∃ added next, map.set key value = .ok (next, added) ∧
    (added = true ↔ ∀ entry ∈ history, compare entry.1 key ≠ .ordered .eq)
  get : ∀ key otherwise, used key →
    map.get key otherwise = .ok ((lastValue? compare history key).getD otherwise)
  contains : ∀ key, used key → map.contains key = .ok (lastValue? compare history key).isSome
  size : (classes compare history).encard = map.size
  minKey : match map.minKey with
    | none => history = []
    | some least => least ∈ history.map Prod.fst ∧
        ∀ entry ∈ history, compare least entry.1 ≠ .ordered .gt
  maxKey : match map.maxKey with
    | none => history = []
    | some greatest => greatest ∈ history.map Prod.fst ∧
        ∀ entry ∈ history, compare entry.1 greatest ≠ .ordered .gt

/-- What holds of all ranks in the list holds of those in the history. -/
theorem Kept.forall_rank (h : Kept compare used rank history map) {P : α → Prop}
    (hP : ∀ entry ∈ map.entries, P (rank entry.1)) : ∀ entry ∈ history, P (rank entry.1) := by
  intro entry hm
  obtain ⟨mate, hmate, hrank⟩ := h.covered entry hm
  exact hrank ▸ hP mate hmate

theorem Kept.history_eq_nil (h : Kept compare used rank history map) (hnil : map.entries = []) :
    history = [] :=
  List.eq_nil_iff_forall_not_mem.mpr (h.forall_rank (P := fun _ => False) (by simp [hnil]))

theorem Kept.minKey (h : Kept compare used rank history map) :
    match map.minKey with
    | none => history = []
    | some least => least ∈ history.map Prod.fst ∧ ∀ entry ∈ history, rank least ≤ rank entry.1 := by
  have hsorted := h.increasing
  unfold SortedPairs.minKey
  cases hparts : map.entries with
  | nil => exact h.history_eq_nil hparts
  | cons first rest =>
    have hfirst := (h.last first (by simp [hparts])).mem
    rw [hparts, List.pairwise_cons] at hsorted
    refine ⟨List.mem_map_of_mem hfirst, h.forall_rank ?_⟩
    rw [hparts, List.forall_mem_cons]
    exact ⟨le_rfl, fun entry hm => (hsorted.1 entry hm).le⟩

theorem Kept.maxKey (h : Kept compare used rank history map) :
    match map.maxKey with
    | none => history = []
    | some greatest => greatest ∈ history.map Prod.fst ∧
        ∀ entry ∈ history, rank entry.1 ≤ rank greatest := by
  have hsorted := h.increasing
  unfold SortedPairs.maxKey
  rcases List.eq_nil_or_concat' map.entries with hparts | ⟨rest, last, hparts⟩
  · rw [hparts]
    exact h.history_eq_nil hparts
  · have hlast := (h.last last (by simp [hparts])).mem
    rw [hparts, List.pairwise_append] at hsorted
    rw [hparts, List.getLast?_concat]
    refine ⟨List.mem_map_of_mem hlast, h.forall_rank (P := (· ≤ rank last.1)) ?_⟩
    rw [hparts, List.forall_mem_append, List.forall_mem_singleton]
    exact ⟨fun entry hm => (hsorted.2.2 entry hm last (by simp)).le, le_rfl⟩

theorem Kept.recalls (h : Kept compare used rank history map) :
    Recalls compare used history map := by
  have hr := h.compares ▸ h.uses.ranks
  have hgiven : ∀ entry ∈ map.entries, entry ∈ history := fun entry hm => (h.last entry hm).mem
  have hle : ∀ a ∈ history.map Prod.fst, ∀ b ∈ history.map Prod.fst, rank a ≤ rank b →
      compare a b ≠ .ordered .gt := by
    simp only [List.forall_mem_map]
    intro a ha b hb hab
    rw [ne_eq, hr.gt_iff _ _ (h.given a ha) (h.given b hb)]
    exact hab.not_gt
  refine ⟨?_, ?_, ?_, ?_, ?_, ?_, ?_⟩
  · refine List.pairwise_map.mpr (h.increasing.imp_of_mem fun ha hb hlt => ?_)
    exact (hr.lt_iff _ _ (h.uses.used _ ha) (h.uses.used _ hb)).mpr hlt
  · intro key value hu
    obtain ⟨added, next, hset, hadded, _⟩ := h.set hu value
    exact ⟨added, next, hset, hadded⟩
  · intro key otherwise hu
    exact h.uses.get hu (h.finds hu) otherwise
  · intro key hu
    exact h.uses.contains hu (h.finds hu)
  · exact encard_classes hr h.given (h.increasing.imp fun hlt => hlt.ne) hgiven h.covered
  · have hmin := h.minKey
    cases hkey : map.minKey with
    | none => simpa [hkey] using hmin
    | some least =>
      rw [hkey] at hmin
      exact ⟨hmin.1, fun entry hm => hle _ hmin.1 _ (List.mem_map_of_mem hm) (hmin.2 entry hm)⟩
  · have hmax := h.maxKey
    cases hkey : map.maxKey with
    | none => simpa [hkey] using hmax
    | some greatest =>
      rw [hkey] at hmax
      exact ⟨hmax.1, fun entry hm => hle _ (List.mem_map_of_mem hm) _ hmax.1 (hmax.2 entry hm)⟩

/-- After any pairs were given to a new sorted list and any more were set, the list answers as the whole
history says. -/
theorem recalls_of_orders (ho : compare.Orders used) {given later : List (K × V)}
    (hu : ∀ entry ∈ given ++ later, used entry.1) :
    ∃ start map, ofList compare given = .ok start ∧ start.setAll later = .ok map ∧
      Recalls compare used (given ++ later) map := by
  obtain ⟨α, _, rank, hr⟩ := exists_ranks ho
  have hempty : Kept compare used rank [] ({ compare } : SortedPairs K V) := .empty hr
  rw [List.forall_mem_append] at hu
  obtain ⟨start, hstart, hgiven⟩ := hempty.setAll hu.1
  obtain ⟨map, hmap, hlater⟩ := hgiven.setAll hu.2
  exact ⟨start, map, hstart, hmap, by simpa using hlater.recalls⟩

def byLength : Comparator (List Nat) := fun a b => .ordered (Ord.compare a.length b.length)

/-- Two lists are given and two more are set, one of them as long as one that was given. -/
theorem recalls_byLength :
    byLength.Orders (fun _ => True) ∧ ∃ start map : SortedPairs (List Nat) Nat,
      ofList byLength [([1, 2], 10), ([3], 20)] = .ok start ∧
        start.setAll [([4, 5], 30), ([], 40)] = .ok map ∧
        Recalls byLength (fun _ => True) [([1, 2], 10), ([3], 20), ([4, 5], 30), ([], 40)] map ∧
        map.get [6, 7] 0 = .ok 30 ∧ map.contains [6, 7, 8] = .ok false := by
  have horders : byLength.Orders (fun _ => True) := (ranks_of_rank List.length _).orders
  have hu : ∀ entry ∈ [([1, 2], 10), ([3], 20)] ++ [([4, 5], 30), ([], 40)],
      (fun _ : List Nat => True) entry.1 := fun _ _ => trivial
  obtain ⟨start, map, hstart, hmap, hrecalls⟩ := recalls_of_orders horders hu
  exact ⟨horders, start, map, hstart, hmap, hrecalls, hrecalls.get [6, 7] 0 trivial,
    hrecalls.contains [6, 7, 8] trivial⟩

end SortedPairs
end OrderedIndex
