import Mathlib.Data.Set.Card
import OrderedIndex.Proofs.Order

/-!
# Histories of pairs

What a list of pairs, given one by one, says of each class of equal keys: its first key, its last pair,
the value that is left, and how many classes there are. No map is looked at here. Which keys are equal is
for the comparator to say.
-/
namespace OrderedIndex

variable {K V : Type}

/-! ## First and last of equal keys -/

/-- The key is in the history, and no equal key before it. -/
def FirstOf (compare : Comparator K) (history : List (K × V)) (key : K) : Prop :=
  ∃ before value after, history = before ++ (key, value) :: after ∧
    ∀ entry ∈ before, compare entry.1 key ≠ .ordered .eq

/-- The pair is in the history, and no equal key after it. -/
def LastOf (compare : Comparator K) (history : List (K × V)) (pair : K × V) : Prop :=
  ∃ before after, history = before ++ pair :: after ∧
    ∀ entry ∈ after, compare entry.1 pair.1 ≠ .ordered .eq

section FirstAndLast

variable {compare : Comparator K} {history rest : List (K × V)} {key : K} {value : V}
  {entry pair : K × V}

theorem not_firstOf_nil : ¬ FirstOf compare ([] : List (K × V)) key := by
  rintro ⟨before, value, after, hparts, _⟩
  simp at hparts

theorem not_lastOf_nil : ¬ LastOf compare [] pair := by
  rintro ⟨before, after, hparts, _⟩
  simp at hparts

theorem firstOf_cons : FirstOf compare (entry :: rest) key ↔
    entry.1 = key ∨ compare entry.1 key ≠ .ordered .eq ∧ FirstOf compare rest key := by
  constructor
  · rintro ⟨before, value, after, hparts, hb⟩
    cases before with
    | nil =>
      obtain ⟨rfl, rfl⟩ := List.cons.inj hparts
      exact .inl rfl
    | cons first before =>
      obtain ⟨rfl, rfl⟩ := List.cons.inj hparts
      rw [List.forall_mem_cons] at hb
      exact .inr ⟨hb.1, before, value, after, rfl, hb.2⟩
  · rintro (rfl | ⟨hne, before, value, after, rfl, hb⟩)
    · exact ⟨[], entry.2, rest, rfl, by simp⟩
    · exact ⟨entry :: before, value, after, rfl, List.forall_mem_cons.mpr ⟨hne, hb⟩⟩

theorem lastOf_cons : LastOf compare (entry :: rest) pair ↔
    (entry = pair ∧ ∀ later ∈ rest, compare later.1 pair.1 ≠ .ordered .eq) ∨
      LastOf compare rest pair := by
  constructor
  · rintro ⟨before, after, hparts, ha⟩
    cases before with
    | nil =>
      obtain ⟨rfl, rfl⟩ := List.cons.inj hparts
      exact .inl ⟨rfl, ha⟩
    | cons first before =>
      obtain ⟨rfl, rfl⟩ := List.cons.inj hparts
      exact .inr ⟨before, after, rfl, ha⟩
  · rintro (⟨rfl, ha⟩ | ⟨before, after, rfl, ha⟩)
    · exact ⟨[], rest, rfl, ha⟩
    · exact ⟨entry :: before, after, rfl, ha⟩

theorem FirstOf.mem (h : FirstOf compare history key) : ∃ value, (key, value) ∈ history := by
  obtain ⟨before, value, after, rfl, _⟩ := h
  exact ⟨value, by simp⟩

theorem LastOf.mem (h : LastOf compare history pair) : pair ∈ history := by
  obtain ⟨before, after, rfl, _⟩ := h
  simp

theorem FirstOf.append (h : FirstOf compare history key) (later : List (K × V)) :
    FirstOf compare (history ++ later) key := by
  obtain ⟨before, value, after, rfl, hb⟩ := h
  exact ⟨before, value, after ++ later, by simp, hb⟩

theorem firstOf_new (h : ∀ entry ∈ history, compare entry.1 key ≠ .ordered .eq) :
    FirstOf compare (history ++ [(key, value)]) key :=
  ⟨history, value, [], rfl, h⟩

theorem LastOf.append (h : LastOf compare history pair) (hne : compare key pair.1 ≠ .ordered .eq) :
    LastOf compare (history ++ [(key, value)]) pair := by
  obtain ⟨before, after, rfl, ha⟩ := h
  refine ⟨before, after ++ [(key, value)], by simp, ?_⟩
  intro entry hm
  rcases List.mem_append.mp hm with hm | hm
  · exact ha entry hm
  · obtain rfl := List.mem_singleton.mp hm
    exact hne

theorem lastOf_new : LastOf compare (history ++ [pair]) pair := ⟨history, [], rfl, by simp⟩

end FirstAndLast

/-! ## Values and classes -/

/-- The value that a history leaves to a key: the last one given under an equal key. -/
def lastValue? (compare : Comparator K) (history : List (K × V)) (key : K) : Option V :=
  (history.findRev? fun entry => compare entry.1 key == .ordered .eq).map Prod.snd

def classOf (compare : Comparator K) (history : List (K × V)) (key : K) : Set K :=
  {other | other ∈ history.map Prod.fst ∧ compare other key = .ordered .eq}

/-- The classes of equal keys in a history. -/
def classes (compare : Comparator K) (history : List (K × V)) : Set (Set K) :=
  {keys | ∃ key ∈ history.map Prod.fst, keys = classOf compare history key}

section Values

variable {α : Type} [LinearOrder α] {compare : Comparator K} {used : K → Prop} {rank : K → α}
  {history entries : List (K × V)} {key : K} {pair : K × V}

theorem lastValue?_eq_none (h : ∀ entry ∈ history, compare entry.1 key ≠ .ordered .eq) :
    lastValue? compare history key = none := by
  rw [lastValue?, List.findRev?_eq_find?_reverse, Option.map_eq_none_iff, List.find?_eq_none]
  intro entry hm
  simpa using h entry (List.mem_reverse.mp hm)

/-- The last pair of a class has the value that is left to every key of the class. -/
theorem LastOf.lastValue?_eq (h : LastOf compare history pair) (hr : Ranks compare used rank)
    (hu : ∀ entry ∈ history, used entry.1) (hk : used key) (same : rank pair.1 = rank key) :
    lastValue? compare history key = some pair.2 := by
  have hpair := hu pair h.mem
  obtain ⟨before, after, rfl, ha⟩ := h
  have hlater : after.reverse.find? (fun entry => compare entry.1 key == .ordered .eq) = none := by
    rw [List.find?_eq_none]
    intro entry hm
    have hm := List.mem_reverse.mp hm
    have hentry : used entry.1 := hu entry (by simp [hm])
    have hne := ha entry hm
    rw [ne_eq, hr.eq_iff _ _ hentry hpair, same] at hne
    simpa [hr.eq_iff _ _ hentry hk] using hne
  have heq : compare pair.1 key = .ordered .eq := (hr.eq_iff _ _ hpair hk).mpr same
  simp [lastValue?, List.findRev?_eq_find?_reverse, List.find?_append, hlater, heq]

/-- Two keys of a history are in one class exactly if they are equal. -/
theorem classOf_eq_iff (hr : Ranks compare used rank) (hu : ∀ entry ∈ history, used entry.1) {a b : K}
    (ha : a ∈ history.map Prod.fst) (hb : used b) :
    classOf compare history a = classOf compare history b ↔ rank a = rank b := by
  have hkeys : ∀ k ∈ history.map Prod.fst, used k := by simpa using fun k v h => hu (k, v) h
  constructor
  · intro h
    have hself : a ∈ classOf compare history a :=
      ⟨ha, (hr.eq_iff _ _ (hkeys a ha) (hkeys a ha)).mpr rfl⟩
    rw [h] at hself
    exact (hr.eq_iff _ _ (hkeys a ha) hb).mp hself.2
  · intro h
    ext k
    refine and_congr_right fun hk => ?_
    rw [hr.eq_iff _ _ (hkeys k hk) (hkeys a ha), hr.eq_iff _ _ (hkeys k hk) hb, h]

/-- Pairs of a history, one for each class, are as many as there are classes. -/
theorem encard_classes (hr : Ranks compare used rank) (hu : ∀ entry ∈ history, used entry.1)
    (apart : entries.Pairwise fun a b => rank a.1 ≠ rank b.1) (kept : ∀ entry ∈ entries, entry ∈ history)
    (covered : ∀ entry ∈ history, ∃ mate ∈ entries, rank mate.1 = rank entry.1) :
    (classes compare history).encard = entries.length := by
  classical
  have hkey : ∀ entry ∈ entries, entry.1 ∈ history.map Prod.fst :=
    fun entry hm => List.mem_map_of_mem (kept entry hm)
  have hlist : classes compare history =
      {keys | keys ∈ entries.map fun entry => classOf compare history entry.1} := by
    ext keys
    simp only [classes, List.mem_map, Set.mem_ofPred_eq]
    constructor
    · rintro ⟨_, ⟨entry, hm, rfl⟩, rfl⟩
      obtain ⟨mate, hmate, hrank⟩ := covered entry hm
      exact ⟨mate, hmate, (classOf_eq_iff hr hu (hkey mate hmate) (hu entry hm)).mpr hrank⟩
    · rintro ⟨mate, hmate, rfl⟩
      exact ⟨mate.1, ⟨mate, kept mate hmate, rfl⟩, rfl⟩
  have hnodup : (entries.map fun entry => classOf compare history entry.1).Nodup := by
    refine List.pairwise_map.mpr (apart.imp_of_mem fun ha hb hne heq => hne ?_)
    exact (classOf_eq_iff hr hu (hkey _ ha) (hu _ (kept _ hb))).mp heq
  rw [hlist, ← List.coe_toFinset, Set.encard_coe_eq_coe_finsetCard,
    List.toFinset_card_of_nodup hnodup, List.length_map]

end Values

end OrderedIndex
