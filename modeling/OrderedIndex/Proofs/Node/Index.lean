import OrderedIndex.Proofs.Node.Locate

/-!
# Positions as words

A search in one node answers with one word: the index of a match as it is, or the index of a gap with
some of its bits flipped. If the keys below what is sought come first, then those equal to it and then
those above, the answer is exact, and so is the child that a branch sends the key to. Whatever the
comparator says, a word with all bits flipped tells a gap from a match.
-/
namespace OrderedIndex

/-- To flip all bits of an index is to take its complement. -/
theorem wordXor_neg_one {n : Nat} (small : n < Number.twoTo 30) : wordXor n (-1) = -(n : Int) - 1 := by
  have hn : n < 2 ^ 30 := small
  have hflip : BitVec.ofInt 32 n ^^^ BitVec.ofInt 32 (-1) = ~~~ BitVec.ofNat 32 n := by
    have hones : BitVec.ofInt 32 (-1) = BitVec.allOnes 32 := rfl
    rw [BitVec.ofInt_natCast, hones, BitVec.xor_allOnes]
  have hwrap : 2 ^ 32 - 1 - (n : Int) = -(n : Int) - 1 + (2 ^ 32 : Nat) := by omega
  rw [wordXor, hflip, BitVec.toInt_not, BitVec.toNat_ofNat, Nat.mod_eq_of_lt (by omega), hwrap,
    Int.add_bmod_right]
  apply Int.bmod_eq_of_le <;> omega

namespace Node

variable {K : Type} [Key K] {compare : Comparator K} {keys before same after : List K} {key : K}

/-- The keys below what is sought, those equal to it, and those above, as the comparator answers. -/
structure Graded (compare : Comparator K) (key : K) (before same after : List K) : Prop where
  lower : ∀ k ∈ before, compare k key = .ordered .lt
  equal : ∀ k ∈ same, compare k key = .ordered .eq
  higher : ∀ k ∈ after, compare k key = .ordered .gt

/-- A search ends at one of the equal keys, or between the others if there is none. -/
theorem Graded.locate_cases (h : Graded compare key before same after) :
    (same = [] ∧ locate compare (before ++ same ++ after) key = .ok (.gap before.length)) ∨
      ∃ i, locate compare (before ++ same ++ after) key = .ok (.found i) ∧
        before.length ≤ i ∧ i < before.length + same.length := by
  have hstaged := staged_append h.lower h.equal h.higher
  rw [List.length_append] at hstaged
  rcases search_staged hstaged (Nat.le_add_right _ _) with ⟨hgap, hnone⟩ | ⟨i, hfound, hi⟩
  · left
    exact ⟨List.length_eq_zero_iff.mp (by omega), locate_of_search_ok hgap⟩
  · right
    exact ⟨i, locate_of_search_ok hfound, hi⟩

theorem Graded.locate_eq_found (h : Graded compare key before same after) (hne : same ≠ []) :
    ∃ i, locate compare (before ++ same ++ after) key = .ok (.found i) := by
  rcases h.locate_cases with ⟨hnone, _⟩ | ⟨i, hfound, _⟩
  · exact absurd hnone hne
  · exact ⟨i, hfound⟩

theorem Graded.locate_eq_gap (h : Graded compare key before [] after) :
    locate compare (before ++ [] ++ after) key = .ok (.gap before.length) := by
  rcases h.locate_cases with ⟨_, hgap⟩ | ⟨i, _, hle, hlt⟩
  · exact hgap
  · simp only [List.length_nil] at hlt
    omega

/-- With at most one equal key, a key is sent to the child after all keys that are not above it. -/
theorem Graded.childIndex_eq (h : Graded compare key before same after) (hone : same.length ≤ 1) :
    childIndex compare (before ++ same ++ after) key = .ok (before ++ same).length := by
  rw [childIndex, List.length_append]
  rcases h.locate_cases with ⟨rfl, hgap⟩ | ⟨i, hfound, hle, hlt⟩
  · rw [hgap]
    rfl
  · have hi : before.length + same.length = i + 1 := by omega
    rw [hfound, hi]
    rfl

omit [Key K] in
/-- The keys that are not above the one sought end where the first key above it stands. -/
theorem Graded.findIdx_eq (h : Graded compare key before same after) :
    (before ++ same ++ after).findIdx (fun k => compare k key == .ordered .gt) =
      (before ++ same).length := by
  have hlow : (before ++ same).findIdx (fun k => compare k key == .ordered .gt) =
      (before ++ same).length := by
    rw [List.findIdx_eq_length]
    intro k hk
    rcases List.mem_append.mp hk with hk | hk
    · simp [h.lower k hk]
    · simp [h.equal k hk]
  rw [List.findIdx_append, hlow, if_neg (Nat.lt_irrefl _)]
  cases after with
  | nil => simp
  | cons k after => simp [List.findIdx_cons, h.higher k (by simp)]

/-- An answer with all bits of a gap flipped is the index of an equal key, or the complement of a
position among the keys. -/
theorem toWord_of_locate (few : keys.length < Number.twoTo 30) {word : Int}
    (h : (locate compare keys key).map (Slot.toWord (-1)) = .ok word) :
    (∃ (i : Nat) (k : K), word = i ∧ keys[i]? = some k ∧ compare k key = .ordered .eq) ∨
      ∃ p : Nat, p ≤ keys.length ∧ word = -(p : Int) - 1 := by
  cases hl : locate compare keys key with
  | error e => simp [hl, Except.map] at h
  | ok slot =>
    rw [hl] at h
    obtain rfl := Except.ok.inj h
    cases slot with
    | found i =>
      obtain ⟨k, hk, heq⟩ := locate_found hl
      exact .inl ⟨i, k, rfl, hk, heq⟩
    | gap p =>
      have hp := locate_gap_le hl
      exact .inr ⟨p, hp, wordXor_neg_one (by omega)⟩

/-- Searches in one node are exact. Let the keys below the one sought come first, then the equal ones,
and then those above. If there is an equal key, the answer is the index of one; if there is none, it is
the number of keys below, with the bits flipped that are asked for, which for all bits is the complement
of that number. With at most one equal key, the key is sent to the child after all keys not above it,
which is where the first key above it stands. Under any comparator, an answer with all bits of a gap
flipped is the index of an equal key or the complement of a position, and a child that a key is sent to
is one beside the keys. -/
theorem search_words_exact (few : keys.length < Number.twoTo 30) (compare : Comparator K) (key : K) :
    (∀ before same after, keys = before ++ same ++ after → Graded compare key before same after →
        (same ≠ [] → ∃ (i : Nat) (k : K), keys[i]? = some k ∧ compare k key = .ordered .eq ∧
          ∀ mark, (locate compare keys key).map (Slot.toWord mark) = .ok i) ∧
        (same = [] →
          (∀ mark, (locate compare keys key).map (Slot.toWord mark) =
            .ok (wordXor before.length mark)) ∧
          wordXor before.length (-1) = -(before.length : Int) - 1) ∧
        (same.length ≤ 1 → childIndex compare keys key = .ok (before ++ same).length ∧
          keys.findIdx (fun k => compare k key == .ordered .gt) = (before ++ same).length)) ∧
      (∀ word, (locate compare keys key).map (Slot.toWord (-1)) = .ok word →
        (∃ (i : Nat) (k : K), word = i ∧ keys[i]? = some k ∧ compare k key = .ordered .eq) ∨
          ∃ p : Nat, p ≤ keys.length ∧ word = -(p : Int) - 1) ∧
      ∀ i, childIndex compare keys key = .ok i → i ≤ keys.length := by
  refine ⟨?_, fun word hword => toWord_of_locate few hword, fun i hi => childIndex_le hi⟩
  rintro before same after rfl hgraded
  refine ⟨fun hne => ?_, fun hnone => ?_, fun hone => ⟨hgraded.childIndex_eq hone, hgraded.findIdx_eq⟩⟩
  · obtain ⟨i, hfound⟩ := hgraded.locate_eq_found hne
    obtain ⟨k, hk, heq⟩ := locate_found hfound
    refine ⟨i, k, hk, heq, fun mark => ?_⟩
    rw [hfound]
    rfl
  · subst hnone
    have hbefore : before.length < Number.twoTo 30 := by
      simp only [List.length_append] at few
      omega
    refine ⟨fun mark => ?_, wordXor_neg_one hbefore⟩
    rw [hgraded.locate_eq_gap]
    rfl

/-- Two equal keys, of which either may be found; a key between the others; and a comparator that never
gives an order, under which every key goes to the end. -/
theorem search_words_exact_repeated :
    [3, 7, 7, 9].length < Number.twoTo 30 ∧
      Graded Key.natural 7 [3] [7, 7] [9] ∧ Graded Key.natural 8 [3, 7, 7] [] [9] ∧
      (∃ i k : Nat, [3, 7, 7, 9][i]? = some k ∧ Key.natural k 7 = .ordered .eq ∧
        (locate Key.natural [3, 7, 7, 9] 7).map (Slot.toWord 5) = .ok i) ∧
      (locate Key.natural [3, 7, 7, 9] 8).map (Slot.toWord (-1)) = .ok (-4) ∧
      childIndex Key.natural [3, 7, 7, 9] 8 = .ok 3 ∧
      ∃ word, (locate (fun _ _ => .blocked .unordered) [3, 7, 7, 9] 8).map (Slot.toWord (-1)) = .ok word ∧
        ((∃ (i k : Nat), word = i ∧ [3, 7, 7, 9][i]? = some k ∧
            (Comparison.blocked .unordered) = .ordered .eq) ∨
          ∃ p : Nat, p ≤ 4 ∧ word = -(p : Int) - 1) := by
  have hfew : [3, 7, 7, 9].length < Number.twoTo 30 := by decide
  have hequal : Graded Key.natural 7 [3] [7, 7] [9] := by
    constructor <;> decide
  have hmissing : Graded Key.natural 8 [3, 7, 7] [] [9] := by
    constructor <;> decide
  obtain ⟨hparts, _⟩ := search_words_exact hfew Key.natural 7
  obtain ⟨hparts', _⟩ := search_words_exact hfew Key.natural 8
  obtain ⟨_, hwords, _⟩ := search_words_exact hfew (fun _ _ => .blocked .unordered) 8
  obtain ⟨i, k, hk, heq, hword⟩ := (hparts [3] [7, 7] [9] rfl hequal).1 (by simp)
  obtain ⟨_, hgap, hchild⟩ := hparts' [3, 7, 7] [] [9] rfl hmissing
  obtain ⟨hgap, hcomplement⟩ := hgap rfl
  refine ⟨hfew, hequal, hmissing, ⟨i, k, hk, heq, hword 5⟩, ?_, (hchild (by simp)).1, -5, ?_, ?_⟩
  · rw [hgap, hcomplement]
    rfl
  · cbv
  · exact hwords (-5) (by cbv)

end Node
end OrderedIndex
