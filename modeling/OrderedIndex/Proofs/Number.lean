import OrderedIndex.Number.Word

/-!
# Whole numbers without rounding

Below `2 ^ 53` steps of one, differences and halves of whole numbers are exact, so counters and limits
are what they would be among the natural numbers. A rounded number is never less than half of what was
rounded, which is enough for limits too large to be exact, and for the sign of any difference.
-/
namespace OrderedIndex
namespace Number

/-! ## Rounding -/

theorem twoTo_add (m n : Nat) : twoTo (m + n) = twoTo m * twoTo n := Nat.pow_add 2 m n

theorem twoTo_le {m n : Nat} (h : m ≤ n) : twoTo m ≤ twoTo n := Nat.pow_le_pow_right (by decide) h

theorem twoTo_dvd {m n : Nat} (h : m ≤ n) : twoTo m ∣ twoTo n := Nat.pow_dvd_pow 2 h

theorem lt_log2_iff {n k : Nat} (h : n ≠ 0) : n.log2 < k ↔ n < twoTo k := Nat.log2_lt h

theorem twoTo_succ (n : Nat) : twoTo (n + 1) = 2 * twoTo n := Nat.pow_succ'

theorem one_eq : one = 2 * twoTo 1073 := by
  unfold one
  exact twoTo_succ 1073

/-- A ratio with a remainder of zero is not rounded. -/
theorem roundHalfEven_mul (n : Nat) {den : Nat} (hd : 0 < den) : roundHalfEven (n * den) den = n := by
  simp [roundHalfEven, hd]

/-- A number whose last kept place divides it is not rounded. -/
theorem ofRatio_mul {negative : Bool} {n den : Nat} (hd : 0 < den) (hstep : twoTo (excess n) ∣ n)
    (hlimit : n < limit) : ofRatio negative (n * den) den = .finite negative n := by
  obtain ⟨c, hc⟩ := hstep
  have hq : n * den / den = n := Nat.mul_div_cancel n hd
  have hround : roundHalfEven (n * den) (den * twoTo (excess n)) = c := by
    have hn : n * den = c * (den * twoTo (excess n)) := by
      rw [Nat.mul_comm den, ← Nat.mul_assoc, Nat.mul_comm c, ← hc]
    rw [hn, roundHalfEven_mul c (Nat.mul_pos hd (twoTo_pos _))]
  simp only [ofRatio, hq, hround]
  rw [Nat.mul_comm c, ← hc, if_pos hlimit]

theorem twoTo_excess_dvd {n k : Nat} (h : n < twoTo 53) :
    twoTo (excess (n * twoTo k)) ∣ n * twoTo k := by
  by_cases hn : n = 0
  · simp [hn]
  · have hlog : (n * twoTo k).log2 < 53 + k := by
      rw [lt_log2_iff (Nat.mul_ne_zero hn (Nat.ne_of_gt (twoTo_pos k))), twoTo_add]
      exact Nat.mul_lt_mul_of_pos_right h (twoTo_pos k)
    have he : excess (n * twoTo k) ≤ k := by
      unfold excess
      omega
    exact Nat.dvd_mul_left_of_dvd (twoTo_dvd he) n

/-- Fewer than `2 ^ 53` units of any size are held exactly. -/
theorem ofRatio_scaled (negative : Bool) {n k den : Nat} (hd : 0 < den) (h : n < twoTo 53)
    (hk : k ≤ 2045) : ofRatio negative (n * twoTo k * den) den = .finite negative (n * twoTo k) := by
  apply ofRatio_mul hd (twoTo_excess_dvd h)
  have hlimit : limit = twoTo 2098 := by unfold limit; rfl
  have hle : twoTo 53 * twoTo k ≤ limit := by
    rw [hlimit, ← twoTo_add]
    exact twoTo_le (by omega)
  exact Nat.lt_of_lt_of_le (Nat.mul_lt_mul_of_pos_right h (twoTo_pos k)) hle

theorem ofRatio_whole {negative : Bool} {n : Nat} (h : n < twoTo 53) :
    ofRatio negative (n * one) 1 = .finite negative (n * one) := by
  have hone : one = twoTo 1074 := by unfold one; rfl
  have hr := ofRatio_scaled negative Nat.one_pos h (show 1074 ≤ 2045 by decide)
  rwa [Nat.mul_one, ← hone] at hr

/-! ## Sums and differences of one -/

theorem ofNat_eq (n : Nat) : ofNat n = .finite false (n * one) := by
  simp [ofNat, ofInt]

@[simp] theorem zero_lt_ofNat {n : Nat} : (0 : Number) < .ofNat n ↔ 0 < n := ofNat_lt_ofNat

/-- The difference of two whole numbers is the exact one, rounded. -/
theorem ofInt_sub {i j : Int} (hz : i - j ≠ 0) :
    ofInt i - ofInt j = ofRatio (i - j < 0) ((i - j).natAbs * one) 1 := by
  have hone : (0 : Int) < one := by exact_mod_cast one_pos
  have hd : signed (i < 0) (i.natAbs * one) - signed (j < 0) (j.natAbs * one) = (i - j) * one := by
    rw [signed_natAbs_mul, signed_natAbs_mul, Int.sub_mul]
  have hne : (i - j) * (one : Int) ≠ 0 := Int.mul_ne_zero hz (Int.ne_of_gt hone)
  have hneg : (i - j) * (one : Int) < 0 ↔ i - j < 0 := by
    simpa using Int.mul_lt_mul_right (b := i - j) (c := 0) hone
  have hs : ofInt i - ofInt j = sub (ofInt i) (ofInt j) := rfl
  rw [hs]
  simp only [ofInt, sub, hd]
  rw [if_neg hne, Int.natAbs_mul, Int.natAbs_natCast]
  simp only [hneg]

theorem ofInt_sub_ofInt {i j : Int} (h : (i - j).natAbs < twoTo 53) :
    ofInt i - ofInt j = ofInt (i - j) := by
  by_cases hz : i - j = 0
  · have hij : i = j := by omega
    have hs : ofInt j - ofInt j = sub (ofInt j) (ofInt j) := rfl
    rw [hij, hs]
    simp [ofInt, sub]
  · rw [ofInt_sub hz, ofRatio_whole h]
    rfl

theorem neg_one : -(1 : Number) = ofInt (-1) := rfl

theorem ofNat_add_one {n : Nat} (h : n + 1 < twoTo 53) : ofNat n + 1 = ofNat (n + 1) := by
  have hs : ofNat n + 1 = ofInt n - -(1 : Number) := rfl
  rw [hs, neg_one, ofInt_sub_ofInt]
  · rfl
  · have : ((n : Int) - -1).natAbs = n + 1 := by omega
    rwa [this]

theorem ofNat_sub_one {n : Nat} (hn : 1 ≤ n) (h : n < twoTo 53) : ofNat n - 1 = ofNat (n - 1) := by
  have hs : ofNat n - 1 = ofInt n - ofInt 1 := rfl
  have hd : ((n : Int) - 1) = (n - 1 : Nat) := by omega
  rw [hs, ofInt_sub_ofInt, hd]
  · rfl
  · have : ((n : Int) - 1).natAbs = n - 1 := by omega
    omega

/-- A counter is exact up to where its steps are. -/
theorem count_eq_ofNat {n : Nat} (h : n < twoTo 53) : count n = ofNat n := by
  induction n with
  | zero => rfl
  | succ n ih => rw [count_succ, ih (by omega), ofNat_add_one h]

theorem compare?_ofRatio_self (negative : Bool) (num den : Nat) :
    compare? (ofRatio negative num den) (ofRatio negative num den) = some .eq := by
  simp only [ofRatio]
  split
  · simp
  · simp [compare?]

/-- Equal numbers stay equal when one is added, whatever the signs of zeros. -/
theorem equals_add_one {x y : Number} (h : x.equals y = true) : (x + 1).equals (y + 1) = true := by
  have hs (z : Number) : z + 1 = z.sub (.finite true (1 * one)) := rfl
  simp only [equals, beq_iff_eq] at h ⊢
  rw [hs, hs]
  cases x with
  | nan => simp [compare?] at h
  | infinite a =>
    cases y with
    | nan => simp [compare?] at h
    | infinite b => simpa [sub] using h
    | finite b n => cases a <;> simp [compare?] at h
  | finite a m =>
    cases y with
    | nan => simp [compare?] at h
    | infinite b => cases b <;> simp [compare?] at h
    | finite b n =>
      rw [compare?_finite, Option.some.injEq, Int.compare_eq_eq] at h
      simp only [sub, h]
      by_cases hz : signed b n - signed true (1 * one) = 0
      · rw [if_pos hz, if_pos hz, compare?_finite, signed_zero, signed_zero]
        rfl
      · rw [if_neg hz, if_neg hz]
        exact compare?_ofRatio_self _ _ _

/-! ## Limits -/

theorem le_roundHalfEven (num den : Nat) : num / den ≤ roundHalfEven num den := by
  unfold roundHalfEven
  split
  · exact Nat.le_refl _
  · split <;> omega

/-- Dropping the places beyond those that are kept loses at most half of a count. -/
theorem le_two_mul_kept (q : Nat) : q ≤ 2 * (q / twoTo (excess q) * twoTo (excess q)) := by
  by_cases hq : q = 0
  · omega
  · have hle : excess q ≤ q.log2 := by
      unfold excess
      omega
    have hstep : twoTo (excess q) ≤ q := Nat.le_trans (twoTo_le hle) (Nat.log2_self_le hq)
    have hmod := Nat.mod_add_div q (twoTo (excess q))
    have hlt := Nat.mod_lt q (twoTo_pos (excess q))
    have hone : 1 * twoTo (excess q) ≤ q / twoTo (excess q) * twoTo (excess q) :=
      Nat.mul_le_mul_right _ (Nat.div_pos hstep (twoTo_pos _))
    rw [Nat.mul_comm] at hmod
    omega

/-- Rounding loses at most half of a magnitude. -/
theorem ofRatio_cases (negative : Bool) (num den : Nat) :
    ofRatio negative num den = .infinite negative ∨
      ∃ magnitude, ofRatio negative num den = .finite negative magnitude ∧
        num / den ≤ 2 * magnitude := by
  have hround := le_roundHalfEven num (den * twoTo (excess (num / den)))
  rw [← Nat.div_div_eq_div_mul] at hround
  have hkept := Nat.mul_le_mul_right (twoTo (excess (num / den))) hround
  simp only [ofRatio]
  split
  · exact .inr ⟨_, rfl, Nat.le_trans (le_two_mul_kept _) (Nat.mul_le_mul_left 2 hkept)⟩
  · exact .inl rfl

theorem finite_lt_finite {m n : Nat} : finite false m < finite false n ↔ m < n := by
  rw [lt_iff, compare?_finite, Option.some.injEq, signed_false, signed_false, Int.compare_eq_lt]
  omega

theorem twoTo_fiftyThree : twoTo 53 = 8 * twoTo 50 := twoTo_add 3 50

/-- A limit one below a whole number, for counts that are not themselves huge. -/
theorem ofNat_sub_one_lt {n count : Nat} (hn : 1 ≤ n) (hc : count < twoTo 50) :
    ofNat n - 1 < ofNat count ↔ n ≤ count := by
  by_cases hsmall : n < twoTo 53
  · rw [ofNat_sub_one hn hsmall, ofNat_lt_ofNat]
    omega
  · -- `n` is not exact, but half of it is above any such count
    have hbig := twoTo_fiftyThree
    have hd : ofNat n - 1 = ofRatio false ((n - 1) * one) 1 := by
      have hs : ofNat n - 1 = ofInt n - ofInt 1 := rfl
      have habs : ((n : Int) - 1).natAbs = n - 1 := by omega
      have hneg : ¬(n : Int) - 1 < 0 := by omega
      rw [hs, ofInt_sub (by omega), habs, decide_eq_false hneg]
    have hle := Nat.mul_le_mul_right one (show 2 * count ≤ n - 1 by omega)
    constructor
    · intro h
      rw [hd] at h
      rcases ofRatio_cases false ((n - 1) * one) 1 with hr | ⟨magnitude, hr, hm⟩
      · rw [hr, ofNat_eq] at h
        simp [lt_iff, compare?] at h
      · rw [hr, ofNat_eq, finite_lt_finite] at h
        rw [Nat.div_one] at hm
        rw [Nat.mul_assoc] at hle
        omega
    · omega

theorem ceil_finite (magnitude : Nat) :
    (finite false magnitude).ceil =
      .finite false ((if magnitude % one ≠ 0 then magnitude / one + 1 else magnitude / one) * one) := by
  have hc : (finite false magnitude).ceil = -(-finite false magnitude).floor := rfl
  have hn : -finite false magnitude = finite true magnitude := rfl
  rw [hc, hn, floor]
  simp only [true_and]
  rfl

theorem le_ceil_finite (magnitude : Nat) :
    ∃ m, (finite false magnitude).ceil = .finite false m ∧ magnitude ≤ m := by
  refine ⟨_, ceil_finite magnitude, ?_⟩
  have hmod := Nat.mod_add_div magnitude one
  have hlt := Nat.mod_lt magnitude one_pos
  rw [Nat.mul_comm] at hmod
  split
  · rw [Nat.add_mul]
    omega
  · omega

/-- Half of a whole number, rounded up. -/
theorem ceil_half {n : Nat} (h : n < twoTo 53) : ((ofNat n).divNat 2).ceil = ofNat ((n + 1) / 2) := by
  have hhalf : (ofNat n).divNat 2 = .finite false (n * twoTo 1073) := by
    have hr := ofRatio_scaled false Nat.two_pos h (show 1073 ≤ 2045 by decide)
    rw [ofNat_eq, divNat, one_eq, Nat.mul_comm 2, ← Nat.mul_assoc, hr]
  have hpos := twoTo_pos 1073
  have hdiv : n * twoTo 1073 / one = n / 2 := by
    rw [one_eq, Nat.mul_div_mul_right _ _ hpos]
  have hmod : n * twoTo 1073 % one = n % 2 * twoTo 1073 := by
    rw [one_eq, Nat.mul_mod_mul_right]
  rw [hhalf, ceil_finite, hdiv, hmod, ofNat_eq]
  by_cases hodd : n % 2 = 0
  · have hceil : (n + 1) / 2 = n / 2 := by omega
    rw [hodd, Nat.zero_mul, if_neg (by simp), hceil]
  · have hceil : (n + 1) / 2 = n / 2 + 1 := by omega
    rw [if_pos (Nat.mul_ne_zero hodd (Nat.ne_of_gt hpos)), hceil]

/-- A least count of half a whole number, for counts that are not themselves huge. -/
theorem ofNat_lt_ceil_half {n count : Nat} (hc : count < twoTo 50) :
    ofNat count < ((ofNat n).divNat 2).ceil ↔ count < (n + 1) / 2 := by
  by_cases hsmall : n < twoTo 53
  · rw [ceil_half hsmall, ofNat_lt_ofNat]
  · have hbig := twoTo_fiftyThree
    have hle := Nat.mul_le_mul_right one (show 8 * count + 8 ≤ n by omega)
    have hone := one_pos
    constructor
    · omega
    · intro _
      rw [ofNat_eq n, divNat]
      rcases ofRatio_cases false (n * one) 2 with hr | ⟨magnitude, hr, hm⟩
      · rw [hr, ofNat_eq]
        rfl
      · obtain ⟨m, hceil, hge⟩ := le_ceil_finite magnitude
        rw [hr, hceil, ofNat_eq, finite_lt_finite]
        rw [Nat.add_mul, Nat.mul_assoc] at hle
        omega

/-- Half of a word is never above half of the number. -/
theorem halfWord_le (n : Nat) : (ofNat n).halfWord ≤ (n / 2 : Nat) := by
  have hle : (ofNat n).toWord ≤ n := by
    rw [toWord, truncate_ofNat, Int.bmod]
    unfold wordCount
    split <;> omega
  unfold halfWord
  omega

/-! ## Signs -/

theorem sign_finite (negative : Bool) (magnitude : Nat) :
    (finite negative magnitude).sign = some (compare (signed negative magnitude) 0) := by
  have hzero : (0 : Number) = .finite false (0 * one) := ofNat_eq 0
  rw [sign, hzero, compare?_finite, Nat.zero_mul, signed_zero]

theorem sign_infinite (negative : Bool) :
    (infinite negative).sign = some (if negative then .lt else .gt) := by
  have hzero : (0 : Number) = .finite false (0 * one) := ofNat_eq 0
  rw [sign, hzero, compare?]

/-- Rounding keeps the sign of what is not zero. -/
theorem sign_ofRatio_one (negative : Bool) {n : Nat} (hn : 0 < n) :
    (ofRatio negative n 1).sign = some (if negative then .lt else .gt) := by
  rcases ofRatio_cases negative n 1 with h | ⟨magnitude, h, hle⟩
  · rw [h, sign_infinite]
  · rw [Nat.div_one] at hle
    rw [h, sign_finite]
    cases negative with
    | false =>
      rw [signed_false, Option.some.injEq]
      exact Int.compare_eq_gt.mpr (by omega)
    | true =>
      rw [signed_true, Option.some.injEq]
      exact Int.compare_eq_lt.mpr (by omega)

/-- The rounded difference of finite numbers has the sign of the exact one. -/
theorem sign_finite_sub (a b : Bool) (m n : Nat) :
    (finite a m - finite b n).sign = compare? (finite a m) (finite b n) := by
  have hs : finite a m - finite b n = sub (finite a m) (finite b n) := rfl
  rw [hs, compare?_finite]
  simp only [sub]
  by_cases hz : signed a m - signed b n = 0
  · have heq : signed a m = signed b n := by omega
    rw [if_pos hz, sign_finite, signed_zero, heq, Option.some.injEq]
    rw [Int.compare_eq_eq.mpr rfl, Int.compare_eq_eq.mpr rfl]
  · rw [if_neg hz, sign_ofRatio_one _ (by omega), Option.some.injEq]
    by_cases hlt : signed a m - signed b n < 0
    · rw [decide_eq_true hlt, if_pos rfl]
      exact (Int.compare_eq_lt.mpr (by omega)).symm
    · rw [decide_eq_false hlt, if_neg Bool.false_ne_true]
      exact (Int.compare_eq_gt.mpr (by omega)).symm

end Number
end OrderedIndex
