import Mathlib.Logic.Function.Iterate
import OrderedIndex.Proofs.Number
import OrderedIndex.Proofs.Order
import OrderedIndex.Value.Order

/-!
# The natural order is a total preorder

Every value that does not stand for a record has a place, a list of integers, and the natural order is
the dictionary order of places. A place says first where the kind of the core stands to objects, next how
often the value is wrapped, and only then which core it is: wrapped values are objects themselves, so the
fewer wraps are left, the sooner a value is told apart from objects. Unwrapping two objects moves both of
their places by the same amount.
-/
namespace OrderedIndex

/-! ## Places of numbers -/

namespace Number

@[simp] theorem sign_ofOrdering (order : Ordering) : (ofOrdering order).sign = some order := by
  have hminus : (-1 : Number) = ofInt (-1) := neg_one
  have hone : (1 : Number) = ofInt 1 := rfl
  have hzero : (0 : Number) = ofInt 0 := rfl
  cases order with
  | lt => rw [ofOrdering, hminus, sign, hzero, compare?_ofInt]; rfl
  | eq => rw [ofOrdering, hzero, sign, hzero, compare?_ofInt]; rfl
  | gt => rw [ofOrdering, hone, sign, hzero, compare?_ofInt]; rfl

/-- The place of a number: NaN, then minus infinity, the finite ones, and infinity. -/
def place : Number → List Int
  | .nan => [0]
  | .infinite true => [1]
  | .finite negative magnitude => [2, signed negative magnitude]
  | .infinite false => [3]

theorem compare?_eq_place {x y : Number} (hx : x ≠ .nan) (hy : y ≠ .nan) :
    compare? x y = some (Ord.compare x.place y.place) := by
  cases x with
  | nan => exact absurd rfl hx
  | infinite a =>
    cases y with
    | nan => exact absurd rfl hy
    | infinite b => cases a <;> cases b <;> rfl
    | finite b n => cases a <;> rfl
  | finite a m =>
    cases y with
    | nan => exact absurd rfl hy
    | infinite b => cases b <;> rfl
    | finite b n =>
      rw [compare?_finite, place, place, List.compare_cons_cons, List.compare_cons_cons]
      simp

theorem ofInt_ne_nan (i : Int) : ofInt i ≠ .nan := fun h => Number.noConfusion h

/-- Only the two zeros share a place. -/
theorem place_injective {x y : Number} (h : x.place = y.place) :
    x = y ∨ ∃ a b, x = .finite a 0 ∧ y = .finite b 0 := by
  cases x with
  | nan =>
    cases y with
    | nan => exact .inl rfl
    | infinite b => cases b <;> cases h
    | finite b n => cases h
  | infinite a =>
    cases y with
    | nan => cases a <;> cases h
    | infinite b => cases a <;> cases b <;> first | exact .inl rfl | cases h
    | finite b n => cases a <;> cases h
  | finite a m =>
    cases y with
    | nan => cases h
    | infinite b => cases b <;> cases h
    | finite b n =>
      have hs : signed a m = signed b n := by simpa [place] using h
      cases a <;> cases b <;> simp only [signed_false, signed_true] at hs
      · exact .inl (congrArg _ (Int.ofNat.inj hs))
      · obtain ⟨rfl, rfl⟩ : m = 0 ∧ n = 0 := by omega
        exact .inr ⟨_, _, rfl, rfl⟩
      · obtain ⟨rfl, rfl⟩ : m = 0 ∧ n = 0 := by omega
        exact .inr ⟨_, _, rfl, rfl⟩
      · exact .inl (congrArg _ (by omega))

end Number

namespace Value

/-- Numbers are compared by their places. -/
theorem sign_compareNumbers (x y : Number) :
    (compareNumbers x y).sign = some (Ord.compare x.place y.place) := by
  by_cases hx : x = .nan
  · subst hx
    cases y with
    | nan => exact Number.sign_ofOrdering .eq
    | infinite b => cases b <;> exact Number.sign_ofOrdering .lt
    | finite b n => exact Number.sign_ofOrdering .lt
  · by_cases hy : y = .nan
    · subst hy
      cases x with
      | nan => exact absurd rfl hx
      | infinite a => cases a <;> exact Number.sign_ofOrdering .gt
      | finite a m => exact Number.sign_ofOrdering .gt
    · have hplace := Number.compare?_eq_place hx hy
      unfold compareNumbers
      split
      · split
        · next heq =>
          rw [← hplace, heq]
          exact Number.sign_ofOrdering .eq
        · rw [Number.sign_finite_sub, hplace]
      · exact absurd rfl hx
      · exact absurd rfl hx
      · exact absurd rfl hy
      · rw [hplace, Option.getD_some, Number.sign_ofOrdering]

/-! ## Cores -/

/-- What a value stands for once all its wraps are taken off. -/
def core (v : Value) : Value := unwrap^[v.wraps] v

@[simp] theorem core_boxed (v : Value) : (boxed v).core = v.core := rfl
@[simp] theorem core_date (time : Option Int) : (date time).core = .number (timeNumber time) := rfl
@[simp] theorem core_list (items : List Value) : (list items).core = .list items := rfl
@[simp] theorem core_record (fields : List (String × Value)) :
    (record fields).core = .record fields := rfl

/-- The value does not stand for a record. -/
def Placed (v : Value) : Prop := v.core.isRecord = false

theorem core_eq_self {v : Value} (hv : v.isObject = false) : v.core = v := by
  cases v <;> first | rfl | cases hv

theorem wraps_eq_zero {v : Value} (hv : v.isObject = false) : v.wraps = 0 := by
  cases v <;> first | rfl | cases hv

/-- Nothing is left to unwrap in a core. -/
theorem core_cases : ∀ v : Value,
    v.core.isObject = false ∨ (∃ items, v.core = .list items) ∨ v.core.isRecord = true
  | .boxed v => core_cases v
  | .list items => .inr (.inl ⟨items, rfl⟩)
  | .record _ => .inr (.inr rfl)
  | .absent | .null | .bool _ | .number _ | .string _ | .date _ => .inl rfl

theorem core_unwrap (v : Value) : v.unwrap.core = v.core := by
  cases v <;> rfl

theorem Placed.unwrap {v : Value} (hv : v.Placed) : v.unwrap.Placed := by
  rwa [Placed, core_unwrap]

theorem Placed.isRecord_eq_false {v : Value} (hv : v.Placed) : v.isRecord = false := by
  cases v <;> first | rfl | cases hv

/-! ## Places -/

/-- Where the kind of a value stands to that of objects. -/
def side (v : Value) : Int := Int.sign (v.rank - 3)

def detail : Value → List Int
  | .bool b => [b.toNat]
  | .number x => x.place
  | .string s => (Text.units s).map Int.ofNat
  | .list items => (Text.units (listText items)).map Int.ofNat
  | _ => []

/-- The place of a value in the natural order. Of the values whose cores come before objects, those with
fewer wraps come first; of those whose cores come after objects, those with more. -/
def place (v : Value) : List Int :=
  v.core.side :: -(v.core.side * v.wraps) :: v.core.rank :: v.core.detail

theorem side_cases (v : Value) : v.rank < 3 ∧ v.side = -1 ∨ v.rank = 3 ∧ v.side = 0 ∨
    3 < v.rank ∧ v.side = 1 := by
  cases v <;> simp [side, rank]

theorem compare_natCast (m n : Nat) : Ord.compare (m : Int) n = Ord.compare m n := by
  simp only [Int.compare_eq_ite_lt, Nat.compare_eq_ite_lt, Int.ofNat_lt]

theorem compare_map_ofNat (us vs : List Nat) :
    Ord.compare (us.map Int.ofNat) (vs.map Int.ofNat) = Ord.compare us vs := by
  induction us generalizing vs with
  | nil => cases vs <;> rfl
  | cons u us ih =>
    cases vs with
    | nil => rfl
    | cons v vs =>
      rw [List.map_cons, List.map_cons, List.compare_cons_cons, List.compare_cons_cons, ih]
      exact congrArg (Ordering.then · _) (compare_natCast u v)

theorem compare_place (a b : Value) :
    Ord.compare a.place b.place = (Ord.compare a.core.side b.core.side).then
      ((Ord.compare (-(a.core.side * a.wraps)) (-(b.core.side * b.wraps))).then
        ((Ord.compare a.core.rank b.core.rank).then (Ord.compare a.core.detail b.core.detail))) := by
  simp only [place, List.compare_cons_cons, compare_natCast]

/-! ## Objects in step -/

theorem wraps_unwrap {v : Value} (object : v.isObject = true) (record : v.isRecord = false) :
    v.core.side * v.unwrap.wraps = v.core.side * v.wraps - v.core.side := by
  cases v with
  | boxed v => simp [unwrap, wraps, Int.mul_add]
  | date time => simp [unwrap, wraps]
  | list items => simp [unwrap, side, rank]
  | _ => simp_all [isObject, isRecord, rank]

/-- Unwrapping two objects keeps the order of their places. -/
theorem compare_place_unwrap {a b : Value} (objectA : a.isObject = true)
    (recordA : a.isRecord = false) (objectB : b.isObject = true) (recordB : b.isRecord = false) :
    Ord.compare a.unwrap.place b.unwrap.place = Ord.compare a.place b.place := by
  have hshift (p q r : Int) : Ord.compare (-(p - r)) (-(q - r)) = Ord.compare (-p) (-q) := by
    simp only [Int.compare_eq_ite_lt]
    simp
  rw [compare_place, compare_place, core_unwrap, core_unwrap, wraps_unwrap objectA recordA,
    wraps_unwrap objectB recordB]
  by_cases hs : a.core.side = b.core.side
  · rw [hs, hshift]
  · have hne : Ord.compare a.core.side b.core.side ≠ .eq := fun h => hs (Std.compare_eq_iff_eq.mp h)
    cases hc : Ord.compare a.core.side b.core.side with
    | eq => exact absurd hc hne
    | _ => rfl

/-! ## Values that are not unwrapped -/

theorem compareUnwrapped_of_ne {a b : Value} (h : a.rank ≠ b.rank) :
    compareUnwrapped a b = .ofOrdering (Ord.compare a.rank b.rank) := by
  unfold compareUnwrapped
  split <;> simp_all [rank]

theorem sign_compareUnwrapped_of_eq {a b : Value} (h : a.rank = b.rank)
    (kind : a.isObject = false ∨ a.isList = true ∧ b.isList = true) :
    (compareUnwrapped a b).sign = some (Ord.compare a.detail b.detail) := by
  cases a <;> cases b <;>
    simp_all [compareUnwrapped, rank, detail, isObject, isList, sign_compareNumbers, Text.compare,
      compare_map_ofNat, compare_natCast]

theorem nonobject_or_lists {a b : Value} (h : unwrapsWith a b = false) (hr : a.rank = b.rank) :
    a.isObject = false ∨ a.isList = true ∧ b.isList = true := by
  cases ha : a.isObject with
  | false => exact .inl rfl
  | true =>
    have hb : b.isObject = true := by rwa [isObject, ← hr]
    simpa [unwrapsWith, ha, hb] using h

/-- Values that are not unwrapped always have an order. -/
theorem exists_sign_compareUnwrapped {a b : Value} (h : unwrapsWith a b = false) :
    ∃ order, (compareUnwrapped a b).sign = some order := by
  by_cases hr : a.rank = b.rank
  · exact ⟨_, sign_compareUnwrapped_of_eq hr (nonobject_or_lists h hr)⟩
  · exact ⟨_, compareUnwrapped_of_ne hr ▸ Number.sign_ofOrdering _⟩

/-- An object whose core is not one is wrapped. -/
theorem Placed.wraps_pos {v : Value} (hv : v.Placed) (object : v.isObject = true) :
    v.core.side = 0 ∨ 0 < v.wraps := by
  cases v with
  | list items => exact .inl rfl
  | date time => exact .inr Nat.one_pos
  | boxed v => exact .inr (Nat.succ_pos _)
  | _ => cases hv <;> cases object

theorem compare_place_eq_lt {a b : Value} (h : a.core.side < b.core.side ∨
    a.core.side = b.core.side ∧ (b.core.side * b.wraps < a.core.side * a.wraps ∨
      a.core.side * a.wraps = b.core.side * b.wraps ∧ a.core.rank < b.core.rank)) :
    Ord.compare a.place b.place = .lt := by
  rw [compare_place]
  rcases h with hside | ⟨hside, hwraps | ⟨hwraps, hrank⟩⟩
  · rw [Int.compare_eq_lt.mpr hside]
    rfl
  · rw [Int.compare_eq_eq.mpr hside, Int.compare_eq_lt.mpr (by omega)]
    rfl
  · rw [Int.compare_eq_eq.mpr hside, Int.compare_eq_eq.mpr (by omega), Nat.compare_eq_lt.mpr hrank]
    rfl

/-- Places are ordered as kinds are, wrapped values being objects themselves. -/
theorem compare_place_of_rank_lt {a b : Value} (ha : a.Placed) (hb : b.Placed)
    (h : a.rank < b.rank) : Ord.compare a.place b.place = .lt := by
  apply compare_place_eq_lt
  cases hA : a.isObject with
  | true =>
    -- `b` comes after objects and is not wrapped
    have hrank : a.rank = 3 := by simpa [isObject] using hA
    have hB : b.isObject = false := by simp [isObject]; omega
    have hwraps := ha.wraps_pos hA
    have hsideA := side_cases a.core
    have hsideB := side_cases b
    rw [core_eq_self hB, wraps_eq_zero hB]
    by_cases hone : a.core.side = 1
    · rw [hone]
      omega
    · omega
  | false =>
    have hsideA := side_cases a
    rw [core_eq_self hA, wraps_eq_zero hA]
    cases hB : b.isObject with
    | true =>
      have hrank : b.rank = 3 := by simpa [isObject] using hB
      have hwraps := hb.wraps_pos hB
      have hsideB := side_cases b.core
      by_cases hone : b.core.side = -1
      · rw [hone]
        omega
      · omega
    | false =>
      have hsideB := side_cases b
      rw [core_eq_self hB, wraps_eq_zero hB]
      omega

/-- Values that are not unwrapped are compared by their places. -/
theorem sign_compareUnwrapped {a b : Value} (ha : a.Placed) (hb : b.Placed)
    (h : unwrapsWith a b = false) :
    (compareUnwrapped a b).sign = some (Ord.compare a.place b.place) := by
  rcases Nat.lt_trichotomy a.rank b.rank with hr | hr | hr
  · rw [compareUnwrapped_of_ne (Nat.ne_of_lt hr), Number.sign_ofOrdering,
      compare_place_of_rank_lt ha hb hr, Nat.compare_eq_lt.mpr hr]
  · have hkind := nonobject_or_lists h hr
    rw [sign_compareUnwrapped_of_eq hr hkind, compare_place]
    rcases hkind with hA | ⟨hA, hB⟩
    · have hB : b.isObject = false := by rwa [isObject, ← hr]
      have hside : a.side = b.side := by rw [side, side, hr]
      rw [core_eq_self hA, core_eq_self hB, wraps_eq_zero hA, wraps_eq_zero hB, hside, hr]
      simp
    · cases a <;> cases hA
      cases b <;> cases hB
      rfl
  · rw [compareUnwrapped_of_ne (Nat.ne_of_gt hr), Number.sign_ofOrdering, Std.OrientedOrd.eq_swap,
      Nat.compare_eq_lt.mpr hr, Std.OrientedOrd.eq_swap (a := a.place),
      compare_place_of_rank_lt hb ha hr]

/-! ## The order of places -/

theorem isObject_of_unwrapsWith {a b : Value} (h : unwrapsWith a b = true) :
    a.isObject = true ∧ b.isObject = true := by
  rw [unwrapsWith, Bool.and_eq_true, Bool.and_eq_true] at h
  exact h.1

/-- The natural order is the order of places. -/
theorem sign_compare {a b : Value} (ha : a.Placed) (hb : b.Placed) :
    (Value.compare a b).sign = some (Ord.compare a.place b.place) := by
  fun_induction Value.compare a b with
  | case1 a b together record =>
    simp [ha.isRecord_eq_false, hb.isRecord_eq_false] at record
  | case2 a b together record ih =>
    obtain ⟨objectA, objectB⟩ := isObject_of_unwrapsWith together
    rw [ih ha.unwrap hb.unwrap,
      compare_place_unwrap objectA ha.isRecord_eq_false objectB hb.isRecord_eq_false]
  | case3 a b together => exact sign_compareUnwrapped ha hb (Bool.eq_false_of_not_eq_true together)

/-! ## Equal places -/

inductive Same : Value → Value → Prop
  | self {v : Value} (primitive : v.isObject = false) : Same v v
  | zeros (a b : Bool) : Same (.number (.finite a 0)) (.number (.finite b 0))

/-- Two values that stand for the same primitive value after as many steps, or for lists with one text
after any numbers of steps. -/
inductive Alike (a b : Value) : Prop
  | primitives (steps : a.wraps = b.wraps) (same : Same a.core b.core)
  | lists (xs ys : List Value) (left : a.core = .list xs) (right : b.core = .list ys)
      (texts : listText xs = listText ys)

theorem map_units_injective {s t : String}
    (h : (Text.units s).map Int.ofNat = (Text.units t).map Int.ofNat) : s = t :=
  Text.units_injective ((List.map_inj_right fun _ _ => Int.ofNat.inj).mp h)

theorem same_of_detail {a b : Value} (primitive : a.isObject = false) (hr : a.rank = b.rank)
    (hd : a.detail = b.detail) : Same a b := by
  cases a <;> cases b <;> cases hr <;> cases primitive
  case absent.absent => exact .self rfl
  case null.null => exact .self rfl
  case bool.bool a b =>
    have hab : a = b := by cases a <;> cases b <;> first | rfl | cases hd
    exact hab ▸ .self rfl
  case number.number x y =>
    rcases Number.place_injective hd with rfl | ⟨a, b, rfl, rfl⟩
    · exact .self rfl
    · exact .zeros a b
  case string.string s t => exact map_units_injective hd ▸ .self rfl

theorem Same.rank_eq {a b : Value} (h : Same a b) : a.rank = b.rank ∧ a.detail = b.detail := by
  cases h with
  | self => exact ⟨rfl, rfl⟩
  | zeros a b => simp [rank, detail, Number.place]

/-- Only alike values share a place. -/
theorem place_eq_iff {a b : Value} (ha : a.Placed) (hb : b.Placed) :
    a.place = b.place ↔ Alike a b := by
  constructor
  · intro h
    simp only [place, List.cons.injEq] at h
    obtain ⟨hside, hwraps, hrank, hdetail⟩ := h
    have hrank : a.core.rank = b.core.rank := Int.ofNat.inj hrank
    rcases core_cases a with hA | ⟨xs, hA⟩ | hA
    · refine .primitives ?_ (same_of_detail hA hrank hdetail)
      have hcases := side_cases a.core
      have hne : a.core.rank ≠ 3 := by simpa [isObject] using hA
      rw [← hside] at hwraps
      rcases (by omega : a.core.side = -1 ∨ a.core.side = 1) with hs | hs
      · rw [hs] at hwraps
        omega
      · rw [hs] at hwraps
        omega
    · rcases core_cases b with hB | ⟨ys, hB⟩ | hB
      · have hlist : b.core.rank = 3 := by rw [← hrank, hA, rank]
        simp [isObject, hlist] at hB
      · rw [hA, hB] at hdetail
        exact .lists xs ys hA hB (map_units_injective hdetail)
      · simp [Placed, hB] at hb
    · simp [Placed, hA] at ha
  · rintro (⟨hsteps, hsame⟩ | ⟨xs, ys, hA, hB, htexts⟩)
    · obtain ⟨hrank, hdetail⟩ := hsame.rank_eq
      simp only [place, side, hsteps, hrank, hdetail]
    · simp [place, hA, hB, side, rank, detail, htexts]

/-! ## Records -/

/-- Unwrapped in step, the two values come to a record and an object. -/
def MeetsRecord (a b : Value) : Prop :=
  ∃ n, (unwrap^[n] a).isObject = true ∧ (unwrap^[n] b).isObject = true ∧
    ((unwrap^[n] a).isRecord = true ∨ (unwrap^[n] b).isRecord = true)

theorem meetsRecord_unwrap {a b : Value} (hA : a.isRecord = false) (hB : b.isRecord = false) :
    MeetsRecord a.unwrap b.unwrap ↔ MeetsRecord a b := by
  constructor
  · rintro ⟨n, h⟩
    exact ⟨n + 1, h⟩
  · rintro ⟨n, h⟩
    cases n with
    | zero => simp [hA, hB] at h
    | succ n => exact ⟨n, h⟩

theorem iterate_unwrap {v : Value} (h : v.isObject = false ∨ v.isList = true) (n : Nat) :
    unwrap^[n] v = v := by
  apply Function.iterate_fixed
  rcases h with h | h <;> cases v <;> first | rfl | cases h

theorem not_meetsRecord {a b : Value} (h : unwrapsWith a b = false) : ¬ MeetsRecord a b := by
  rintro ⟨n, objectA, objectB, record⟩
  cases hA : a.isObject with
  | false =>
    rw [iterate_unwrap (.inl hA), hA] at objectA
    cases objectA
  | true =>
    cases hB : b.isObject with
    | false =>
      rw [iterate_unwrap (.inl hB), hB] at objectB
      cases objectB
    | true =>
      obtain ⟨listA, listB⟩ : a.isList = true ∧ b.isList = true := by
        simpa [unwrapsWith, hA, hB] using h
      rw [iterate_unwrap (.inr listA), iterate_unwrap (.inr listB)] at record
      cases a <;> cases listA
      cases b <;> cases listB
      simp [isRecord] at record

/-- The natural order has no answer exactly where it comes to a record and an object. -/
theorem compare_eq_nan_iff (a b : Value) : Value.compare a b = .nan ↔ MeetsRecord a b := by
  fun_induction Value.compare a b with
  | case1 a b together record =>
    obtain ⟨objectA, objectB⟩ := isObject_of_unwrapsWith together
    exact iff_of_true rfl ⟨0, objectA, objectB, by simpa using record⟩
  | case2 a b together record ih =>
    simp only [Bool.or_eq_true, not_or, Bool.not_eq_true] at record
    rw [ih, meetsRecord_unwrap record.1 record.2]
  | case3 a b together =>
    have hapart := Bool.eq_false_of_not_eq_true together
    obtain ⟨order, horder⟩ := exists_sign_compareUnwrapped hapart
    refine iff_of_false ?_ (not_meetsRecord hapart)
    intro hnan
    rw [hnan] at horder
    cases horder

/-! ## The natural order -/

/-- The natural order is a total preorder of the values that do not stand for records. It calls equal
what stands for the same primitive value after as many steps, and lists with one text. With records, it
has no answer exactly where unwrapping in step comes to a record and an object. -/
theorem compare_totalPreorder :
    (Comparator.ofMeasure Value.compare).Orders Placed ∧
    (∀ a b : Value, a.Placed → b.Placed →
      (Comparator.ofMeasure Value.compare a b = .ordered .eq ↔ Alike a b)) ∧
    ∀ a b : Value, Value.compare a b = .nan ↔ MeetsRecord a b := by
  have hcompare (a b : Value) (ha : a.Placed) (hb : b.Placed) :
      Comparator.ofMeasure Value.compare a b = .ordered (Ord.compare a.place b.place) := by
    rw [Comparator.ofMeasure_apply, sign_compare ha hb, Comparison.ofOption_some]
  refine ⟨orders_of_place hcompare, ?_, compare_eq_nan_iff⟩
  intro a b ha hb
  rw [hcompare a b ha hb, Comparison.ordered.injEq, Std.compare_eq_iff_eq, place_eq_iff ha hb]

/-- A list of two texts, a list with the same text in two wraps, one with a lower text, two dates, and a
wrapped record. -/
theorem compare_totalPreorder_lists :
    let items : Value := .list [.string "a", .string "b"]
    let wrapped : Value := .boxed (.boxed (.list [.string "a,b"]))
    let lower : Value := .list [.string "a", .number 7]
    let first : Value := .date (some 0)
    let second : Value := .date (some 86400000)
    let shell : Value := .boxed (.record [])
    items.Placed ∧ wrapped.Placed ∧ lower.Placed ∧ first.Placed ∧ second.Placed ∧
      Comparator.ofMeasure Value.compare items wrapped = .ordered .eq ∧
      ¬ Alike items lower ∧ Comparator.ofMeasure Value.compare items lower = .ordered .gt ∧
      ¬ Alike first second ∧ Comparator.ofMeasure Value.compare first second = .ordered .lt ∧
      Value.compare items shell = .nan := by
  intro items wrapped lower first second shell
  have hitems : items.Placed := rfl
  have hwrapped : wrapped.Placed := rfl
  have hlower : lower.Placed := rfl
  have hfirst : first.Placed := rfl
  have hsecond : second.Placed := rfl
  obtain ⟨_, hequal, hrecord⟩ := compare_totalPreorder
  have halike : Alike items wrapped := .lists _ _ rfl rfl (by decide)
  have hmeets : MeetsRecord items shell := ⟨1, rfl, rfl, .inr rfl⟩
  have habove : Comparator.ofMeasure Value.compare items lower = .ordered .gt := by
    unfold items lower
    decide +kernel
  have hbelow : Comparator.ofMeasure Value.compare first second = .ordered .lt := by
    unfold first second
    decide +kernel
  refine ⟨hitems, hwrapped, hlower, hfirst, hsecond, (hequal items wrapped hitems hwrapped).mpr halike,
    ?_, habove, ?_, hbelow, (hrecord items shell).mpr hmeets⟩
  · rw [← hequal items lower hitems hlower, habove]
    decide
  · rw [← hequal first second hfirst hsecond, hbelow]
    decide

end Value
end OrderedIndex
