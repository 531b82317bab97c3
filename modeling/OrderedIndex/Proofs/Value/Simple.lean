import OrderedIndex.Proofs.Value.Order
import OrderedIndex.Value.Rule

/-!
# The simple order on values of one kind

The simple order compares numbers directly, dates by their times, and texts and lists by units of text;
the natural one subtracts finite numbers and unwraps dates. On the numbers but NaN, on texts, on valid
dates and on lists they agree. Nothing is said of values of two kinds, which the simple order may read
as numbers.
-/
namespace OrderedIndex
namespace Value

inductive Kind where
  | number | text | date | list
  deriving DecidableEq, Repr

inductive Kind.Has : Kind → Value → Prop
  | number {x : Number} (ordered : x ≠ .nan) : Has .number (.number x)
  | text (s : String) : Has .text (.string s)
  | date (time : Int) : Has .date (.date (some time))
  | list (items : List Value) : Has .list (.list items)

/-- No value of a kind is NaN. -/
theorem Kind.Has.isNaN_eq_false {kind : Kind} {v : Value} (h : kind.Has v) : Key.isNaN v = false := by
  cases h with
  | @number x ordered => cases x <;> first | rfl | exact absurd rfl ordered
  | _ => rfl

/-! ## Either order on one kind -/

theorem compare_of_apart {a b : Value} (h : unwrapsWith a b = false) :
    Value.compare a b = compareUnwrapped a b := by
  rw [Value.compare, dif_neg (Bool.eq_false_iff.mp h)]

/-- The natural order unwraps two dates to their times, -/
theorem compare_dates (s t : Option Int) :
    Value.compare (.date s) (.date t) =
      Value.compare (.number (timeNumber s)) (.number (timeNumber t)) := by
  have together : unwrapsWith (.date s) (.date t) = true := rfl
  have noRecord : ((Value.date s).isRecord || (Value.date t).isRecord) = false := rfl
  rw [Value.compare, dif_pos together, dif_neg (Bool.eq_false_iff.mp noRecord)]
  rfl

/-- and the simple one reads them as these numbers. -/
theorem compareSimple_dates (s t : Option Int) :
    compareSimple (.date s) (.date t) =
      compareSimple (.number (timeNumber s)) (.number (timeNumber t)) := rfl

theorem sign_compareSimple (a b : Value) :
    (compareSimple a b).sign = some ((relation? a b).getD .eq) :=
  Number.sign_ofOrdering _

theorem agree_numbers {x y : Number} (hx : x ≠ .nan) (hy : y ≠ .nan) :
    ∃ order, (compareSimple (.number x) (.number y)).sign = some order ∧
      (Value.compare (.number x) (.number y)).sign = some order := by
  have hrelation : relation? (.number x) (.number y) = some (Ord.compare x.place y.place) :=
    Number.compare?_eq_place hx hy
  refine ⟨Ord.compare x.place y.place, ?_, ?_⟩
  · rw [sign_compareSimple, hrelation, Option.getD_some]
  · rw [compare_of_apart rfl]
    exact sign_compareNumbers x y

/-- Two values of one kind have an order, which is the sign of both answers. -/
theorem Kind.Has.agree {kind : Kind} {a b : Value} (ha : kind.Has a) (hb : kind.Has b) :
    ∃ order, (compareSimple a b).sign = some order ∧ (Value.compare a b).sign = some order := by
  cases ha with
  | number hx =>
    cases hb with
    | number hy => exact agree_numbers hx hy
  | text s =>
    cases hb with
    | text t =>
      rw [compare_of_apart rfl]
      exact ⟨Text.compare s t, Number.sign_ofOrdering _, Number.sign_ofOrdering _⟩
  | date s =>
    cases hb with
    | date t =>
      rw [compareSimple_dates, compare_dates]
      exact agree_numbers (Number.ofInt_ne_nan s) (Number.ofInt_ne_nan t)
  | list xs =>
    cases hb with
    | list ys =>
      rw [compare_of_apart rfl, sign_compareSimple, relation?, primitive_list, primitive_list]
      exact ⟨Text.compare (listText xs) (listText ys), rfl, Number.sign_ofOrdering _⟩

/-- The two comparators say the same of values of one kind. -/
theorem Kind.Has.comparator_eq {kind : Kind} {a b : Value} (ha : kind.Has a) (hb : kind.Has b) :
    Rule.simple.comparator a b = Rule.natural.comparator a b := by
  obtain ⟨order, hsimple, hnatural⟩ := ha.agree hb
  rw [Rule.comparator_simple, Rule.comparator_natural, Comparator.ofMeasure_apply,
    Comparator.ofMeasure_apply, hsimple, hnatural]

end Value
end OrderedIndex
