import OrderedIndex.Node.Audit
import OrderedIndex.Proofs.Node.Problems

/-!
# Deciding and recording

A check that keeps a record and one that does not are the same walk with different exits. For every node
and every comparator, both decide alike: without a record the outcome is the property that the check is
named for, and with one it is the same outcome together with the problems of the report.
-/
namespace OrderedIndex

variable {K V : Type} {compare : Comparator K}

namespace Audit

/-- What a check does without a record and with one, given whether it meets a comparison that is refused:
the same outcome, and the problems are added at the end of the record. -/
structure Agrees (audit : Audit K) (holds refused : Bool) (problems : List (Problem K)) : Prop where
  decides : refused = false → audit none = .ok (holds, none)
  records : ∀ record, audit (some record) =
    if refused then .error .refused else .ok (holds, some (record ++ problems))

theorem agrees_pass : (pass : Audit K).Agrees true false [] where
  decides _ := rfl
  records record := by simp [pass]

theorem agrees_require (holds : Bool) (problem : Problem K) :
    (require holds problem).Agrees holds false (if holds then [] else [problem]) where
  decides _ := by cases holds <;> rfl
  records record := by cases holds <;> simp [require, Record.add]

theorem agrees_forbid (p : Prop) [Decidable p] (problem : Problem K) :
    (require (!decide p) problem).Agrees (!decide p) false (if p then [problem] else []) := by
  have h := agrees_require (!decide p) problem
  by_cases hp : p <;> simpa [hp] using h

/-- A comparison that gives no order meets no condition. -/
theorem agrees_requireOrder (a b : K) (wanted : Ordering → Bool) (problem : Problem K) {holds : Bool}
    (honest : holds = true ↔ ∃ order, compare a b = .ordered order ∧ wanted order = true) :
    (requireOrder (compare a b) wanted problem).Agrees holds (compare.refuses a b)
      (if holds then [] else [problem]) := by
  unfold requireOrder Comparator.refuses
  generalize compare a b = outcome at honest
  cases outcome with
  | ordered order =>
    have hholds : holds = wanted order := by
      rw [Bool.eq_iff_iff, honest]
      simp
    rw [hholds]
    exact agrees_require (wanted order) problem
  | blocked why =>
    have hholds : holds = false := by
      rw [← Bool.not_eq_true, honest]
      simp
    rw [hholds]
    cases why with
    | unordered => exact agrees_require false problem
    | refused => exact ⟨fun h => by simp at h, fun _ => rfl⟩

section Sequences

variable {first second : Audit K} {holds holds' refused refused' : Bool}
  {problems problems' : List (Problem K)}

theorem Agrees.andAlso (h : first.Agrees holds refused problems)
    (h' : second.Agrees holds' refused' problems') :
    (first.andAlso second).Agrees (holds && holds') (refused || refused') (problems ++ problems') where
  decides hno := by
    obtain ⟨hno, hno'⟩ := Bool.or_eq_false_iff.mp hno
    rw [Audit.andAlso, h.decides hno]
    cases holds with
    | false => rfl
    | true => simp [h'.decides hno']
  records record := by
    rw [Audit.andAlso, h.records]
    cases refused with
    | true => rfl
    | false =>
      simp only [Bool.false_eq_true, if_false, Bool.false_or, h'.records]
      cases refused' <;> simp

/-- A check that is not made has no problems and makes no comparisons. -/
theorem Agrees.andThen (h : first.Agrees holds refused problems)
    (h' : second.Agrees holds' refused' problems') :
    (first.andThen second).Agrees (holds && holds') (refused || holds && refused')
      (problems ++ if holds then problems' else []) where
  decides hno := by
    obtain ⟨hno, hno'⟩ := Bool.or_eq_false_iff.mp hno
    rw [Audit.andThen, h.decides hno]
    cases holds with
    | false => rfl
    | true => exact h'.decides hno'
  records record := by
    rw [Audit.andThen, h.records]
    cases refused with
    | true => rfl
    | false =>
      cases holds with
      | false => simp
      | true => simp [h'.records]

end Sequences

end Audit

namespace Node

open Audit

variable (compare)

/-! ## Keys in order -/

theorem agrees_auditOrder (path : List Nat) (index : Nat) (keys : List K) :
    (auditOrder compare path index keys).Agrees (increasing compare keys)
      (refusedInRow compare keys) (orderProblems compare path index keys) := by
  fun_induction auditOrder compare path index keys with
  | case1 index a b rest ih =>
    have hlt : (compare a b == .ordered .lt) = true ↔
        ∃ order, compare a b = .ordered order ∧ (order == .lt) = true := by simp
    have hfirst := agrees_requireOrder a b (· == .lt) ⟨path, .notIncreasing index a b⟩ hlt
    rw [increasing, refusedInRow, orderProblems]
    simpa using hfirst.andAlso ih
  | case2 keys index hshort =>
    cases keys with
    | nil => exact agrees_pass
    | cons a rest =>
      cases rest with
      | nil => exact agrees_pass
      | cons b rest => exact absurd rfl (hshort a b rest)

mutual

theorem agrees_auditSorted (path : List Nat) (node : Node K V) :
    (node.auditSorted compare path).Agrees (node.isSorted compare) (node.isOrderRefused compare)
      (node.sortedProblems compare path) := by
  match node with
  | leaf keys _ =>
    rw [auditSorted, isSorted, isOrderRefused, sortedProblems]
    exact agrees_auditOrder compare path 1 keys
  | branch keys children =>
    rw [auditSorted, isSorted, isOrderRefused, sortedProblems]
    exact (agrees_auditOrder compare path 1 keys).andAlso (agrees_auditSortedFrom path 0 children)

theorem agrees_auditSortedFrom (path : List Nat) (index : Nat) (nodes : List (Node K V)) :
    (auditSortedFrom compare path index nodes).Agrees (allSorted compare nodes)
      (anyOrderRefused compare nodes) (sortedProblemsFrom compare path index nodes) := by
  match nodes with
  | [] =>
    rw [auditSortedFrom, allSorted, anyOrderRefused, sortedProblemsFrom]
    exact agrees_pass
  | child :: rest =>
    rw [auditSortedFrom, allSorted, anyOrderRefused, sortedProblemsFrom]
    exact (agrees_auditSorted _ child).andAlso (agrees_auditSortedFrom path (index + 1) rest)

end

/-! ## Separators -/

theorem agrees_auditLower (low : Option K) (path : List Nat) (key : K) :
    (auditLower compare low path key).Agrees (reaches compare low key)
      (low.any (compare.refuses key))
      (if reaches compare low key then [] else low.toList.map (⟨path, .belowLower key ·⟩)) := by
  cases low with
  | none => exact agrees_pass
  | some bound =>
    exact agrees_requireOrder key bound (fun order => order == .gt || order == .eq) _
      (by simp [reaches, and_or_left, exists_or])

theorem agrees_auditUpper (high : Option K) (path : List Nat) (key : K) :
    (auditUpper compare high path key).Agrees (staysBelow compare high key)
      (high.any (compare.refuses key))
      (if staysBelow compare high key then [] else high.toList.map (⟨path, .notBelowUpper key ·⟩)) := by
  cases high with
  | none => exact agrees_pass
  | some bound => exact agrees_requireOrder key bound (· == .lt) _ (by simp [staysBelow])

/-- The problem of a key is that with its lower bound or, if it has none, that with its upper bound. -/
theorem boundProblems_eq (low high : Option K) (path : List Nat) (key : K) :
    boundProblems compare low high path key =
      (if reaches compare low key then [] else low.toList.map (⟨path, .belowLower key ·⟩)) ++
        if reaches compare low key then
          if staysBelow compare high key then [] else high.toList.map (⟨path, .notBelowUpper key ·⟩)
        else [] := by
  have hlow : reaches compare none key = true := rfl
  have hhigh : staysBelow compare none key = true := rfl
  unfold boundProblems
  cases low with
  | none =>
    cases high with
    | none => simp [hlow, hhigh]
    | some upper => cases h : staysBelow compare (some upper) key <;> simp [hlow, h, Option.filter]
  | some lower =>
    cases hr : reaches compare (some lower) key with
    | false => simp [hr, Option.filter]
    | true =>
      cases high with
      | none => simp [hr, hhigh, Option.filter]
      | some upper => cases h : staysBelow compare (some upper) key <;> simp [hr, h, Option.filter]

theorem agrees_auditBounds (low high : Option K) (path : List Nat) (keys : List K) :
    (auditBounds compare low high path keys).Agrees (within compare low high keys)
      (keys.any (refusedByBounds compare low high))
      (keys.flatMap (boundProblems compare low high path)) := by
  induction keys with
  | nil => exact agrees_pass
  | cons key rest ih =>
    have hkey :=
      (agrees_auditLower compare low path key).andThen (agrees_auditUpper compare high path key)
    rw [← boundProblems_eq] at hkey
    exact hkey.andAlso ih

mutual

theorem agrees_auditSeparators (low high : Option K) (path : List Nat) (node : Node K V) :
    (node.auditSeparators compare low high path).Agrees (node.isSeparated compare low high)
      (node.isBoundRefused compare low high) (node.separatorProblems compare low high path) := by
  match node with
  | leaf keys _ =>
    rw [auditSeparators, isSeparated, isBoundRefused, separatorProblems]
    exact agrees_auditBounds compare low high path keys
  | branch keys children =>
    have hcount := (agrees_require (children.length == keys.length + 1)
      ⟨path, .childCount keys.length children.length⟩).andThen
        (agrees_auditSeparatorsFrom low high path 0 keys children)
    have hall := (agrees_auditBounds compare low high path keys).andAlso hcount
    rw [auditSeparators, isSeparated, isBoundRefused, separatorProblems]
    by_cases hl : children.length = keys.length + 1
    · simpa [hl] using hall
    · simpa [hl] using hall

theorem agrees_auditSeparatorsFrom (low high : Option K) (path : List Nat) (index : Nat)
    (keys : List K) (nodes : List (Node K V)) :
    (auditSeparatorsFrom compare low high path index keys nodes).Agrees
      (allSeparated compare low high keys nodes) (anyBoundRefused compare low high keys nodes)
      (separatorProblemsFrom compare low high path index keys nodes) := by
  match keys, nodes with
  | _, [] =>
    rw [auditSeparatorsFrom, allSeparated, anyBoundRefused, separatorProblemsFrom]
    exact agrees_pass
  | [], child :: rest =>
    rw [auditSeparatorsFrom, allSeparated, anyBoundRefused, separatorProblemsFrom]
    exact (agrees_auditSeparators low high _ child).andAlso
      (agrees_auditSeparatorsFrom low high path (index + 1) [] rest)
  | key :: keys, child :: rest =>
    rw [auditSeparatorsFrom, allSeparated, anyBoundRefused, separatorProblemsFrom]
    exact (agrees_auditSeparators low (some key) _ child).andAlso
      (agrees_auditSeparatorsFrom (some key) high path (index + 1) keys rest)

end

/-! ## Height -/

/-- Without a record, one more child leaves the walk without a failure exactly if the child has the
height that is expected. -/
theorem Heights.decides_add {path : List Nat} {expected height? : Option Nat} :
    (⟨expected, true, none⟩ : Heights K).add path height? none =
      match height? with
      | none => ⟨expected, false, none⟩
      | some h =>
        if expected.all (· == h) then ⟨some h, true, none⟩ else ⟨expected, false, none⟩ := by
  cases height? with
  | none => rfl
  | some h =>
    cases expected with
    | none => rfl
    | some e =>
      by_cases heq : h = e
      · simp [Heights.add, heq]
      · simp [Heights.add, heq, Ne.symm heq, Record.add]

mutual

/-- Without a record, the walk finds the height that all leaves share. -/
theorem auditHeight_none (path : List Nat) (node : Node K V) :
    (node.auditHeight path none : Option Nat × Record K) = (node.uniformHeight?, none) := by
  match node with
  | leaf _ _ => rw [auditHeight, uniformHeight?]
  | branch _ children =>
    obtain ⟨hheight, hrecord⟩ := auditHeights_none path 0 none children
    simp only [auditHeight, uniformHeight?, hheight, hrecord]

theorem auditHeights_none (path : List Nat) (index : Nat) (expected : Option Nat)
    (nodes : List (Node K V)) :
    (auditHeights path index ⟨expected, true, none⟩ nodes : Heights K).height? =
        (commonHeight? expected nodes).map (· + 1) ∧
      (auditHeights path index ⟨expected, true, none⟩ nodes : Heights K).record = none := by
  match nodes with
  | [] => simp [auditHeights, Heights.height?, commonHeight?]
  | child :: rest =>
    have hchild := auditHeight_none (path ++ [index]) child
    simp only [auditHeights, commonHeight?, hchild, Heights.decides_add]
    cases child.uniformHeight? with
    | none => simp [Heights.height?]
    | some h =>
      cases hall : expected.all (· == h) with
      | false => simp [Heights.height?, hall]
      | true => simpa [hall] using auditHeights_none path (index + 1) (some h) rest

end

def HeightSurvey.onRecord (survey : HeightSurvey K) (record : List (Problem K)) : Heights K :=
  ⟨survey.expected, survey.uniform, some (record ++ survey.problems)⟩

theorem HeightSurvey.onRecord_add (survey : HeightSurvey K) (record : List (Problem K))
    (path : List Nat) (child : HeightResult K) :
    (survey.onRecord record).add path child.height
        (some (record ++ survey.problems ++ child.problems)) =
      (survey.add path child).onRecord record := by
  obtain ⟨expected, uniform, problems⟩ := survey
  obtain ⟨height?, problems'⟩ := child
  cases height? with
  | none => simp [Heights.add, HeightSurvey.add, onRecord]
  | some h =>
    cases expected with
    | none => simp [Heights.add, HeightSurvey.add, onRecord]
    | some e =>
      by_cases heq : h = e
      · simp [Heights.add, HeightSurvey.add, onRecord, heq]
      · simp [Heights.add, HeightSurvey.add, onRecord, heq, Record.add]

mutual

/-- With a record, the walk finds the same height, and the problems of the survey. -/
theorem auditHeight_some (record : List (Problem K)) (path : List Nat) (node : Node K V) :
    node.auditHeight path (some record) =
      ((node.heightResult path).height, some (record ++ (node.heightResult path).problems)) := by
  match node with
  | leaf _ _ => simp [auditHeight, heightResult]
  | branch _ children =>
    have hstart : (⟨none, true, some record⟩ : Heights K) =
        HeightSurvey.onRecord ⟨none, true, []⟩ record := by
      simp [HeightSurvey.onRecord]
    rw [auditHeight, heightResult, hstart, auditHeights_some record path 0 _ children]
    rfl

theorem auditHeights_some (record : List (Problem K)) (path : List Nat) (index : Nat)
    (survey : HeightSurvey K) (nodes : List (Node K V)) :
    auditHeights path index (survey.onRecord record) nodes =
      (heightSurvey path index survey nodes).onRecord record := by
  match nodes with
  | [] => rw [auditHeights, heightSurvey]
  | child :: rest =>
    have hchild := auditHeight_some (record ++ survey.problems) (path ++ [index]) child
    have hrecord : (survey.onRecord record).record = some (record ++ survey.problems) := rfl
    have hkeeps (later : HeightSurvey K) : (later.onRecord record).record.isSome = true := rfl
    rw [auditHeights, heightSurvey, hrecord, hchild]
    simp only [HeightSurvey.onRecord_add, hkeeps, Bool.or_true, if_true]
    exact auditHeights_some record path (index + 1) _ rest

end

/-! ## Sizes and values -/

mutual

theorem agrees_auditFanout (order : Value) (path : List Nat) (node : Node K V) :
    (node.auditFanout order path).Agrees (node.withinFanout order.toNumber) false
      (node.fanoutProblems order path) := by
  match node with
  | leaf keys _ =>
    rw [auditFanout, withinFanout, fanoutProblems]
    exact agrees_forbid _ _
  | branch _ children =>
    rw [auditFanout, withinFanout, fanoutProblems]
    exact (agrees_forbid _ _).andAlso (agrees_auditFanoutFrom order path 0 children)

theorem agrees_auditFanoutFrom (order : Value) (path : List Nat) (index : Nat)
    (nodes : List (Node K V)) :
    (auditFanoutFrom order path index nodes).Agrees (allWithinFanout order.toNumber nodes) false
      (fanoutProblemsFrom order path index nodes) := by
  match nodes with
  | [] =>
    rw [auditFanoutFrom, allWithinFanout, fanoutProblemsFrom]
    exact agrees_pass
  | child :: rest =>
    rw [auditFanoutFrom, allWithinFanout, fanoutProblemsFrom]
    exact (agrees_auditFanout order _ child).andAlso
      (agrees_auditFanoutFrom order path (index + 1) rest)

end

mutual

theorem agrees_auditOccupancy (order : Number) (isRoot : Bool) (path : List Nat) (node : Node K V) :
    (node.auditOccupancy order isRoot path).Agrees (node.isFilled order isRoot) false
      (node.occupancyProblems order isRoot path) := by
  match node with
  | leaf keys _ =>
    rw [auditOccupancy, isFilled, occupancyProblems]
    cases isRoot with
    | true => exact agrees_require true _
    | false => simpa using agrees_forbid ((keys.length : Int) < leafLeast order) _
  | branch _ children =>
    rw [auditOccupancy, isFilled, occupancyProblems]
    exact (agrees_forbid _ _).andAlso (agrees_auditOccupancyFrom order path 0 children)

theorem agrees_auditOccupancyFrom (order : Number) (path : List Nat) (index : Nat)
    (nodes : List (Node K V)) :
    (auditOccupancyFrom order path index nodes).Agrees (allFilled order nodes) false
      (occupancyProblemsFrom order path index nodes) := by
  match nodes with
  | [] =>
    rw [auditOccupancyFrom, allFilled, occupancyProblemsFrom]
    exact agrees_pass
  | child :: rest =>
    rw [auditOccupancyFrom, allFilled, occupancyProblemsFrom]
    exact (agrees_auditOccupancy order false _ child).andAlso
      (agrees_auditOccupancyFrom order path (index + 1) rest)

end

mutual

theorem auditAlignment_eq (path : List Nat) (node : Node K V) (problems : List (Problem K)) :
    node.auditAlignment path problems = (node.isAligned, problems ++ node.alignmentProblems path) := by
  match node with
  | leaf keys values =>
    rw [auditAlignment, isAligned, alignmentProblems]
    by_cases h : values.length = keys.length <;> simp [h]
  | branch _ children =>
    rw [auditAlignment, isAligned, alignmentProblems, auditAlignmentFrom_eq path 0 true children,
      Bool.and_true]

theorem auditAlignmentFrom_eq (path : List Nat) (index : Nat) (ok : Bool) (nodes : List (Node K V))
    (problems : List (Problem K)) :
    auditAlignmentFrom path index ok nodes problems =
      (allAligned nodes && ok, problems ++ alignmentProblemsFrom path index nodes) := by
  match nodes with
  | [] => simp [auditAlignmentFrom, allAligned, alignmentProblemsFrom]
  | child :: rest =>
    rw [auditAlignmentFrom, allAligned, alignmentProblemsFrom, auditAlignment_eq _ child]
    dsimp only
    rw [auditAlignmentFrom_eq path (index + 1) _ rest, Bool.and_left_comm, Bool.and_assoc,
      List.append_assoc]

end

/-! ## All checks -/

/-- All checks on one record give the report, or fail where validation does. -/
theorem audit_eq_validate (order : Value) (node : Node K V) :
    node.audit compare order = node.validate compare order := by
  have hsorted := (agrees_auditSorted compare [] node).records []
  have hseparated := (agrees_auditSeparators compare none none [] node).records
    (node.sortedProblems compare [])
  rw [audit, validate, isRefused, hsorted]
  cases node.isOrderRefused compare with
  | true => rfl
  | false =>
    simp only [Bool.false_eq_true, if_false, List.nil_append, Bool.false_or, bind, Except.bind]
    rw [hseparated]
    cases node.isBoundRefused compare none none with
    | true => rfl
    | false =>
      simp only [Bool.false_eq_true, if_false, auditHeight_some,
        (agrees_auditFanout order [] node).records,
        (agrees_auditOccupancy order.toNumber true [] node).records, auditAlignment_eq]
      rw [report_eq, report, (heightResult_eq [] node).1]
      rfl

variable {compare}

theorem verdict_eq_ok {audit : Audit K} {holds : Bool} {problems : List (Problem K)}
    (h : audit.Agrees holds false problems) : audit.verdict = .ok holds := by
  rw [verdict, h.decides rfl]
  rfl

structure Settles (compare : Comparator K) (order : Value) (node : Node K V) (report : Report K) :
    Prop where
  sorted : (node.auditSorted compare []).verdict = .ok report.sorted
  separated : (node.auditSeparators compare none none []).verdict = .ok report.separatorsValid
  height : (node.auditHeight [] none : Option Nat × Record K).1 = report.height
  fanout : (node.auditFanout order [] : Audit K).verdict = .ok report.fanoutRespected
  occupancy : (node.auditOccupancy order.toNumber true [] : Audit K).verdict =
    .ok report.occupancyRespected
  valid : node.auditValid compare order = .ok report.valid

theorem settles_report (answers : compare.Answers) (order : Value) (node : Node K V) :
    node.Settles compare order (node.report compare order) := by
  have hsorted := agrees_auditSorted compare [] node
  have hseparated := agrees_auditSeparators compare none none [] node
  rw [isOrderRefused_eq_false answers] at hsorted
  rw [isBoundRefused_eq_false answers] at hseparated
  have hsorted := verdict_eq_ok hsorted
  have hseparated := verdict_eq_ok hseparated
  have hfanout := verdict_eq_ok (agrees_auditFanout (K := K) order [] node)
  have hheight : (node.auditHeight [] none : Option Nat × Record K).1 = node.uniformHeight? := by
    rw [auditHeight_none]
  rw [report_eq]
  refine ⟨hsorted, hseparated, hheight, hfanout,
    verdict_eq_ok (agrees_auditOccupancy order.toNumber true [] node), ?_⟩
  simp only [auditValid, hsorted, hseparated, hheight, hfanout, Report.valid, Report.balanced,
    separatorsValid, bind, Except.bind, pure, Except.pure]
  cases node.isSorted compare <;> cases node.isSeparated compare none none <;>
    cases node.uniformHeight? <;> simp

end Node
end OrderedIndex
