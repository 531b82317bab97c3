import OrderedIndex.Node.Report

/-!
# Reports without problems

Each block of a report is empty exactly if the check of its property succeeds, for every node and every
comparator. So a report is without problems exactly if all six checks succeed.
-/
namespace OrderedIndex
namespace Node

variable {K V : Type} {compare : Comparator K} {low high : Option K}

/-! ## Keys in order -/

theorem orderProblems_eq_nil_iff (path : List Nat) (index : Nat) (keys : List K) :
    orderProblems compare path index keys = [] ↔ increasing compare keys = true := by
  fun_induction orderProblems compare path index keys with
  | case1 index a b rest ih =>
    rw [List.append_eq_nil_iff, ih, increasing, Bool.and_eq_true, beq_iff_eq]
    by_cases h : compare a b = .ordered .lt
    · simp [h]
    · simp [h]
  | case2 keys index hshort =>
    match keys, hshort with
    | [], _ => simp [increasing]
    | [a], _ => simp [increasing]
    | a :: b :: rest, hshort => exact absurd rfl (hshort a b rest)

mutual

theorem sortedProblems_eq_nil_iff (path : List Nat) (node : Node K V) :
    node.sortedProblems compare path = [] ↔ node.isSorted compare = true := by
  match node with
  | leaf keys _ => rw [sortedProblems, isSorted, orderProblems_eq_nil_iff]
  | branch keys children =>
    rw [sortedProblems, isSorted, List.append_eq_nil_iff, Bool.and_eq_true,
      orderProblems_eq_nil_iff, sortedProblemsFrom_eq_nil_iff path 0 children]

theorem sortedProblemsFrom_eq_nil_iff (path : List Nat) (index : Nat) (nodes : List (Node K V)) :
    sortedProblemsFrom compare path index nodes = [] ↔ allSorted compare nodes = true := by
  match nodes with
  | [] => simp [sortedProblemsFrom, allSorted]
  | child :: rest =>
    rw [sortedProblemsFrom, allSorted, List.append_eq_nil_iff, Bool.and_eq_true,
      sortedProblems_eq_nil_iff _ child, sortedProblemsFrom_eq_nil_iff path (index + 1) rest]

end

/-! ## Separators -/

theorem boundProblems_eq_nil_iff (path : List Nat) (key : K) :
    boundProblems compare low high path key = [] ↔
      reaches compare low key = true ∧ staysBelow compare high key = true := by
  have hlow : ∀ bound?, reaches compare bound? key = true ↔
      bound?.filter (fun bound => !reaches compare (some bound) key) = none := by
    intro bound?
    cases bound? with
    | none => simp [reaches]
    | some bound => simp [Option.filter]
  have hhigh : ∀ bound?, staysBelow compare bound? key = true ↔
      bound?.filter (fun bound => !staysBelow compare (some bound) key) = none := by
    intro bound?
    cases bound? with
    | none => simp [staysBelow]
    | some bound => simp [Option.filter]
  rw [hlow, hhigh, boundProblems]
  cases low.filter fun bound => !reaches compare (some bound) key with
  | some bound => simp
  | none => cases high.filter fun bound => !staysBelow compare (some bound) key <;> simp

theorem flatMap_boundProblems_eq_nil_iff (path : List Nat) (keys : List K) :
    keys.flatMap (boundProblems compare low high path) = [] ↔
      within compare low high keys = true := by
  simp only [List.flatMap_eq_nil_iff, boundProblems_eq_nil_iff, within, List.all_eq_true,
    Bool.and_eq_true]

mutual

theorem separatorProblems_eq_nil_iff (low high : Option K) (path : List Nat) (node : Node K V) :
    node.separatorProblems compare low high path = [] ↔
      node.isSeparated compare low high = true := by
  match node with
  | leaf keys _ => rw [separatorProblems, isSeparated, flatMap_boundProblems_eq_nil_iff]
  | branch keys children =>
    rw [separatorProblems, isSeparated, List.append_eq_nil_iff, Bool.and_eq_true,
      flatMap_boundProblems_eq_nil_iff, Bool.and_eq_true, beq_iff_eq,
      ← separatorProblemsFrom_eq_nil_iff low high path 0 keys children]
    by_cases h : children.length = keys.length + 1
    · simp [h]
    · simp [h]

theorem separatorProblemsFrom_eq_nil_iff (low high : Option K) (path : List Nat) (index : Nat)
    (keys : List K) (nodes : List (Node K V)) :
    separatorProblemsFrom compare low high path index keys nodes = [] ↔
      allSeparated compare low high keys nodes = true := by
  match keys, nodes with
  | _, [] => simp [separatorProblemsFrom, allSeparated]
  | [], child :: rest =>
    rw [separatorProblemsFrom, allSeparated, List.append_eq_nil_iff, Bool.and_eq_true,
      separatorProblems_eq_nil_iff low high _ child,
      separatorProblemsFrom_eq_nil_iff low high path (index + 1) [] rest]
  | key :: keys, child :: rest =>
    rw [separatorProblemsFrom, allSeparated, List.append_eq_nil_iff, Bool.and_eq_true,
      separatorProblems_eq_nil_iff low (some key) _ child,
      separatorProblemsFrom_eq_nil_iff (some key) high path (index + 1) keys rest]

end

/-! ## Height -/

def sharedHeight? (survey : HeightSurvey K) (nodes : List (Node K V)) : Option Nat :=
  if survey.uniform then commonHeight? survey.expected nodes else none

/-- A node with a known height adds no problem of its own, and one without adds some. -/
theorem sharedHeight?_add {path : List Nat} {survey : HeightSurvey K} {child : Node K V}
    {result : HeightResult K} (rest : List (Node K V))
    (honest : survey.problems = [] ↔ survey.uniform = true)
    (hheight : result.height = child.uniformHeight?)
    (hproblems : result.problems = [] ↔ child.uniformHeight?.isSome = true) :
    ((survey.add path result).problems = [] ↔ (survey.add path result).uniform = true) ∧
      sharedHeight? (survey.add path result) rest = sharedHeight? survey (child :: rest) := by
  simp only [HeightSurvey.add, hheight, sharedHeight?, commonHeight?]
  cases hc : child.uniformHeight? with
  | none =>
    have hne : result.problems ≠ [] := by simp [hproblems, hc]
    simp [hne]
  | some h =>
    have hnil : result.problems = [] := by simp [hproblems, hc]
    cases he : survey.expected with
    | none => simp [hnil, honest]
    | some expected =>
      by_cases heq : h = expected
      · simp [heq, hnil, honest]
      · have hne : (expected == h) = false := by simpa using Ne.symm heq
        simp [heq, hne]

mutual

/-- The height in a report is the height that all leaves share. -/
theorem heightResult_eq (path : List Nat) (node : Node K V) :
    (node.heightResult path : HeightResult K).height = node.uniformHeight? ∧
      ((node.heightResult path : HeightResult K).problems = [] ↔
        node.uniformHeight?.isSome = true) := by
  match node with
  | leaf _ _ => simp [heightResult, uniformHeight?]
  | branch keys children =>
    obtain ⟨honest, hshared⟩ := heightSurvey_eq path 0 ⟨none, true, []⟩ children (by simp)
    simp only [heightResult, HeightSurvey.result, uniformHeight?, honest]
    simp only [sharedHeight?, if_true, commonHeight?] at hshared
    rw [← hshared]
    cases (heightSurvey path 0 ⟨none, true, []⟩ children : HeightSurvey K).uniform <;> simp

theorem heightSurvey_eq (path : List Nat) (index : Nat) (survey : HeightSurvey K)
    (nodes : List (Node K V)) (honest : survey.problems = [] ↔ survey.uniform = true) :
    ((heightSurvey path index survey nodes).problems = [] ↔
        (heightSurvey path index survey nodes).uniform = true) ∧
      sharedHeight? (heightSurvey path index survey nodes) ([] : List (Node K V)) =
        sharedHeight? survey nodes := by
  match nodes with
  | [] => exact ⟨honest, rfl⟩
  | child :: rest =>
    obtain ⟨hheight, hproblems⟩ := heightResult_eq (path ++ [index]) child
    obtain ⟨honest', hshared⟩ := sharedHeight?_add rest honest hheight hproblems
    rw [heightSurvey, ← hshared]
    exact heightSurvey_eq path (index + 1) _ rest honest'

end

/-! ## Sizes and values -/

mutual

theorem fanoutProblems_eq_nil_iff (order : Value) (path : List Nat) (node : Node K V) :
    node.fanoutProblems order path = [] ↔ node.withinFanout order.toNumber = true := by
  match node with
  | leaf keys _ => simp [fanoutProblems, withinFanout]
  | branch keys children =>
    simp [fanoutProblems, withinFanout, fanoutProblemsFrom_eq_nil_iff order path 0 children]

theorem fanoutProblemsFrom_eq_nil_iff (order : Value) (path : List Nat) (index : Nat)
    (nodes : List (Node K V)) :
    fanoutProblemsFrom order path index nodes = [] ↔
      allWithinFanout order.toNumber nodes = true := by
  match nodes with
  | [] => simp [fanoutProblemsFrom, allWithinFanout]
  | child :: rest =>
    rw [fanoutProblemsFrom, allWithinFanout, List.append_eq_nil_iff, Bool.and_eq_true,
      fanoutProblems_eq_nil_iff order _ child,
      fanoutProblemsFrom_eq_nil_iff order path (index + 1) rest]

end

mutual

theorem occupancyProblems_eq_nil_iff (order : Number) (isRoot : Bool) (path : List Nat)
    (node : Node K V) :
    node.occupancyProblems order isRoot path = [] ↔ node.isFilled order isRoot = true := by
  match node with
  | leaf keys _ => cases isRoot <;> simp [occupancyProblems, isFilled]
  | branch keys children =>
    simp [occupancyProblems, isFilled, occupancyProblemsFrom_eq_nil_iff order path 0 children]

theorem occupancyProblemsFrom_eq_nil_iff (order : Number) (path : List Nat) (index : Nat)
    (nodes : List (Node K V)) :
    occupancyProblemsFrom order path index nodes = [] ↔ allFilled order nodes = true := by
  match nodes with
  | [] => simp [occupancyProblemsFrom, allFilled]
  | child :: rest =>
    rw [occupancyProblemsFrom, allFilled, List.append_eq_nil_iff, Bool.and_eq_true,
      occupancyProblems_eq_nil_iff order false _ child,
      occupancyProblemsFrom_eq_nil_iff order path (index + 1) rest]

end

mutual

theorem alignmentProblems_eq_nil_iff (path : List Nat) (node : Node K V) :
    node.alignmentProblems path = [] ↔ node.isAligned = true := by
  match node with
  | leaf keys values => simp [alignmentProblems, isAligned]
  | branch keys children =>
    rw [alignmentProblems, isAligned, alignmentProblemsFrom_eq_nil_iff path 0 children]

theorem alignmentProblemsFrom_eq_nil_iff (path : List Nat) (index : Nat) (nodes : List (Node K V)) :
    alignmentProblemsFrom path index nodes = [] ↔ allAligned nodes = true := by
  match nodes with
  | [] => simp [alignmentProblemsFrom, allAligned]
  | child :: rest =>
    rw [alignmentProblemsFrom, allAligned, List.append_eq_nil_iff, Bool.and_eq_true,
      alignmentProblems_eq_nil_iff _ child, alignmentProblemsFrom_eq_nil_iff path (index + 1) rest]

end

/-! ## The report -/

/-- A report is without problems exactly if all six checks succeed. -/
theorem report_problems_eq_nil_iff (order : Value) (node : Node K V) :
    (node.report compare order).problems = [] ↔
      node.isSorted compare = true ∧ node.separatorsValid compare = true ∧
        node.isBalanced = true ∧ node.withinFanout order.toNumber = true ∧
        node.occupancyRespected order.toNumber = true ∧ node.isAligned = true := by
  simp only [report, List.append_eq_nil_iff, sortedProblems_eq_nil_iff, separatorProblems_eq_nil_iff,
    (heightResult_eq [] node).2, fanoutProblems_eq_nil_iff, occupancyProblems_eq_nil_iff,
    alignmentProblems_eq_nil_iff, separatorsValid, isBalanced, occupancyRespected, and_assoc]

/-- What a report says of each property is what the check of it decides. -/
theorem report_eq (order : Value) (node : Node K V) :
    node.report compare order =
      { sorted := node.isSorted compare
        separatorsValid := node.separatorsValid compare
        fanoutRespected := node.withinFanout order.toNumber
        occupancyRespected := node.occupancyRespected order.toNumber
        aligned := node.isAligned
        height := node.uniformHeight?
        problems := (node.report compare order).problems } := by
  have flag {block : List (Problem K)} {holds : Bool} (h : block = [] ↔ holds = true) :
      block.isEmpty = holds := by
    rw [Bool.eq_iff_iff, List.isEmpty_iff, h]
  simp only [report, flag (sortedProblems_eq_nil_iff _ node),
    flag (separatorProblems_eq_nil_iff _ _ _ node), flag (fanoutProblems_eq_nil_iff _ _ node),
    flag (occupancyProblems_eq_nil_iff _ _ _ node), flag (alignmentProblems_eq_nil_iff _ node),
    (heightResult_eq [] node).1, separatorsValid, occupancyRespected]

end Node
end OrderedIndex
