import OrderedIndex.Proofs.Node.Audit
import OrderedIndex.Proofs.Tree.Validity

/-!
# Checks, reports and the check of a tree

A comparator that refuses nothing gives a report on every node, whatever its shape. The checks that stop
at the first failure decide what the report says, the report is without problems exactly if each of them
succeeds, and the check of a tree fails exactly with the lines of the report and of the count.
-/
namespace OrderedIndex

/-- All six properties hold, with the two that validity does not need. -/
def Report.clean {K : Type} (report : Report K) : Bool :=
  report.sorted && report.separatorsValid && report.balanced && report.fanoutRespected &&
    report.occupancyRespected && report.aligned

variable {K V : Type} {compare : Comparator K}

theorem Node.report_problems_eq_nil_iff_clean (order : Value) (node : Node K V) :
    (node.report compare order).problems = [] ↔ (node.report compare order).clean = true := by
  rw [report_problems_eq_nil_iff, report_eq]
  simp only [Report.clean, Report.balanced, isBalanced, Bool.and_eq_true, and_assoc]

namespace Tree

/-- The line that the check of a tree adds to the report if the count of pairs is wrong. -/
def countLine [Inhabited V] (tree : Tree K V) : String :=
  "size mismatch: counted " ++ (Number.count tree.toList.length).text ++ " but stored " ++
    tree.size.text

variable [Key K] [Inhabited V]

/-- The check of a tree succeeds or fails by its report and its count of pairs. -/
theorem checkValid_of_answers {tree : Tree K V} (answers : tree.compare.Answers) :
    tree.checkValid =
      if tree.report.clean && tree.size.equalsNumber (.count tree.toList.length) then .ok ()
      else .error (.violation ("B+ tree is invalid: " ++ "; ".intercalate tree.problems)
        tree.problems) := by
  have hempty : tree.problems.isEmpty =
      (tree.report.clean && tree.size.equalsNumber (.count tree.toList.length)) := by
    rw [Bool.eq_iff_iff, List.isEmpty_iff, problems_eq_nil_iff, report,
      Node.report_problems_eq_nil_iff_clean, Bool.and_eq_true]
  rw [checkValid, Node.isRefused_eq_false answers, if_neg Bool.false_ne_true, hempty]

/-- Under a comparator that refuses nothing, every node has a report, whatever its shape, with the
outcome of each check that stops at the first failure, and problems exactly if a check fails. The check
of a tree with any root and any count succeeds exactly if the report on its root is clean and the pairs
are as many as the count says, and fails with the lines of the report and, if the count is wrong, one
more. -/
theorem checks_of_answers (answers : compare.Answers) :
    (∀ (order : Value) (node : Node K V), ∃ report,
      node.audit compare order = .ok report ∧ node.validate compare order = .ok report ∧
        node.Settles compare order report ∧
        report.sorted = node.isSorted compare ∧
        report.separatorsValid = node.separatorsValid compare ∧
        report.balanced = node.isBalanced ∧
        report.fanoutRespected = node.withinFanout order.toNumber ∧
        report.occupancyRespected = node.occupancyRespected order.toNumber ∧
        report.valid = node.isValid compare order.toNumber ∧
        (report.problems = [] ↔ report.clean = true)) ∧
      ∀ tree : Tree K V, tree.compare = compare → ∃ report lines,
        tree.root.audit compare (.number tree.orderNumber) = .ok report ∧
          tree.validate = .ok report ∧
          lines = report.problems.map Problem.text ++
            (if tree.size.equalsNumber (.count tree.toList.length) then [] else [tree.countLine]) ∧
          tree.checkValid =
            if report.clean && tree.size.equalsNumber (.count tree.toList.length) then .ok ()
            else .error (.violation ("B+ tree is invalid: " ++ "; ".intercalate lines) lines) := by
  constructor
  · intro order node
    have hreport := Node.validate_eq_ok answers order node
    refine ⟨node.report compare order, (Node.audit_eq_validate compare order node).trans hreport, hreport,
      Node.settles_report answers order node, ?_⟩
    rw [Node.report_problems_eq_nil_iff_clean, Node.report_eq]
    simp [Report.balanced, Report.valid, Node.isBalanced, Node.isValid]
  · rintro tree rfl
    have hreport := Node.validate_eq_ok answers (.number tree.orderNumber) tree.root
    exact ⟨tree.report, tree.problems, (Node.audit_eq_validate _ _ _).trans hreport, hreport, rfl,
      checkValid_of_answers answers⟩

/-! ## Trees that fail their check -/

/-- Numbers in their order, except that 7 has no order with anything. -/
def withoutSeven : Comparator Nat := fun a b =>
  if a = 7 ∨ b = 7 then .blocked .unordered else .ordered (Ord.compare a b)

theorem withoutSeven_answers : withoutSeven.Answers := by
  intro a b
  unfold Comparator.refuses withoutSeven
  split <;> rfl

/-- A child too few, a branch without children, keys without an order, and a value too few. -/
def manyFaults : Node Nat Nat := .branch [5, 3] [.branch [] [], .leaf [7, 8] [70]]

def faultless : Node Nat Nat := .branch [5] [.leaf [1, 2] [10, 20], .leaf [5, 8] [50, 80]]

theorem faultless_clean : (faultless.audit withoutSeven (.number 3)).map Report.clean = .ok true := by
  decide +kernel

/-- The report is given on any root. With nine pairs counted, the check of a tree fails, also where the
report is clean. -/
theorem checks_manyFaults :
    let counted (root : Node Nat Nat) : Tree Nat Nat :=
      (empty 3 (by decide) withoutSeven).load (some root) (some (.number 9))
    withoutSeven.Answers ∧
      (∃ report, manyFaults.audit withoutSeven (.number 3) = .ok report ∧
        report.sorted = false ∧ report.separatorsValid = false ∧ report.balanced = false ∧
        report.valid = false ∧ report.problems ≠ [] ∧ (counted manyFaults).checkValid ≠ .ok ()) ∧
      ∃ report, faultless.audit withoutSeven (.number 3) = .ok report ∧ report.clean = true ∧
        (counted faultless).checkValid =
          .error (.violation "B+ tree is invalid: size mismatch: counted 4 but stored 9"
            ["size mismatch: counted 4 but stored 9"]) := by
  intro counted
  obtain ⟨hnode, htree⟩ := checks_of_answers (V := Nat) withoutSeven_answers
  refine ⟨withoutSeven_answers, ?_, ?_⟩
  · obtain ⟨report, haudit, _, _, hsorted, hseparated, hbalanced, _, _, hvalid, hproblems⟩ :=
      hnode (.number 3) manyFaults
    obtain ⟨report', _, haudit', _, _, hcheck⟩ := htree (counted manyFaults) rfl
    obtain rfl : report = report' := Except.ok.inj (haudit.symm.trans haudit')
    have hunsorted : manyFaults.isSorted withoutSeven = false := by decide
    have hclean : report.clean = false := by simp [Report.clean, hsorted, hunsorted]
    refine ⟨report, haudit, hsorted.trans hunsorted, hseparated.trans (by decide),
      hbalanced.trans (by decide), ?_, ?_, ?_⟩
    · rw [hvalid, Node.isValid, hunsorted]
      rfl
    · rw [ne_eq, hproblems, hclean]
      exact Bool.false_ne_true
    · rw [hcheck, hclean]
      simp
  · obtain ⟨report, haudit, _, _, _, _, _, _, _, _, hproblems⟩ := hnode (.number 3) faultless
    obtain ⟨report', lines, haudit', _, hlines, hcheck⟩ := htree (counted faultless) rfl
    obtain rfl : report = report' := Except.ok.inj (haudit.symm.trans haudit')
    have hclean : report.clean = true := by
      have hmap := faultless_clean
      rw [haudit] at hmap
      exact Except.ok.inj hmap
    have hcount : (counted faultless).size.equalsNumber (.count (counted faultless).toList.length) =
        false := by
      unfold counted
      decide +kernel
    have hline : (counted faultless).countLine = "size mismatch: counted 4 but stored 9" := by
      unfold counted
      decide +kernel
    have hlone : lines = ["size mismatch: counted 4 but stored 9"] := by
      rw [hlines, hproblems.mpr hclean, hcount, hline]
      rfl
    refine ⟨report, haudit, hclean, ?_⟩
    rw [hcheck, hclean, hcount, hlone]
    rfl

end Tree
end OrderedIndex
