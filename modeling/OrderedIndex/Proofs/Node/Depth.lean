import OrderedIndex.Proofs.Node.Audit
import OrderedIndex.Proofs.Node.Sizes
import OrderedIndex.Tree

/-!
# Depths of leaves

A node in which every branch has a child is balanced exactly if all of its leaves are equally deep. The
height in a report is that depth, and it is what the leftmost leaf alone says. Nothing is asked of keys,
separators or sizes.
-/
namespace OrderedIndex
namespace Node

variable {K V : Type} {node : Node K V} {depth : Nat} {keys : List K} {values : List V}
  {children : List (Node K V)}

/-- Every branch has a child. -/
def Bearing (node : Node K V) : Prop :=
  node.Everywhere fun part => part.isLeaf = true ∨ part.children ≠ []

/-- All leaves have so many branches above them. -/
def LeavesAt (depth : Nat) (node : Node K V) : Prop :=
  ∀ above part, Occurs part above node → part.isLeaf = true → above = depth

theorem bearing_branch :
    (branch keys children).Bearing ↔ children ≠ [] ∧ ∀ child ∈ children, child.Bearing := by
  rw [Bearing, everywhere_branch]
  simp [isLeaf, Bearing]

theorem Bearing.exists_leaf (hb : node.Bearing) :
    ∃ above part, Occurs part above node ∧ part.isLeaf = true := by
  induction node using childInduction with
  | leaf keys values => exact ⟨0, _, .here, rfl⟩
  | branch keys children ih =>
    obtain ⟨hne, hb⟩ := bearing_branch.mp hb
    obtain ⟨child, hc⟩ := List.exists_mem_of_ne_nil children hne
    obtain ⟨above, part, ho, hleaf⟩ := ih child hc (hb child hc)
    exact ⟨above + 1, part, .under hc ho, hleaf⟩

theorem leavesAt_leaf : (leaf keys values : Node K V).LeavesAt depth ↔ depth = 0 := by
  constructor
  · intro h
    exact (h 0 _ .here rfl).symm
  · rintro rfl above part ho _
    cases ho with
    | here => rfl

/-- The leaves below a branch are one level deeper than below each of its children. -/
theorem leavesAt_branch (hb : (branch keys children).Bearing) :
    (branch keys children).LeavesAt depth ↔
      ∃ h, h + 1 = depth ∧ ∀ child ∈ children, child.LeavesAt h := by
  constructor
  · intro h
    have hdown : ∀ child ∈ children, ∀ above part, Occurs part above child → part.isLeaf = true →
        above + 1 = depth := fun child hc above part ho => h (above + 1) part (.under hc ho)
    -- without a leaf there would be no depth to take one from
    obtain ⟨hne, hb⟩ := bearing_branch.mp hb
    obtain ⟨child, hc⟩ := List.exists_mem_of_ne_nil children hne
    obtain ⟨above, part, ho, hleaf⟩ := (hb child hc).exists_leaf
    have habove := hdown child hc above part ho hleaf
    refine ⟨above, habove, fun other hother level leaf hl hleaf => ?_⟩
    have hlevel := hdown other hother level leaf hl hleaf
    omega
  · rintro ⟨h, rfl, heach⟩ above part ho hleaf
    cases ho with
    | here => simp [isLeaf] at hleaf
    | under hc inside => rw [heach _ hc _ part inside hleaf]

/-- The common height of a node is the depth that all its leaves share. -/
theorem uniformHeight?_eq_some_iff (hb : node.Bearing) :
    node.uniformHeight? = some depth ↔ node.LeavesAt depth := by
  induction node using childInduction generalizing depth with
  | leaf keys values => rw [uniformHeight?, leavesAt_leaf, Option.some.injEq, eq_comm]
  | branch keys children ih =>
    obtain ⟨hne, hbc⟩ := bearing_branch.mp hb
    rw [uniformHeight?, leavesAt_branch hb, Option.map_eq_some_iff]
    refine exists_congr fun h => ?_
    rw [commonHeight?_none hne, and_comm]
    exact and_congr_right fun _ => forall₂_congr fun child hc => ih child hc (hbc child hc)

/-- The leftmost leaf is as deep as all others. -/
theorem LeavesAt.height_eq (h : node.LeavesAt depth) (hb : node.Bearing) :
    node.height = .ok depth := by
  induction node using childInduction generalizing depth with
  | leaf keys values => rw [leavesAt_leaf.mp h, height]
  | branch keys children ih =>
    obtain ⟨hne, hbc⟩ := bearing_branch.mp hb
    obtain ⟨h', rfl, heach⟩ := (leavesAt_branch hb).mp h
    obtain ⟨first, rest, rfl⟩ := List.exists_cons_of_ne_nil hne
    have hfirst := ih first (by simp) (heach first (by simp)) (hbc first (by simp))
    rw [height, hfirst, Except.map]

/-- The height of a report does not depend on the comparator, nor on the order. -/
theorem height_of_audit_eq_ok {compare : Comparator K} {order : Value} {report : Report K}
    (h : node.audit compare order = .ok report) : report.height = node.uniformHeight? := by
  rw [audit_eq_validate, validate] at h
  split at h
  · simp at h
  · rw [← Except.ok.inj h, report_eq]

/-- A node in which every branch has a child is balanced, as decided without a record, exactly if all
leaves are at one depth. Under a comparator that refuses nothing there is a report for every order, and
whenever there is one, its height is that depth if there is one and missing otherwise. A tree with such a
root then has the same height, read off its leftmost leaf. -/
theorem height_decided (hb : node.Bearing) :
    ((node.auditHeight [] none : Option Nat × Record K).1.isSome = true ↔
        ∃ depth, node.LeavesAt depth) ∧
      ∀ (compare : Comparator K) (order : Value),
        (compare.Answers → ∃ report, node.audit compare order = .ok report) ∧
          ∀ report, node.audit compare order = .ok report →
            (∀ depth, report.height = some depth ↔ node.LeavesAt depth) ∧
              (report.height = none ↔ ¬ ∃ depth, node.LeavesAt depth) ∧
              ∀ depth, report.height = some depth →
                ∀ tree : Tree K V, tree.root = node → tree.height = .ok depth := by
  have hheight : ∀ depth, node.uniformHeight? = some depth ↔ node.LeavesAt depth :=
    fun depth => uniformHeight?_eq_some_iff hb
  have hsome : node.uniformHeight?.isSome = true ↔ ∃ depth, node.LeavesAt depth := by
    rw [Option.isSome_iff_exists]
    exact exists_congr hheight
  refine ⟨by rw [auditHeight_none, hsome], fun compare order => ⟨?_, ?_⟩⟩
  · intro answers
    exact ⟨_, (audit_eq_validate compare order node).trans (validate_eq_ok answers order node)⟩
  · intro report hreport
    rw [height_of_audit_eq_ok hreport]
    refine ⟨hheight, by rw [← hsome, Option.not_isSome_iff_eq_none], ?_⟩
    rintro depth hdepth tree rfl
    exact ((hheight depth).mp hdepth).height_eq hb

/-- Two leaves, two levels down, with keys in no order and children missing. -/
def level : Node Nat Nat := .branch [9, 2] [.branch [] [.leaf [7] []], .branch [4] [.leaf [] [1]]]

def lopsided : Node Nat Nat := .branch [9, 2] [.branch [] [.leaf [7] []], .leaf [] [1]]

/-- With a comparator that never gives an order, and no limit to sizes. -/
theorem height_decided_level :
    level.Bearing ∧ lopsided.Bearing ∧
      (∃ report, level.audit (fun _ _ => .blocked .unordered) (.number .nan) = .ok report ∧
        report.height = some 2 ∧
        ((Tree.empty 3 (by decide) Key.natural).load (some level) none).height = .ok 2) ∧
      ¬ ∃ depth, lopsided.LeavesAt depth := by
  have answers : Comparator.Answers (fun _ _ : Nat => .blocked .unordered) := fun _ _ => rfl
  have hlevel : level.Bearing := by
    simp [level, Bearing, everywhere_branch, everywhere_leaf, isLeaf]
  have hlopsided : lopsided.Bearing := by
    simp [lopsided, Bearing, everywhere_branch, everywhere_leaf, isLeaf]
  have hleaves : level.LeavesAt 2 := (uniformHeight?_eq_some_iff hlevel).mp (by decide)
  obtain ⟨_, hreports⟩ := height_decided hlevel
  obtain ⟨hexists, hheight⟩ := hreports (fun _ _ => .blocked .unordered) (.number .nan)
  obtain ⟨report, hreport⟩ := hexists answers
  obtain ⟨hdepth, _, htree⟩ := hheight report hreport
  refine ⟨hlevel, hlopsided, ⟨report, hreport, (hdepth 2).mpr hleaves, ?_⟩, ?_⟩
  · exact htree 2 ((hdepth 2).mpr hleaves) _ rfl
  · rw [← (height_decided hlopsided).1]
    decide

end Node
end OrderedIndex
