import OrderedIndex.Node.Check
import OrderedIndex.Value.Primitive
/-!
# Reports

A report lists every place where a structural property fails, instead of stopping at the first one.
Each problem carries the path from the root to its node, as child positions. The problems come in
six blocks, one for each property.
-/

namespace OrderedIndex

inductive Fault (K : Type) where
  /-- The key at an index is not above the key before it. -/
  | notIncreasing (index : Nat) (previous key : K)
  | belowLower (key bound : K)
  | notBelowUpper (key bound : K)
  | childCount (keys children : Nat)
  /-- The height of a child differs from the first known height among its siblings. -/
  | heightDiffers (height expected : Nat)
  | leafOverfull (keys : Nat) (limit : Number)
  /-- The limit is shown as it was given. -/
  | branchOverfull (children : Nat) (limit : Value)
  | leafUnderfull (keys : Nat) (least : Int)
  | branchUnderfull (children : Nat) (least : Number)
  | misaligned (keys values : Nat)
  deriving Repr

structure Problem (K : Type) where
  path : List Nat
  fault : Fault K
  deriving Repr

namespace Fault

variable {K : Type}

def text [Key K] : Fault K → String
  | notIncreasing index previous key =>
    "keys[" ++ (index - 1).repr ++ "] = " ++ Key.quoted previous ++ " is not less than keys[" ++
      index.repr ++ "] = " ++ Key.quoted key
  | belowLower key bound =>
    "key " ++ Key.quoted key ++ " is below the lower separator " ++ Key.quoted bound
  | notBelowUpper key bound =>
    "key " ++ Key.quoted key ++ " is not below the upper separator " ++ Key.quoted bound
  | childCount keys children =>
    "branch has " ++ keys.repr ++ " keys but " ++ children.repr ++ " children"
  | heightDiffers height expected =>
    "subtree height " ++ height.repr ++ " differs from sibling height " ++ expected.repr
  | leafOverfull keys limit => "leaf holds " ++ keys.repr ++ " keys, more than " ++ limit.text
  | branchOverfull children limit =>
    "branch has " ++ children.repr ++ " children, more than " ++ limit.text
  | leafUnderfull keys least => "leaf holds " ++ keys.repr ++ " keys, fewer than " ++ least.repr
  | branchUnderfull children least =>
    "branch has " ++ children.repr ++ " children, fewer than " ++ least.text
  | misaligned keys values =>
    "leaf has " ++ keys.repr ++ " keys but " ++ values.repr ++ " values"

end Fault

namespace Problem

variable {K : Type}

/-- A path from the root, as in `root/1/0`. -/
def pathText (path : List Nat) : String := "/".intercalate ("root" :: path.map Nat.repr)

def text [Key K] (problem : Problem K) : String :=
  pathText problem.path ++ ": " ++ problem.fault.text

end Problem

namespace Node

variable {K V : Type}

/-! ## Keys in order -/

def orderProblems (compare : Comparator K) (path : List Nat) (index : Nat) :
    List K → List (Problem K)
  | a :: b :: rest =>
    (if compare a b = .ordered .lt then [] else [⟨path, .notIncreasing index a b⟩]) ++
      orderProblems compare path (index + 1) (b :: rest)
  | _ => []

mutual

def sortedProblems (compare : Comparator K) (path : List Nat) : Node K V → List (Problem K)
  | leaf keys _ => orderProblems compare path 1 keys
  | branch keys children =>
    orderProblems compare path 1 keys ++ sortedProblemsFrom compare path 0 children

def sortedProblemsFrom (compare : Comparator K) (path : List Nat) (index : Nat) :
    List (Node K V) → List (Problem K)
  | [] => []
  | child :: rest =>
    child.sortedProblems compare (path ++ [index]) ++
      sortedProblemsFrom compare path (index + 1) rest

end

/-! ## Separators -/

/-- One problem for each key out of bounds; the lower bound is looked at first. -/
def boundProblems (compare : Comparator K) (low high : Option K) (path : List Nat) (key : K) :
    List (Problem K) :=
  match low.filter fun bound => !reaches compare (some bound) key with
  | some bound => [⟨path, .belowLower key bound⟩]
  | none =>
    match high.filter fun bound => !staysBelow compare (some bound) key with
    | some bound => [⟨path, .notBelowUpper key bound⟩]
    | none => []

mutual

/-- The children of a branch with a wrong number of them are not looked at. -/
def separatorProblems (compare : Comparator K) (low high : Option K) (path : List Nat) :
    Node K V → List (Problem K)
  | leaf keys _ => keys.flatMap (boundProblems compare low high path)
  | branch keys children =>
    keys.flatMap (boundProblems compare low high path) ++
      if children.length = keys.length + 1 then
        separatorProblemsFrom compare low high path 0 keys children
      else [⟨path, .childCount keys.length children.length⟩]

def separatorProblemsFrom (compare : Comparator K) (low high : Option K) (path : List Nat)
    (index : Nat) : List K → List (Node K V) → List (Problem K)
  | _, [] => []
  | [], child :: rest =>
    child.separatorProblems compare low high (path ++ [index]) ++
      separatorProblemsFrom compare low high path (index + 1) [] rest
  | key :: keys, child :: rest =>
    child.separatorProblems compare low (some key) (path ++ [index]) ++
      separatorProblemsFrom compare (some key) high path (index + 1) keys rest

end

/-! ## Height -/

structure HeightSurvey (K : Type) where
  /-- The first known height. -/
  expected : Option Nat
  /-- Whether every height is known and equal to the first. -/
  uniform : Bool
  problems : List (Problem K)

structure HeightResult (K : Type) where
  height : Option Nat
  problems : List (Problem K)

namespace HeightSurvey

/-- A survey with one more child. An unknown height has been reported below the child. -/
def add (survey : HeightSurvey K) (path : List Nat) (child : HeightResult K) : HeightSurvey K :=
  match child.height, survey.expected with
  | none, _ => { survey with uniform := false, problems := survey.problems ++ child.problems }
  | some h, none => { survey with expected := some h, problems := survey.problems ++ child.problems }
  | some h, some expected =>
    if h = expected then { survey with problems := survey.problems ++ child.problems }
    else { survey with
      uniform := false
      problems := survey.problems ++ child.problems ++ [⟨path, .heightDiffers h expected⟩] }

def result (survey : HeightSurvey K) : HeightResult K where
  height := if survey.uniform then some (survey.expected.getD 0 + 1) else none
  problems := survey.problems

end HeightSurvey

mutual

def heightResult (path : List Nat) : Node K V → HeightResult K
  | leaf _ _ => ⟨some 0, []⟩
  | branch _ children => (heightSurvey path 0 ⟨none, true, []⟩ children).result

def heightSurvey (path : List Nat) (index : Nat) (survey : HeightSurvey K) :
    List (Node K V) → HeightSurvey K
  | [] => survey
  | child :: rest =>
    heightSurvey path (index + 1)
      (survey.add (path ++ [index]) (child.heightResult (path ++ [index]))) rest

end

/-! ## Sizes -/

mutual

def fanoutProblems (order : Value) (path : List Nat) : Node K V → List (Problem K)
  | leaf keys _ =>
    if leafLimit order.toNumber < .ofNat keys.length then
      [⟨path, .leafOverfull keys.length (leafLimit order.toNumber)⟩]
    else []
  | branch _ children =>
    (if order.toNumber < .ofNat children.length then [⟨path, .branchOverfull children.length order⟩]
      else []) ++ fanoutProblemsFrom order path 0 children

def fanoutProblemsFrom (order : Value) (path : List Nat) (index : Nat) :
    List (Node K V) → List (Problem K)
  | [] => []
  | child :: rest =>
    child.fanoutProblems order (path ++ [index]) ++ fanoutProblemsFrom order path (index + 1) rest

end

mutual

def occupancyProblems (order : Number) (isRoot : Bool) (path : List Nat) :
    Node K V → List (Problem K)
  | leaf keys _ =>
    if isRoot = false ∧ (keys.length : Int) < leafLeast order then
      [⟨path, .leafUnderfull keys.length (leafLeast order)⟩]
    else []
  | branch _ children =>
    (if .ofNat children.length < branchLeast order isRoot then
        [⟨path, .branchUnderfull children.length (branchLeast order isRoot)⟩]
      else []) ++ occupancyProblemsFrom order path 0 children

def occupancyProblemsFrom (order : Number) (path : List Nat) (index : Nat) :
    List (Node K V) → List (Problem K)
  | [] => []
  | child :: rest =>
    child.occupancyProblems order false (path ++ [index]) ++
      occupancyProblemsFrom order path (index + 1) rest

end

mutual

def alignmentProblems (path : List Nat) : Node K V → List (Problem K)
  | leaf keys values =>
    if values.length = keys.length then []
    else [⟨path, .misaligned keys.length values.length⟩]
  | branch _ children => alignmentProblemsFrom path 0 children

def alignmentProblemsFrom (path : List Nat) (index : Nat) : List (Node K V) → List (Problem K)
  | [] => []
  | child :: rest =>
    child.alignmentProblems (path ++ [index]) ++ alignmentProblemsFrom path (index + 1) rest

end

end Node

/-! ## The report -/

/-- The outcome of every check on a node, taken as a root. -/
structure Report (K : Type) where
  sorted : Bool
  separatorsValid : Bool
  fanoutRespected : Bool
  occupancyRespected : Bool
  aligned : Bool
  /-- The depth that all leaves share, if they do. -/
  height : Option Nat
  problems : List (Problem K)
  deriving Repr

namespace Report

variable {K : Type}

def balanced (report : Report K) : Bool := report.height.isSome

/-- Occupancy and alignment are reported, but not required. -/
def valid (report : Report K) : Bool :=
  report.sorted && report.separatorsValid && report.balanced && report.fanoutRespected

end Report

/-- Runs every check on a node, taken as a root. A comparison that is refused counts as one that gives
no order. -/
def Node.report {K V : Type} (compare : Comparator K) (order : Value) (node : Node K V) :
    Report K :=
  let sorted := node.sortedProblems compare []
  let separators := node.separatorProblems compare none none []
  let height := node.heightResult []
  let fanout := node.fanoutProblems order []
  let occupancy := node.occupancyProblems order.toNumber true []
  let alignment := node.alignmentProblems []
  { sorted := sorted.isEmpty
    separatorsValid := separators.isEmpty
    fanoutRespected := fanout.isEmpty
    occupancyRespected := occupancy.isEmpty
    aligned := alignment.isEmpty
    height := height.height
    problems := sorted ++ separators ++ height.problems ++ fanout ++ occupancy ++ alignment }

end OrderedIndex
