import OrderedIndex.Node.Validate
/-!
# Checks with and without a record

Every check of a node is one walk that serves two purposes. Without a record of problems it only
decides, and ends at the first failure; with one it records each failure and goes on. A comparison that
is refused ends it in both cases. The report on a node runs all six checks one after another on the same
record.
-/

namespace OrderedIndex

/-- The problems met so far, if they are recorded. -/
abbrev Record (K : Type) := Option (List (Problem K))

def Record.add {K : Type} (record : Record K) (problem : Problem K) : Record K :=
  record.map (· ++ [problem])

/-- A check that decides and adds what it finds to the record. -/
def Audit (K : Type) := Record K → Except (Error K) (Bool × Record K)

namespace Audit

variable {K : Type}

def pass : Audit K := fun record => .ok (true, record)

/-- A condition, with the problem if it does not hold. -/
def require (holds : Bool) (problem : Problem K) : Audit K := fun record =>
  .ok (holds, if holds then record else record.add problem)

/-- A condition on how two keys stand to each other. -/
def requireOrder (outcome : Comparison) (wanted : Ordering → Bool) (problem : Problem K) : Audit K :=
  match outcome with
  | .ordered order => require (wanted order) problem
  | .blocked .unordered => require false problem
  | .blocked .refused => fun _ => .error .refused

/-- One check after another. If the first fails, the second is made only to complete a record. -/
def andAlso (first second : Audit K) : Audit K := fun record =>
  match first record with
  | .error e => .error e
  | .ok (false, none) => .ok (false, none)
  | .ok (ok, record) =>
    match second record with
    | .error e => .error e
    | .ok (ok', record) => .ok (ok && ok', record)

/-- A check that is made only if another one succeeds. -/
def andThen (first second : Audit K) : Audit K := fun record =>
  match first record with
  | .error e => .error e
  | .ok (false, record) => .ok (false, record)
  | .ok (true, record) => second record

/-- What a check decides without a record. -/
def verdict (audit : Audit K) : Except (Error K) Bool := (audit none).map Prod.fst

end Audit

namespace Node

variable {K V : Type}

/-! ## Keys in order -/

def auditOrder (compare : Comparator K) (path : List Nat) (index : Nat) : List K → Audit K
  | a :: b :: rest =>
    (Audit.requireOrder (compare a b) (· == .lt) ⟨path, .notIncreasing index a b⟩).andAlso
      (auditOrder compare path (index + 1) (b :: rest))
  | _ => .pass

mutual

def auditSorted (compare : Comparator K) (path : List Nat) : Node K V → Audit K
  | leaf keys _ => auditOrder compare path 1 keys
  | branch keys children =>
    (auditOrder compare path 1 keys).andAlso (auditSortedFrom compare path 0 children)

def auditSortedFrom (compare : Comparator K) (path : List Nat) (index : Nat) :
    List (Node K V) → Audit K
  | [] => .pass
  | child :: rest =>
    (child.auditSorted compare (path ++ [index])).andAlso
      (auditSortedFrom compare path (index + 1) rest)

end

/-! ## Separators -/

def auditLower (compare : Comparator K) (low : Option K) (path : List Nat) (key : K) : Audit K :=
  match low with
  | none => .pass
  | some bound =>
    .requireOrder (compare key bound) (fun order => order == .gt || order == .eq)
      ⟨path, .belowLower key bound⟩

def auditUpper (compare : Comparator K) (high : Option K) (path : List Nat) (key : K) : Audit K :=
  match high with
  | none => .pass
  | some bound => .requireOrder (compare key bound) (· == .lt) ⟨path, .notBelowUpper key bound⟩

/-- Each key against both bounds. The upper one is looked at only if the lower one is kept. -/
def auditBounds (compare : Comparator K) (low high : Option K) (path : List Nat) : List K → Audit K
  | [] => .pass
  | key :: rest =>
    ((auditLower compare low path key).andThen (auditUpper compare high path key)).andAlso
      (auditBounds compare low high path rest)

mutual

/-- The children of a branch with a wrong number of them are not looked at. -/
def auditSeparators (compare : Comparator K) (low high : Option K) (path : List Nat) :
    Node K V → Audit K
  | leaf keys _ => auditBounds compare low high path keys
  | branch keys children =>
    (auditBounds compare low high path keys).andAlso
      ((Audit.require (children.length == keys.length + 1)
          ⟨path, .childCount keys.length children.length⟩).andThen
        (auditSeparatorsFrom compare low high path 0 keys children))

def auditSeparatorsFrom (compare : Comparator K) (low high : Option K) (path : List Nat)
    (index : Nat) : List K → List (Node K V) → Audit K
  | _, [] => .pass
  | [], child :: rest =>
    (child.auditSeparators compare low high (path ++ [index])).andAlso
      (auditSeparatorsFrom compare low high path (index + 1) [] rest)
  | key :: keys, child :: rest =>
    (child.auditSeparators compare low (some key) (path ++ [index])).andAlso
      (auditSeparatorsFrom compare (some key) high path (index + 1) keys rest)

end

/-! ## Height -/

structure Heights (K : Type) where
  expected : Option Nat
  ok : Bool
  record : Record K

/-- One more child, at a path. A child without a height has failed on its own. -/
def Heights.add {K : Type} (heights : Heights K) (path : List Nat) (height? : Option Nat)
    (record : Record K) : Heights K :=
  match height?, heights.expected with
  | none, _ => { heights with ok := false, record }
  | some h, none => { heights with expected := some h, record }
  | some h, some expected =>
    if h = expected then { heights with record }
    else { heights with ok := false, record := record.add ⟨path, .heightDiffers h expected⟩ }

def Heights.height? {K : Type} (heights : Heights K) : Option Nat :=
  if heights.ok then some (heights.expected.getD 0 + 1) else none

mutual

def auditHeight (path : List Nat) : Node K V → Record K → Option Nat × Record K
  | leaf _ _, record => (some 0, record)
  | branch _ children, record =>
    let heights := auditHeights path 0 ⟨none, true, record⟩ children
    (heights.height?, heights.record)

/-- Without a record, the first failure is the end. -/
def auditHeights (path : List Nat) (index : Nat) (heights : Heights K) : List (Node K V) → Heights K
  | [] => heights
  | child :: rest =>
    let (height?, record) := child.auditHeight (path ++ [index]) heights.record
    let heights := heights.add (path ++ [index]) height? record
    if heights.ok || heights.record.isSome then auditHeights path (index + 1) heights rest else heights

end

/-! ## Sizes -/

mutual

def auditFanout (order : Value) (path : List Nat) : Node K V → Audit K
  | leaf keys _ =>
    .require (!decide (leafLimit order.toNumber < .ofNat keys.length))
      ⟨path, .leafOverfull keys.length (leafLimit order.toNumber)⟩
  | branch _ children =>
    (Audit.require (!decide (order.toNumber < .ofNat children.length))
        ⟨path, .branchOverfull children.length order⟩).andAlso
      (auditFanoutFrom order path 0 children)

def auditFanoutFrom (order : Value) (path : List Nat) (index : Nat) : List (Node K V) → Audit K
  | [] => .pass
  | child :: rest =>
    (child.auditFanout order (path ++ [index])).andAlso (auditFanoutFrom order path (index + 1) rest)

end

mutual

def auditOccupancy (order : Number) (isRoot : Bool) (path : List Nat) : Node K V → Audit K
  | leaf keys _ =>
    .require (isRoot || !decide ((keys.length : Int) < leafLeast order))
      ⟨path, .leafUnderfull keys.length (leafLeast order)⟩
  | branch _ children =>
    (Audit.require (!decide (.ofNat children.length < branchLeast order isRoot))
        ⟨path, .branchUnderfull children.length (branchLeast order isRoot)⟩).andAlso
      (auditOccupancyFrom order path 0 children)

def auditOccupancyFrom (order : Number) (path : List Nat) (index : Nat) : List (Node K V) → Audit K
  | [] => .pass
  | child :: rest =>
    (child.auditOccupancy order false (path ++ [index])).andAlso
      (auditOccupancyFrom order path (index + 1) rest)

end

mutual

/-- A value for each key of a leaf. There is always a record, so nothing ends this check early. -/
def auditAlignment (path : List Nat) :
    Node K V → List (Problem K) → Bool × List (Problem K)
  | leaf keys values, problems =>
    if values.length = keys.length then (true, problems)
    else (false, problems ++ [⟨path, .misaligned keys.length values.length⟩])
  | branch _ children, problems => auditAlignmentFrom path 0 true children problems

def auditAlignmentFrom (path : List Nat) (index : Nat) (ok : Bool) :
    List (Node K V) → List (Problem K) → Bool × List (Problem K)
  | [], problems => (ok, problems)
  | child :: rest, problems =>
    let (aligned, problems) := child.auditAlignment (path ++ [index]) problems
    auditAlignmentFrom path (index + 1) (aligned && ok) rest problems

end

/-! ## All checks -/

/-- Sorted, separated, balanced and within fanout, decided in this order up to the first failure. -/
def auditValid (compare : Comparator K) (order : Value) (node : Node K V) : Except (Error K) Bool := do
  if !(← (node.auditSorted compare []).verdict) then return false
  if !(← (node.auditSeparators compare none none []).verdict) then return false
  if (node.auditHeight [] (none : Record K)).1.isNone then return false
  (node.auditFanout order []).verdict

def audit (compare : Comparator K) (order : Value) (node : Node K V) :
    Except (Error K) (Report K) := do
  let (sorted, record) ← node.auditSorted compare [] (some [])
  let (separatorsValid, record) ← node.auditSeparators compare none none [] record
  let (height, record) := node.auditHeight [] record
  let (fanoutRespected, record) ← node.auditFanout order [] record
  let (occupancyRespected, record) ← node.auditOccupancy order.toNumber true [] record
  let (aligned, problems) := node.auditAlignment [] (record.getD [])
  return { sorted, separatorsValid, fanoutRespected, occupancyRespected, aligned, height, problems }

end Node

end OrderedIndex
