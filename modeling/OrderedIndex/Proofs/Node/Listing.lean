import OrderedIndex.Proofs.Node.Audit

/-!
# Nodes in preorder and their faults

A path of child positions leads from a root to each node below it. Four of the six checks of a report ask
each node on its own, whatever its neighbours are, and go through the nodes in preorder. The block that
such a check adds to a report lists the faults of each node, node after node. No fault is left out, none
comes twice, and none hides another one.
-/
namespace OrderedIndex
namespace Node

variable {K V : Type} {compare : Comparator K} {node : Node K V}

/-! ## Places -/

/-- The node that a path of child positions leads to. -/
def descend? : List Nat → Node K V → Option (Node K V)
  | [], node => some node
  | index :: path, node => node.children[index]?.bind (descend? path)

structure InPreorder (node : Node K V) (places : List (List Nat × Node K V)) : Prop where
  complete : ∀ path part, (path, part) ∈ places ↔ node.descend? path = some part
  increasing : places.Pairwise fun place later => place.1 < later.1

mutual

def listing (path : List Nat) : Node K V → List (List Nat × Node K V)
  | leaf keys values => [(path, leaf keys values)]
  | branch keys children => (path, branch keys children) :: listingFrom path 0 children

def listingFrom (path : List Nat) (index : Nat) : List (Node K V) → List (List Nat × Node K V)
  | [] => []
  | child :: rest => child.listing (path ++ [index]) ++ listingFrom path (index + 1) rest

end

theorem listing_eq (path : List Nat) (node : Node K V) :
    node.listing path = (path, node) :: listingFrom path 0 node.children := by
  cases node with
  | leaf keys values => rw [listing, children_leaf, listingFrom]
  | branch keys children => rw [listing, children_branch]

mutual

theorem mem_listing (path : List Nat) (node : Node K V) {place : List Nat × Node K V} :
    place ∈ node.listing path ↔
      ∃ below, place.1 = path ++ below ∧ node.descend? below = some place.2 := by
  have hrow : place ∈ listingFrom path 0 node.children ↔
      ∃ i below, place.1 = path ++ (0 + i) :: below ∧
        node.children[i]?.bind (descend? below) = some place.2 := by
    match node with
    | leaf _ _ => simp [listingFrom]
    | branch _ children => exact mem_listingFrom path 0 children
  -- a path is empty, or it goes to a child first
  rw [listing_eq, List.mem_cons, hrow]
  constructor
  · rintro (rfl | ⟨i, below, hpath, hpart⟩)
    · exact ⟨[], (List.append_nil path).symm, rfl⟩
    · rw [Nat.zero_add] at hpath
      exact ⟨i :: below, hpath, hpart⟩
  · rintro ⟨below, hpath, hpart⟩
    cases below with
    | nil =>
      rw [List.append_nil] at hpath
      exact .inl (Prod.ext hpath (Option.some.inj hpart).symm)
    | cons i below => exact .inr ⟨i, below, by rwa [Nat.zero_add], hpart⟩

theorem mem_listingFrom (path : List Nat) (index : Nat) (nodes : List (Node K V))
    {place : List Nat × Node K V} :
    place ∈ listingFrom path index nodes ↔
      ∃ i below, place.1 = path ++ (index + i) :: below ∧
        nodes[i]?.bind (descend? below) = some place.2 := by
  match nodes with
  | [] => simp [listingFrom]
  | child :: rest =>
    rw [listingFrom, List.mem_append, mem_listing _ child, mem_listingFrom path (index + 1) rest]
    constructor
    · rintro (⟨below, hpath, hpart⟩ | ⟨i, below, hpath, hpart⟩)
      · exact ⟨0, below, by simpa using hpath, hpart⟩
      · exact ⟨i + 1, below, by rw [hpath, Nat.add_right_comm, Nat.add_assoc], hpart⟩
    · rintro ⟨i, below, hpath, hpart⟩
      cases i with
      | zero => exact .inl ⟨below, by simpa using hpath, hpart⟩
      | succ i => exact .inr ⟨i, below, by rw [hpath, Nat.add_right_comm, Nat.add_assoc], hpart⟩

end

mutual

theorem pairwise_listing (path : List Nat) (node : Node K V) :
    (node.listing path).Pairwise fun place later => place.1 < later.1 := by
  have hrow : (listingFrom path 0 node.children).Pairwise fun place later => place.1 < later.1 := by
    match node with
    | leaf _ _ => exact .nil
    | branch _ children => exact pairwise_listingFrom path 0 children
  rw [listing_eq, List.pairwise_cons]
  refine ⟨fun later hlater => ?_, hrow⟩
  obtain ⟨i, below, hpath, -⟩ := (mem_listingFrom path 0 node.children).mp hlater
  rw [hpath]
  simpa using List.append_left_lt (List.nil_lt_cons (0 + i) below)

theorem pairwise_listingFrom (path : List Nat) (index : Nat) (nodes : List (Node K V)) :
    (listingFrom path index nodes).Pairwise fun place later => place.1 < later.1 := by
  match nodes with
  | [] => exact .nil
  | child :: rest =>
    rw [listingFrom, List.pairwise_append]
    refine ⟨pairwise_listing _ child, pairwise_listingFrom path (index + 1) rest, ?_⟩
    intro place hplace later hlater
    obtain ⟨below, hpath, -⟩ := (mem_listing _ child).mp hplace
    obtain ⟨i, below', hpath', -⟩ := (mem_listingFrom path (index + 1) rest).mp hlater
    rw [hpath, hpath', List.append_assoc]
    exact List.append_left_lt (List.cons_lt_cons_iff.mpr (.inl (by omega)))

end

theorem inPreorder_listing (node : Node K V) : node.InPreorder (node.listing []) where
  complete path part := by simp [mem_listing]
  increasing := pairwise_listing [] node

/-! ## Faults of one node -/

def rowFaults (compare : Comparator K) (index : Nat) (keys : List K) : List (Fault K) :=
  ((keys.zip keys.tail).zipIdx index).filterMap fun ((previous, key), index) =>
    if compare previous key = .ordered .lt then none else some (.notIncreasing index previous key)

/-- One fault for each key that is not above the key before it. -/
def orderFaults (compare : Comparator K) (node : Node K V) : List (Fault K) :=
  rowFaults compare 1 node.keys

/-- A fault if there are more keys in a leaf than the order less one, or more children of a branch than
the order. -/
def fanoutFaults (order : Value) : Node K V → List (Fault K)
  | leaf keys _ =>
    if order.toNumber - 1 < .ofNat keys.length then
      [.leafOverfull keys.length (order.toNumber - 1)]
    else []
  | branch _ children =>
    if order.toNumber < .ofNat children.length then [.branchOverfull children.length order] else []

/-- The fewest children of a branch: two of a root, else half the order rounded up. -/
def fewestChildren (order : Number) (isRoot : Bool) : Number :=
  if isRoot then .ofNat 2 else (order.divNat 2).ceil

/-- A fault if there are fewer keys in a leaf than the word of the order shifted right by one place, or
too few children of a branch. A leaf that is the root may be empty. -/
def occupancyFaults (order : Number) (isRoot : Bool) : Node K V → List (Fault K)
  | leaf keys _ =>
    if isRoot = false ∧ (keys.length : Int) < order.toWord >>> (1 : Nat) then
      [.leafUnderfull keys.length (order.toWord >>> (1 : Nat))]
    else []
  | branch _ children =>
    if .ofNat children.length < fewestChildren order isRoot then
      [.branchUnderfull children.length (fewestChildren order isRoot)]
    else []

/-- A fault if the values of a leaf are not as many as its keys. -/
def alignmentFaults : Node K V → List (Fault K)
  | leaf keys values =>
    if values.length = keys.length then [] else [.misaligned keys.length values.length]
  | branch _ _ => []

/-! ## Faults of all nodes -/

def problemsAt (faults : List Nat → Node K V → List (Fault K)) (places : List (List Nat × Node K V)) :
    List (Problem K) :=
  places.flatMap fun (path, part) => (faults path part).map (Problem.mk path)

/-- One line for each fault of the nodes at some places. It starts with the path of its node, as in
`root/1/0`. -/
def linesAt [Key K] (faults : List Nat → Node K V → List (Fault K)) (places : List (List Nat × Node K V)) :
    List String :=
  places.flatMap fun (path, part) => (faults path part).map fun fault =>
    "/".intercalate ("root" :: path.map Nat.repr) ++ ": " ++ fault.text

theorem map_text_problemsAt [Key K] (faults : List Nat → Node K V → List (Fault K))
    (places : List (List Nat × Node K V)) :
    (problemsAt faults places).map Problem.text = linesAt faults places := by
  simp only [problemsAt, linesAt, List.map_flatMap, List.map_map]
  rfl

/-- A walk that gathers the faults of a node and then goes through its children. -/
structure Gathers (faults : List Nat → Node K V → List (Fault K))
    (whole : List Nat → Node K V → List (Problem K))
    (row : List Nat → Nat → List (Node K V) → List (Problem K)) : Prop where
  node : ∀ path node,
    whole path node = (faults path node).map (Problem.mk path) ++ row path 0 node.children
  nil : ∀ path index, row path index [] = []
  cons : ∀ path index child rest,
    row path index (child :: rest) = whole (path ++ [index]) child ++ row path (index + 1) rest

section Walks

variable {faults : List Nat → Node K V → List (Fault K)}
  {whole : List Nat → Node K V → List (Problem K)}
  {row : List Nat → Nat → List (Node K V) → List (Problem K)}

mutual

/-- Whatever a walk gathers at a node, it does so at all nodes in preorder. -/
theorem Gathers.eq_problemsAt (h : Gathers faults whole row) (path : List Nat) (node : Node K V) :
    whole path node = problemsAt faults (node.listing path) := by
  have hrow : row path 0 node.children = problemsAt faults (listingFrom path 0 node.children) := by
    match node with
    | leaf _ _ => exact h.nil path 0
    | branch _ children => exact h.row_eq_problemsAt path 0 children
  rw [h.node, hrow, listing_eq, problemsAt, problemsAt, List.flatMap_cons]

theorem Gathers.row_eq_problemsAt (h : Gathers faults whole row) (path : List Nat) (index : Nat)
    (nodes : List (Node K V)) :
    row path index nodes = problemsAt faults (listingFrom path index nodes) := by
  match nodes with
  | [] => rw [h.nil, listingFrom, problemsAt, List.flatMap_nil]
  | child :: rest =>
    rw [h.cons, h.eq_problemsAt _ child, h.row_eq_problemsAt path (index + 1) rest, listingFrom,
      problemsAt, problemsAt, problemsAt, List.flatMap_append]

end

end Walks

theorem orderProblems_eq_map (path : List Nat) (index : Nat) (keys : List K) :
    orderProblems compare path index keys =
      (rowFaults compare index keys).map (Problem.mk path) := by
  fun_induction orderProblems compare path index keys with
  | case1 index a b rest ih =>
    rw [ih]
    by_cases h : compare a b = .ordered .lt
    · simp [rowFaults, h]
    · simp [rowFaults, h]
  | case2 keys index hshort =>
    cases keys with
    | nil => rfl
    | cons a rest =>
      cases rest with
      | nil => rfl
      | cons b rest => exact absurd rfl (hshort a b rest)

theorem gathers_sortedProblems (compare : Comparator K) :
    Gathers (V := V) (fun _ part => part.orderFaults compare) (sortedProblems compare)
      (sortedProblemsFrom compare) where
  node path node := by
    cases node with
    | leaf keys values =>
      rw [sortedProblems, children_leaf, sortedProblemsFrom, List.append_nil, orderFaults, keys_leaf,
        orderProblems_eq_map]
    | branch keys children =>
      rw [sortedProblems, children_branch, orderFaults, keys_branch, orderProblems_eq_map]
  nil _ _ := by rw [sortedProblemsFrom]
  cons _ _ _ _ := by rw [sortedProblemsFrom]

theorem gathers_fanoutProblems (order : Value) :
    Gathers (K := K) (V := V) (fun _ part => part.fanoutFaults order) (fanoutProblems order)
      (fanoutProblemsFrom order) where
  node path node := by
    cases node with
    | leaf keys values =>
      rw [fanoutProblems, children_leaf, fanoutProblemsFrom, List.append_nil, fanoutFaults,
        apply_ite (List.map (Problem.mk path))]
      rfl
    | branch keys children =>
      rw [fanoutProblems, children_branch, fanoutFaults, apply_ite (List.map (Problem.mk path))]
      rfl
  nil _ _ := by rw [fanoutProblemsFrom]
  cons _ _ _ _ := by rw [fanoutProblemsFrom]

theorem leafLeast_eq_shiftRight (order : Number) : leafLeast order = order.toWord >>> (1 : Nat) := by
  rw [leafLeast, Number.halfWord, Int.shiftRight_eq_div_pow]
  rfl

/-- The root is the node whose path is empty. -/
theorem gathers_occupancyProblems (order : Number) :
    Gathers (K := K) (V := V) (fun path part => part.occupancyFaults order path.isEmpty)
      (fun path part => part.occupancyProblems order path.isEmpty path)
      (occupancyProblemsFrom order) where
  node path node := by
    cases node with
    | leaf keys values =>
      rw [occupancyProblems, children_leaf, occupancyProblemsFrom, List.append_nil, occupancyFaults,
        apply_ite (List.map (Problem.mk path)), leafLeast_eq_shiftRight]
      rfl
    | branch keys children =>
      rw [occupancyProblems, children_branch, occupancyFaults, apply_ite (List.map (Problem.mk path))]
      rfl
  nil _ _ := by rw [occupancyProblemsFrom]
  cons path index _ _ := by
    have hbelow : (path ++ [index]).isEmpty = false := by simp
    rw [occupancyProblemsFrom, hbelow]

theorem gathers_alignmentProblems :
    Gathers (K := K) (V := V) (fun _ part => part.alignmentFaults) alignmentProblems
      alignmentProblemsFrom where
  node path node := by
    cases node with
    | leaf keys values =>
      rw [alignmentProblems, children_leaf, alignmentProblemsFrom, List.append_nil, alignmentFaults,
        apply_ite (List.map (Problem.mk path))]
      rfl
    | branch keys children =>
      rw [alignmentProblems, children_branch, alignmentFaults, List.map_nil, List.nil_append]
  nil _ _ := by rw [alignmentProblemsFrom]
  cons _ _ _ _ := by rw [alignmentProblemsFrom]

/-! ## The report -/

structure Blocks (K : Type) where
  sorted : List (Problem K)
  separators : List (Problem K)
  heights : List (Problem K)
  fanout : List (Problem K)
  occupancy : List (Problem K)
  alignment : List (Problem K)

def Blocks.all (blocks : Blocks K) : List (Problem K) :=
  blocks.sorted ++ blocks.separators ++ blocks.heights ++ blocks.fanout ++ blocks.occupancy ++
    blocks.alignment

structure Records (compare : Comparator K) (order : Value) (node : Node K V) (report : Report K)
    (blocks : Blocks K) : Prop where
  sorted : node.auditSorted compare [] (some []) = .ok (report.sorted, some blocks.sorted)
  separators : node.auditSeparators compare none none [] (some []) =
    .ok (report.separatorsValid, some blocks.separators)
  heights : node.auditHeight [] (some []) = (report.height, some blocks.heights)
  fanout : node.auditFanout order [] (some []) = .ok (report.fanoutRespected, some blocks.fanout)
  occupancy : node.auditOccupancy order.toNumber true [] (some []) =
    .ok (report.occupancyRespected, some blocks.occupancy)
  alignment : node.auditAlignment [] [] = (report.aligned, blocks.alignment)

structure Lists (compare : Comparator K) (order : Value) (places : List (List Nat × Node K V))
    (blocks : Blocks K) : Prop where
  sorted : blocks.sorted = problemsAt (fun _ part => part.orderFaults compare) places
  fanout : blocks.fanout = problemsAt (fun _ part => part.fanoutFaults order) places
  occupancy : blocks.occupancy =
    problemsAt (fun path part => part.occupancyFaults order.toNumber path.isEmpty) places
  alignment : blocks.alignment = problemsAt (fun _ part => part.alignmentFaults) places

def reportBlocks (compare : Comparator K) (order : Value) (node : Node K V) : Blocks K where
  sorted := node.sortedProblems compare []
  separators := node.separatorProblems compare none none []
  heights := (node.heightResult []).problems
  fanout := node.fanoutProblems order []
  occupancy := node.occupancyProblems order.toNumber true []
  alignment := node.alignmentProblems []

theorem lists_reportBlocks (compare : Comparator K) (order : Value) (node : Node K V) :
    Lists compare order (node.listing []) (node.reportBlocks compare order) where
  sorted := (gathers_sortedProblems compare).eq_problemsAt [] node
  fanout := (gathers_fanoutProblems order).eq_problemsAt [] node
  occupancy := (gathers_occupancyProblems order.toNumber).eq_problemsAt [] node
  alignment := gathers_alignmentProblems.eq_problemsAt [] node

theorem records_report (order : Value) (hallowed : node.isRefused compare = false) :
    node.Records compare order (node.report compare order) (node.reportBlocks compare order) := by
  obtain ⟨hsorted, hseparated⟩ := Bool.or_eq_false_iff.mp hallowed
  rw [report_eq]
  constructor
  · rw [(agrees_auditSorted compare [] node).records, hsorted]
    rfl
  · rw [(agrees_auditSeparators compare none none [] node).records, hseparated]
    rfl
  · rw [auditHeight_some, (heightResult_eq [] node).1]
    rfl
  · rw [(agrees_auditFanout order [] node).records]
    rfl
  · rw [(agrees_auditOccupancy order.toNumber true [] node).records]
    rfl
  · rw [auditAlignment_eq]
    rfl

/-- The lines of the six blocks, where four of them are read off the nodes at some places. -/
theorem Lists.lines_all [Key K] {order : Value} {places : List (List Nat × Node K V)}
    {blocks : Blocks K} (h : Lists compare order places blocks) :
    blocks.all.map Problem.text =
      linesAt (fun _ part => part.orderFaults compare) places ++
        blocks.separators.map Problem.text ++ blocks.heights.map Problem.text ++
        linesAt (fun _ part => part.fanoutFaults order) places ++
        linesAt (fun path part => part.occupancyFaults order.toNumber path.isEmpty) places ++
        linesAt (fun _ part => part.alignmentFaults) places := by
  simp only [Blocks.all, List.map_append, h.sorted, h.fanout, h.occupancy, h.alignment,
    map_text_problemsAt]

/-- Under a comparator that refuses nothing, every node has a report. Whenever there is a report, its
problems are those of the six checks, one check after another. For sortedness, fanout, occupancy and
alignment these are the faults of all nodes in preorder: one for each key not above the one before it,
one for each leaf with too many or too few keys or another number of values, and one for each branch with
too many or too few children. The lines of the report are theirs, each after the path of its node. -/
theorem audit_lists_faults [Key K] (compare : Comparator K) (order : Value) (node : Node K V) :
    (compare.Answers → ∃ report, node.audit compare order = .ok report) ∧
      ∀ report, node.audit compare order = .ok report →
        ∃ blocks, report.problems = blocks.all ∧ node.Records compare order report blocks ∧
          ∃ places, node.InPreorder places ∧ Lists compare order places blocks ∧
            report.problems.map Problem.text =
              linesAt (fun _ part => part.orderFaults compare) places ++
                blocks.separators.map Problem.text ++ blocks.heights.map Problem.text ++
                linesAt (fun _ part => part.fanoutFaults order) places ++
                linesAt (fun path part => part.occupancyFaults order.toNumber path.isEmpty) places ++
                linesAt (fun _ part => part.alignmentFaults) places := by
  rw [audit_eq_validate]
  constructor
  · intro answers
    exact ⟨_, validate_eq_ok answers order node⟩
  · intro report hreport
    rw [validate] at hreport
    split at hreport
    next => contradiction
    next hallowed =>
      obtain rfl := Except.ok.inj hreport
      have hlists := lists_reportBlocks compare order node
      exact ⟨node.reportBlocks compare order, rfl, records_report order (by simpa using hallowed),
        node.listing [], inPreorder_listing node, hlists, hlists.lines_all⟩

/-- Faults of every kind. The first leaf has four of them, and the last one none. -/
def riddled : Node Nat Nat :=
  .branch []
    [.branch [5, 9, 12, 20]
      [.leaf [1, 3, 3, 2] [10], .leaf [4] [40], .leaf [9, 12] [90, 120], .branch [] [],
        .leaf [20, 21] [200, 210]]]

theorem audit_lists_faults_riddled :
    ∃ report, riddled.audit Key.natural (.number 4) = .ok report ∧
      report.problems.map Problem.text =
        ["root/0/0: keys[1] = 3 is not less than keys[2] = 3",
          "root/0/0: keys[2] = 3 is not less than keys[3] = 2",
          "root/0/1: key 4 is below the lower separator 5",
          "root/0/2: key 12 is not below the upper separator 12",
          "root/0/3: branch has 0 keys but 0 children",
          "root/0/3: subtree height 1 differs from sibling height 0",
          "root/0: branch has 5 children, more than 4",
          "root/0/0: leaf holds 4 keys, more than 3",
          "root: branch has 1 children, fewer than 2",
          "root/0/1: leaf holds 1 keys, fewer than 2",
          "root/0/3: branch has 0 children, fewer than 2",
          "root/0/0: leaf has 4 keys but 1 values"] ∧
      ∃ blocks, report.problems = blocks.all ∧ ∃ places, riddled.InPreorder places ∧
        Lists Key.natural (.number 4) places blocks := by
  have answers : (Key.natural : Comparator Nat).Answers := fun _ _ => rfl
  obtain ⟨hexists, hreports⟩ := audit_lists_faults Key.natural (.number 4) riddled
  obtain ⟨report, hreport⟩ := hexists answers
  obtain ⟨blocks, hproblems, _, places, hplaces, hlists, _⟩ := hreports report hreport
  refine ⟨report, hreport, ?_, blocks, hproblems, places, hplaces, hlists⟩
  apply Option.some.inj
  calc some (report.problems.map Problem.text)
      = (riddled.audit Key.natural (.number 4)).toOption.map (·.problems.map Problem.text) := by
        rw [hreport]
        rfl
    _ = some _ := by decide +kernel

end Node
end OrderedIndex
