import Mathlib.Data.List.DropRight
import OrderedIndex.Node.Level
import OrderedIndex.Proofs.Node.Effect
import OrderedIndex.Proofs.Node.Failure

/-!
# Cascades of splits

An insertion goes down the path of a search for its key, and splits come back up the same path. A leaf
overflows at another count than a branch does, and still both split exactly if they are full and all
nodes of the path below them are. So the full nodes at the end of the path are the nodes that split.
-/
namespace OrderedIndex
namespace Node

variable {K V : Type} {order height : Nat}

/-! ## Full nodes at the end of a path -/

/-- A leaf is full with one key less than the order, a branch with as many children as the order. -/
def isFull (order : Nat) : Node K V → Bool
  | leaf keys _ => keys.length == order - 1
  | branch _ children => children.length == order

/-- How many full nodes there are at the end of a path, one directly below the other. -/
def fullAtEnd (order : Nat) (path : List (Node K V)) : Nat :=
  (path.rtakeWhile (isFull order)).length

theorem fullAtEnd_le (order : Nat) (path : List (Node K V)) : fullAtEnd order path ≤ path.length :=
  (List.rtakeWhile_suffix (isFull order) path).length_le

/-- A node above a path joins the full ones at its end if it is full and the whole path is. -/
theorem fullAtEnd_cons (order : Nat) (part : Node K V) (path : List (Node K V)) :
    fullAtEnd order (part :: path) = fullAtEnd order path +
      if fullAtEnd order path = path.length ∧ part.isFull order = true then 1 else 0 := by
  simp only [fullAtEnd, List.rtakeWhile, List.length_reverse, List.reverse_cons, List.takeWhile_append]
  by_cases hall : (path.reverse.takeWhile (isFull order)).length = path.length
  · by_cases hpart : part.isFull order = true
    · simp [hall, hpart]
    · simp [hall, hpart]
  · simp [hall]

/-- A node is one of the full ones at the end of a path if all nodes from it on are full. -/
theorem lt_fullAtEnd_append (order : Nat) (above : List (Node K V)) (part : Node K V)
    (below : List (Node K V)) :
    below.length < fullAtEnd order (above ++ part :: below) ↔
      fullAtEnd order (part :: below) = (part :: below).length := by
  have hle := fullAtEnd_le order (part :: below)
  simp only [List.length_cons] at hle ⊢
  induction above with
  | nil =>
    rw [List.nil_append]
    omega
  | cons top above ih =>
    have hrest := fullAtEnd_le order (above ++ part :: below)
    rw [List.cons_append, fullAtEnd_cons]
    split
    · next hall =>
      have hlength := hall.1
      simp only [List.length_append, List.length_cons] at hlength
      have hinner := ih.mp (by omega)
      omega
    · exact ih

/-! ## Paths -/

section Paths

variable [Key K] {compare : Comparator K} {key : K} {node part : Node K V}

/-- A path begins where the search does. -/
theorem exists_path_eq_cons (compare : Comparator K) (key : K) (node : Node K V) :
    ∃ below, node.path compare key = node :: below := by
  cases node with
  | leaf keys values => exact ⟨[], by rw [path]⟩
  | branch keys children => exact ⟨_, by rw [path]⟩

theorem path_branch {keys : List K} {cs₁ cs₂ : List (Node K V)} {child : Node K V}
    (hr : childIndex compare keys key = .ok cs₁.length) :
    (branch keys (cs₁ ++ child :: cs₂)).path compare key =
      branch keys (cs₁ ++ child :: cs₂) :: child.path compare key := by
  have hc : (cs₁ ++ child :: cs₂)[cs₁.length]? = some child := by simp
  simp only [path, hr, pathAt_eq hc]

/-- A path goes on from each of its nodes as if it began there, and a search that succeeds finds the
same from there. -/
theorem path_rest [Inhabited V] (hs : Shaped order height node) {found : Option V}
    (hf : node.find? compare key = .ok found) {above below : List (Node K V)}
    (hp : node.path compare key = above ++ part :: below) :
    part.path compare key = part :: below ∧ part.find? compare key = .ok found ∧
      ∃ rest, Shaped order rest part := by
  induction hs generalizing above with
  | @leaf keys values room aligned =>
    rw [path] at hp
    cases above with
    | nil =>
      obtain ⟨rfl, rfl⟩ := List.cons.inj hp
      exact ⟨by rw [path], hf, 0, .leaf room aligned⟩
    | cons top above =>
      have hlength := congrArg List.length hp
      simp at hlength
  | @branch height keys children counted room each ih =>
    cases hr : childIndex compare keys key with
    | error e => simp [find?, hr] at hf
    | ok i =>
      have hi := childIndex_le hr
      obtain ⟨cs₁, child, cs₂, rfl, rfl⟩ :=
        Position.parts_of_lt (show i < children.length by omega)
      rw [path_branch hr] at hp
      cases above with
      | nil =>
        obtain ⟨rfl, rfl⟩ := List.cons.inj hp
        exact ⟨path_branch hr, hf, height + 1, .branch counted room each⟩
      | cons top above =>
        rw [find?_branch hr] at hf
        exact ih child (by simp) hf (List.cons.inj hp).2

/-- A search that succeeds goes all the way down. -/
theorem length_path [Inhabited V] (hs : Shaped order height node) {found : Option V}
    (hf : node.find? compare key = .ok found) : (node.path compare key).length = height + 1 := by
  induction hs with
  | leaf => simp [path]
  | @branch height keys children counted room each ih =>
    cases hr : childIndex compare keys key with
    | error e => simp [find?, hr] at hf
    | ok i =>
      have hi := childIndex_le hr
      obtain ⟨cs₁, child, cs₂, rfl, rfl⟩ :=
        Position.parts_of_lt (show i < children.length by omega)
      rw [find?_branch hr] at hf
      rw [path_branch hr, List.length_cons, ih child (by simp) hf]

end Paths

/-! ## Splits -/

/-- A root that has split comes to two nodes and one above them. -/
theorem count_root (result : Insertion K V) :
    result.root.count = countAll result.nodes + result.separators.length := by
  cases result <;> simp [Insertion.root, Insertion.nodes, Insertion.separators]

section Splits

variable [Key K] {compare : Comparator K} {key : K} {value : V} {node : Node K V}
  {result : Insertion K V}

/-- An insertion that replaces a value leaves as many nodes as before and splits none. -/
theorem Takes.no_splits (ht : Takes order compare key value node result)
    (ha : result.added = false) :
    countAll result.nodes = node.count ∧ result.separators.length = 0 := by
  induction ht with
  | replaced => simp
  | placed => simp at ha
  | halved => simp at ha
  | @adopted ks₁ ks₂ cs₁ cs₂ child result route level inside fits ih =>
    obtain ⟨hcount, _⟩ := ih ha
    simp [hcount]
  | parted => simp at ha

/-- An insertion that adds a key adds a node for each full one at the end of its path, and splits the
subtree if the whole path is full. -/
theorem Takes.cascade (ht : Takes order compare key value node result) (ho : 3 ≤ order)
    (hs : Shaped order height node) (ha : result.added = true) :
    countAll result.nodes = node.count + fullAtEnd order (node.path compare key) ∧
      result.separators.length =
        if fullAtEnd order (node.path compare key) = (node.path compare key).length then 1 else 0 := by
  induction ht generalizing height with
  | replaced => simp at ha
  | @placed ks₁ ks₂ vs₁ vs₂ gap level fits =>
    have hroom : (leaf (ks₁ ++ ks₂) (vs₁ ++ vs₂)).isFull order = false := by
      simp only [isFull, List.length_append, List.length_cons] at fits ⊢
      exact beq_false_of_ne (by omega)
    simp [path, fullAtEnd, List.rtakeWhile, hroom]
  | @halved ks₁ ks₂ kl kr vs₁ vs₂ vl vr separator gap level full keysCut valuesCut half levelCut =>
    have hfull : (leaf (ks₁ ++ ks₂) (vs₁ ++ vs₂)).isFull order = true := by
      simp only [isFull, List.length_append, List.length_cons] at full ⊢
      exact beq_of_eq (by omega)
    simp [path, fullAtEnd, List.rtakeWhile, hfull]
  | @adopted ks₁ ks₂ cs₁ cs₂ child result route level inside fits ih =>
    cases hs with
    | branch counted room each =>
      obtain ⟨hcount, hsplits⟩ := ih (each child (by simp)) ha
      have hle := fullAtEnd_le order (child.path compare key)
      have hnodes := result.length_nodes
      -- a full branch below which all is full would have a child too many
      have hroom : ¬ (fullAtEnd order (child.path compare key) = (child.path compare key).length ∧
          (branch (ks₁ ++ ks₂) (cs₁ ++ child :: cs₂)).isFull order = true) := by
        rintro ⟨hall, hfull⟩
        rw [if_pos hall] at hsplits
        simp only [isFull, beq_iff_eq, List.length_append, List.length_cons] at hfull fits
        omega
      rw [← level] at route
      rw [path_branch route, fullAtEnd_cons, if_neg hroom, List.length_cons, if_neg (by omega)]
      refine ⟨?_, rfl⟩
      simp only [Insertion.nodes_absorbed, countAll_cons, countAll_nil, count_branch, countAll_append,
        hcount]
      omega
  | @parted ks₁ ks₂ kl kr cs₁ cs₂ cl cr child separator result route level inside grown full
      keysCut childrenCut half levelCut ih =>
    cases hs with
    | branch counted room each =>
      obtain ⟨hcount, hsplits⟩ := ih (each child (by simp)) grown
      have hnodes := result.length_nodes
      have hfew := result.length_separators_le
      simp only [List.length_append, List.length_cons] at full room
      have hall : fullAtEnd order (child.path compare key) = (child.path compare key).length := by
        by_contra hne
        rw [if_neg hne] at hsplits
        omega
      have hfull : (branch (ks₁ ++ ks₂) (cs₁ ++ child :: cs₂)).isFull order = true := by
        simp only [isFull, beq_iff_eq, List.length_append, List.length_cons]
        omega
      rw [← level] at route
      rw [path_branch route, fullAtEnd_cons, if_pos ⟨hall, hfull⟩, List.length_cons, hall, if_pos rfl]
      refine ⟨?_, rfl⟩
      have hcut := congrArg countAll childrenCut
      simp only [countAll_append, hcount] at hcut
      simp only [Insertion.nodes_split, countAll_cons, countAll_nil, count_branch, countAll_append]
      omega

/-- Where an insertion adds a key, a node of its path splits exactly if it is one of the full ones at the
end of the path. -/
theorem splits_iff [Inhabited K] [Inhabited V] (ho : 3 ≤ order) (hs : Shaped order height node)
    (hf : node.find? compare key = .ok none) {above below : List (Node K V)} {part : Node K V}
    (hp : node.path compare key = above ++ part :: below) (value : V) :
    (∃ halves, part.insert (.ofNat order) compare key value = .split halves) ↔
      below.length < fullAtEnd order (node.path compare key) := by
  obtain ⟨hpath, hfind, rest, hshape⟩ := path_rest hs hf hp
  obtain ht : Takes order compare key value part
      (part.insert (.ofNat order) compare key value) := by
    refine (insert_takes ho hshape compare key value).resolve_left ?_
    rintro ⟨e, _, he, _⟩
    rw [hfind] at he
    cases he
  have ha : (part.insert (.ofNat order) compare key value).added = true := by
    have hcontains := ht.contains_eq
    simpa [contains, hfind, Except.map] using hcontains
  rw [Insertion.exists_split_iff, (ht.cascade ho hshape ha).2, hp, lt_fullAtEnd_append, hpath]
  split
  · next hall => exact iff_of_true rfl hall
  · next hroom => exact iff_of_false Nat.zero_ne_one hroom

end Splits

end Node
end OrderedIndex
