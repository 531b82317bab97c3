import OrderedIndex.Proofs.Node.Insertion

/-!
# The one place an insertion changes

The leaves of a subtree from left to right, and the places that hold its values. An insertion that
replaces a value changes one place and nothing else; one that adds a key changes one leaf, which may
become two. Both agree with what a search for the key says beforehand, for every comparator.
-/
namespace OrderedIndex
namespace Node

variable {K V : Type}

/-! ## Places of values -/

/-- The value at a place: the children to go to, one below the other, and a position in the leaf. -/
def valueAt? : List Nat → Nat → Node K V → Option V
  | [], i, leaf _ values => values[i]?
  | j :: path, i, branch _ children => children[j]?.bind fun child => valueAt? path i child
  | _, _, _ => none

def writeAt (value : V) : List Nat → Nat → Node K V → Node K V
  | [], i, leaf keys values => leaf keys (values.set i value)
  | j :: path, i, branch keys children =>
    branch keys (children.modify j fun child => writeAt value path i child)
  | _, _, node => node

/-- A place that holds a value, where the search for a key reads its answer: whatever value stands
there is the one found. -/
structure ReadsAt [Key K] [Inhabited V] (compare : Comparator K) (key : K) (path : List Nat)
    (i : Nat) (node : Node K V) : Prop where
  holds : ∃ old, node.valueAt? path i = some old ∧ node.find? compare key = .ok (some old)
  follows : ∀ value, (node.writeAt value path i).find? compare key = .ok (some value)

/-! ## Leaves -/

mutual

def leaves : Node K V → List (Node K V)
  | leaf keys values => [leaf keys values]
  | branch _ children => leavesOf children

def leavesOf : List (Node K V) → List (Node K V)
  | [] => []
  | child :: rest => child.leaves ++ leavesOf rest

end

@[simp] theorem leaves_leaf (ks : List K) (vs : List V) : (leaf ks vs).leaves = [leaf ks vs] := by
  simp [leaves]
@[simp] theorem leaves_branch (ks : List K) (cs : List (Node K V)) :
    (branch ks cs).leaves = leavesOf cs := by simp [leaves]
@[simp] theorem leavesOf_nil : leavesOf ([] : List (Node K V)) = [] := by simp [leavesOf]
@[simp] theorem leavesOf_cons (c : Node K V) (cs : List (Node K V)) :
    leavesOf (c :: cs) = c.leaves ++ leavesOf cs := by simp [leavesOf]

@[simp] theorem leavesOf_append (cs ds : List (Node K V)) :
    leavesOf (cs ++ ds) = leavesOf cs ++ leavesOf ds := by
  induction cs with
  | nil => simp
  | cons c cs ih => simp [ih]

theorem pairsOf_leavesOf_of [Inhabited V] {cs : List (Node K V)}
    (h : ∀ c ∈ cs, pairsOf c.leaves = c.pairs) : pairsOf (leavesOf cs) = pairsOf cs := by
  induction cs with
  | nil => simp
  | cons c cs ih =>
    have hc := h c (by simp)
    have hr := ih (fun part hp => h part (by simp [hp]))
    simp [hc, hr]

/-- The leaves hold all the pairs. -/
theorem pairsOf_leaves [Inhabited V] (node : Node K V) : pairsOf node.leaves = node.pairs := by
  induction node using childInduction with
  | leaf keys values => simp
  | branch keys children ih => simpa using pairsOf_leavesOf_of ih

theorem pairsOf_leavesOf [Inhabited V] (cs : List (Node K V)) :
    pairsOf (leavesOf cs) = pairsOf cs :=
  pairsOf_leavesOf_of fun c _ => pairsOf_leaves c

/-- The pairs of a leaf around a position, also if there are too few values. -/
theorem pairUp_parts [Inhabited V] (ks₁ ks₂ : List K) (values : List V) :
    pairUp (ks₁ ++ ks₂) values =
      pairUp ks₁ values ++ pairUp ks₂ (values.drop ks₁.length) := by
  induction ks₁ generalizing values with
  | nil => simp [pairUp]
  | cons k ks₁ ih =>
    cases values with
    | nil => simpa [pairUp] using ih []
    | cons v values => simpa [pairUp] using ih values

/-- Values past the keys do not matter. -/
theorem pairUp_take [Inhabited V] (keys : List K) (values : List V) :
    pairUp keys (values.take keys.length) = pairUp keys values := by
  induction keys generalizing values with
  | nil => simp [pairUp]
  | cons k keys ih => cases values <;> simp [pairUp, ih]

theorem pairUp_append [Inhabited V] {ks₁ ks₂ : List K} {vs₁ vs₂ : List V}
    (hl : vs₁.length = ks₁.length) :
    pairUp (ks₁ ++ ks₂) (vs₁ ++ vs₂) = pairUp ks₁ vs₁ ++ pairUp ks₂ vs₂ := by
  rw [pairUp_parts, ← pairUp_take ks₁, ← hl, List.take_left, List.drop_left]

/-- Between two lists of leaves, one leaf has been replaced by one or two that hold its pairs and one
more; all other leaves are the same, in the same order. -/
inductive OneLeafGains [Inhabited V] (key : K) (value : V) :
    List (Node K V) → List (Node K V) → Prop
  | intro {before after new : List (Node K V)} {old : Node K V} {p₁ p₂ : List (K × V)}
      (few : new.length = 1 ∨ new.length = 2) (had : old.pairs = p₁ ++ p₂)
      (has : pairsOf new = p₁ ++ (key, value) :: p₂) :
      OneLeafGains key value (before ++ old :: after) (before ++ new ++ after)

theorem OneLeafGains.between [Inhabited V] {key : K} {value : V} {old new : List (Node K V)}
    (h : OneLeafGains key value old new) (before after : List (Node K V)) :
    OneLeafGains key value (before ++ old ++ after) (before ++ new ++ after) := by
  cases h with
  | @intro before' after' new old p₁ p₂ few had has =>
    have h : OneLeafGains key value ((before ++ before') ++ old :: (after' ++ after))
        ((before ++ before') ++ new ++ (after' ++ after)) := .intro few had has
    simpa using h

/-- A pair put into a leaf, which may have been cut since. -/
theorem OneLeafGains.leaf [Inhabited V] {key : K} {value : V} {ks₁ ks₂ : List K}
    {vs₁ vs₂ : List V} {new : List (Node K V)} (hl : vs₁.length = ks₁.length)
    (few : new.length = 1 ∨ new.length = 2)
    (has : pairsOf new = pairUp (ks₁ ++ key :: ks₂) (vs₁ ++ value :: vs₂)) :
    OneLeafGains key value [.leaf (ks₁ ++ ks₂) (vs₁ ++ vs₂)] new := by
  have had : (Node.leaf (ks₁ ++ ks₂) (vs₁ ++ vs₂)).pairs = pairUp ks₁ vs₁ ++ pairUp ks₂ vs₂ := by
    rw [pairs_leaf, pairUp_append hl]
  rw [pairUp_append hl, pairUp] at has
  have h : OneLeafGains key value ([] ++ _ :: []) ([] ++ new ++ []) := .intro few had has
  simpa using h

/-- No pair is lost, doubled or moved past another. -/
theorem OneLeafGains.pairs [Inhabited V] {key : K} {value : V} {old new : List (Node K V)}
    (h : OneLeafGains key value old new) :
    ∃ p₁ p₂, pairsOf old = p₁ ++ p₂ ∧ pairsOf new = p₁ ++ (key, value) :: p₂ := by
  cases h with
  | @intro before after new old p₁ p₂ few had has =>
    exact ⟨pairsOf before ++ p₁, p₂ ++ pairsOf after, by simp [had], by simp [has]⟩

/-! ## What an insertion does -/

section Search

variable [Key K] [Inhabited V] {compare : Comparator K} {keys : List K} {key : K}

/-- A search goes on in the child that the separators name. -/
theorem find?_branch {cs₁ cs₂ : List (Node K V)} {child : Node K V}
    (hr : childIndex compare keys key = .ok cs₁.length) :
    (branch keys (cs₁ ++ child :: cs₂)).find? compare key = child.find? compare key := by
  have hc : (cs₁ ++ child :: cs₂)[cs₁.length]? = some child := by simp
  simp only [find?, hr, findAt?_eq, hc]

theorem modify_append {α : Type} (before after : List α) (item : α) (f : α → α) :
    (before ++ item :: after).modify before.length f = before ++ f item :: after := by
  induction before with
  | nil => simp
  | cons first before ih => simp [ih]

theorem ReadsAt.branch {cs₁ cs₂ : List (Node K V)} {child : Node K V} {path : List Nat} {i : Nat}
    (hr : childIndex compare keys key = .ok cs₁.length) (h : ReadsAt compare key path i child) :
    ReadsAt compare key (cs₁.length :: path) i (.branch keys (cs₁ ++ child :: cs₂)) := by
  obtain ⟨⟨old, hv, hf⟩, hw⟩ := h
  constructor
  · exact ⟨old, by simp [valueAt?, hv], by rw [find?_branch hr, hf]⟩
  · intro value
    rw [writeAt, modify_append, find?_branch hr, hw]

theorem ReadsAt.leaf {vs₁ vs₂ : List V} {old : V}
    (hl : locate compare keys key = .ok (.found vs₁.length)) :
    ReadsAt compare key [] vs₁.length (.leaf keys (vs₁ ++ old :: vs₂)) := by
  constructor
  · exact ⟨old, by simp [valueAt?], by simp [find?, hl]⟩
  · intro value
    simp [writeAt, find?, hl]

end Search

variable [Key K] [Inhabited V] {order : Nat} {compare : Comparator K} {key : K} {value : V}
  {node : Node K V} {result : Insertion K V}

/-- An insertion that adds no key writes to the place where the search for the key reads. -/
theorem Takes.writes (ht : Takes order compare key value node result) (ha : result.added = false) :
    ∃ path i, ReadsAt compare key path i node ∧
      result = .absorbed (node.writeAt value path i) false := by
  induction ht with
  | @replaced keys vs₁ vs₂ old found => exact ⟨[], vs₁.length, .leaf found, by simp [writeAt]⟩
  | placed => simp at ha
  | halved => simp at ha
  | @adopted ks₁ ks₂ cs₁ cs₂ child result route level inside fits ih =>
    obtain ⟨path, i, hr, rfl⟩ := ih ha
    rw [← level] at route
    exact ⟨cs₁.length :: path, i, .branch route hr, by simp [writeAt, modify_append]⟩
  | parted => simp at ha

/-- An insertion that adds a key did not find it before, and puts its pair into one leaf. -/
theorem Takes.gains (ht : Takes order compare key value node result) (ha : result.added = true) :
    node.find? compare key = .ok none ∧
      OneLeafGains key value node.leaves (leavesOf result.nodes) := by
  induction ht with
  | replaced => simp at ha
  | @placed ks₁ ks₂ vs₁ vs₂ gap level fits =>
    refine ⟨by simp [find?, gap], ?_⟩
    simpa using OneLeafGains.leaf level (.inl rfl) (by simp)
  | @halved ks₁ ks₂ kl kr vs₁ vs₂ vl vr separator gap level full keysCut valuesCut half levelCut =>
    refine ⟨by simp [find?, gap], ?_⟩
    have hpairs : pairsOf [leaf kl vl, leaf (separator :: kr) vr] =
        pairUp (ks₁ ++ key :: ks₂) (vs₁ ++ value :: vs₂) := by
      rw [keysCut, valuesCut, pairUp_append levelCut]
      simp
    simpa using OneLeafGains.leaf level (.inr rfl) hpairs
  | @adopted ks₁ ks₂ cs₁ cs₂ child result route level inside fits ih =>
    obtain ⟨hf, hg⟩ := ih ha
    rw [← level] at route
    refine ⟨by rw [find?_branch route, hf], ?_⟩
    simpa using hg.between (leavesOf cs₁) (leavesOf cs₂)
  | @parted ks₁ ks₂ kl kr cs₁ cs₂ cl cr child separator result route level inside grown full
      keysCut childrenCut half levelCut ih =>
    obtain ⟨hf, hg⟩ := ih grown
    rw [← level] at route
    refine ⟨by rw [find?_branch route, hf], ?_⟩
    -- the cut moves no leaf: both halves together have the same children
    have hleaves := congrArg leavesOf childrenCut
    simp only [leavesOf_append] at hleaves
    have h := hg.between (leavesOf cs₁) (leavesOf cs₂)
    rw [hleaves] at h
    simpa using h

/-- Whether an insertion adds a key is what a search for the key says before. -/
theorem Takes.contains_eq (ht : Takes order compare key value node result) :
    node.contains compare key = .ok (!result.added) := by
  cases ha : result.added with
  | false =>
    obtain ⟨path, i, ⟨⟨old, _, hf⟩, _⟩, _⟩ := ht.writes ha
    simp [contains, hf, Except.map]
  | true => simp [contains, (ht.gains ha).1, Except.map]

/-- An insertion that adds no key writes to the pair of a key that the comparator calls equal. -/
theorem Takes.pairs_replaced (ht : Takes order compare key value node result)
    (ha : result.added = false) :
    ∃ p₁ k old p₂, node.pairs = p₁ ++ (k, old) :: p₂ ∧
      pairsOf result.nodes = p₁ ++ (k, value) :: p₂ ∧ compare k key = .ordered .eq := by
  induction ht with
  | @replaced keys vs₁ vs₂ old found =>
    obtain ⟨k, hk, heq⟩ := locate_found found
    obtain ⟨hlt, rfl⟩ := List.getElem?_eq_some_iff.mp hk
    obtain ⟨ks₁, k, ks₂, rfl, hl⟩ := Position.parts_of_lt hlt
    have hpairs : ∀ v, pairUp (ks₁ ++ k :: ks₂) (vs₁ ++ v :: vs₂) =
        pairUp ks₁ vs₁ ++ (k, v) :: pairUp ks₂ vs₂ := by
      intro v
      rw [pairUp_append hl.symm, pairUp]
    refine ⟨pairUp ks₁ vs₁, k, old, pairUp ks₂ vs₂, by simp [hpairs], by simp [hpairs], ?_⟩
    simpa [← hl] using heq
  | placed => simp at ha
  | halved => simp at ha
  | @adopted ks₁ ks₂ cs₁ cs₂ child result route level inside fits ih =>
    obtain ⟨p₁, k, old, p₂, hold, hnew, heq⟩ := ih ha
    exact ⟨pairsOf cs₁ ++ p₁, k, old, p₂ ++ pairsOf cs₂, by simp [hold], by simp [hnew], heq⟩
  | parted => simp at ha

/-- An insertion that adds a key puts its pair between the others. -/
theorem Takes.pairs_gained (ht : Takes order compare key value node result)
    (ha : result.added = true) :
    ∃ p₁ p₂, node.pairs = p₁ ++ p₂ ∧ pairsOf result.nodes = p₁ ++ (key, value) :: p₂ := by
  have h := (ht.gains ha).2.pairs
  rwa [pairsOf_leaves, pairsOf_leavesOf] at h

theorem Takes.length_pairs (ht : Takes order compare key value node result) :
    (pairsOf result.nodes).length = node.pairs.length + result.added.toNat := by
  cases ha : result.added with
  | false =>
    obtain ⟨p₁, k, old, p₂, hold, hnew, _⟩ := ht.pairs_replaced ha
    simp [hold, hnew]
  | true =>
    obtain ⟨p₁, p₂, hold, hnew⟩ := ht.pairs_gained ha
    simp [hold, hnew]
    omega

end Node

namespace Insertion

variable {K V : Type}

@[simp] theorem pairs_root [Inhabited V] (result : Insertion K V) :
    result.root.pairs = Node.pairsOf result.nodes := by
  cases result <;> simp [root, nodes]

@[simp] theorem leaves_root (result : Insertion K V) :
    result.root.leaves = Node.leavesOf result.nodes := by
  cases result <;> simp [root, nodes]

end Insertion
end OrderedIndex
