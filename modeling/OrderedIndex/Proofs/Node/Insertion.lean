import OrderedIndex.Node.Insert
import OrderedIndex.Proofs.Node.Locate
import OrderedIndex.Proofs.Node.Shape

/-!
# Derivations of insertions

What an insertion into a shaped subtree does, as rules that speak of lists put together from parts and
of no index. The rules do not mention the algorithm; every property of an insertion is proved by
induction over them. An insertion that fails leaves the subtree as it was.
-/
namespace OrderedIndex

/-! ## Parts of lists -/

namespace Position

variable {α : Type}

theorem parts_of_le {items : List α} {i : Nat} (h : i ≤ items.length) :
    ∃ before after, items = before ++ after ∧ before.length = i :=
  ⟨items.take i, items.drop i, (List.take_append_drop i items).symm, List.length_take_of_le h⟩

theorem parts_of_lt {items : List α} {i : Nat} (h : i < items.length) :
    ∃ before item after, items = before ++ item :: after ∧ before.length = i := by
  obtain ⟨before, after, rfl, hb⟩ := parts_of_le (Nat.le_of_lt h)
  cases after with
  | nil =>
    simp only [List.append_nil] at h
    omega
  | cons item after => exact ⟨before, item, after, rfl, hb⟩

@[simp] theorem insert_append (before after : List α) (item : α) :
    insert (before ++ after) before.length item = before ++ item :: after := by
  simp [insert]

@[simp] theorem write_append [Inhabited α] (before after : List α) (old item : α) :
    write (before ++ old :: after) before.length item = before ++ item :: after := by
  rw [write_of_lt (by simp)]
  simp

end Position

/-! ## What stands in place of a subtree -/

namespace Insertion

variable {K V : Type}

def nodes : Insertion K V → List (Node K V)
  | absorbed node _ => [node]
  | split halves => [halves.left, halves.right]
  | failed node _ => [node]

def separators : Insertion K V → List K
  | split halves => [halves.separator]
  | _ => []

def added : Insertion K V → Bool
  | absorbed _ added => added
  | split _ => true
  | failed _ _ => false

/-- The root of a tree afterwards: the halves of a root that has split come under a new one. -/
def root : Insertion K V → Node K V
  | absorbed node _ => node
  | split halves => .branch [halves.separator] [halves.left, halves.right]
  | failed node _ => node

@[simp] theorem nodes_absorbed (node : Node K V) (added : Bool) :
    (absorbed node added).nodes = [node] := rfl
@[simp] theorem nodes_split (halves : Split K V) :
    (split halves).nodes = [halves.left, halves.right] := rfl
@[simp] theorem separators_absorbed (node : Node K V) (added : Bool) :
    (absorbed node added).separators = [] := rfl
@[simp] theorem separators_split (halves : Split K V) :
    (split halves).separators = [halves.separator] := rfl
@[simp] theorem added_absorbed (node : Node K V) (added : Bool) :
    (absorbed node added).added = added := rfl
@[simp] theorem added_split (halves : Split K V) : (split halves).added = true := rfl

theorem length_nodes (result : Insertion K V) :
    result.nodes.length = result.separators.length + 1 := by
  cases result <;> rfl

theorem length_separators_le (result : Insertion K V) : result.separators.length ≤ 1 := by
  cases result <;> simp [separators]

theorem exists_split_iff (result : Insertion K V) :
    (∃ halves, result = split halves) ↔ result.separators.length = 1 := by
  cases result <;> simp [separators]

end Insertion

namespace Node

variable {K V : Type}

/-! ## The rules -/

/-- How an insertion into a subtree ends. A found key has its value replaced. A new key goes into its
gap, and a leaf that is then full is cut at half its keys. What stands in place of a child is put where
the child was, together with the key between its halves if it has split; a branch that then has too
many children is cut at half its separators. -/
inductive Takes [Key K] (order : Nat) (compare : Comparator K) (key : K) (value : V) :
    Node K V → Insertion K V → Prop
  | replaced {keys : List K} {vs₁ vs₂ : List V} {old : V}
      (found : locate compare keys key = .ok (.found vs₁.length)) :
      Takes order compare key value (leaf keys (vs₁ ++ old :: vs₂))
        (.absorbed (leaf keys (vs₁ ++ value :: vs₂)) false)
  | placed {ks₁ ks₂ : List K} {vs₁ vs₂ : List V}
      (gap : locate compare (ks₁ ++ ks₂) key = .ok (.gap ks₁.length))
      (level : vs₁.length = ks₁.length) (fits : (ks₁ ++ key :: ks₂).length < order) :
      Takes order compare key value (leaf (ks₁ ++ ks₂) (vs₁ ++ vs₂))
        (.absorbed (leaf (ks₁ ++ key :: ks₂) (vs₁ ++ value :: vs₂)) true)
  | halved {ks₁ ks₂ kl kr : List K} {vs₁ vs₂ vl vr : List V} {separator : K}
      (gap : locate compare (ks₁ ++ ks₂) key = .ok (.gap ks₁.length))
      (level : vs₁.length = ks₁.length) (full : (ks₁ ++ key :: ks₂).length = order)
      (keysCut : ks₁ ++ key :: ks₂ = kl ++ separator :: kr)
      (valuesCut : vs₁ ++ value :: vs₂ = vl ++ vr)
      (half : kl.length = order / 2) (levelCut : vl.length = kl.length) :
      Takes order compare key value (leaf (ks₁ ++ ks₂) (vs₁ ++ vs₂))
        (.split ⟨leaf kl vl, separator, leaf (separator :: kr) vr⟩)
  | adopted {ks₁ ks₂ : List K} {cs₁ cs₂ : List (Node K V)} {child : Node K V}
      {result : Insertion K V}
      (route : childIndex compare (ks₁ ++ ks₂) key = .ok ks₁.length)
      (level : cs₁.length = ks₁.length) (inside : Takes order compare key value child result)
      (fits : (cs₁ ++ result.nodes ++ cs₂).length ≤ order) :
      Takes order compare key value (branch (ks₁ ++ ks₂) (cs₁ ++ child :: cs₂))
        (.absorbed (branch (ks₁ ++ result.separators ++ ks₂) (cs₁ ++ result.nodes ++ cs₂))
          result.added)
  | parted {ks₁ ks₂ kl kr : List K} {cs₁ cs₂ cl cr : List (Node K V)} {child : Node K V}
      {separator : K} {result : Insertion K V}
      (route : childIndex compare (ks₁ ++ ks₂) key = .ok ks₁.length)
      (level : cs₁.length = ks₁.length) (inside : Takes order compare key value child result)
      (grown : result.added = true) (full : (cs₁ ++ result.nodes ++ cs₂).length = order + 1)
      (keysCut : ks₁ ++ result.separators ++ ks₂ = kl ++ separator :: kr)
      (childrenCut : cs₁ ++ result.nodes ++ cs₂ = cl ++ cr)
      (half : kl.length = order / 2) (levelCut : cl.length = kl.length + 1) :
      Takes order compare key value (branch (ks₁ ++ ks₂) (cs₁ ++ child :: cs₂))
        (.split ⟨branch kl cl, separator, branch kr cr⟩)

/-! ## The insertion follows the rules -/

section Cuts

variable [Inhabited K] {kl kr : List K}

/-- A leaf is cut before a key that has others before it; its values are cut at the same place. -/
theorem splitAt_leaf (separator : K) (kr : List K) (values : List V) (hl : 0 < kl.length) :
    (leaf (kl ++ separator :: kr) values).splitAt (.ofNat kl.length) =
      .ok ⟨leaf kl (values.take kl.length), separator,
        leaf (separator :: kr) (values.drop kl.length)⟩ := by
  have hin : (0 : Number) < .ofNat kl.length ∧
      Number.ofNat kl.length < .ofNat (kl ++ separator :: kr).length :=
    ⟨Number.ofNat_lt_ofNat.mpr hl, Number.ofNat_lt_ofNat.mpr (by simp)⟩
  simp only [splitAt, Cut.position_ofNat, Cut.keys_ofNat]
  rw [if_pos hin]
  simp

/-- A branch is cut at a key that has others on both sides; one child more than keys stays left. -/
theorem splitAt_branch (separator : K) (children : List (Node K V)) (hl : 0 < kl.length)
    (hr : 0 < kr.length) :
    (branch (kl ++ separator :: kr) children).splitAt (.ofNat kl.length) =
      .ok ⟨branch kl (children.take (kl.length + 1)), separator,
        branch kr (children.drop (kl.length + 1))⟩ := by
  have hin : (0 : Number) < .ofNat kl.length ∧
      Number.ofNat kl.length < .ofInt ((kl ++ separator :: kr).length - 1) := by
    refine ⟨Number.ofNat_lt_ofNat.mpr hl, Number.ofInt_lt_ofInt.mpr ?_⟩
    simp only [List.length_append, List.length_cons]
    omega
  simp only [splitAt, Cut.position_ofNat, Cut.keys_ofNat, Cut.separator_ofNat,
    Cut.leftChildren_ofNat, Cut.rightChildren_ofNat]
  rw [if_pos hin]
  simp

/-- A leaf with as many keys as the order is cut at half of them. -/
theorem settle_leaf {order : Nat} (ho : 3 ≤ order) {keys : List K} {values : List V}
    (hk : keys.length = order) (hv : values.length = order) :
    ∃ kl separator kr vl vr, keys = kl ++ separator :: kr ∧ values = vl ++ vr ∧
      kl.length = order / 2 ∧ vl.length = kl.length ∧
      settle false (leaf keys values) =
        .split ⟨leaf kl vl, separator, leaf (separator :: kr) vr⟩ := by
  obtain ⟨kl, separator, kr, rfl, hkl⟩ :=
    Position.parts_of_lt (show order / 2 < keys.length by omega)
  obtain ⟨vl, vr, rfl, hvl⟩ := Position.parts_of_le (show order / 2 ≤ values.length by omega)
  have hlevel := hvl.trans hkl.symm
  refine ⟨kl, separator, kr, vl, vr, rfl, rfl, hkl, hlevel, ?_⟩
  simp only [settle, Bool.false_eq_true, if_false, keys_leaf, hk]
  rw [← hkl, splitAt_leaf separator kr _ (by omega), ← hlevel, List.take_left, List.drop_left]

/-- A branch with as many separators as the order is cut at half of them. -/
theorem settle_branch {order : Nat} (ho : 3 ≤ order) {keys : List K} {children : List (Node K V)}
    (hk : keys.length = order) (hc : children.length = order + 1) :
    ∃ kl separator kr cl cr, keys = kl ++ separator :: kr ∧ children = cl ++ cr ∧
      kl.length = order / 2 ∧ cl.length = kl.length + 1 ∧
      settle false (branch keys children) = .split ⟨branch kl cl, separator, branch kr cr⟩ := by
  obtain ⟨kl, separator, kr, rfl, hkl⟩ :=
    Position.parts_of_lt (show order / 2 < keys.length by omega)
  obtain ⟨cl, cr, rfl, hcl⟩ :=
    Position.parts_of_le (show order / 2 + 1 ≤ children.length by omega)
  have hlevel : cl.length = kl.length + 1 := by omega
  have hlength := hk
  simp only [List.length_append, List.length_cons] at hlength
  refine ⟨kl, separator, kr, cl, cr, rfl, rfl, hkl, hlevel, ?_⟩
  simp only [settle, Bool.false_eq_true, if_false, keys_branch, hk]
  rw [← hkl, splitAt_branch separator _ (by omega) (by omega), ← hlevel, List.take_left,
    List.drop_left]

end Cuts

theorem leafFits_ofNat (order : Nat) (keys : List K) :
    leafFits (.ofNat order) keys = decide (keys.length < order) := by
  simp [leafFits]

theorem branchFits_ofNat (order : Nat) (children : List (Node K V)) :
    branchFits (.ofNat order) children = decide (children.length ≤ order) := by
  simp [branchFits]

section Steps

variable [Key K] [Inhabited K] [Inhabited V] {order : Nat} {compare : Comparator K} {key : K}
  {value : V}

theorem insert_branch (keys : List K) (children : List (Node K V)) :
    (branch keys children).insert (.ofNat order) compare key value =
      match childIndex compare keys key with
      | .error e => .failed (branch keys children) e
      | .ok i =>
        match children[i]? with
        | none => .failed (branch keys children) .missingChild
        | some child =>
          adopt (.ofNat order) keys children i (child.insert (.ofNat order) compare key value) := by
  rw [insert]
  cases childIndex compare keys key with
  | error e => rfl
  | ok i =>
    simp only [insertAt?_eq]
    cases children[i]? <;> rfl

/-- A pair put into a gap of a leaf. -/
theorem takes_gap {ks₁ ks₂ : List K} {vs₁ vs₂ : List V} (ho : 3 ≤ order)
    (hg : locate compare (ks₁ ++ ks₂) key = .ok (.gap ks₁.length))
    (hl : vs₁.length = ks₁.length) (hr : vs₂.length = ks₂.length)
    (hroom : (ks₁ ++ ks₂).length < order) :
    Takes order compare key value (leaf (ks₁ ++ ks₂) (vs₁ ++ vs₂))
      ((leaf (ks₁ ++ ks₂) (vs₁ ++ vs₂)).insert (.ofNat order) compare key value) := by
  have hi : (leaf (ks₁ ++ ks₂) (vs₁ ++ vs₂)).insert (.ofNat order) compare key value =
      settle (decide ((ks₁ ++ key :: ks₂).length < order))
        (leaf (ks₁ ++ key :: ks₂) (vs₁ ++ value :: vs₂)) := by
    have hv := Position.insert_append vs₁ vs₂ value
    rw [hl] at hv
    simp only [insert, hg, Position.insert_append, hv, leafFits_ofNat]
  rw [hi]
  simp only [List.length_append] at hroom
  by_cases hfit : (ks₁ ++ key :: ks₂).length < order
  · rw [decide_eq_true hfit]
    exact .placed hg hl hfit
  · rw [decide_eq_false hfit]
    have hfull : (ks₁ ++ key :: ks₂).length = order := by
      simp only [List.length_append, List.length_cons] at hfit ⊢
      omega
    have hvalues : (vs₁ ++ value :: vs₂).length = order := by
      simp only [List.length_append, List.length_cons] at hfull ⊢
      omega
    obtain ⟨kl, separator, kr, vl, vr, hk, hv, hkl, hvl, hcut⟩ := settle_leaf ho hfull hvalues
    rw [hcut]
    exact .halved hg hl hfull hk hv hkl hvl

omit [Inhabited V] in
/-- What stands in place of a child, adopted by its branch. -/
theorem takes_adopt {ks₁ ks₂ : List K} {cs₁ cs₂ : List (Node K V)} {child : Node K V}
    {result : Insertion K V} (ho : 3 ≤ order)
    (hroute : childIndex compare (ks₁ ++ ks₂) key = .ok ks₁.length)
    (hl : cs₁.length = ks₁.length) (hr : cs₂.length = ks₂.length)
    (hroom : (cs₁ ++ child :: cs₂).length ≤ order)
    (hin : Takes order compare key value child result) :
    Takes order compare key value (branch (ks₁ ++ ks₂) (cs₁ ++ child :: cs₂))
      (adopt (.ofNat order) (ks₁ ++ ks₂) (cs₁ ++ child :: cs₂) ks₁.length result) := by
  have hset (node : Node K V) : (cs₁ ++ child :: cs₂).set ks₁.length node = cs₁ ++ node :: cs₂ := by
    rw [← hl]
    simp
  cases result with
  | failed node e => cases hin
  | absorbed node added =>
    have h := Takes.adopted hroute hl hin (by simpa using hroom)
    simpa [adopt, hset] using h
  | split halves =>
    have hbetween : Position.insert (cs₁ ++ halves.left :: cs₂) (ks₁.length + 1) halves.right =
        cs₁ ++ [halves.left, halves.right] ++ cs₂ := by
      have h := Position.insert_append (cs₁ ++ [halves.left]) cs₂ halves.right
      simpa [hl] using h
    simp only [adopt, hset, hbetween, Position.insert_append, branchFits_ofNat]
    -- there was room for the child, so with both halves there is at most one child too many
    by_cases hfit : (cs₁ ++ [halves.left, halves.right] ++ cs₂).length ≤ order
    · rw [decide_eq_true hfit]
      have h := Takes.adopted hroute hl hin (by simpa using hfit)
      simpa [settle] using h
    · rw [decide_eq_false hfit]
      have hfull : (cs₁ ++ [halves.left, halves.right] ++ cs₂).length = order + 1 := by
        simp only [List.length_append, List.length_cons, List.length_nil] at hfit hroom ⊢
        omega
      have hkeys : (ks₁ ++ halves.separator :: ks₂).length = order := by
        simp only [List.length_append, List.length_cons, List.length_nil] at hfull ⊢
        omega
      obtain ⟨kl, separator, kr, cl, cr, hk, hc, hkl, hcl, hcut⟩ := settle_branch ho hkeys hfull
      rw [hcut]
      exact .parted hroute hl hin rfl hfull (by simpa using hk) hc hkl hcl

/-- An insertion into a shaped subtree leaves it as it was and fails as the search for the key does, or
it follows the rules. -/
theorem insert_takes {height : Nat} {node : Node K V} (ho : 3 ≤ order)
    (hs : Shaped order height node) (compare : Comparator K) (key : K) (value : V) :
    (∃ e, node.insert (.ofNat order) compare key value = .failed node e ∧
        node.find? compare key = .error e ∧ SearchError compare key e) ∨
      Takes order compare key value node (node.insert (.ofNat order) compare key value) := by
  induction hs with
  | @leaf keys values room aligned =>
    cases hl : locate compare keys key with
    | error e => exact .inl ⟨e, by simp [insert, hl], by simp [find?, hl], locate_error hl⟩
    | ok slot =>
      right
      cases slot with
      | found i =>
        have hi := locate_found_lt hl
        obtain ⟨vs₁, old, vs₂, rfl, rfl⟩ :=
          Position.parts_of_lt (show i < values.length by omega)
        simpa [insert, hl] using Takes.replaced hl
      | gap i =>
        have hi := locate_gap_le hl
        obtain ⟨ks₁, ks₂, rfl, rfl⟩ := Position.parts_of_le hi
        obtain ⟨vs₁, vs₂, rfl, hv⟩ :=
          Position.parts_of_le (show ks₁.length ≤ values.length by omega)
        simp only [List.length_append] at aligned
        exact takes_gap ho hl hv (by omega) room
  | @branch height keys children counted room each ih =>
    rw [insert_branch]
    cases hr : childIndex compare keys key with
    | error e => exact .inl ⟨e, rfl, by simp [find?, hr], childIndex_error hr⟩
    | ok i =>
      have hi := childIndex_le hr
      obtain ⟨ks₁, ks₂, rfl, rfl⟩ := Position.parts_of_le hi
      obtain ⟨cs₁, child, cs₂, rfl, hc⟩ :=
        Position.parts_of_lt (show ks₁.length < children.length by omega)
      have hchild : (cs₁ ++ child :: cs₂)[ks₁.length]? = some child := by
        rw [← hc]
        simp
      simp only [List.length_append, List.length_cons] at counted
      simp only [hchild]
      -- a child in which the insertion failed is as it was, and so is the branch with it put back
      rcases ih child (by simp) with ⟨e, he, hf, hk⟩ | htakes
      · left
        have hset : (cs₁ ++ child :: cs₂).set ks₁.length child = cs₁ ++ child :: cs₂ := by
          rw [← hc]
          simp
        exact ⟨e, by simp [adopt, he, hset], by simp [find?, hr, findAt?_eq, hchild, hf], hk⟩
      · exact .inr (takes_adopt ho hr hc (by omega) room htakes)

end Steps

end Node
end OrderedIndex
