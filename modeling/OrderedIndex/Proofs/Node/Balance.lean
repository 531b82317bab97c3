import OrderedIndex.Proofs.Node.Insertion

/-!
# Insertions keep the shape

Every node that stands in place of a shaped subtree is shaped, with the same height, and none is less
full than its order demands. Both halves of a split have their least size whatever the subtree was
like, because a node is cut only when it holds one item too many.
-/
namespace OrderedIndex
namespace Node

variable {K V : Type} [Key K] {order height leafLeast branchLeast : Nat} {compare : Comparator K}
  {key : K} {value : V} {node : Node K V} {result : Insertion K V} {isRoot : Bool}

omit [Key K] in
/-- What holds of all children and of what stands in place of one holds of all children after. -/
theorem forall_mem_instead {P : Node K V → Prop} {cs₁ cs₂ nodes : List (Node K V)}
    {child : Node K V} (each : ∀ part ∈ cs₁ ++ child :: cs₂, P part)
    (inside : ∀ part ∈ nodes, P part) : ∀ part ∈ cs₁ ++ nodes ++ cs₂, P part := by
  intro part hp
  simp only [List.mem_append] at hp
  rcases hp with (hp | hp) | hp
  · exact each part (by simp [hp])
  · exact inside part hp
  · exact each part (by simp [hp])

theorem Takes.shaped (ht : Takes order compare key value node result) (ho : 3 ≤ order)
    (hs : Shaped order height node) : ∀ part ∈ result.nodes, Shaped order height part := by
  induction ht generalizing height with
  | replaced found =>
    cases hs with
    | leaf room aligned => simpa using Shaped.leaf room (by simpa using aligned)
  | @placed ks₁ ks₂ vs₁ vs₂ gap level fits =>
    cases hs with
    | leaf room aligned =>
      simp only [List.length_append] at aligned
      have hv : (vs₁ ++ value :: vs₂).length = (ks₁ ++ key :: ks₂).length := by
        simp only [List.length_append, List.length_cons]
        omega
      simpa using Shaped.leaf fits hv
  | @halved ks₁ ks₂ kl kr vs₁ vs₂ vl vr separator gap level full keysCut valuesCut half levelCut =>
    cases hs with
    | leaf room aligned =>
      have hk := congrArg List.length keysCut
      have hv := congrArg List.length valuesCut
      simp only [List.length_append, List.length_cons] at aligned hk hv full
      -- the right half is the longer one, as it keeps the separator
      have hleft : Shaped order 0 (leaf kl vl) := .leaf (by omega) levelCut
      have hright : Shaped order 0 (leaf (separator :: kr) vr) :=
        .leaf (by simp only [List.length_cons]; omega) (by simp only [List.length_cons]; omega)
      simp [hleft, hright]
  | @adopted ks₁ ks₂ cs₁ cs₂ child result route level inside fits ih =>
    cases hs with
    | branch counted room each =>
      have hn := result.length_nodes
      have hc : (cs₁ ++ result.nodes ++ cs₂).length =
          (ks₁ ++ result.separators ++ ks₂).length + 1 := by
        simp only [List.length_append, List.length_cons] at counted ⊢
        omega
      simpa using Shaped.branch hc fits (forall_mem_instead each (ih (each child (by simp))))
  | @parted ks₁ ks₂ kl kr cs₁ cs₂ cl cr child separator result route level inside grown full
      keysCut childrenCut half levelCut ih =>
    cases hs with
    | branch counted room each =>
      have hn := result.length_nodes
      have hk := congrArg List.length keysCut
      have hc := congrArg List.length childrenCut
      simp only [List.length_append, List.length_cons] at counted hk hc full
      have heach := forall_mem_instead each (ih (each child (by simp)))
      rw [childrenCut] at heach
      have hleft : Shaped order _ (branch kl cl) :=
        .branch levelCut (by omega) (fun part hp => heach part (by simp [hp]))
      have hright : Shaped order _ (branch kr cr) :=
        .branch (by omega) (by omega) (fun part hp => heach part (by simp [hp]))
      simp [hleft, hright]

/-- An insertion makes no list of keys longer than one key more than the longest there was. -/
theorem Takes.lengths {most : Nat} (ht : Takes order compare key value node result)
    (h : node.Everywhere fun part => part.keys.length ≤ most) :
    ∀ part ∈ result.nodes, part.Everywhere fun inner => inner.keys.length ≤ most + 1 := by
  have hmore {part : Node K V} (hp : part.Everywhere fun inner => inner.keys.length ≤ most) :
      part.Everywhere fun inner => inner.keys.length ≤ most + 1 :=
    fun depth inner hin => Nat.le_succ_of_le (hp depth inner hin)
  induction ht with
  | replaced found =>
    rw [everywhere_leaf] at h
    simpa [everywhere_leaf] using Nat.le_succ_of_le h
  | placed =>
    rw [everywhere_leaf] at h
    simp only [keys_leaf, List.length_append] at h
    simp only [Insertion.nodes_absorbed, List.forall_mem_singleton, everywhere_leaf, keys_leaf,
      List.length_append, List.length_cons]
    omega
  | @halved ks₁ ks₂ kl kr vs₁ vs₂ vl vr separator gap level full keysCut valuesCut half levelCut =>
    have hk := congrArg List.length keysCut
    rw [everywhere_leaf] at h
    simp only [keys_leaf, List.length_append, List.length_cons] at h hk
    have hleft : (leaf kl vl).Everywhere fun inner => inner.keys.length ≤ most + 1 :=
      everywhere_leaf.mpr (by simp only [keys_leaf]; omega)
    have hright : (leaf (separator :: kr) vr).Everywhere fun inner => inner.keys.length ≤ most + 1 :=
      everywhere_leaf.mpr (by simp only [keys_leaf, List.length_cons]; omega)
    simp [hleft, hright]
  | @adopted ks₁ ks₂ cs₁ cs₂ child result route level inside fits ih =>
    obtain ⟨hkeys, hchildren⟩ := everywhere_branch.mp h
    have heach := forall_mem_instead (fun part hp => hmore (hchildren part hp))
      (ih (hchildren child (by simp)))
    have hfew := result.length_separators_le
    rw [Insertion.nodes_absorbed, List.forall_mem_singleton, everywhere_branch]
    refine ⟨?_, heach⟩
    simp only [keys_branch, List.length_append] at hkeys ⊢
    omega
  | @parted ks₁ ks₂ kl kr cs₁ cs₂ cl cr child separator result route level inside grown full
      keysCut childrenCut half levelCut ih =>
    obtain ⟨hkeys, hchildren⟩ := everywhere_branch.mp h
    have heach := forall_mem_instead (fun part hp => hmore (hchildren part hp))
      (ih (hchildren child (by simp)))
    have hfew := result.length_separators_le
    have hk := congrArg List.length keysCut
    rw [childrenCut, List.forall_mem_append] at heach
    simp only [keys_branch, List.length_append, List.length_cons] at hkeys hk
    have hleft : (branch kl cl).Everywhere fun inner => inner.keys.length ≤ most + 1 :=
      everywhere_branch.mpr ⟨by simp only [keys_branch]; omega, heach.1⟩
    have hright : (branch kr cr).Everywhere fun inner => inner.keys.length ≤ most + 1 :=
      everywhere_branch.mpr ⟨by simp only [keys_branch]; omega, heach.2⟩
    simp [hleft, hright]

/-! ## Least sizes -/

/-- Half of an order at least: of keys in a leaf, rounded down, or of children of a branch, rounded
up. -/
def HalfFull (order : Nat) : Node K V → Prop
  | leaf keys _ => order / 2 ≤ keys.length
  | branch _ children => (order + 1) / 2 ≤ children.length

/-- Both halves of a split are half full, whatever the subtree was like before. -/
theorem Takes.halfFull {halves : Split K V}
    (ht : Takes order compare key value node (.split halves)) :
    halves.left.HalfFull order ∧ halves.right.HalfFull order := by
  cases ht with
  | halved gap level full keysCut valuesCut half levelCut =>
    have hk := congrArg List.length keysCut
    simp only [List.length_append, List.length_cons] at hk full
    simp only [HalfFull, List.length_cons]
    omega
  | parted route level inside grown full keysCut childrenCut half levelCut =>
    have hc := congrArg List.length childrenCut
    rw [full, List.length_append] at hc
    simp only [HalfFull]
    omega

/-- A subtree that absorbs a pair is as full as before; both halves of a split are as full as a node
that is not the root has to be. -/
theorem Takes.filled (ht : Takes order compare key value node result)
    (hleaf : leafLeast ≤ order / 2) (hbranch : branchLeast ≤ (order + 1) / 2)
    (hf : Filled leafLeast branchLeast isRoot node) :
    ∀ part ∈ result.nodes, Filled leafLeast branchLeast (isRoot && result.separators.isEmpty) part := by
  induction ht generalizing isRoot with
  | replaced found =>
    cases hf with
    | leaf enough => simpa using Filled.leaf enough
  | @placed ks₁ ks₂ vs₁ vs₂ gap level fits =>
    cases hf with
    | leaf enough =>
      have hk : isRoot = false → leafLeast ≤ (ks₁ ++ key :: ks₂).length := by
        intro hr
        have := enough hr
        simp only [List.length_append, List.length_cons] at this ⊢
        omega
      simpa using Filled.leaf hk
  | @halved ks₁ ks₂ kl kr vs₁ vs₂ vl vr separator gap level full keysCut valuesCut half levelCut =>
    have hk := congrArg List.length keysCut
    simp only [List.length_append, List.length_cons] at hk full
    have hleft : Filled leafLeast branchLeast false (leaf kl vl) := .leaf (fun _ => by omega)
    have hright : Filled leafLeast branchLeast false (leaf (separator :: kr) vr) :=
      .leaf (fun _ => by simp only [List.length_cons]; omega)
    simp [hleft, hright]
  | @adopted ks₁ ks₂ cs₁ cs₂ child result route level inside fits ih =>
    cases hf with
    | branch enough each =>
      have hn := result.length_nodes
      have hc : (if isRoot then 2 else branchLeast) ≤ (cs₁ ++ result.nodes ++ cs₂).length := by
        simp only [List.length_append, List.length_cons] at enough ⊢
        omega
      simpa using Filled.branch hc (forall_mem_instead each (ih (each child (by simp))))
  | @parted ks₁ ks₂ kl kr cs₁ cs₂ cl cr child separator result route level inside grown full
      keysCut childrenCut half levelCut ih =>
    cases hf with
    | branch enough each =>
      have hc := congrArg List.length childrenCut
      have heach := forall_mem_instead each (ih (each child (by simp)))
      rw [childrenCut] at heach
      rw [full, List.length_append] at hc
      have hleft : Filled leafLeast branchLeast false (branch kl cl) :=
        .branch (by simp only [Bool.false_eq_true, if_false]; omega)
          (fun part hp => heach part (by simp [hp]))
      have hright : Filled leafLeast branchLeast false (branch kr cr) :=
        .branch (by simp only [Bool.false_eq_true, if_false]; omega)
          (fun part hp => heach part (by simp [hp]))
      simp [hleft, hright]

/-! ## The root -/

theorem Takes.ne_failed (ht : Takes order compare key value node result) {left : Node K V}
    {e : Error K} : result ≠ .failed left e := by
  cases ht <;> simp

/-- The root afterwards is one level higher if the old one has split, and as high as before
otherwise. -/
theorem Takes.root_shaped (ht : Takes order compare key value node result) (ho : 3 ≤ order)
    (hs : Shaped order height node) :
    Shaped order (height + result.separators.length) result.root := by
  have hparts := ht.shaped ho hs
  cases result with
  | absorbed node added => simpa [Insertion.root] using hparts
  | split halves =>
    exact .branch (by simp) (by simp; omega) (by simpa using hparts)
  | failed left e => exact absurd rfl ht.ne_failed

theorem Takes.root_filled (ht : Takes order compare key value node result)
    (hleaf : leafLeast ≤ order / 2) (hbranch : branchLeast ≤ (order + 1) / 2)
    (hf : Filled leafLeast branchLeast true node) : Filled leafLeast branchLeast true result.root := by
  have hparts := ht.filled hleaf hbranch hf
  cases result with
  | absorbed node added => simpa [Insertion.root] using hparts
  | split halves => exact .branch (by simp) (by simpa using hparts)
  | failed left e => exact absurd rfl ht.ne_failed

end Node
end OrderedIndex
