import OrderedIndex.Proofs.Node.Balance
import OrderedIndex.Proofs.Node.Checks
import OrderedIndex.Proofs.Node.Failure
import OrderedIndex.Proofs.Node.Insertion

/-!
# The keys of nodes

An insertion brings one key to a subtree and no other: all keys of the nodes that stand in its place,
separators too, are old keys or the one inserted. A search compares with keys of the subtree only. So two
comparators that agree on the keys that are used cannot be told apart by searches and insertions.
-/
namespace OrderedIndex
namespace Node

variable {K V : Type} {used : K → Prop}

theorem uses_leaf {keys : List K} {values : List V} :
    (leaf keys values).Uses used ↔ ∀ k ∈ keys, used k :=
  everywhere_leaf

theorem uses_branch {keys : List K} {children : List (Node K V)} :
    (branch keys children).Uses used ↔
      (∀ k ∈ keys, used k) ∧ ∀ child ∈ children, child.Uses used :=
  everywhere_branch

theorem Uses.mono {used' : K → Prop} {node : Node K V} (h : node.Uses used)
    (more : ∀ k, used k → used' k) : node.Uses used' :=
  fun depth part ho k hk => more k (h depth part ho k hk)

/-- The keys of the pairs are used as well. -/
theorem Uses.pairs [Inhabited V] {node : Node K V} (h : node.Uses used) :
    ∀ k ∈ node.pairs.map Prod.fst, used k := by
  induction node using childInduction with
  | leaf keys values =>
    rw [pairs_leaf, map_fst_pairUp]
    exact uses_leaf.mp h
  | branch keys children ih =>
    have hchildren := (uses_branch.mp h).2
    rw [pairs_branch]
    clear h
    induction children with
    | nil => simp
    | cons child rest each =>
      rw [List.forall_mem_cons] at ih hchildren
      rw [pairsOf_cons, List.map_append, List.forall_mem_append]
      exact ⟨ih.1 hchildren.1, each ih.2 hchildren.2⟩

variable [Key K] {compare other : Comparator K} {key : K} {value : V} {order : Nat}
  {node : Node K V} {result : Insertion K V}

theorem mem_pathAt {part : Node K V} {i : Nat} {children : List (Node K V)}
    (h : part ∈ pathAt compare key i children) :
    ∃ child ∈ children, part ∈ child.path compare key := by
  induction children generalizing i with
  | nil => simp [pathAt] at h
  | cons child rest ih =>
    cases i with
    | zero => exact ⟨child, by simp, h⟩
    | succ i =>
      obtain ⟨other, ho, hp⟩ := ih h
      exact ⟨other, List.mem_cons_of_mem child ho, hp⟩

/-- The path of a search stays in the subtree. -/
theorem occurs_of_mem_path {part : Node K V} (h : part ∈ node.path compare key) :
    ∃ depth, Occurs part depth node := by
  induction node using childInduction with
  | leaf keys values =>
    rw [path, List.mem_singleton] at h
    exact ⟨0, h ▸ .here⟩
  | branch keys children ih =>
    rw [path, List.mem_cons] at h
    rcases h with rfl | h
    · exact ⟨0, .here⟩
    · cases hr : childIndex compare keys key with
      | error e => simp [hr] at h
      | ok i =>
        rw [hr] at h
        obtain ⟨child, hc, hp⟩ := mem_pathAt h
        obtain ⟨depth, ho⟩ := ih child hc hp
        exact ⟨depth + 1, .under hc ho⟩

/-- A search compares with keys of the subtree only. -/
theorem Uses.compared (h : node.Uses used) {k : K} (hk : k ∈ node.compared compare key) :
    used k := by
  obtain ⟨part, hpart, hprobe⟩ := List.mem_flatMap.mp hk
  obtain ⟨depth, ho⟩ := occurs_of_mem_path hpart
  exact h depth part ho k (mem_of_mem_probes hprobe)

omit [Key K] in
/-- A branch with used keys only, with what stands in place of a child adopted. -/
theorem Uses.instead {ks₁ ks₂ : List K} {cs₁ cs₂ : List (Node K V)} {child : Node K V}
    (h : (branch (ks₁ ++ ks₂) (cs₁ ++ child :: cs₂)).Uses used)
    (separators : ∀ k ∈ result.separators, used k) (nodes : ∀ part ∈ result.nodes, part.Uses used) :
    (∀ k ∈ ks₁ ++ result.separators ++ ks₂, used k) ∧
      ∀ part ∈ cs₁ ++ result.nodes ++ cs₂, part.Uses used := by
  obtain ⟨hkeys, hchildren⟩ := uses_branch.mp h
  rw [List.forall_mem_append] at hkeys
  refine ⟨?_, forall_mem_instead hchildren nodes⟩
  simp only [List.forall_mem_append]
  exact ⟨⟨hkeys.1, separators⟩, hkeys.2⟩

/-- The keys of what stands in place of a subtree are those of the subtree and the one inserted. -/
theorem Takes.uses (ht : Takes order compare key value node result) (hkey : used key)
    (h : node.Uses used) :
    (∀ k ∈ result.separators, used k) ∧ ∀ part ∈ result.nodes, part.Uses used := by
  induction ht with
  | replaced found => simpa [uses_leaf] using h
  | @placed ks₁ ks₂ vs₁ vs₂ gap level fits =>
    rw [uses_leaf, List.forall_mem_append] at h
    simpa [uses_leaf, or_imp, forall_and] using ⟨h.1, hkey, h.2⟩
  | @halved ks₁ ks₂ kl kr vs₁ vs₂ vl vr separator gap level full keysCut valuesCut half levelCut =>
    rw [uses_leaf, List.forall_mem_append] at h
    have hall : ∀ k ∈ ks₁ ++ key :: ks₂, used k :=
      List.forall_mem_append.mpr ⟨h.1, List.forall_mem_cons.mpr ⟨hkey, h.2⟩⟩
    rw [keysCut, List.forall_mem_append, List.forall_mem_cons] at hall
    obtain ⟨hleft, hseparator, hright⟩ := hall
    simpa [uses_leaf] using ⟨hseparator, hleft, hseparator, hright⟩
  | @adopted ks₁ ks₂ cs₁ cs₂ child result route level inside fits ih =>
    obtain ⟨hseparators, hnodes⟩ := ih ((uses_branch.mp h).2 child (by simp))
    refine ⟨nofun, List.forall_mem_singleton.mpr ?_⟩
    exact uses_branch.mpr (h.instead hseparators hnodes)
  | @parted ks₁ ks₂ kl kr cs₁ cs₂ cl cr child separator result route level inside grown full
      keysCut childrenCut half levelCut ih =>
    obtain ⟨hseparators, hnodes⟩ := ih ((uses_branch.mp h).2 child (by simp))
    obtain ⟨hkeys, hchildren⟩ := h.instead hseparators hnodes
    rw [keysCut, List.forall_mem_append, List.forall_mem_cons] at hkeys
    rw [childrenCut, List.forall_mem_append] at hchildren
    simpa [uses_branch] using ⟨hkeys.2.1, ⟨hkeys.1, hchildren.1⟩, hkeys.2.2, hchildren.2⟩

/-- The root after an insertion has no other keys either. -/
theorem Takes.root_uses (ht : Takes order compare key value node result) (hkey : used key)
    (h : node.Uses used) : result.root.Uses used := by
  obtain ⟨hseparators, hnodes⟩ := ht.uses hkey h
  cases result with
  | absorbed node added => exact hnodes node (by simp)
  | split halves => exact uses_branch.mpr ⟨hseparators, hnodes⟩
  | failed node e => cases ht

/-! ## Comparators that agree -/

section Agreement

variable [Inhabited V]

/-- A search for a used key has the same result under a comparator that agrees on used keys. -/
theorem Uses.find?_eq (h : node.Uses used) (agree : ∀ k, used k → other k key = compare k key) :
    node.find? other key = node.find? compare key :=
  find?_congr fun k hk => agree k (h.compared hk)

/-- So has an insertion. -/
theorem Uses.insert_eq [Inhabited K] (h : node.Uses used) (agree : ∀ k, used k → other k key = compare k key)
    (order : Number) (value : V) :
    node.insert order other key value = node.insert order compare key value :=
  insert_congr (fun k hk => agree k (h.compared hk)) order value

end Agreement

end Node
end OrderedIndex
