import OrderedIndex.Proofs.Node.Balance
import OrderedIndex.Proofs.Node.Lookup

/-!
# Insertions keep the order of keys

What stands in place of a subtree with its keys in order is in order again, between the same bounds,
for every key that lies between them. A separator that is handed up lies strictly above the lower
bound.
-/
namespace OrderedIndex
namespace Node

variable {K V α : Type} [LinearOrder α] {used : K → Prop} {rank : K → α} {low high : Option α}
  {ks₁ ks₂ : List K}

/-- What stands in place of a subtree between two bounds: nodes in a row between the same bounds, with
separators that are strictly above the lower one. -/
structure Stands (used : K → Prop) (rank : K → α) (low high : Option α) (ks : List K)
    (nodes : List (Node K V)) : Prop where
  row : Row used rank low high ks nodes
  line : Lined used rank low high ks
  strict : ∀ k ∈ ks, ∀ a ∈ low, a < rank k

theorem Arranged.stands {node : Node K V} (h : node.Arranged used rank low high) :
    Stands used rank low high [] [node] :=
  ⟨row_one.mpr h, .nil, by simp⟩

/-- The key that a node is cut at is strictly above the lower bound, as there are keys before it. -/
theorem Lined.stands {kl kr : List K} {separator : K} {left right : Node K V}
    (h : Lined used rank low high (kl ++ separator :: kr)) (hl : kl ≠ [])
    (hleft : left.Arranged used rank low (some (rank separator)))
    (hright : right.Arranged used rank (some (rank separator)) high) :
    Stands used rank low high [separator] [left, right] := by
  refine ⟨row_cons.mpr ⟨hleft, row_one.mpr hright⟩, ⟨?_, by simp, ?_⟩, ?_⟩
  · simpa using h.used separator (by simp)
  · simpa using h.inside separator (by simp)
  · intro k hk a ha
    obtain rfl := List.mem_singleton.mp hk
    obtain ⟨first, rest, rfl⟩ := List.exists_cons_of_ne_nil hl
    have hfirst := (List.pairwise_append.mp h.increasing).2.2 first (by simp) k (by simp)
    exact ((h.inside first (by simp)).from_low a ha).trans_lt hfirst

/-- A branch takes over what stands in place of one of its children. -/
theorem Stands.adopted {cs₁ cs₂ nodes : List (Node K V)} {child : Node K V} {ks : List K}
    (hk : Lined used rank low high (ks₁ ++ ks₂))
    (hrow : Row used rank low high (ks₁ ++ ks₂) (cs₁ ++ child :: cs₂))
    (hl : cs₁.length = ks₁.length) (hfew : ks.length ≤ 1)
    (hs : Stands used rank (lowest rank low ks₁) (highest rank high ks₂) ks nodes) :
    Lined used rank low high (ks₁ ++ ks ++ ks₂) ∧
      Row used rank low high (ks₁ ++ ks ++ ks₂) (cs₁ ++ nodes ++ cs₂) := by
  refine ⟨?_, (hrow.hole hl).2 ks nodes hs.row⟩
  match ks, hfew with
  | [], _ => simpa using hk
  | [k], _ =>
    obtain ⟨hin, _, ha⟩ := hk.inside_iff.mp (hs.line.inside k (by simp))
    have hi := List.pairwise_append.mp hk.increasing
    have hlow : ∀ k ∈ ks₁, ∀ a ∈ low, a ≤ rank k :=
      fun k hk' => (hk.inside k (by simp [hk'])).from_low
    have hb := (forall_lowest (P := (· < rank k)) (fun a b hab hb => hab.trans_lt hb) hi.1 hlow).mp
      (hs.strict k (by simp))
    simpa using hk.insert (hs.line.used k (by simp)) hin hb.2 ha

/-! ## The contract -/

variable [Key K] {order : Nat} {compare : Comparator K} {key : K} {value : V} {node : Node K V}
  {result : Insertion K V}

/-- Insertion keeps a subtree in order between its bounds, if the key lies between them. -/
theorem Takes.stands (ht : Takes order compare key value node result) (ho : 3 ≤ order)
    (hr : Ranks compare used rank) (hu : used key) (hin : Inside low high (rank key))
    (h : node.Arranged used rank low high) :
    Stands used rank low high result.separators result.nodes := by
  have hne : ∀ kl : List K, kl.length = order / 2 → kl ≠ [] := by
    rintro kl half rfl
    simp only [List.length_nil] at half
    omega
  -- the bounds of the child that the key goes to are those of the branch or separators beside it
  induction ht generalizing low high with
  | replaced found =>
    apply Arranged.stands
    simpa using h
  | @placed ks₁ ks₂ vs₁ vs₂ gap level fits =>
    rw [arranged_leaf] at h
    obtain ⟨hb, ha⟩ := h.gap hr hu gap
    apply Arranged.stands
    simpa using h.insert hu hin hb ha
  | @halved ks₁ ks₂ kl kr vs₁ vs₂ vl vr separator gap level full keysCut valuesCut half levelCut =>
    rw [arranged_leaf] at h
    obtain ⟨hb, ha⟩ := h.gap hr hu gap
    have hline := h.insert hu hin hb ha
    rw [keysCut] at hline
    obtain ⟨hleft, hright⟩ := hline.cut
    exact hline.stands (hne kl half) (by simpa using hleft) (by simpa using hright)
  | @adopted ks₁ ks₂ cs₁ cs₂ child result route level inside fits ih =>
    obtain ⟨hk, hrow⟩ := arranged_branch.mp h
    have hchild := ih (hk.inside_route hr hu hin route) (hrow.hole level).1
    apply Arranged.stands
    rw [arranged_branch]
    exact Stands.adopted hk hrow level result.length_separators_le hchild
  | @parted ks₁ ks₂ kl kr cs₁ cs₂ cl cr child separator result route level inside grown full
      keysCut childrenCut half levelCut ih =>
    obtain ⟨hk, hrow⟩ := arranged_branch.mp h
    have hchild := ih (hk.inside_route hr hu hin route) (hrow.hole level).1
    obtain ⟨hline, hrow'⟩ := Stands.adopted hk hrow level result.length_separators_le hchild
    rw [keysCut] at hline hrow'
    rw [childrenCut] at hrow'
    obtain ⟨hleft, hright⟩ := hline.cut
    obtain ⟨hcl, hcr⟩ := (row_append levelCut).mp hrow'
    exact hline.stands (hne kl half) (arranged_branch.mpr ⟨hleft, hcl⟩)
      (arranged_branch.mpr ⟨hright.tail, hcr⟩)

/-- The pair is set among those of the subtree, which are in order. -/
theorem Takes.upserts [Inhabited V] (ht : Takes order compare key value node result) (ho : 3 ≤ order)
    (hr : Ranks compare used rank) (hu : used key) (hin : Inside low high (rank key))
    (h : node.Arranged used rank low high) :
    Upserts rank key value node.pairs (pairsOf result.nodes) result.added := by
  have hs := ht.stands ho hr hu hin h
  have hnext := hs.row.lined_pairs hs.line fun part _ lo hi hpart => hpart.lined_pairs
  cases hadded : result.added with
  | false =>
    obtain ⟨p₁, k, old, p₂, hold, hnew, heq⟩ := ht.pairs_replaced hadded
    rw [hnew] at hnext ⊢
    rw [hold]
    have hk : rank k = rank key := (hr.eq_iff k key (hnext.used k (by simp)) hu).mp heq
    obtain ⟨hlower, hhigher⟩ := hnext.around
    exact .replaced (fun p hp => hk ▸ hlower p hp) hk fun p hp => hk ▸ hhigher p hp
  | true =>
    obtain ⟨p₁, p₂, hold, hnew⟩ := ht.pairs_gained hadded
    rw [hnew] at hnext ⊢
    rw [hold]
    obtain ⟨hlower, hhigher⟩ := hnext.around
    exact .added hlower hhigher

/-- The root is in order again, whether the old one has split or not. -/
theorem Takes.root_arranged (ht : Takes order compare key value node result) (ho : 3 ≤ order)
    (hr : Ranks compare used rank) (hu : used key) (h : node.Arranged used rank none none) :
    result.root.Arranged used rank none none := by
  have hs := ht.stands ho hr hu ⟨by simp, by simp⟩ h
  cases result with
  | absorbed node added => exact row_one.mp hs.row
  | split halves => exact arranged_branch.mpr ⟨hs.line, hs.row⟩
  | failed left e => exact absurd rfl ht.ne_failed

end Node
end OrderedIndex
