import OrderedIndex.Proofs.Node.Shape
import OrderedIndex.Proofs.Order

/-!
# Keys in order

A subtree with its keys in order, stated by the ranks of keys: the keys of every node increase, and
they lie between the separators around the node. A bound may be missing. A child and the separators
beside it can be replaced as one piece, and all pairs of the subtree are in order.
-/
namespace OrderedIndex
namespace Node

variable {K V α : Type} [LinearOrder α] {used : K → Prop} {rank : K → α} {low high : Option α}
  {keys ks₁ ks₂ : List K}

@[mk_iff]
structure Inside (low high : Option α) (r : α) : Prop where
  from_low : ∀ a ∈ low, a ≤ r
  to_high : ∀ b ∈ high, r < b

structure Lined (used : K → Prop) (rank : K → α) (low high : Option α) (keys : List K) : Prop where
  used : ∀ k ∈ keys, used k
  increasing : keys.Pairwise (rank · < rank ·)
  inside : ∀ k ∈ keys, Inside low high (rank k)

mutual

/-- Every node has its keys in line between the separators around it. -/
def Arranged (used : K → Prop) (rank : K → α) (low high : Option α) : Node K V → Prop
  | leaf keys _ => Lined used rank low high keys
  | branch keys children => Lined used rank low high keys ∧ Row used rank low high keys children

def Row (used : K → Prop) (rank : K → α) (low high : Option α) : List K → List (Node K V) → Prop
  | [], [child] => child.Arranged used rank low high
  | key :: keys, child :: rest =>
    child.Arranged used rank low (some (rank key)) ∧ Row used rank (some (rank key)) high keys rest
  | _, _ => False

end

@[simp] theorem arranged_leaf {values : List V} :
    (leaf keys values).Arranged used rank low high ↔ Lined used rank low high keys := by
  rw [Arranged]
@[simp] theorem arranged_branch {children : List (Node K V)} :
    (branch keys children).Arranged used rank low high ↔
      Lined used rank low high keys ∧ Row used rank low high keys children := by
  rw [Arranged]
@[simp] theorem row_one {child : Node K V} :
    Row used rank low high [] [child] ↔ child.Arranged used rank low high := by
  rw [Row]
@[simp] theorem row_cons {key : K} {child : Node K V} {rest : List (Node K V)} :
    Row used rank low high (key :: keys) (child :: rest) ↔
      child.Arranged used rank low (some (rank key)) ∧
        Row used rank (some (rank key)) high keys rest := by
  rw [Row]

/-! ## Lines of keys -/

/-- Where every key is used, only the ranks matter. -/
theorem lined_all_iff :
    Lined (fun _ => True) rank low high keys ↔
      keys.Pairwise (rank · < rank ·) ∧ ∀ k ∈ keys, Inside low high (rank k) :=
  ⟨fun h => ⟨h.increasing, h.inside⟩, fun h => ⟨fun _ _ => trivial, h.1, h.2⟩⟩

theorem Lined.nil : Lined used rank low high [] := ⟨by simp, by simp, by simp⟩

/-- A line of keys can be cut before each of them, which is then the bound of both parts. -/
theorem Lined.cut {kl kr : List K} {separator : K}
    (h : Lined used rank low high (kl ++ separator :: kr)) :
    Lined used rank low (some (rank separator)) kl ∧
      Lined used rank (some (rank separator)) high (separator :: kr) := by
  obtain ⟨hu, hi, hin⟩ := h
  rw [List.pairwise_append] at hi
  obtain ⟨hl, hr, hlr⟩ := hi
  constructor
  · refine ⟨fun k hk => hu k (by simp [hk]), hl, fun k hk => ⟨(hin k (by simp [hk])).from_low, ?_⟩⟩
    simpa using hlr k hk separator (by simp)
  · refine ⟨fun k hk => hu k (by simp_all), hr, fun k hk => ⟨?_, (hin k (by simp_all)).to_high⟩⟩
    rw [List.pairwise_cons] at hr
    rcases List.mem_cons.mp hk with rfl | hk
    · simp
    · simpa using (hr.1 k hk).le

theorem Lined.tail {key : K} (h : Lined used rank low high (key :: keys)) :
    Lined used rank (some (rank key)) high keys := by
  have hcut : Lined used rank low high ([] ++ key :: keys) := h
  obtain ⟨hu, hi, hin⟩ := hcut.cut.2
  exact ⟨fun k hk => hu k (by simp [hk]), (List.pairwise_cons.mp hi).2,
    fun k hk => hin k (by simp [hk])⟩

/-- Two lines meet at a bound. -/
theorem Lined.join {kl kr : List K} {r : α} (hl : Lined used rank low (some r) kl)
    (hin : Inside low high r) (hr : Lined used rank (some r) high kr) :
    Lined used rank low high (kl ++ kr) := by
  have hbelow : ∀ k ∈ kl, rank k < r := fun k hk => (hl.inside k hk).to_high r rfl
  have habove : ∀ k ∈ kr, r ≤ rank k := fun k hk => (hr.inside k hk).from_low r rfl
  constructor
  · intro k hk
    rcases List.mem_append.mp hk with hk | hk
    · exact hl.used k hk
    · exact hr.used k hk
  · rw [List.pairwise_append]
    exact ⟨hl.increasing, hr.increasing,
      fun a ha b hb => (hbelow a ha).trans_le (habove b hb)⟩
  · intro k hk
    rcases List.mem_append.mp hk with hk | hk
    · exact ⟨(hl.inside k hk).from_low, fun b hb => (hbelow k hk).trans (hin.to_high b hb)⟩
    · exact ⟨fun a ha => (hin.from_low a ha).trans (habove k hk), (hr.inside k hk).to_high⟩

theorem Lined.insert {key : K} (h : Lined used rank low high (ks₁ ++ ks₂)) (hu : used key)
    (hin : Inside low high (rank key)) (hb : ∀ k ∈ ks₁, rank k < rank key)
    (ha : ∀ k ∈ ks₂, rank key < rank k) : Lined used rank low high (ks₁ ++ key :: ks₂) := by
  have hi := List.pairwise_append.mp h.increasing
  constructor
  · intro k hk
    rw [List.mem_append, List.mem_cons] at hk
    rcases hk with hk | rfl | hk
    · exact h.used k (by simp [hk])
    · exact hu
    · exact h.used k (by simp [hk])
  · rw [List.pairwise_append, List.pairwise_cons]
    refine ⟨hi.1, ⟨ha, hi.2.1⟩, ?_⟩
    intro a hka b hkb
    rcases List.mem_cons.mp hkb with rfl | hkb
    · exact hb a hka
    · exact hi.2.2 a hka b hkb
  · intro k hk
    rw [List.mem_append, List.mem_cons] at hk
    rcases hk with hk | rfl | hk
    · exact h.inside k (by simp [hk])
    · exact hin
    · exact h.inside k (by simp [hk])

/-- The keys before one are lower and those after it higher. -/
theorem Lined.sides {key : K} (h : Lined used rank low high (ks₁ ++ key :: ks₂)) :
    (∀ k ∈ ks₁, rank k < rank key) ∧ ∀ k ∈ ks₂, rank key < rank k := by
  have hi := List.pairwise_append.mp h.increasing
  exact ⟨fun k hk => hi.2.2 k hk key (by simp), (List.pairwise_cons.mp hi.2.1).1⟩

/-! ## The bounds of a child -/

/-- The nearest lower bound after some separators. -/
def lowest (rank : K → α) (low : Option α) : List K → Option α
  | [] => low
  | key :: keys => lowest rank (some (rank key)) keys

def highest (rank : K → α) (high : Option α) : List K → Option α
  | [] => high
  | key :: _ => some (rank key)

/-- The nearest lower bound is the greatest. -/
theorem forall_lowest {P : α → Prop} (hP : ∀ a b, a ≤ b → P b → P a)
    (hi : keys.Pairwise (rank · < rank ·)) (hl : ∀ k ∈ keys, ∀ a ∈ low, a ≤ rank k) :
    (∀ a ∈ lowest rank low keys, P a) ↔ (∀ a ∈ low, P a) ∧ ∀ k ∈ keys, P (rank k) := by
  induction keys generalizing low with
  | nil => simp [lowest]
  | cons key keys ih =>
    rw [List.pairwise_cons] at hi
    have hkeys : ∀ k ∈ keys, ∀ a ∈ some (rank key), a ≤ rank k := by
      intro k hk
      simpa using (hi.1 k hk).le
    have hlow : P (rank key) → ∀ a ∈ low, P a := fun h a ha => hP a _ (hl key (by simp) a ha) h
    rw [lowest, ih hi.2 hkeys]
    simp only [Option.mem_some_iff, forall_eq', List.forall_mem_cons]
    exact ⟨fun h => ⟨hlow h.1, h⟩, fun h => h.2⟩

/-- The nearest upper bound is the least. -/
theorem forall_highest {P : α → Prop} (hP : ∀ a b, a ≤ b → P a → P b)
    (hi : keys.Pairwise (rank · < rank ·)) (hh : ∀ k ∈ keys, ∀ b ∈ high, rank k ≤ b) :
    (∀ b ∈ highest rank high keys, P b) ↔ (∀ b ∈ high, P b) ∧ ∀ k ∈ keys, P (rank k) := by
  cases keys with
  | nil => simp [highest]
  | cons key keys =>
    rw [List.pairwise_cons] at hi
    simp only [highest, Option.mem_some_iff, forall_eq', List.forall_mem_cons]
    constructor
    · intro h
      exact ⟨fun b hb => hP _ b (hh key (by simp) b hb) h, h,
        fun k hk => hP _ _ (hi.1 k hk).le h⟩
    · exact fun h => h.2.1

/-- A rank lies between the separators beside a child exactly if it lies between the bounds of the
branch, at or above the separators before the child and below those after it. -/
theorem Lined.inside_iff (h : Lined used rank low high (ks₁ ++ ks₂)) {r : α} :
    Inside (lowest rank low ks₁) (highest rank high ks₂) r ↔
      Inside low high r ∧ (∀ k ∈ ks₁, rank k ≤ r) ∧ ∀ k ∈ ks₂, r < rank k := by
  have hi := List.pairwise_append.mp h.increasing
  have hlow := forall_lowest (P := (· ≤ r)) (fun a b hab hb => hab.trans hb) hi.1
    fun k hk => (h.inside k (by simp [hk])).from_low
  have hhigh := forall_highest (P := (r < ·)) (fun a b hab ha => ha.trans_le hab) hi.2.1
    fun k hk b hb => ((h.inside k (by simp [hk])).to_high b hb).le
  constructor
  · rintro ⟨hl, hh⟩
    obtain ⟨hl, hl'⟩ := hlow.mp hl
    obtain ⟨hh, hh'⟩ := hhigh.mp hh
    exact ⟨⟨hl, hh⟩, hl', hh'⟩
  · rintro ⟨⟨hl, hh⟩, hl', hh'⟩
    exact ⟨hlow.mpr ⟨hl, hl'⟩, hhigh.mpr ⟨hh, hh'⟩⟩

/-! ## Rows of children -/

section Rows

variable {children cl cr cs₁ cs₂ : List (Node K V)} {child : Node K V} {separator : K}

theorem Row.length (h : Row used rank low high keys children) :
    children.length = keys.length + 1 := by
  induction keys generalizing low children with
  | nil =>
    match children, h with
    | [child], _ => rfl
  | cons key keys ih =>
    match children, h with
    | child :: rest, h =>
      rw [row_cons] at h
      simp [ih h.2]

/-- A row can be cut at each separator, which is then the bound of both parts. -/
theorem row_append (hl : cl.length = ks₁.length + 1) :
    Row used rank low high (ks₁ ++ separator :: ks₂) (cl ++ cr) ↔
      Row used rank low (some (rank separator)) ks₁ cl ∧
        Row used rank (some (rank separator)) high ks₂ cr := by
  induction ks₁ generalizing low cl with
  | nil =>
    match cl, hl with
    | [child], _ => simp
  | cons key ks₁ ih =>
    match cl, hl with
    | child :: rest, hl =>
      have hlen : rest.length = ks₁.length + 1 := by simpa using hl
      simp [ih hlen, and_assoc]

/-- A child lies between the separators beside it. With a row between the same bounds in its place, the
children are a row again. -/
theorem Row.hole (h : Row used rank low high (ks₁ ++ ks₂) (cs₁ ++ child :: cs₂))
    (hl : cs₁.length = ks₁.length) :
    child.Arranged used rank (lowest rank low ks₁) (highest rank high ks₂) ∧
      ∀ ks cs, Row used rank (lowest rank low ks₁) (highest rank high ks₂) ks cs →
        Row used rank low high (ks₁ ++ ks ++ ks₂) (cs₁ ++ cs ++ cs₂) := by
  -- on the separators before the child; each one is the lower bound of what follows
  induction ks₁ generalizing low cs₁ with
  | nil =>
    obtain rfl := List.length_eq_zero_iff.mp hl
    cases ks₂ with
    | nil =>
      have hc := h.length
      simp only [List.nil_append, List.length_cons, List.length_nil] at hc
      obtain rfl := List.length_eq_zero_iff.mp (show cs₂.length = 0 by omega)
      refine ⟨by simpa [lowest, highest] using h, ?_⟩
      intro ks cs hrow
      simpa [lowest, highest] using hrow
    | cons key ks₂ =>
      simp only [List.nil_append, row_cons] at h
      refine ⟨h.1, ?_⟩
      intro ks cs hrow
      exact (row_append hrow.length).mpr ⟨hrow, h.2⟩
  | cons key ks₁ ih =>
    match cs₁, hl with
    | first :: cs₁, hl =>
      simp only [List.cons_append, row_cons] at h
      obtain ⟨hchild, hrow⟩ := ih h.2 (by simpa using hl)
      refine ⟨hchild, ?_⟩
      intro ks cs hnew
      exact ⟨h.1, hrow ks cs hnew⟩

/-- Every child is arranged between two bounds, within those of the branch. -/
theorem Row.of_mem (hk : Lined used rank low high keys) (h : Row used rank low high keys children)
    (hc : child ∈ children) :
    ∃ lo hi, child.Arranged used rank lo hi ∧ ∀ r, Inside lo hi r → Inside low high r := by
  obtain ⟨cs₁, cs₂, rfl⟩ := List.append_of_mem hc
  have hlen := h.length
  simp only [List.length_append, List.length_cons] at hlen
  have hparts := List.take_append_drop cs₁.length keys
  rw [← hparts] at h hk
  obtain ⟨hchild, _⟩ := h.hole (by simp; omega)
  exact ⟨_, _, hchild, fun r hr => (hk.inside_iff.mp hr).1⟩

end Rows

/-! ## All keys and pairs -/

/-- All keys of a subtree, those of branches too, are used and lie between its bounds. -/
theorem Arranged.occurs {node part : Node K V} {depth : Nat}
    (h : node.Arranged used rank low high) (ho : Occurs part depth node) :
    ∃ lo hi, part.Arranged used rank lo hi ∧ ∀ r, Inside lo hi r → Inside low high r := by
  induction ho generalizing low high with
  | here => exact ⟨low, high, h, fun r hr => hr⟩
  | under mem _ ih =>
    rw [arranged_branch] at h
    obtain ⟨lo, hi, hchild, hwide⟩ := h.2.of_mem h.1 mem
    obtain ⟨lo', hi', hpart, hwide'⟩ := ih hchild
    exact ⟨lo', hi', hpart, fun r hr => hwide r (hwide' r hr)⟩

theorem Arranged.lined {node : Node K V} (h : node.Arranged used rank low high) :
    Lined used rank low high node.keys := by
  cases node with
  | leaf keys values => simpa using h
  | branch keys children => exact (arranged_branch.mp h).1

/-- Every key below a child, of whatever node, lies between the separators before the child and those
after it. -/
theorem Arranged.separated {children : List (Node K V)} {i depth : Nat} {child inner : Node K V}
    (h : (branch keys children).Arranged used rank low high) (hc : children[i]? = some child)
    (ho : Occurs inner depth child) {key : K} (hm : key ∈ inner.keys) :
    used key ∧ (∀ k ∈ keys.take i, rank k ≤ rank key) ∧ ∀ k ∈ keys.drop i, rank key < rank k := by
  obtain ⟨hk, hrow⟩ := arranged_branch.mp h
  obtain ⟨hi, rfl⟩ := List.getElem?_eq_some_iff.mp hc
  have hlen := hrow.length
  have hparts : children = children.take i ++ children[i] :: children.drop (i + 1) := by simp
  rw [hparts, ← List.take_append_drop i keys] at hrow
  rw [← List.take_append_drop i keys] at hk
  have hchild := (hrow.hole (by simp only [List.length_take]; omega)).1
  obtain ⟨lo, hi, hinner, hwide⟩ := hchild.occurs ho
  have hline := hinner.lined
  exact ⟨hline.used key hm, (hk.inside_iff.mp (hwide _ (hline.inside key hm))).2⟩

variable [Inhabited V]

/-- The pairs of a row are those of its children, in line. -/
theorem Row.lined_pairs {children : List (Node K V)} (hk : Lined used rank low high keys)
    (h : Row used rank low high keys children)
    (each : ∀ child ∈ children, ∀ lo hi, child.Arranged used rank lo hi →
      Lined used rank lo hi (child.pairs.map Prod.fst)) :
    Lined used rank low high ((pairsOf children).map Prod.fst) := by
  induction keys generalizing low children with
  | nil =>
    match children, h with
    | [child], h => simpa using each child (by simp) low high (row_one.mp h)
  | cons key keys ih =>
    match children, h with
    | child :: rest, h =>
      rw [row_cons] at h
      have hfirst := each child (by simp) low (some (rank key)) h.1
      have hrest := ih hk.tail h.2 fun c hc => each c (by simp [hc])
      simpa using hfirst.join (hk.inside key (by simp)) hrest

/-- All pairs of a subtree are in line. -/
theorem Arranged.lined_pairs {node : Node K V} (h : node.Arranged used rank low high) :
    Lined used rank low high (node.pairs.map Prod.fst) := by
  induction node using childInduction generalizing low high with
  | leaf keys values => simpa using h
  | branch keys children ih =>
    rw [arranged_branch] at h
    rw [pairs_branch]
    exact h.2.lined_pairs h.1 fun child hc lo hi hchild => ih child hc hchild

omit [Inhabited V] in
/-- The pairs before one are lower and those after it higher. -/
theorem Lined.around {p₁ p₂ : List (K × V)} {pair : K × V}
    (h : Lined used rank low high ((p₁ ++ pair :: p₂).map Prod.fst)) :
    (∀ p ∈ p₁, rank p.1 < rank pair.1) ∧ ∀ p ∈ p₂, rank pair.1 < rank p.1 := by
  rw [List.map_append, List.map_cons] at h
  obtain ⟨hlower, hhigher⟩ := h.sides
  exact ⟨fun p hp => hlower p.1 (List.mem_map_of_mem hp),
    fun p hp => hhigher p.1 (List.mem_map_of_mem hp)⟩

omit [Inhabited V] in
/-- No other pair has a key of the same rank. -/
theorem Lined.rank_ne {p₁ p₂ : List (K × V)} {pair : K × V}
    (h : Lined used rank low high ((p₁ ++ pair :: p₂).map Prod.fst)) :
    ∀ other ∈ p₁ ++ p₂, rank other.1 ≠ rank pair.1 := by
  obtain ⟨hlower, hhigher⟩ := h.around
  intro other ho
  rcases List.mem_append.mp ho with hm | hm
  · exact (hlower other hm).ne
  · exact (hhigher other hm).ne'

/-- The pairs before a child are below some separator before it, and those after it are not below
some separator after it. -/
theorem Row.pairs_around {cs₁ cs₂ : List (Node K V)} {child : Node K V}
    (h : Row used rank low high (ks₁ ++ ks₂) (cs₁ ++ child :: cs₂))
    (hk : Lined used rank low high (ks₁ ++ ks₂)) (hl : cs₁.length = ks₁.length) :
    (∀ p ∈ pairsOf cs₁, ∃ k ∈ ks₁, rank p.1 < rank k) ∧
      ∀ p ∈ pairsOf cs₂, ∃ k ∈ ks₂, rank k ≤ rank p.1 := by
  constructor
  · intro p hp
    rcases List.eq_nil_or_concat ks₁ with rfl | ⟨kl, k, rfl⟩
    · simp [List.length_eq_zero_iff.mp hl] at hp
    · simp only [List.concat_eq_append, List.append_assoc, List.singleton_append] at h hk hl
      have hleft := ((row_append (by simpa using hl)).mp h).1
      have hpairs := hleft.lined_pairs hk.cut.1 fun c _ lo hi hc => hc.lined_pairs
      exact ⟨k, by simp, (hpairs.inside p.1 (List.mem_map_of_mem hp)).to_high _ rfl⟩
  · intro p hp
    cases ks₂ with
    | nil =>
      have hlen := h.length
      simp only [List.length_append, List.length_cons, List.length_nil] at hlen
      simp [List.length_eq_zero_iff.mp (show cs₂.length = 0 by omega)] at hp
    | cons k ks₂ =>
      rw [List.append_cons cs₁ child cs₂] at h
      have hright := ((row_append (by simp [hl])).mp h).2
      have hpairs := hright.lined_pairs hk.cut.2.tail fun c _ lo hi hc => hc.lined_pairs
      exact ⟨k, by simp, (hpairs.inside p.1 (List.mem_map_of_mem hp)).from_low _ rfl⟩

end Node
end OrderedIndex
