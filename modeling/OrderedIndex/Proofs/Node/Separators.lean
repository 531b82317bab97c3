import OrderedIndex.Proofs.Node.Contract

/-!
# Separators and the first keys of leaves

From left to right, the separators of a subtree are the first keys of its leaves but the leftmost, as
they are stored there. Insertion keeps this. A leaf that is cut hands up the first key of its right half,
which stays there; a branch that is cut hands up a separator that neither half keeps; and no key comes to
stand first in a leaf that has a separator before it.
-/
namespace OrderedIndex
namespace Node

variable {K V : Type} {first : Option K} {keys ks₁ ks₂ : List K}

/-! ## All separators -/

mutual

/-- All separators of a subtree: those of the first child, the first key, those of the second child,
and so on. -/
def separators : Node K V → List K
  | leaf _ _ => []
  | branch keys children => weave keys children

def weave : List K → List (Node K V) → List K
  | keys, [] => keys
  | [], child :: rest => child.separators ++ weave [] rest
  | key :: keys, child :: rest => child.separators ++ key :: weave keys rest

end

@[simp] theorem separators_leaf (keys : List K) (values : List V) :
    (leaf keys values).separators = [] := by rw [separators]
@[simp] theorem separators_branch (keys : List K) (children : List (Node K V)) :
    (branch keys children).separators = weave keys children := by rw [separators]
@[simp] theorem weave_nil (keys : List K) : weave keys ([] : List (Node K V)) = keys := by
  cases keys <;> rw [weave]
@[simp] theorem weave_one (child : Node K V) : weave [] [child] = child.separators := by
  rw [weave, weave_nil, List.append_nil]
@[simp] theorem weave_cons (key : K) (keys : List K) (child : Node K V) (rest : List (Node K V)) :
    weave (key :: keys) (child :: rest) = child.separators ++ key :: weave keys rest := by rw [weave]

/-! ## Leading keys -/

mutual

/-- The leftmost leaf begins with the given key, or is empty if none is given, and every child beside
a separator before it begins with that separator. -/
def Led (first : Option K) : Node K V → Prop
  | leaf keys _ => keys.head? = first
  | branch keys children => LedRow first keys children

def LedRow (first : Option K) : List K → List (Node K V) → Prop
  | [], [child] => child.Led first
  | key :: keys, child :: rest => child.Led first ∧ LedRow (some key) keys rest
  | _, _ => False

end

@[simp] theorem led_leaf {values : List V} : (leaf keys values).Led first ↔ keys.head? = first := by
  rw [Led]
@[simp] theorem led_branch {children : List (Node K V)} :
    (branch keys children).Led first ↔ LedRow first keys children := by
  rw [Led]
@[simp] theorem ledRow_one {child : Node K V} : LedRow first [] [child] ↔ child.Led first := by
  rw [LedRow]
@[simp] theorem ledRow_cons {key : K} {child : Node K V} {rest : List (Node K V)} :
    LedRow first (key :: keys) (child :: rest) ↔ child.Led first ∧ LedRow (some key) keys rest := by
  rw [LedRow]

def leader (first : Option K) : List K → Option K
  | [] => first
  | key :: keys => leader (some key) keys

theorem leader_mem (first : Option K) (h : keys ≠ []) :
    ∃ k ∈ keys, leader first keys = some k := by
  induction keys generalizing first with
  | nil => exact absurd rfl h
  | cons key keys ih =>
    cases keys with
    | nil => exact ⟨key, by simp, rfl⟩
    | cons next keys =>
      obtain ⟨k, hk, hlead⟩ := ih (some key) (by simp)
      exact ⟨k, by simp [hk], hlead⟩

/-! ## Rows of children -/

section Rows

variable {children cl cr cs cs₁ cs₂ : List (Node K V)} {child : Node K V} {separator : K} {ks : List K}

theorem LedRow.length (h : LedRow first keys children) : children.length = keys.length + 1 := by
  induction keys generalizing first children with
  | nil =>
    match children, h with
    | [child], _ => rfl
  | cons key keys ih =>
    match children, h with
    | child :: rest, h => simp [ih (ledRow_cons.mp h).2]

/-- The first child is led as the row is. -/
theorem LedRow.head (h : LedRow first keys children) :
    ∃ child rest, children = child :: rest ∧ child.Led first := by
  match keys, children, h with
  | [], [child], h => exact ⟨child, [], rfl, ledRow_one.mp h⟩
  | _ :: _, child :: rest, h => exact ⟨child, rest, rfl, (ledRow_cons.mp h).1⟩

/-- A row can be cut at each separator, which then leads the second part. -/
theorem ledRow_append (hl : cl.length = ks₁.length + 1) :
    LedRow first (ks₁ ++ separator :: ks₂) (cl ++ cr) ↔
      LedRow first ks₁ cl ∧ LedRow (some separator) ks₂ cr := by
  induction ks₁ generalizing first cl with
  | nil =>
    match cl, hl with
    | [child], _ => simp
  | cons key ks₁ ih =>
    match cl, hl with
    | child :: rest, hl =>
      have hlen : rest.length = ks₁.length + 1 := by simpa using hl
      simp [ih hlen, and_assoc]

/-- A row in place of the first child, which may be led by another key. -/
theorem LedRow.instead_first {new : Option K} (h : LedRow first ks₂ (child :: cs₂))
    (hnew : LedRow new ks cs) : LedRow new (ks ++ ks₂) (cs ++ cs₂) := by
  cases ks₂ with
  | nil =>
    have hc := h.length
    simp only [List.length_cons, List.length_nil] at hc
    obtain rfl := List.length_eq_zero_iff.mp (show cs₂.length = 0 by omega)
    simpa using hnew
  | cons key ks₂ => exact (ledRow_append hnew.length).mpr ⟨hnew, (ledRow_cons.mp h).2⟩

/-- A child is led by the separator before it, or as the row is. With a row led by the same key in its
place, the children are a row again. -/
theorem LedRow.hole (h : LedRow first (ks₁ ++ ks₂) (cs₁ ++ child :: cs₂))
    (hl : cs₁.length = ks₁.length) :
    child.Led (leader first ks₁) ∧
      ∀ ks cs, LedRow (leader first ks₁) ks cs →
        LedRow first (ks₁ ++ ks ++ ks₂) (cs₁ ++ cs ++ cs₂) := by
  induction ks₁ generalizing first cs₁ with
  | nil =>
    obtain rfl := List.length_eq_zero_iff.mp hl
    obtain ⟨_, _, heq, hchild⟩ := h.head
    obtain ⟨rfl, rfl⟩ := List.cons.inj heq
    exact ⟨hchild, fun ks cs hnew => h.instead_first hnew⟩
  | cons key ks₁ ih =>
    match cs₁, hl with
    | head :: cs₁, hl =>
      simp only [List.cons_append, ledRow_cons] at h
      obtain ⟨hchild, hrow⟩ := ih h.2 (by simpa using hl)
      exact ⟨hchild, fun ks cs hnew => ledRow_cons.mpr ⟨h.1, hrow ks cs hnew⟩⟩

/-- The child after a separator is led by it. -/
theorem LedRow.get {i : Nat} {key : K} (h : LedRow first keys children) (hk : keys[i]? = some key) :
    ∃ child, children[i + 1]? = some child ∧ child.Led (some key) := by
  induction keys generalizing first children i with
  | nil => simp at hk
  | cons before keys ih =>
    match children, h with
    | child :: rest, h =>
      obtain ⟨_, hrow⟩ := ledRow_cons.mp h
      cases i with
      | zero =>
        obtain rfl : before = key := by simpa using hk
        obtain ⟨next, others, rfl, hnext⟩ := hrow.head
        exact ⟨next, rfl, hnext⟩
      | succ i =>
        obtain ⟨next, hnext, hled⟩ := ih hrow (by simpa using hk)
        exact ⟨next, hnext, hled⟩

/-- Every child is led by some key, or is led as the row is. -/
theorem LedRow.of_mem (h : LedRow first keys children) (hc : child ∈ children) :
    ∃ lead, child.Led lead := by
  obtain ⟨cs₁, cs₂, rfl⟩ := List.append_of_mem hc
  have hlen := h.length
  simp only [List.length_append, List.length_cons] at hlen
  rw [← List.take_append_drop cs₁.length keys] at h
  exact ⟨_, (h.hole (by simp only [List.length_take]; omega)).1⟩

end Rows

theorem Led.occurs {node part : Node K V} {depth : Nat} (h : node.Led first)
    (ho : Occurs part depth node) : ∃ lead, part.Led lead := by
  induction ho generalizing first with
  | here => exact ⟨first, h⟩
  | under mem _ ih =>
    obtain ⟨lead, hchild⟩ := (led_branch.mp h).of_mem mem
    exact ih hchild

/-! ## What leading keys say -/

/-- The walk along the left edge finds the leading key. -/
theorem Led.minKey {node : Node K V} (h : node.Led first) : node.minKey = .ok first := by
  induction node using childInduction with
  | leaf keys values =>
    rw [Node.minKey, led_leaf.mp h]
  | branch keys children ih =>
    obtain ⟨child, rest, rfl, hchild⟩ := (led_branch.mp h).head
    rw [Node.minKey, ih child (by simp) hchild]

mutual

/-- The leaves begin with the leading key and the separators, in this order. -/
theorem Led.leaves_eq {first : Option K} {node : Node K V} (h : node.Led first) :
    node.leaves.map (·.keys.head?) = first :: node.separators.map some := by
  match node with
  | leaf keys values => simpa using h
  | branch keys children =>
    rw [leaves_branch, separators_branch]
    exact (led_branch.mp h).leaves_eq

theorem LedRow.leaves_eq {first : Option K} {keys : List K} {children : List (Node K V)}
    (h : LedRow first keys children) :
    (leavesOf children).map (·.keys.head?) = first :: (weave keys children).map some := by
  match keys, children, h with
  | [], [child], h => simpa using (ledRow_one.mp h).leaves_eq
  | key :: keys, child :: rest, h =>
    obtain ⟨hchild, hrow⟩ := ledRow_cons.mp h
    simp [hchild.leaves_eq, hrow.leaves_eq]

end

mutual

/-- The leading key and the separators are among the keys of all pairs, in the same order. -/
theorem Led.sublist [Inhabited V] {first : Option K} {node : Node K V} (h : node.Led first) :
    (first.toList ++ node.separators).Sublist (node.pairs.map Prod.fst) := by
  match node with
  | leaf keys values =>
    obtain rfl := led_leaf.mp h
    cases keys <;> simp
  | branch keys children =>
    rw [pairs_branch, separators_branch]
    exact (led_branch.mp h).sublist

theorem LedRow.sublist [Inhabited V] {first : Option K} {keys : List K} {children : List (Node K V)}
    (h : LedRow first keys children) :
    (first.toList ++ weave keys children).Sublist ((pairsOf children).map Prod.fst) := by
  match keys, children, h with
  | [], [child], h => simpa using (ledRow_one.mp h).sublist
  | key :: keys, child :: rest, h =>
    obtain ⟨hchild, hrow⟩ := ledRow_cons.mp h
    simpa using hchild.sublist.append hrow.sublist

end

/-! ## Insertion -/

section Insertion

variable {α : Type} [LinearOrder α] {used : K → Prop} {rank : K → α} {low high : Option α}
  {key : K}

/-- Nodes in a row after a key was brought, in place of a subtree led by the given key. The leading key
is the same unless the new one is below it. -/
def LedAfter (rank : K → α) (key : K) (first : Option K) (ks : List K) (nodes : List (Node K V)) :
    Prop :=
  ∃ new, LedRow new ks nodes ∧ ∀ k ∈ first, rank k ≤ rank key → new = first

/-- A key in its gap comes to stand first only if it is below the first one. -/
theorem head?_insert (hhead : (ks₁ ++ ks₂).head? = first) (ha : ∀ k ∈ ks₂, rank key < rank k) :
    ∀ k ∈ first, rank k ≤ rank key → (ks₁ ++ key :: ks₂).head? = first := by
  intro k hk hle
  cases ks₁ with
  | cons head ks₁ => simpa using hhead
  | nil =>
    have hm : k ∈ ks₂ := List.mem_of_mem_head? (hhead.trans hk)
    exact absurd (ha k hm) hle.not_gt

/-- A branch takes over what stands in place of one of its children. -/
theorem LedAfter.adopted {cs₁ cs₂ nodes : List (Node K V)} {child : Node K V} {ks : List K}
    (h : LedRow first (ks₁ ++ ks₂) (cs₁ ++ child :: cs₂)) (hl : cs₁.length = ks₁.length)
    (hb : ∀ k ∈ ks₁, rank k ≤ rank key)
    (hchild : LedAfter rank key (leader first ks₁) ks nodes) :
    LedAfter rank key first (ks₁ ++ ks ++ ks₂) (cs₁ ++ nodes ++ cs₂) := by
  obtain ⟨new, hrow, hsame⟩ := hchild
  cases ks₁ with
  | nil =>
    obtain rfl := List.length_eq_zero_iff.mp hl
    exact ⟨new, h.instead_first hrow, hsame⟩
  | cons before ks₁ =>
    -- a child after a separator keeps its leading key, because only keys from it on are sent there
    obtain ⟨k, hk, hlead⟩ := leader_mem first (List.cons_ne_nil before ks₁)
    rw [hsame k hlead (hb k hk)] at hrow
    exact ⟨first, (h.hole hl).2 ks nodes hrow, fun _ _ _ => rfl⟩

variable [Key K] {order : Nat} {compare : Comparator K} {value : V} {node : Node K V}
  {result : Insertion K V}

/-- Insertion keeps the leading keys. -/
theorem Takes.led (ht : Takes order compare key value node result) (ho : 3 ≤ order)
    (hr : Ranks compare used rank) (hu : used key) (h : node.Arranged used rank low high)
    (hled : node.Led first) : LedAfter rank key first result.separators result.nodes := by
  induction ht generalizing low high first with
  | replaced found => exact ⟨first, by simpa using hled, fun _ _ _ => rfl⟩
  | @placed ks₁ ks₂ vs₁ vs₂ gap level fits =>
    obtain ⟨_, ha⟩ := (arranged_leaf.mp h).gap hr hu gap
    exact ⟨_, by simp, head?_insert (led_leaf.mp hled) ha⟩
  | @halved ks₁ ks₂ kl kr vs₁ vs₂ vl vr separator gap level full keysCut valuesCut half levelCut =>
    obtain ⟨_, ha⟩ := (arranged_leaf.mp h).gap hr hu gap
    have hhead : kl.head? = (ks₁ ++ key :: ks₂).head? := by
      cases kl with
      | nil =>
        rw [List.length_nil] at half
        omega
      | cons head kl => rw [keysCut, List.cons_append, List.head?_cons, List.head?_cons]
    exact ⟨_, by simp [hhead], head?_insert (led_leaf.mp hled) ha⟩
  | @adopted ks₁ ks₂ cs₁ cs₂ child result route level inside fits ih =>
    obtain ⟨hk, hrow⟩ := arranged_branch.mp h
    have hledRow := led_branch.mp hled
    have hchild := ih (hrow.hole level).1 (hledRow.hole level).1
    obtain ⟨new, hnew, hsame⟩ := hchild.adopted hledRow level (hk.around_route hr hu route).1
    exact ⟨new, ledRow_one.mpr (led_branch.mpr hnew), hsame⟩
  | @parted ks₁ ks₂ kl kr cs₁ cs₂ cl cr child separator result route level inside grown full
      keysCut childrenCut half levelCut ih =>
    obtain ⟨hk, hrow⟩ := arranged_branch.mp h
    have hledRow := led_branch.mp hled
    have hchild := ih (hrow.hole level).1 (hledRow.hole level).1
    obtain ⟨new, hnew, hsame⟩ := hchild.adopted hledRow level (hk.around_route hr hu route).1
    rw [keysCut, childrenCut] at hnew
    obtain ⟨hleft, hright⟩ := (ledRow_append levelCut).mp hnew
    exact ⟨new, ledRow_cons.mpr ⟨led_branch.mpr hleft, ledRow_one.mpr (led_branch.mpr hright)⟩, hsame⟩

/-- The root is led again, whether the old one has split or not. -/
theorem Takes.root_led (ht : Takes order compare key value node result) (ho : 3 ≤ order)
    (hr : Ranks compare used rank) (hu : used key) (h : node.Arranged used rank low high)
    (hled : node.Led first) : ∃ new, result.root.Led new := by
  obtain ⟨new, hrow, _⟩ := ht.led ho hr hu h hled
  cases result with
  | absorbed node added => exact ⟨new, ledRow_one.mp hrow⟩
  | split halves => exact ⟨new, led_branch.mpr hrow⟩
  | failed left e => exact absurd rfl ht.ne_failed

end Insertion

end Node
end OrderedIndex
