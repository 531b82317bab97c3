import OrderedIndex.Comparator
import OrderedIndex.Number.Word
/-!
# Binary search

A search halves an interval of positions, guided by how each probed item stands to what is sought.
Nothing is assumed of the answers: they need not be consistent with the positions. Every search ends,
and every position it gives lies within the list or at its end.
-/

namespace OrderedIndex

inductive Slot where
  | found (index : Nat)
  | gap (index : Nat)
  deriving DecidableEq, Repr

variable {α : Type}

/-- Searches the positions from `lo` up to `hi`; stops with the obstacle at the first item that has no
order. -/
def searchBetween (outcome : α → Comparison) (items : List α) (lo hi : Nat)
    (bound : hi ≤ items.length) : Except Obstacle Slot :=
  if _open : lo < hi then
    match outcome items[(lo + hi) / 2] with
    | .ordered .lt => searchBetween outcome items ((lo + hi) / 2 + 1) hi bound
    | .ordered .gt => searchBetween outcome items lo ((lo + hi) / 2) (by omega)
    | .ordered .eq => .ok (.found ((lo + hi) / 2))
    | .blocked why => .error why
  else .ok (.gap lo)
termination_by hi - lo

def search (outcome : α → Comparison) (items : List α) : Except Obstacle Slot :=
  searchBetween outcome items 0 items.length (Nat.le_refl _)

/-- In an empty list nothing is compared. -/
@[simp] theorem search_nil (outcome : α → Comparison) : search outcome [] = .ok (.gap 0) := by
  simp [search, searchBetween]

/-- The items that a search between two positions looks at, one after the other. -/
def probesBetween (outcome : α → Comparison) (items : List α) (lo hi : Nat)
    (bound : hi ≤ items.length) : List α :=
  if _open : lo < hi then
    items[(lo + hi) / 2] ::
      match outcome items[(lo + hi) / 2] with
      | .ordered .lt => probesBetween outcome items ((lo + hi) / 2 + 1) hi bound
      | .ordered .gt => probesBetween outcome items lo ((lo + hi) / 2) (by omega)
      | _ => []
  else []
termination_by hi - lo

def probes (outcome : α → Comparison) (items : List α) : List α :=
  probesBetween outcome items 0 items.length (Nat.le_refl _)

namespace Slot

/-- The position of a slot as one word, where the position of a gap is marked by flipping bits. -/
def toWord (mark : Int) : Slot → Int
  | found index => index
  | gap index => wordXor index mark

/-- The child that a branch sends a key to: a key that matches a separator belongs to its right. -/
def childIndex : Slot → Nat
  | found index => index + 1
  | gap index => index

/-- A key that matches a separator belongs to its right. -/
@[simp] theorem childIndex_found (index : Nat) : (found index).childIndex = index + 1 := rfl
@[simp] theorem childIndex_gap (index : Nat) : (gap index).childIndex = index := rfl

end Slot

end OrderedIndex
