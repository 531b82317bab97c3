import OrderedIndex.Error
import OrderedIndex.Search
/-!
# Sorted lists of pairs

The plainest ordered map: a list of pairs, searched by halving. A pair that is set again is replaced
as a whole, key included. Two keys without an order are an error, whichever they are.
-/

namespace OrderedIndex

structure SortedPairs (K V : Type) where
  compare : Comparator K
  entries : List (K × V) := []

namespace SortedPairs

variable {K V : Type}

def locate (map : SortedPairs K V) (key : K) : Except (Error K) Slot :=
  match search (fun entry => map.compare entry.1 key) map.entries with
  | .ok slot => .ok slot
  | .error .unordered => .error .incomparable
  | .error .refused => .error .refused

/-- Sets a pair; says whether its key was added. -/
def set (map : SortedPairs K V) (key : K) (value : V) :
    Except (Error K) (SortedPairs K V × Bool) :=
  match map.locate key with
  | .error e => .error e
  | .ok (.found i) => .ok ({ map with entries := map.entries.set i (key, value) }, false)
  | .ok (.gap i) =>
    .ok ({ map with entries := map.entries.take i ++ (key, value) :: map.entries.drop i }, true)

def setAll (map : SortedPairs K V) : List (K × V) → Except (Error K) (SortedPairs K V)
  | [] => .ok map
  | (key, value) :: rest =>
    match map.set key value with
    | .error e => .error e
    | .ok (map, _) => setAll map rest

def ofList (compare : Comparator K) (entries : List (K × V)) : Except (Error K) (SortedPairs K V) :=
  ({ compare } : SortedPairs K V).setAll entries

def get (map : SortedPairs K V) (key : K) (otherwise : V) : Except (Error K) V :=
  match map.locate key with
  | .error e => .error e
  | .ok (.found i) => .ok ((map.entries[i]?.map Prod.snd).getD otherwise)
  | .ok (.gap _) => .ok otherwise

def contains (map : SortedPairs K V) (key : K) : Except (Error K) Bool :=
  match map.locate key with
  | .error e => .error e
  | .ok (.found _) => .ok true
  | .ok (.gap _) => .ok false

def size (map : SortedPairs K V) : Nat := map.entries.length

def minKey (map : SortedPairs K V) : Option K := map.entries.head?.map Prod.fst

def maxKey (map : SortedPairs K V) : Option K := map.entries.getLast?.map Prod.fst

end SortedPairs

end OrderedIndex
