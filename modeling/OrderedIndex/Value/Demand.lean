import OrderedIndex.Error
/-!
# Checks described by values

A check that fails is described by a list of values, put side by side as in the text of a list.
-/

namespace OrderedIndex

namespace Value

def demand {K : Type} (fact : Bool) (details : List Value) : Except (Error K) Unit :=
  if fact then .ok () else .error (.broken (elementTexts details))

end Value

end OrderedIndex
