import Mathlib.Data.List.Basic

/-! Folds over a map in which each item works on the value under its own key: the fold of the
whole list is the fold, key by key, of the items with that key. -/
namespace KeyedFold

variable {K V C : Type*} [DecidableEq K] (key : C → K) (step : C → V → Option V)

/-- The items in order, all on one value. -/
def runOn : List C → V → Option V
  | [], v => some v
  | c :: cs, v => (step c v).bind (runOn cs)

end KeyedFold
