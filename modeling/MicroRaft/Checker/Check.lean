import MicroRaft.Checker.Linearizable

/-!
# The whole check

`check` normalizes a history and searches its keys in order, with one budget for all of
them, up to the first key that fails.
-/

namespace MicroRaft.Checker

def Verdict.states : Verdict → Nat
  | .pass states _ | .fail states | .inconclusive states => states

/-- What `check` reports, with the results of the keys it searched. -/
inductive Report
  | invalid (reason : String)
  | pass (keys : List (String × Verdict))
  | fail (key : String) (keys : List (String × Verdict))
  | inconclusive (keys : List (String × Verdict))
  deriving DecidableEq

/-- The operations on one key. -/
def selected (operations : List Operation) (key : String) : List Operation :=
  operations.filter fun o => o.key = key

/-- The loop over the keys. -/
def checkKeys (initial : List (String × Option String)) (operations : List Operation) :
    List String → Nat → List (String × Verdict) → Report
  | [], _, results =>
      if ∃ r ∈ results, r.2 = .inconclusive r.2.states then .inconclusive results
      else .pass results
  | key :: keys, remaining, results =>
      let result := search (selected operations key) (initial.lookup key).join remaining
      let results := results ++ [(key, result)]
      if result = .fail result.states then .fail key results
      else checkKeys initial operations keys (remaining - result.states) results

def check (history : Value) (budget maxOperations : Nat) : Report :=
  if budget < 1 then .invalid "search budget must be positive"
  else
    match normalize history maxOperations with
    | .error reason => .invalid reason
    | .ok (initial, operations) =>
        checkKeys initial operations ((operations.map Operation.key).dedup.mergeSort (· ≤ ·))
          budget []

variable {known : List (String × Option String)} {budget : Nat}

end MicroRaft.Checker
