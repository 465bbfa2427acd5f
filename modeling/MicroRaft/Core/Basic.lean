import Mathlib

/-!
# Machine integers and ordered collections

The scalar types of `raft-core` are fixed-width unsigned integers.  They are
modelled by `Nat`; wherever the source guards an addition (`checked_add`,
`saturating_add`) the guard is written out against `u64Max`, so the branch the
source takes at the end of the range is the branch the model takes.  Terms start
at `0`, before the first election; log indices start at `1`, and `0` stands for
the position before the log.

`BTreeMap` and `BTreeSet` are the extensional search trees of the standard
library: two of them are equal exactly when they hold the same bindings, which
is what `PartialEq` decides in the source.
-/

namespace MicroRaft

/-- Node identifier. -/
abbrev NodeId := Nat

abbrev BTreeMap (K V : Type) [Ord K] := Std.ExtTreeMap K V compare

abbrev BTreeSet (K : Type) [Ord K] := Std.ExtTreeSet K compare

/-- `u64::MAX`. -/
def u64Max : Nat := 18446744073709551615

/-- `u64::checked_add`. -/
def checkedAdd (a b : Nat) : Option Nat := if a + b ≤ u64Max then some (a + b) else none

/-- `u64::saturating_add`. -/
def saturatingAdd (a b : Nat) : Nat := min (a + b) u64Max

theorem checkedAdd_eq_some {a b c : Nat} (h : checkedAdd a b = some c) :
    c = a + b ∧ c ≤ u64Max := by
  unfold checkedAdd at h
  split at h
  · rename_i hle
    cases h
    exact ⟨rfl, hle⟩
  · cases h

/-- `.checked_add(k).filter(|v| *v < u64::MAX)`: the next log index, if there is one. -/
def nextIndex (i k : Nat) : Option Nat :=
  (checkedAdd i k).filter fun v => v < u64Max

theorem nextIndex_eq_some {i k j : Nat} (h : nextIndex i k = some j) :
    j = i + k ∧ j < u64Max := by
  obtain ⟨hadd, hlt⟩ := Option.filter_eq_some_iff.1 h
  exact ⟨(checkedAdd_eq_some hadd).1, by simpa using hlt⟩

/-! ## Fallible computations -/

theorem bind_eq_ok {ε α β : Type} {x : Except ε α} {f : α → Except ε β} {b : β} :
    (x >>= f) = .ok b ↔ ∃ a, x = .ok a ∧ f a = .ok b := by
  cases x with
  | error e => simp [bind, Except.bind]
  | ok a => simp [bind, Except.bind]

theorem forM_eq_ok {ε α : Type} {l : List α} {f : α → Except ε Unit}
    (h : ∀ x ∈ l, f x = .ok ()) : l.forM f = .ok () := by
  induction l with
  | nil => rfl
  | cons x l ih =>
    show (f x >>= fun _ => l.forM f) = _
    rw [h x (List.mem_cons_self ..)]
    exact ih fun y hy => h y (List.mem_cons_of_mem _ hy)

theorem toOption_eq_some {ε α : Type} {x : Except ε α} {a : α} (h : x.toOption = some a) :
    x = .ok a := by
  cases x with
  | error e => cases h
  | ok b =>
    cases h
    rfl

end MicroRaft
