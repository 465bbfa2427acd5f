import MicroRaft.Lib.Json
import MicroRaft.Store.Codec

/-!
# What an engine is for

The state an engine stands for: a map of cells, the index up to which entries have been
applied, and the digest of the last batch, which recognises its repetition.
-/

namespace MicroRaft.Store

open Bytes

/-! ## Changed cells -/

section Changes

variable {changes : List Mutation} {k : Key}

/-- The change of a key, if there is one. -/
def changeOf (changes : List Mutation) (k : Key) : Option Mutation :=
  changes.find? fun c => decide (c.key = k)

theorem changeOf_eq_some {c : Mutation} (h : (changes.map Mutation.key).Nodup) :
    changeOf changes k = some c ↔ c ∈ changes ∧ c.key = k := by
  constructor
  · intro hfind
    exact ⟨List.mem_of_find?_eq_some hfind, by simpa using List.find?_some hfind⟩
  · rintro ⟨hc, rfl⟩
    cases hfind : changeOf changes c.key with
    | none => exact absurd (List.find?_eq_none.1 hfind c hc) (by simp)
    | some c' =>
      have hkey : c'.key = c.key := by simpa using List.find?_some hfind
      rw [List.inj_on_of_nodup_map h (List.mem_of_find?_eq_some hfind) hc hkey]

theorem changeOf_eq_none : changeOf changes k = none ↔ ∀ c ∈ changes, c.key ≠ k := by
  simp [changeOf, List.find?_eq_none]

/-- The map after the changes. -/
def overlay (cells : Key → Option Value) (changes : List Mutation) : Key → Option Value :=
  fun k => (changeOf changes k).elim (cells k) Mutation.value

end Changes

/-! ## Commits -/

/-- What a store is for: a map, the index up to which it has been applied, and the digest of the
last batch. -/
structure Logical where
  cells : Key → Option Value
  applied : Nat
  digest : List UInt8

/-- The state after a batch. -/
def Logical.commit (sha : Digest) (l : Logical) (b : Batch) : Logical :=
  ⟨overlay l.cells b.changes, b.index, sha.run b.bytes⟩

/-- `commit_range` on the logical state. -/
def Logical.commitRange (sha : Digest) (l : Logical) (first index : Nat) (changes : List Mutation) :
    Except IoError (CommitOutcome × Logical) := do
  let _ ← validateChanges changes
  let payload ← encodeBatch first index changes
  if index = l.applied ∧ index > 0 ∧ sha.run payload = l.digest then return (.replay, l)
  if checkedAdd l.applied 1 ≠ some first then
    throw (rejected "applied range must start at the next index")
  return (.applied, l.commit sha ⟨first, index, changes⟩)

end MicroRaft.Store
