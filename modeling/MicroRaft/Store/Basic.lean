import MicroRaft.Core.Basic
import MicroRaft.Lib.Bytes

/-!
# Records and batches of the applied-state store

The types of `state-store` and the checks every batch passes before it reaches an
engine.  Keys and values are byte strings; a deletion is a mutation without a
value.
-/

namespace MicroRaft.Store

abbrev Key := List UInt8

abbrev Value := List UInt8

/-! ## Errors -/

/-- The kinds of `io::Error` the store reports. -/
inductive ErrorKind
  | invalidData | invalidInput | other | outOfMemory | alreadyExists | notFound
  deriving DecidableEq, Repr

structure IoError where
  kind : ErrorKind
  message : String
  deriving DecidableEq, Repr

theorem ok_bind {ε α β : Type} (a : α) (f : α → Except ε β) : (Except.ok a >>= f) = f a := rfl

/-- Corruption. -/
def invalid (message : String) : IoError := ⟨.invalidData, message⟩

/-- A refused request. -/
def rejected (message : String) : IoError := ⟨.invalidInput, message⟩

/-! ## Limits -/

def maxKeyBytes : Nat := 4096

def maxValueBytes : Nat := 1024 * 1024

def maxBatchBytes : Nat := 16 * 1024 * 1024

def maxBatchRecords : Nat := 65536

def maxApplyRange : Nat := 256

/-! ## Mutations and records -/

structure Mutation where
  key : Key
  value : Option Value
  deriving DecidableEq, Repr

structure Record where
  key : Key
  value : Option Value
  sequence : Nat
  deriving DecidableEq, Repr

/-- The bytes of a value, none for a deletion. -/
def valueLength (value : Option Value) : Nat := value.elim 0 List.length

def Record.size (r : Record) : Nat := 16 + r.key.length + valueLength r.value

/-- The record a mutation leaves at a sequence number. -/
def Mutation.record (m : Mutation) (sequence : Nat) : Record := ⟨m.key, m.value, sequence⟩

inductive CommitOutcome
  | applied | replay
  deriving DecidableEq, Repr

/-! ## Validation -/

def validateRange (first index : Nat) : Except IoError Unit :=
  if first = 0 ∨ index < first ∨ index - first ≥ maxApplyRange then
    .error (rejected "invalid or oversized applied range")
  else .ok ()

/-- The loop of `validate_mutations`: `bytes` counted and `keys` seen so far. -/
def validateLoop (maxBytes : Nat) : List Mutation → Nat → BTreeSet Key → Except IoError Nat
  | [], bytes, _ => .ok bytes
  | change :: rest, bytes, keys =>
      if change.key = [] ∨ change.key.length > maxKeyBytes ∨
          (∃ v ∈ change.value, v.length > maxValueBytes) ∨ change.key ∈ keys then
        .error (rejected "invalid key/value bounds or duplicate batch key")
      else
        match checkedAdd bytes (change.key.length + valueLength change.value) with
        | none => .error (rejected "batch size overflow")
        | some bytes =>
            if bytes > maxBytes then .error (rejected "batch byte limit exceeded")
            else validateLoop maxBytes rest bytes (keys.insert change.key)

def validateMutations (changes : List Mutation) (maxRecords maxBytes : Nat) :
    Except IoError Nat :=
  if changes.length > maxRecords then .error (rejected "too many batch records")
  else validateLoop maxBytes changes 0 ∅

def validateChanges (changes : List Mutation) : Except IoError Nat :=
  validateMutations changes maxBatchRecords maxBatchBytes

/-! ## What a valid batch is -/

/-- The bounds on one mutation. -/
structure Mutation.Bounded (m : Mutation) : Prop where
  nonempty : m.key ≠ []
  key : m.key.length ≤ maxKeyBytes
  value : ∀ v ∈ m.value, v.length ≤ maxValueBytes

/-- The key and value bytes of a batch. -/
def batchBytes (changes : List Mutation) : Nat :=
  (changes.map fun m => m.key.length + valueLength m.value).sum

/-- What `validate_mutations` admits. -/
structure Admitted (changes : List Mutation) (maxRecords maxBytes : Nat) : Prop where
  count : changes.length ≤ maxRecords
  bounded : ∀ m ∈ changes, m.Bounded
  distinct : (changes.map Mutation.key).Nodup
  bytes : batchBytes changes ≤ maxBytes

theorem not_bounded_iff {m : Mutation} :
    (m.key = [] ∨ m.key.length > maxKeyBytes ∨ ∃ v ∈ m.value, v.length > maxValueBytes) ↔
      ¬ m.Bounded := by
  constructor
  · rintro (h | h | ⟨v, hv, h⟩) hb
    · exact hb.nonempty h
    · exact absurd hb.key (not_le.2 h)
    · exact absurd (hb.value v hv) (not_le.2 h)
  · intro h
    by_contra hn
    push Not at hn
    exact h ⟨hn.1, hn.2.1, hn.2.2⟩

theorem validateLoop_eq_ok {maxBytes : Nat} (hmax : maxBytes ≤ u64Max) {changes : List Mutation}
    {bytes total : Nat} {keys : BTreeSet Key} (hle : bytes ≤ maxBytes) :
    validateLoop maxBytes changes bytes keys = .ok total ↔
      (∀ m ∈ changes, m.Bounded) ∧ (changes.map Mutation.key).Nodup ∧
        (∀ m ∈ changes, m.key ∉ keys) ∧ total = bytes + batchBytes changes ∧ total ≤ maxBytes := by
  induction changes generalizing bytes keys with
  | nil =>
    simp only [validateLoop, Except.ok.injEq, batchBytes, List.map_nil, List.sum_nil, add_zero,
      List.not_mem_nil, false_implies, implies_true, List.nodup_nil, true_and]
    constructor
    · rintro rfl
      exact ⟨rfl, hle⟩
    · rintro ⟨rfl, -⟩
      rfl
  | cons m rest ih =>
    have hbatch : batchBytes (m :: rest) =
        (m.key.length + valueLength m.value) + batchBytes rest := by
      simp [batchBytes]
    rw [validateLoop, hbatch]
    simp only [List.forall_mem_cons, List.map_cons, List.nodup_cons]
    by_cases hbad : m.Bounded ∧ m.key ∉ keys
    · obtain ⟨hbounded, hnew⟩ := hbad
      rw [if_neg (by
        rw [← or_assoc, ← or_assoc, or_assoc (a := m.key = []), not_bounded_iff]
        simp [hbounded, hnew])]
      by_cases hsum : bytes + (m.key.length + valueLength m.value) ≤ maxBytes
      · rw [checkedAdd, if_pos (hsum.trans hmax)]
        dsimp only
        rw [if_neg (not_lt.2 hsum), ih hsum]
        simp only [Std.ExtTreeSet.mem_insert, not_or]
        constructor
        · rintro ⟨hb, hd, hk, ht, hm⟩
          refine ⟨⟨hbounded, hb⟩, ⟨?_, hd⟩, ⟨hnew, fun x hx => (hk x hx).2⟩, by omega, hm⟩
          intro hmem
          obtain ⟨x, hx, hxm⟩ := List.mem_map.1 hmem
          exact (hk x hx).1 (by rw [hxm]; exact Std.ReflCmp.compare_self)
        · rintro ⟨⟨-, hb⟩, ⟨hm, hd⟩, ⟨-, hk⟩, ht, hmx⟩
          refine ⟨hb, hd, fun x hx => ⟨fun heq => ?_, hk x hx⟩, by omega, hmx⟩
          have hxm := Std.LawfulEqCmp.eq_of_compare heq
          exact hm (hxm ▸ List.mem_map_of_mem hx)
      · have herr : ∀ {x : Except IoError Nat},
            (match checkedAdd bytes (m.key.length + valueLength m.value) with
            | none => .error (rejected "batch size overflow")
            | some bytes =>
              if bytes > maxBytes then .error (rejected "batch byte limit exceeded")
              else validateLoop maxBytes rest bytes (keys.insert m.key)) = x →
            ∀ t, x ≠ .ok t := by
          rintro x rfl t
          unfold checkedAdd
          split
          · simp
          · next b hb =>
              split at hb
              · cases hb
                rw [if_pos (by omega)]
                simp
              · cases hb
        constructor
        · intro h
          exact absurd h (herr rfl total)
        · rintro ⟨-, -, -, ht, hm⟩
          omega
    · rw [if_pos (by
        rw [← or_assoc, ← or_assoc, or_assoc (a := m.key = []), not_bounded_iff]
        by_contra hn
        rw [not_or, not_not] at hn
        exact hbad hn)]
      simp only [reduceCtorEq, false_iff]
      rintro ⟨⟨hb, -⟩, -, ⟨hk, -⟩, -⟩
      exact hbad ⟨hb, hk⟩

/-- A batch passes the checks exactly when it is admitted, and its size is reported. -/
theorem validateMutations_eq_ok {changes : List Mutation} {maxRecords maxBytes total : Nat}
    (hmax : maxBytes ≤ u64Max) :
    validateMutations changes maxRecords maxBytes = .ok total ↔
      Admitted changes maxRecords maxBytes ∧ total = batchBytes changes := by
  unfold validateMutations
  by_cases hcount : changes.length > maxRecords
  · rw [if_pos hcount]
    simp only [reduceCtorEq, false_iff]
    rintro ⟨h, -⟩
    exact absurd h.count (not_le.2 hcount)
  · rw [if_neg hcount, validateLoop_eq_ok hmax (Nat.zero_le _)]
    constructor
    · rintro ⟨hb, hd, -, ht, hm⟩
      exact ⟨⟨not_lt.1 hcount, hb, hd, by omega⟩, by omega⟩
    · rintro ⟨h, ht⟩
      exact ⟨h.bounded, h.distinct, by simp, by omega, ht ▸ h.bytes⟩

theorem validateRange_eq_ok {first index : Nat} :
    validateRange first index = .ok () ↔
      0 < first ∧ first ≤ index ∧ index - first < maxApplyRange := by
  unfold validateRange
  split
  · next h =>
      simp only [reduceCtorEq, false_iff]
      omega
  · next h =>
      simp only [true_iff]
      omega

end MicroRaft.Store
