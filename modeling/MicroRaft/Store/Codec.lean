import MicroRaft.Store.Basic

/-!
# Records, batches and frames as bytes

The byte formats of `codec.rs`.  A record is a fixed header, its key and its
value; a batch is a header and its records; a frame carries a payload behind a
marker, its length, a digest of marker and length, and a digest of everything.

Reading is exact: a batch is read back from the bytes it was written to, and
nothing but such bytes is read as a batch (`decodeBatch_eq_ok`).  A frame at the
start of some bytes is read back (`readFrame_frame`), and a frame of which some
bytes are missing is not read at all (`readFrame_take`).
-/

namespace MicroRaft.Store

open Bytes

/-! ## Records -/

/-- `u32::MAX`, the value length of a deletion. -/
def u32Max : Nat := 4294967295

def encodeRecord (r : Record) : List UInt8 :=
  le 8 r.sequence ++ le 4 r.key.length ++ le 4 (r.value.elim u32Max List.length) ++ r.key ++
    r.value.getD []

/-- The loop of `decode_records` over the records still to come. -/
def decodeLoop : Nat → List UInt8 → Except IoError (List Record)
  | 0, bytes => if bytes ≠ [] then .error (invalid "trailing record data") else .ok []
  | count + 1, bytes =>
      if bytes.length < 16 then .error (invalid "short record header")
      else
        let header := bytes.take 16
        let bytes := bytes.drop 16
        let sequence := ofLe (header.take 8)
        let keyLen := ofLe ((header.drop 8).take 4)
        let valueLen := ofLe (header.drop 12)
        let length := if valueLen = u32Max then 0 else valueLen
        if keyLen = 0 ∨ keyLen > maxKeyBytes ∨ length > maxValueBytes ∨
            keyLen + length > bytes.length then
          .error (invalid "record bounds invalid")
        else
          let key := bytes.take keyLen
          let value := if valueLen ≠ u32Max then some ((bytes.drop keyLen).take length) else none
          match decodeLoop count (bytes.drop (keyLen + length)) with
          | .error e => .error e
          | .ok records => .ok (⟨key, value, sequence⟩ :: records)

def decodeRecords (bytes : List UInt8) (count : Nat) : Except IoError (List Record) :=
  if count > maxBatchRecords then .error (invalid "record count exceeds limit")
  else decodeLoop count bytes

/-! ## Batches -/

/-- An atomic batch: the final cells of a contiguous range of applied entries. -/
structure Batch where
  first : Nat
  index : Nat
  changes : List Mutation
  deriving DecidableEq, Repr

def encodeBatch (first index : Nat) (changes : List Mutation) : Except IoError (List UInt8) := do
  validateRange first index
  let _ ← validateChanges changes
  return le 8 first ++ le 8 index ++ le 4 changes.length ++
    changes.flatMap fun change => encodeRecord (change.record index)

/-- `.map_err(|error| invalid(error.to_string()))`. -/
def asInvalid {α : Type} : Except IoError α → Except IoError α
  | .error e => .error (invalid e.message)
  | .ok a => .ok a

def decodeBatch (bytes : List UInt8) : Except IoError Batch := do
  if bytes.length < 20 then throw (invalid "short batch")
  let first := ofLe (bytes.take 8)
  let index := ofLe ((bytes.drop 8).take 8)
  asInvalid (validateRange first index)
  let count := ofLe ((bytes.drop 16).take 4)
  let records ← decodeRecords (bytes.drop 20) count
  if records.any fun r => decide (r.sequence ≠ index) then throw (invalid "mixed batch sequence")
  let changes : List Mutation := records.map fun r => ⟨r.key, r.value⟩
  let _ ← asInvalid (validateChanges changes)
  return ⟨first, index, changes⟩

/-! ## Frames -/

/-- `MAX_FRAME`. -/
def maxFrame : Nat := maxBatchBytes + maxBatchRecords * 16 + 24

/-- A digest function with results of 32 bytes. -/
structure Digest where
  run : List UInt8 → List UInt8
  length : ∀ bytes, (run bytes).length = 32

/-- A digest for small examples: a polynomial of the bytes. -/
def toyDigest : Digest where
  run bytes := le 32 (bytes.foldl (fun acc b => acc * 257 + b.toNat + 1) 1)
  length _ := length_le ..

/-- The part of a frame before its payload. -/
def frameHeader (sha : Digest) (magic : List UInt8) (length : Nat) : List UInt8 :=
  magic ++ le 4 length ++ sha.run (magic ++ le 4 length)

def frame (sha : Digest) (magic payload : List UInt8) : Except IoError (List UInt8) :=
  if payload.length > maxFrame then .error (invalid "frame too large")
  else
    let body := frameHeader sha magic payload.length ++ payload
    .ok (body ++ sha.run body)

/-- `read_frame`: nothing at the end of the input and for an incomplete frame; otherwise the
payload, the length of the frame and the bytes behind it. -/
def readFrame (sha : Digest) (magic bytes : List UInt8) :
    Except IoError (Option (List UInt8 × Nat × List UInt8)) :=
  if bytes.length < 44 then .ok none
  else
    let header := bytes.take 44
    if header.take 8 ≠ magic then .error (invalid "frame magic/version mismatch")
    else if sha.run (header.take 12) ≠ header.drop 12 then
      .error (invalid "frame header checksum mismatch")
    else
      let length := ofLe ((header.drop 8).take 4)
      if length > maxFrame then .error (invalid "frame length exceeds limit")
      else if (bytes.drop 44).length < length + 32 then .ok none
      else
        let rest := (bytes.drop 44).take (length + 32)
        if sha.run (header ++ rest.take length) ≠ rest.drop length then
          .error (invalid "frame checksum mismatch")
        else .ok (some (rest.take length, length + 76, bytes.drop (44 + (length + 32))))

/-! ## Reading records -/

/-- A record that its encoding can represent. -/
structure Record.Storable (r : Record) : Prop where
  nonempty : r.key ≠ []
  key : r.key.length ≤ maxKeyBytes
  value : ∀ v ∈ r.value, v.length ≤ maxValueBytes
  sequence : r.sequence ≤ u64Max

theorem length_encodeRecord (r : Record) : (encodeRecord r).length = r.size := by
  unfold encodeRecord Record.size valueLength
  cases r.value <;> simp <;> omega

/-- The value length in the header of a record. -/
theorem Record.Storable.valueLen {r : Record} (h : r.Storable) :
    r.value.elim u32Max List.length < 256 ^ 4 ∧
      (r.value.elim u32Max List.length = u32Max ↔ r.value = none) := by
  cases hv : r.value with
  | none => exact ⟨by decide, by simp⟩
  | some v =>
    have hle := h.value v hv
    simp only [Option.elim_some, maxValueBytes, u32Max, reduceCtorEq, iff_false] at *
    omega

/-- The value a header of a record announces, taken from the bytes behind the key. -/
def recordValue (valueLen : Nat) (bytes : List UInt8) : Option Value :=
  if valueLen ≠ u32Max then some (bytes.take valueLen) else none

/-- How many bytes of value follow the key. -/
def recordLength (valueLen : Nat) : Nat := if valueLen = u32Max then 0 else valueLen

/-- One round of the loop on a header of three numbers. -/
theorem decodeLoop_header {s k v : List UInt8} (hs : s.length = 8) (hk : k.length = 4)
    (hv : v.length = 4) (count : Nat) (body : List UInt8) :
    decodeLoop (count + 1) (s ++ (k ++ (v ++ body))) =
      if ofLe k = 0 ∨ ofLe k > maxKeyBytes ∨ recordLength (ofLe v) > maxValueBytes ∨
          ofLe k + recordLength (ofLe v) > body.length then
        .error (invalid "record bounds invalid")
      else
        match decodeLoop count (body.drop (ofLe k + recordLength (ofLe v))) with
        | .error e => .error e
        | .ok records => .ok
            (⟨body.take (ofLe k), recordValue (ofLe v) (body.drop (ofLe k)), ofLe s⟩ ::
              records) := by
  have hheader : (s ++ (k ++ (v ++ body))).take 16 = s ++ (k ++ v) := by
    rw [← List.append_assoc k, ← List.append_assoc s]
    exact List.take_left' (by simp [hs, hk, hv])
  have hbody : (s ++ (k ++ (v ++ body))).drop 16 = body := by
    rw [← List.append_assoc k, ← List.append_assoc s]
    exact List.drop_left' (by simp [hs, hk, hv])
  have hlong : ¬ (s ++ (k ++ (v ++ body))).length < 16 := by
    simp only [List.length_append, hs, hk, hv]
    omega
  have hseq : (s ++ (k ++ v)).take 8 = s := List.take_left' hs
  have hkey : ((s ++ (k ++ v)).drop 8).take 4 = k := by
    rw [List.drop_left' hs]
    exact List.take_left' hk
  have hvalue : (s ++ (k ++ v)).drop 12 = v := by
    rw [← List.append_assoc]
    exact List.drop_left' (by simp [hs, hk])
  rw [decodeLoop, if_neg hlong]
  simp only [hheader, hbody, hseq, hkey, hvalue]
  have hval : (if ofLe v ≠ u32Max then
      some ((body.drop (ofLe k)).take (if ofLe v = u32Max then 0 else ofLe v)) else none) =
      recordValue (ofLe v) (body.drop (ofLe k)) := by
    unfold recordValue
    by_cases h : ofLe v = u32Max <;> simp [h]
  rw [hval]
  rfl

/-- A record is read back, whatever follows it. -/
theorem decodeLoop_encode {r : Record} (h : r.Storable) (count : Nat) (rest : List UInt8) :
    decodeLoop (count + 1) (encodeRecord r ++ rest) =
      match decodeLoop count rest with
      | .error e => .error e
      | .ok records => .ok (r :: records) := by
  obtain ⟨hfits, hnone⟩ := h.valueLen
  have hseq : ofLe (le 8 r.sequence) = r.sequence :=
    ofLe_le (h.sequence.trans_lt (by decide))
  have hkey : ofLe (le 4 r.key.length) = r.key.length :=
    ofLe_le (h.key.trans_lt (by decide))
  have hval : ofLe (le 4 (r.value.elim u32Max List.length)) = r.value.elim u32Max List.length :=
    ofLe_le hfits
  have hpos : r.key.length ≠ 0 := fun h0 => h.nonempty (List.length_eq_zero_iff.1 h0)
  have hlen : recordLength (r.value.elim u32Max List.length) = (r.value.getD []).length := by
    unfold recordLength
    cases hv : r.value with
    | none => simp
    | some v =>
      rw [hv] at hnone
      rw [if_neg (by simpa using hnone)]
      rfl
  have hle : (r.value.getD []).length ≤ maxValueBytes := by
    cases hv : r.value with
    | none => exact Nat.zero_le _
    | some v => exact h.value v hv
  have hvalue : recordValue (r.value.elim u32Max List.length) (r.value.getD [] ++ rest) =
      r.value := by
    unfold recordValue
    cases hv : r.value with
    | none => simp
    | some v =>
      rw [hv] at hnone
      rw [if_pos (by simpa using hnone)]
      simp
  have hsplit : encodeRecord r ++ rest = le 8 r.sequence ++ (le 4 r.key.length ++
      (le 4 (r.value.elim u32Max List.length) ++ (r.key ++ (r.value.getD [] ++ rest)))) := by
    simp only [encodeRecord, List.append_assoc]
  have hdrop : (r.key ++ (r.value.getD [] ++ rest)).drop
      (r.key.length + (r.value.getD []).length) = rest := by
    rw [← List.append_assoc]
    exact List.drop_left' (by simp)
  rw [hsplit, decodeLoop_header (length_le ..) (length_le ..) (length_le ..), hseq, hkey, hval,
    hlen, if_neg, hdrop, List.take_left' rfl, List.drop_left' rfl, hvalue]
  have := h.key
  simp only [List.length_append]
  omega

/-- The record a header announces is written to just these bytes. -/
theorem encodeRecord_of_header {s k v body : List UInt8} (hs : s.length = 8) (hk : k.length = 4)
    (hv : v.length = 4)
    (hbounds : ¬ (ofLe k = 0 ∨ ofLe k > maxKeyBytes ∨ recordLength (ofLe v) > maxValueBytes ∨
      ofLe k + recordLength (ofLe v) > body.length)) :
    encodeRecord ⟨body.take (ofLe k), recordValue (ofLe v) (body.drop (ofLe k)), ofLe s⟩ =
        s ++ (k ++ (v ++ body.take (ofLe k + recordLength (ofLe v)))) ∧
      Record.Storable ⟨body.take (ofLe k), recordValue (ofLe v) (body.drop (ofLe k)), ofLe s⟩ := by
  simp only [not_or, not_lt] at hbounds
  obtain ⟨hpos, hmax, hvalue, hfits⟩ := hbounds
  have hkey : (body.take (ofLe k)).length = ofLe k := by
    rw [List.length_take]
    omega
  have hwrite {w : List UInt8} {n : Nat} (hw : w.length = n) : le n (ofLe w) = w := by
    rw [← hw, le_ofLe]
  have hlen : (recordValue (ofLe v) (body.drop (ofLe k))).elim u32Max List.length = ofLe v ∧
      (recordValue (ofLe v) (body.drop (ofLe k))).getD [] =
        (body.drop (ofLe k)).take (recordLength (ofLe v)) := by
    unfold recordValue recordLength at *
    by_cases hmark : ofLe v = u32Max
    · simp [hmark]
    · simp only [hmark, if_false, ne_eq, not_false_eq_true, if_true] at *
      refine ⟨?_, rfl⟩
      rw [Option.elim_some, List.length_take, List.length_drop]
      omega
  constructor
  · simp only [encodeRecord, hkey, hlen, hwrite hs, hwrite hk, hwrite hv, List.append_assoc,
      List.take_add]
  · refine ⟨fun hnil => ?_, by rw [hkey]; exact hmax, fun x hx => ?_, ?_⟩
    · have hnil : body.take (ofLe k) = [] := hnil
      rw [hnil] at hkey
      exact hpos hkey.symm
    · have hx : recordValue (ofLe v) (body.drop (ofLe k)) = some x := hx
      have hx' := hlen.2
      rw [hx, Option.getD_some] at hx'
      rw [hx', List.length_take]
      omega
    · have hlt := ofLe_lt s
      rw [hs] at hlt
      have hmax : (256 : Nat) ^ 8 = u64Max + 1 := by decide
      show ofLe s ≤ u64Max
      omega

/-- What the loop reads was written by `encode_record`. -/
theorem decodeLoop_inv {count : Nat} {bytes : List UInt8} {records : List Record}
    (h : decodeLoop count bytes = .ok records) :
    bytes = records.flatMap encodeRecord ∧ records.length = count ∧
      ∀ r ∈ records, r.Storable := by
  induction count generalizing bytes records with
  | zero =>
    unfold decodeLoop at h
    split at h
    · cases h
    · next hempty =>
        cases h
        exact ⟨not_not.1 hempty, rfl, by simp⟩
  | succ count ih =>
    by_cases hshort : bytes.length < 16
    · rw [decodeLoop, if_pos hshort] at h
      cases h
    · -- the header, cut into its three numbers
      obtain ⟨s, k, v, body, rfl, hs, hk, hv⟩ : ∃ s k v body : List UInt8,
          bytes = s ++ (k ++ (v ++ body)) ∧ s.length = 8 ∧ k.length = 4 ∧ v.length = 4 := by
        refine ⟨bytes.take 8, (bytes.drop 8).take 4, (bytes.drop 12).take 4, bytes.drop 16, ?_,
          ?_, ?_, ?_⟩
        · have h₁ : (bytes.drop 12).take 4 ++ bytes.drop 16 = bytes.drop 12 := by
            conv_rhs => rw [← List.take_append_drop 4 (bytes.drop 12), List.drop_drop]
          have h₂ : (bytes.drop 8).take 4 ++ bytes.drop 12 = bytes.drop 8 := by
            conv_rhs => rw [← List.take_append_drop 4 (bytes.drop 8), List.drop_drop]
          rw [h₁, h₂, List.take_append_drop]
        · rw [List.length_take]
          omega
        · rw [List.length_take, List.length_drop]
          omega
        · rw [List.length_take, List.length_drop]
          omega
      rw [decodeLoop_header hs hk hv] at h
      split at h
      · cases h
      · next hbounds =>
          split at h
          · cases h
          · next rest hrest =>
              cases h
              obtain ⟨hbody, hlen, hall⟩ := ih hrest
              obtain ⟨hencode, hstorable⟩ := encodeRecord_of_header hs hk hv hbounds
              refine ⟨?_, by rw [List.length_cons, hlen], List.forall_mem_cons.2
                ⟨hstorable, hall⟩⟩
              rw [List.flatMap_cons, hencode, ← hbody]
              simp only [List.append_assoc, List.take_append_drop]

theorem decodeLoop_flatMap {records : List Record} (h : ∀ r ∈ records, r.Storable) :
    decodeLoop records.length (records.flatMap encodeRecord) = .ok records := by
  induction records with
  | nil => rfl
  | cons r rest ih =>
    obtain ⟨hr, hrest⟩ := List.forall_mem_cons.1 h
    rw [List.length_cons, List.flatMap_cons, decodeLoop_encode hr, ih hrest]

/-- Records are read from exactly the bytes they are written to. -/
theorem decodeRecords_eq_ok {bytes : List UInt8} {count : Nat} {records : List Record} :
    decodeRecords bytes count = .ok records ↔ bytes = records.flatMap encodeRecord ∧
      records.length = count ∧ count ≤ maxBatchRecords ∧ ∀ r ∈ records, r.Storable := by
  unfold decodeRecords
  constructor
  · intro h
    split at h
    · cases h
    · next hcount =>
        obtain ⟨hbytes, hlen, hall⟩ := decodeLoop_inv h
        exact ⟨hbytes, hlen, not_lt.1 hcount, hall⟩
  · rintro ⟨rfl, rfl, hcount, hall⟩
    rw [if_neg (not_lt.2 hcount), decodeLoop_flatMap hall]

/-! ## Reading batches -/

/-- What `encode_batch` admits. -/
structure Batch.Valid (b : Batch) : Prop where
  range : 0 < b.first ∧ b.first ≤ b.index ∧ b.index - b.first < maxApplyRange
  index : b.index ≤ u64Max
  changes : Admitted b.changes maxBatchRecords maxBatchBytes

/-- The bytes of a batch. -/
def Batch.bytes (b : Batch) : List UInt8 :=
  le 8 b.first ++ le 8 b.index ++ le 4 b.changes.length ++
    b.changes.flatMap fun change => encodeRecord (change.record b.index)

theorem maxBatchBytes_le : maxBatchBytes ≤ u64Max := by decide

theorem encodeBatch_eq_ok {b : Batch} {bytes : List UInt8} (hindex : b.index ≤ u64Max) :
    encodeBatch b.first b.index b.changes = .ok bytes ↔ b.Valid ∧ bytes = b.bytes := by
  unfold encodeBatch
  rw [bind_eq_ok]
  constructor
  · rintro ⟨_, hrange, h⟩
    rw [bind_eq_ok] at h
    obtain ⟨total, hchanges, h⟩ := h
    cases h
    exact ⟨⟨validateRange_eq_ok.1 hrange, hindex,
      ((validateMutations_eq_ok maxBatchBytes_le).1 hchanges).1⟩, rfl⟩
  · rintro ⟨h, rfl⟩
    refine ⟨(), validateRange_eq_ok.2 h.range, ?_⟩
    rw [bind_eq_ok]
    exact ⟨_, (validateMutations_eq_ok maxBatchBytes_le).2 ⟨h.changes, rfl⟩, rfl⟩

theorem asInvalid_eq_ok {α : Type} {x : Except IoError α} {a : α} :
    asInvalid x = .ok a ↔ x = .ok a := by
  cases x <;> simp [asInvalid]

theorem Mutation.Bounded.storable {m : Mutation} (h : m.Bounded) {index : Nat}
    (hindex : index ≤ u64Max) : (m.record index).Storable :=
  ⟨h.nonempty, h.key, h.value, hindex⟩

/-- The records of a batch. -/
def Batch.records (b : Batch) : List Record := b.changes.map fun change => change.record b.index

theorem Batch.bytes_eq (b : Batch) :
    b.bytes = le 8 b.first ++ (le 8 b.index ++ (le 4 b.records.length ++
      b.records.flatMap encodeRecord)) := by
  simp only [Batch.bytes, Batch.records, List.append_assoc, List.length_map, List.flatMap_map]

/-- A header of three numbers and what is behind it. -/
theorem decodeBatch_header {f i c body : List UInt8} (hf : f.length = 8) (hi : i.length = 8)
    (hc : c.length = 4) {b : Batch} :
    decodeBatch (f ++ (i ++ (c ++ body))) = .ok b ↔
      validateRange (ofLe f) (ofLe i) = .ok () ∧ ∃ records,
        decodeRecords body (ofLe c) = .ok records ∧ (∀ r ∈ records, r.sequence = ofLe i) ∧
        (∃ total, validateChanges (records.map fun r => ⟨r.key, r.value⟩) = .ok total) ∧
        b = ⟨ofLe f, ofLe i, records.map fun r => ⟨r.key, r.value⟩⟩ := by
  have hlong : ¬ (f ++ (i ++ (c ++ body))).length < 20 := by
    simp only [List.length_append, hf, hi, hc]
    omega
  have hfirst : (f ++ (i ++ (c ++ body))).take 8 = f := List.take_left' hf
  have hindex : ((f ++ (i ++ (c ++ body))).drop 8).take 8 = i := by
    rw [List.drop_left' hf, List.take_left' hi]
  have hdrop : (f ++ (i ++ (c ++ body))).drop 16 = c ++ body := by
    rw [← List.append_assoc]
    exact List.drop_left' (by simp [hf, hi])
  have hcount : ((f ++ (i ++ (c ++ body))).drop 16).take 4 = c := by
    rw [hdrop, List.take_left' hc]
  have hbody : (f ++ (i ++ (c ++ body))).drop 20 = body := by
    rw [show (20 : Nat) = 16 + 4 from rfl, ← List.drop_drop, hdrop, List.drop_left' hc]
  unfold decodeBatch
  simp only [if_neg hlong, hfirst, hindex, hcount, hbody, bind_eq_ok, asInvalid_eq_ok]
  constructor
  · rintro ⟨_, hrange, records, hrecords, h⟩
    refine ⟨hrange, records, hrecords, ?_⟩
    split at h
    · next hmixed => simp [throw, throwThe, MonadExceptOf.throw, bind, Except.bind] at h
    · next hsame =>
        simp only [bind_eq_ok, asInvalid_eq_ok] at h
        obtain ⟨total, htotal, hb⟩ := h
        cases hb
        refine ⟨fun r hr => ?_, ⟨total, htotal⟩, rfl⟩
        simpa using (List.any_eq_false.1 (Bool.eq_false_iff.2 hsame)) r hr
  · rintro ⟨hrange, records, hrecords, hsame, ⟨total, htotal⟩, rfl⟩
    refine ⟨(), hrange, records, hrecords, ?_⟩
    rw [if_neg (by simpa using hsame)]
    simp only [bind_eq_ok, asInvalid_eq_ok]
    exact ⟨total, htotal, rfl⟩

/-- **A batch is read from exactly the bytes it is written to.** -/
theorem decodeBatch_eq_ok {bytes : List UInt8} {b : Batch} :
    decodeBatch bytes = .ok b ↔ b.Valid ∧ bytes = b.bytes := by
  constructor
  · intro h
    by_cases hshort : bytes.length < 20
    · unfold decodeBatch at h
      rw [if_pos hshort] at h
      cases h
    · obtain ⟨f, i, c, body, rfl, hf, hi, hc⟩ : ∃ f i c body : List UInt8,
          bytes = f ++ (i ++ (c ++ body)) ∧ f.length = 8 ∧ i.length = 8 ∧ c.length = 4 := by
        refine ⟨bytes.take 8, (bytes.drop 8).take 8, (bytes.drop 16).take 4, bytes.drop 20, ?_,
          ?_, ?_, ?_⟩
        · have h₁ : (bytes.drop 16).take 4 ++ bytes.drop 20 = bytes.drop 16 := by
            conv_rhs => rw [← List.take_append_drop 4 (bytes.drop 16), List.drop_drop]
          have h₂ : (bytes.drop 8).take 8 ++ bytes.drop 16 = bytes.drop 8 := by
            conv_rhs => rw [← List.take_append_drop 8 (bytes.drop 8), List.drop_drop]
          rw [h₁, h₂, List.take_append_drop]
        all_goals simp only [List.length_take, List.length_drop]; omega
      obtain ⟨hrange, records, hrecords, hsame, ⟨total, htotal⟩, rfl⟩ :=
        (decodeBatch_header hf hi hc).1 h
      obtain ⟨rfl, hlen, hcount, hstorable⟩ := decodeRecords_eq_ok.1 hrecords
      have hwrite {w : List UInt8} {n : Nat} (hw : w.length = n) : le n (ofLe w) = w := by
        rw [← hw, le_ofLe]
      have hindex : ofLe i ≤ u64Max := by
        have hlt := ofLe_lt i
        have hmax : (256 : Nat) ^ 8 = u64Max + 1 := by decide
        rw [hi, hmax] at hlt
        omega
      refine ⟨⟨validateRange_eq_ok.1 hrange, hindex,
        ((validateMutations_eq_ok maxBatchBytes_le).1 htotal).1⟩, ?_⟩
      have hback : Batch.records ⟨ofLe f, ofLe i, records.map fun r => ⟨r.key, r.value⟩⟩ =
          records := by
        simp only [Batch.records, List.map_map]
        refine (List.map_congr_left fun r hr => ?_).trans (List.map_id records)
        show (⟨r.key, r.value, ofLe i⟩ : Record) = r
        rw [← hsame r hr]
      rw [Batch.bytes_eq, hback, hlen]
      simp only [hwrite hf, hwrite hi, hwrite hc]
  · rintro ⟨hvalid, rfl⟩
    have hcount := hvalid.changes.count
    have hfirst : ofLe (le 8 b.first) = b.first :=
      ofLe_le ((hvalid.range.2.1.trans hvalid.index).trans_lt (by decide))
    have hindex : ofLe (le 8 b.index) = b.index := ofLe_le (hvalid.index.trans_lt (by decide))
    have hlen : b.records.length = b.changes.length := by simp [Batch.records]
    have hnum : ofLe (le 4 b.records.length) = b.records.length :=
      ofLe_le ((hlen.trans_le hcount).trans_lt (by decide))
    have hmutations : (b.records.map fun r => (⟨r.key, r.value⟩ : Mutation)) = b.changes := by
      simp only [Batch.records, List.map_map]
      exact List.map_id b.changes
    rw [Batch.bytes_eq, decodeBatch_header (length_le ..) (length_le ..) (length_le ..), hfirst,
      hindex, hnum]
    refine ⟨validateRange_eq_ok.2 hvalid.range, b.records, decodeRecords_eq_ok.2
      ⟨rfl, rfl, hlen.trans_le hcount, fun r hr => ?_⟩, fun r hr => ?_, ⟨batchBytes b.changes, ?_⟩,
      ?_⟩
    · obtain ⟨m, hm, rfl⟩ := List.mem_map.1 hr
      exact (hvalid.changes.bounded m hm).storable hvalid.index
    · obtain ⟨m, -, rfl⟩ := List.mem_map.1 hr
      rfl
    · rw [hmutations]
      exact (validateMutations_eq_ok maxBatchBytes_le).2 ⟨hvalid.changes, rfl⟩
    · rw [hmutations]

/-! ## Reading frames -/

section Frames

variable {sha : Digest} {magic payload rest : List UInt8}

/-- A frame as it stands in a file. -/
def frameBytes (sha : Digest) (magic payload : List UInt8) : List UInt8 :=
  frameHeader sha magic payload.length ++ payload ++
    sha.run (frameHeader sha magic payload.length ++ payload)

theorem frame_eq_ok (h : payload.length ≤ maxFrame) :
    frame sha magic payload = .ok (frameBytes sha magic payload) := by
  rw [frame, if_neg (not_lt.2 h)]
  rfl

theorem length_frameHeader (hmagic : magic.length = 8) (length : Nat) :
    (frameHeader sha magic length).length = 44 := by
  simp [frameHeader, hmagic, sha.length]

theorem length_frameBytes (hmagic : magic.length = 8) :
    (frameBytes sha magic payload).length = payload.length + 76 := by
  simp only [frameBytes, List.length_append, length_frameHeader hmagic, sha.length]
  omega

/-- What is read where a marker, a length and a digest stand. -/
theorem readFrame_header {m l d tail : List UInt8} (hm : m.length = 8) (hl : l.length = 4)
    (hd : d.length = 32) :
    readFrame sha magic (m ++ (l ++ (d ++ tail))) =
      if m ≠ magic then .error (invalid "frame magic/version mismatch")
      else if sha.run (m ++ l) ≠ d then .error (invalid "frame header checksum mismatch")
      else if ofLe l > maxFrame then .error (invalid "frame length exceeds limit")
      else if tail.length < ofLe l + 32 then .ok none
      else if sha.run (m ++ (l ++ d) ++ tail.take (ofLe l)) ≠ (tail.drop (ofLe l)).take 32 then
        .error (invalid "frame checksum mismatch")
      else .ok (some (tail.take (ofLe l), ofLe l + 76, tail.drop (ofLe l + 32))) := by
  have hlong : ¬ (m ++ (l ++ (d ++ tail))).length < 44 := by
    simp only [List.length_append, hm, hl, hd]
    omega
  have hsplit : m ++ (l ++ (d ++ tail)) = m ++ (l ++ d) ++ tail := by
    simp only [List.append_assoc]
  have hlen : (m ++ (l ++ d)).length = 44 := by simp [hm, hl, hd]
  have hheader : (m ++ (l ++ (d ++ tail))).take 44 = m ++ (l ++ d) := by
    rw [hsplit, List.take_left' hlen]
  have htail : (m ++ (l ++ (d ++ tail))).drop 44 = tail := by
    rw [hsplit, List.drop_left' hlen]
  have hmark : (m ++ (l ++ d)).take 8 = m := List.take_left' hm
  have hfield : (m ++ (l ++ d)).take 12 = m ++ l := by
    rw [← List.append_assoc]
    exact List.take_left' (by simp [hm, hl])
  have hstored : (m ++ (l ++ d)).drop 12 = d := by
    rw [← List.append_assoc]
    exact List.drop_left' (by simp [hm, hl])
  have hlength : ((m ++ (l ++ d)).drop 8).take 4 = l := by
    rw [List.drop_left' hm, List.take_left' hl]
  have hpayload : (tail.take (ofLe l + 32)).take (ofLe l) = tail.take (ofLe l) := by
    rw [List.take_take, min_eq_left (Nat.le_add_right _ _)]
  have hcheck : (tail.take (ofLe l + 32)).drop (ofLe l) = (tail.drop (ofLe l)).take 32 := by
    rw [List.drop_take, Nat.add_sub_cancel_left]
  rw [readFrame, if_neg hlong]
  simp only [hheader, htail, hmark, hfield, hstored, hlength, hpayload, hcheck]
  rw [← List.drop_drop, htail]

/-- A frame is read back, whatever follows it. -/
theorem readFrame_frame (hmagic : magic.length = 8) (hlen : payload.length ≤ maxFrame) :
    readFrame sha magic (frameBytes sha magic payload ++ rest) =
      .ok (some (payload, payload.length + 76, rest)) := by
  have hnum : ofLe (le 4 payload.length) = payload.length :=
    ofLe_le (hlen.trans_lt (by decide))
  have hsplit : frameBytes sha magic payload ++ rest = magic ++ (le 4 payload.length ++
      (sha.run (magic ++ le 4 payload.length) ++ (payload ++
        (sha.run (frameHeader sha magic payload.length ++ payload) ++ rest)))) := by
    simp only [frameBytes, frameHeader, List.append_assoc]
  have hcheck : (sha.run (frameHeader sha magic payload.length ++ payload) ++ rest).take 32 =
      sha.run (frameHeader sha magic payload.length ++ payload) :=
    List.take_left' (sha.length _)
  rw [hsplit, readFrame_header hmagic (length_le ..) (sha.length _), hnum,
    if_neg (not_not.2 rfl), if_neg (not_not.2 rfl), if_neg (not_lt.2 hlen), if_neg,
    List.take_left' rfl, List.drop_left' rfl, hcheck, if_neg, ← List.drop_drop, List.drop_left' rfl,
    List.drop_left' (sha.length _)]
  · rw [not_not]
    simp only [frameHeader, List.append_assoc]
  · simp only [List.length_append, sha.length]
    omega

/-- Of an incomplete frame nothing is read. -/
theorem readFrame_take (hmagic : magic.length = 8) (hlen : payload.length ≤ maxFrame) {cut : Nat}
    (hcut : cut < payload.length + 76) :
    readFrame sha magic ((frameBytes sha magic payload).take cut) = .ok none := by
  by_cases hshort : cut < 44
  · rw [readFrame, if_pos]
    rw [List.length_take]
    omega
  · have hnum : ofLe (le 4 payload.length) = payload.length :=
      ofLe_le (hlen.trans_lt (by decide))
    have hheader : (frameHeader sha magic payload.length).length = 44 :=
      length_frameHeader hmagic _
    have hsplit : (frameBytes sha magic payload).take cut = magic ++ (le 4 payload.length ++
        (sha.run (magic ++ le 4 payload.length) ++ (payload ++
          sha.run (frameHeader sha magic payload.length ++ payload)).take (cut - 44))) := by
      rw [frameBytes, List.append_assoc, List.take_append, hheader,
        List.take_of_length_le (by rw [hheader]; omega)]
      simp only [frameHeader, List.append_assoc]
    rw [hsplit, readFrame_header hmagic (length_le ..) (sha.length _), hnum,
      if_neg (not_not.2 rfl), if_neg (not_not.2 rfl), if_neg (not_lt.2 hlen), if_pos]
    rw [List.length_take, List.length_append, sha.length]
    omega

end Frames

end MicroRaft.Store
