import MicroRaft.Application.Invariant

/-!
# Application snapshots

`export_snapshot` lists a state and `import_snapshot` builds it again, after checks
of every relation between its parts.  The checks are the invariant of reachable
states seen from the lists, so that importing an exported state gives the state back
(`snapshot_roundtrip`).
-/

namespace MicroRaft.Application

open Store (Digest toyDigest)
open Bytes (be ofBe)

variable {sha : Digest} {s : StateMachine} {id index last : Nat} {key nonce : String}
  {value : Option String} {session : Session} {record : KeyRecord}

/-! ## Formats -/

structure SessionKeySnapshot where
  key : String
  sequence : Nat
  digest : List UInt8
  payload : List UInt8
  result : SessionResult
  deriving DecidableEq, Repr

structure SessionSnapshot where
  nonce : String
  sessionId : Nat
  registered : SessionResult
  closed : Option SessionResult
  keys : List SessionKeySnapshot
  deriving DecidableEq, Repr

/-- Lists keep duplicate identities until an import can reject them. -/
structure ApplicationSnapshot where
  schemaVersion : Nat
  lastApplied : Nat
  values : List (String × String)
  sessions : List SessionSnapshot
  retainedKeys : Nat
  retainedPayloadBytes : Nat
  deriving DecidableEq, Repr

/-! ## Export -/

def exportKey (p : String × KeyRecord) : SessionKeySnapshot :=
  ⟨p.1, p.2.sequence, p.2.digest, p.2.payload, p.2.result⟩

def exportSession (nonce : String) (id : Nat) (session : Session) : SessionSnapshot :=
  ⟨nonce, id, session.registered, session.closed, session.keys.toList.map exportKey⟩

/-- A registration with its session. -/
def StateMachine.exportRegistration (s : StateMachine) (p : String × Nat) :
    Option SessionSnapshot :=
  -- `self.sessions[id]`
  (s.sessions[p.2]?).map fun session => exportSession p.1 p.2 session

def StateMachine.exportSnapshot (s : StateMachine) : Option ApplicationSnapshot := do
  let sessions ← s.registrations.toList.mapM s.exportRegistration
  return { schemaVersion := 1
           lastApplied := s.lastApplied
           values := s.values.toList
           sessions
           retainedKeys := s.retainedKeys
           retainedPayloadBytes := s.retainedPayloadBytes }

/-! ## Import -/

def importValues : List (String × String) → BTreeMap String String →
    Except SnapshotError (BTreeMap String String)
  | [], values => .ok values
  | (key, value) :: rest, values => do
      snapshotRequire (validKey key = true) "invalid snapshot value key"
      snapshotRequire (value.utf8ByteSize ≤ maxValueBytes) "snapshot value exceeds byte limit"
      snapshotRequire (values[key]? = none) "duplicate snapshot value key"
      importValues rest (values.insert key value)

/-- What the loop over the keys of a session changes. -/
structure KeyImport where
  indices : BTreeSet Nat
  retainedKeys : Nat
  retainedPayloadBytes : Nat
  keys : BTreeMap String KeyRecord

def importKey (sha : Digest) (lastApplied id : Nat) (closeIndex : Option Nat)
    (record : SessionKeySnapshot) (state : KeyImport) : Except SnapshotError KeyImport := do
  snapshotRequire (validKey record.key = true) "invalid snapshot retry key"
  snapshotRequire (record.sequence > 0) "snapshot retry sequence is zero"
  let value ← decodePayload record.key record.payload
  snapshotRequire (canonicalPayload record.key value = record.payload)
    "snapshot retry payload is not canonical"
  snapshotRequire (sha.run record.payload = record.digest) "snapshot payload digest mismatch"
  match record.result.index with
  | none => .error ⟨"retry result has no index"⟩
  | some index => do
      snapshotRequire (index > id ∧ index ≤ lastApplied ∧ record.sequence ≤ index - id ∧
          (∀ closed ∈ closeIndex, index < closed) ∧
          record.result = .success id (some record.sequence) index)
        "retry result is inconsistent with its sequence or applied index"
      snapshotRequire (index ∉ state.indices) "duplicate snapshot operation index"
      match checkedAdd state.retainedPayloadBytes record.payload.length with
      | none => .error ⟨"snapshot payload byte counter overflow"⟩
      | some retainedPayloadBytes => do
          snapshotRequire (state.retainedKeys + 1 ≤ maxSessionKeys ∧
              retainedPayloadBytes ≤ maxRetainedPayloadBytes)
            "snapshot retained retry state exceeds capacity"
          snapshotRequire (state.keys[record.key]? = none) "duplicate snapshot session key"
          return { indices := state.indices.insert index
                   retainedKeys := state.retainedKeys + 1
                   retainedPayloadBytes
                   keys := state.keys.insert record.key
                     ⟨record.sequence, record.digest, record.payload, record.result⟩ }

def importKeys (sha : Digest) (lastApplied id : Nat) (closeIndex : Option Nat) :
    List SessionKeySnapshot → KeyImport → Except SnapshotError KeyImport
  | [], state => .ok state
  | record :: rest, state => do
      let state ← importKey sha lastApplied id closeIndex record state
      importKeys sha lastApplied id closeIndex rest state

/-- The index of a close, and the operations with it. -/
def importClose (lastApplied id : Nat) (indices : BTreeSet Nat) :
    Option SessionResult → Except SnapshotError (Option Nat × BTreeSet Nat)
  | none => .ok (none, indices)
  | some closed =>
      match closed.index with
      | none => .error ⟨"closed result has no index"⟩
      | some index => do
          snapshotRequire (index > id ∧ index ≤ lastApplied ∧ closed = .success id none index)
            "invalid closed-session result"
          snapshotRequire (index ∉ indices) "duplicate snapshot operation index"
          return (some index, indices.insert index)

/-- The state that an import builds, and the operations it has seen. -/
structure Import where
  state : StateMachine
  indices : BTreeSet Nat

def importSession (sha : Digest) (saved : SessionSnapshot) (i : Import) :
    Except SnapshotError Import := do
  snapshotRequire (validNonce saved.nonce = true) "invalid snapshot registration nonce"
  snapshotRequire (saved.sessionId > 0 ∧ saved.sessionId ≤ i.state.lastApplied)
    "invalid snapshot session identity"
  snapshotRequire (saved.registered = .success saved.sessionId none saved.sessionId)
    "registration result does not match its identity"
  snapshotRequire (saved.sessionId ∉ i.indices) "duplicate snapshot operation index"
  snapshotRequire (saved.keys.length ≤ maxKeysPerSession)
    "snapshot exceeds per-session key capacity"
  let (closeIndex, indices) ←
    importClose i.state.lastApplied saved.sessionId (i.indices.insert saved.sessionId) saved.closed
  let imported ← importKeys sha i.state.lastApplied saved.sessionId closeIndex saved.keys
    ⟨indices, i.state.retainedKeys, i.state.retainedPayloadBytes, ∅⟩
  snapshotRequire (i.state.registrations[saved.nonce]? = none)
    "duplicate snapshot registration nonce"
  snapshotRequire (i.state.sessions[saved.sessionId]?.isNone = true)
    "duplicate snapshot session identity"
  return { state := { i.state with
             registrations := i.state.registrations.insert saved.nonce saved.sessionId
             sessions := i.state.sessions.insert saved.sessionId
               ⟨saved.registered, saved.closed, imported.keys⟩
             retainedKeys := imported.retainedKeys
             retainedPayloadBytes := imported.retainedPayloadBytes }
           indices := imported.indices }

def importSessions (sha : Digest) : List SessionSnapshot → Import → Except SnapshotError Import
  | [], i => .ok i
  | saved :: rest, i => do
      let i ← importSession sha saved i
      importSessions sha rest i

def importSnapshot (sha : Digest) (snapshot : ApplicationSnapshot) (expectedLastApplied : Nat) :
    Except SnapshotError StateMachine := do
  snapshotRequire (snapshot.schemaVersion = 1) "unsupported application snapshot version"
  snapshotRequire (snapshot.lastApplied = expectedLastApplied)
    "application/Raft snapshot index mismatch"
  snapshotRequire (snapshot.sessions.length ≤ maxSessions)
    "snapshot exceeds retained session capacity"
  snapshotRequire (snapshot.retainedKeys ≤ maxSessionKeys) "snapshot key counter exceeds capacity"
  snapshotRequire (snapshot.retainedPayloadBytes ≤ maxRetainedPayloadBytes)
    "snapshot payload counter exceeds capacity"
  snapshotRequire (snapshot.lastApplied > 0 ∨ (snapshot.values = [] ∧ snapshot.sessions = []))
    "zero-index snapshot contains application state"
  let values ← importValues snapshot.values ∅
  let imported ← importSessions sha snapshot.sessions
    ⟨{ StateMachine.initial with lastApplied := snapshot.lastApplied, values := values }, ∅⟩
  snapshotRequire (imported.state.retainedKeys = snapshot.retainedKeys)
    "snapshot retained-key counter mismatch"
  snapshotRequire (imported.state.retainedPayloadBytes = snapshot.retainedPayloadBytes)
    "snapshot retained-payload byte counter mismatch"
  return imported.state

/-! ## Payloads are read back -/

theorem fromUtf8_utf8 (s : String) : fromUtf8 (utf8 s) = some s := by
  have hvalid : (ByteArray.mk ⟨s.toUTF8.data.toList⟩).IsValidUTF8 := s.isValidUTF8
  rw [fromUtf8, utf8, String.fromUTF8?, dif_pos hvalid]
  rfl

theorem length_utf8 (s : String) : (utf8 s).length = s.utf8ByteSize := by
  rw [utf8, Array.length_toList]
  rfl

/-- A field is read in front of every tail. -/
theorem field_lengthPrefixed {maximum : Nat} {s : String} (h : s.utf8ByteSize ≤ maximum)
    (hmax : maximum < 256 ^ 8) (tail : List UInt8) :
    field maximum (lengthPrefixed s ++ tail) = .ok (utf8 s, tail) := by
  have hsize : (be 8 s.utf8ByteSize).length = 8 := Bytes.length_be _ _
  have hof : ofBe (be 8 s.utf8ByteSize) = s.utf8ByteSize := Bytes.ofBe_be (by omega)
  have htake : (lengthPrefixed s ++ tail).take 8 = be 8 s.utf8ByteSize := by
    rw [lengthPrefixed, List.append_assoc, List.take_left' hsize]
  have hdrop : (lengthPrefixed s ++ tail).drop 8 = utf8 s ++ tail := by
    rw [lengthPrefixed, List.append_assoc, List.drop_left' hsize]
  have hlength : ¬ (lengthPrefixed s ++ tail).length < 8 := by
    rw [lengthPrefixed, List.length_append, List.length_append, hsize]
    omega
  rw [field, htake, hdrop, hof, if_neg hlength, if_neg (by omega), if_neg,
    List.take_left' (length_utf8 s), List.drop_left' (length_utf8 s)]
  rw [List.length_append, length_utf8]
  omega

theorem decodeValue_canonical (hvalue : ∀ v ∈ value, v.utf8ByteSize ≤ maxValueBytes) :
    decodeValue (if value.isSome then 1 else 0) (value.elim [] lengthPrefixed) =
      .ok (value, []) := by
  cases value with
  | none => rfl
  | some v =>
    have hfield := field_lengthPrefixed (hvalue v rfl) (by decide) []
    rw [List.append_nil] at hfield
    have hbytes : decodeValue 1 (lengthPrefixed v) = .ok (some v, []) := by
      rw [decodeValue, if_neg (by decide), if_pos rfl, hfield]
      simp only [bind, Except.bind, fromUtf8_utf8]
    exact hbytes

theorem decodePayload_canonical (hkey : validKey key = true)
    (hvalue : ∀ v ∈ value, v.utf8ByteSize ≤ maxValueBytes) :
    decodePayload key (canonicalPayload key value) = .ok value := by
  have hsize : key.utf8ByteSize ≤ maxKeyBytes := by
    simp only [validKey, Bool.not_eq_true', Bool.or_eq_false_iff, decide_eq_false_iff_not] at hkey
    omega
  have hsplit : canonicalPayload key value = payloadMagic ++ ((if value.isSome then 1 else 0) ::
      (lengthPrefixed key ++ value.elim [] lengthPrefixed)) := by
    simp [canonicalPayload]
  rw [decodePayload, hsplit, List.take_left' rfl, List.drop_left' rfl, if_neg (fun h => h rfl)]
  simp only [field_lengthPrefixed hsize (by decide), bind, Except.bind, snapshotRequire,
    decodeValue_canonical hvalue, pure, Except.pure, if_true]

/-! ## Importing what was exported -/

theorem snapshotRequire_pos {condition : Prop} [Decidable condition] {message : String}
    (h : condition) : snapshotRequire condition message = .ok () := if_pos h

/-- The values of a list without repeated keys. -/
theorem importValues_eq {l : List (String × String)} (values : BTreeMap String String)
    (hvalid : ∀ p ∈ l, validKey p.1 = true ∧ p.2.utf8ByteSize ≤ maxValueBytes)
    (hnodup : (l.map Prod.fst).Nodup) (hnew : ∀ p ∈ l, values[p.1]? = none) :
    importValues l values = .ok (l.foldl (fun m p => m.insert p.1 p.2) values) := by
  induction l generalizing values with
  | nil => rfl
  | cons p rest ih =>
    obtain ⟨hp, hrest⟩ := List.forall_mem_cons.1 hvalid
    obtain ⟨hpnew, hrestNew⟩ := List.forall_mem_cons.1 hnew
    obtain ⟨hnotin, hnodup⟩ := List.nodup_cons.1 hnodup
    rw [List.foldl_cons, importValues, snapshotRequire_pos hp.1, snapshotRequire_pos hp.2,
      snapshotRequire_pos hpnew]
    refine ih _ hrest hnodup fun q hq => ?_
    have hne : q.1 ≠ p.1 := fun heq => hnotin (heq ▸ List.mem_map_of_mem hq)
    rw [Table.getElem?_insert, if_neg hne]
    exact hrestNew q hq

/-- What the import of one more key of a session does. -/
def KeyImport.add (state : KeyImport) (p : String × KeyRecord) (index : Nat) : KeyImport where
  indices := state.indices.insert index
  retainedKeys := state.retainedKeys + 1
  retainedPayloadBytes := state.retainedPayloadBytes + p.2.payload.length
  keys := state.keys.insert p.1 p.2

theorem importKey_eq {closed : Option SessionResult} {state : KeyImport}
    (hvalid : record.Valid sha id last closed key) (hindex : record.result.index = some index)
    (hfresh : index ∉ state.indices) (hnew : state.keys[key]? = none)
    (hcount : state.retainedKeys + 1 ≤ maxSessionKeys)
    (hbytes : state.retainedPayloadBytes + record.payload.length ≤ maxRetainedPayloadBytes) :
    importKey sha last id (closed.bind SessionResult.index) (exportKey (key, record)) state =
      .ok (state.add (key, record) index) := by
  obtain ⟨value, hvalue, hpayload⟩ := hvalid.payload
  obtain ⟨i, hresult, hlt, hle, hsequence, hclosed⟩ := hvalid.result
  have hi : i = index := by
    rw [hresult] at hindex
    exact Option.some.inj hindex
  subst hi
  have hdecode : decodePayload key record.payload = .ok value := by
    rw [hpayload]
    exact decodePayload_canonical hvalid.valid hvalue
  have hadd : checkedAdd state.retainedPayloadBytes record.payload.length =
      some (state.retainedPayloadBytes + record.payload.length) :=
    if_pos (hbytes.trans (by decide))
  have hbefore : ∀ c ∈ closed.bind SessionResult.index, i < c := by
    intro c hc
    obtain ⟨result, hresult, hc⟩ := Option.bind_eq_some_iff.1 hc
    exact hclosed result hresult c hc
  have hsome : record.result.index = some i := by rw [hresult]; rfl
  rw [importKey, exportKey]
  simp only [snapshotRequire_pos hvalid.valid, snapshotRequire_pos hvalid.positive, hdecode,
    snapshotRequire_pos hpayload.symm, snapshotRequire_pos hvalid.digest.symm, hsome, bind,
    Except.bind]
  rw [snapshotRequire_pos ⟨hlt, hle, hsequence, hbefore, hresult⟩, snapshotRequire_pos hfresh, hadd]
  simp only [snapshotRequire_pos hnew]
  rw [snapshotRequire_pos ⟨hcount, hbytes⟩]
  rfl

/-- The import of the keys of a session adds them all, when neither a key nor the index of an
operation occurs twice and everything fits. -/
theorem importKeys_spec {closed : Option SessionResult} {l : List (String × KeyRecord)}
    (state : KeyImport) (hvalid : ∀ p ∈ l, p.2.Valid sha id last closed p.1)
    (hnodup : (l.map Prod.fst).Nodup) (hnew : ∀ p ∈ l, state.keys[p.1]? = none)
    (hdistinct : l.Pairwise fun p q => ∀ i, p.2.result.index = some i → q.2.result.index ≠ some i)
    (hfresh : ∀ p ∈ l, ∀ i, p.2.result.index = some i → i ∉ state.indices)
    (hcount : state.retainedKeys + l.length ≤ maxSessionKeys)
    (hbytes : state.retainedPayloadBytes + (l.map fun p => p.2.payload.length).sum ≤
      maxRetainedPayloadBytes) :
    ∃ indices, importKeys sha last id (closed.bind SessionResult.index) (l.map exportKey) state =
        .ok ⟨indices, state.retainedKeys + l.length,
          state.retainedPayloadBytes + (l.map fun p => p.2.payload.length).sum,
          l.foldl (fun m p => m.insert p.1 p.2) state.keys⟩ ∧
      ∀ i, i ∈ indices ↔ i ∈ state.indices ∨ ∃ p ∈ l, p.2.result.index = some i := by
  induction l generalizing state with
  | nil => exact ⟨state.indices, rfl, by simp⟩
  | cons p rest ih =>
    obtain ⟨hp, hrest⟩ := List.forall_mem_cons.1 hvalid
    obtain ⟨hpnew, hrestNew⟩ := List.forall_mem_cons.1 hnew
    obtain ⟨hnotin, hnodup⟩ := List.nodup_cons.1 hnodup
    obtain ⟨hpfresh, hrestFresh⟩ := List.forall_mem_cons.1 hfresh
    obtain ⟨hpdistinct, hdistinct⟩ := List.pairwise_cons.1 hdistinct
    rw [List.length_cons] at hcount
    rw [List.map_cons, List.sum_cons] at hbytes
    obtain ⟨index, hindex⟩ : ∃ index, p.2.result.index = some index := by
      obtain ⟨index, hresult, -⟩ := hp.result
      exact ⟨index, by rw [hresult]; rfl⟩
    have hone : importKey sha last id (closed.bind SessionResult.index) (exportKey p) state =
        .ok (state.add p index) :=
      importKey_eq hp hindex (hpfresh index hindex) hpnew (by omega) (by omega)
    have hnext : ∀ q ∈ rest, (state.add p index).keys[q.1]? = none := by
      intro q hq
      have hne : q.1 ≠ p.1 := fun heq => hnotin (heq ▸ List.mem_map_of_mem hq)
      rw [KeyImport.add, Table.getElem?_insert, if_neg hne]
      exact hrestNew q hq
    have hapart : ∀ q ∈ rest, ∀ i, q.2.result.index = some i →
        i ∉ (state.add p index).indices := by
      intro q hq i hi hin
      rw [KeyImport.add, Std.ExtTreeSet.mem_insert, Std.compare_eq_iff_eq] at hin
      rcases hin with rfl | hin
      · exact hpdistinct q hq _ hindex hi
      · exact hrestFresh q hq i hi hin
    obtain ⟨indices, himport, hmem⟩ := ih (state.add p index) hrest hnodup hnext hdistinct hapart
      (by simp only [KeyImport.add]; omega) (by simp only [KeyImport.add]; omega)
    refine ⟨indices, ?_, fun i => ?_⟩
    · rw [List.map_cons, importKeys, hone]
      refine himport.trans ?_
      simp only [KeyImport.add, List.map_cons, List.sum_cons, List.length_cons,
        List.foldl_cons, Nat.add_assoc, Nat.add_comm 1]
    · rw [hmem, KeyImport.add, Std.ExtTreeSet.mem_insert, Std.compare_eq_iff_eq]
      simp only [List.mem_cons, exists_eq_or_imp, hindex, Option.some.injEq]
      tauto

theorem importClose_spec (hvalid : session.Valid sha id last) (indices : BTreeSet Nat)
    (hfresh : ∀ x, session.operation .closed = some x → x ∉ indices) :
    ∃ indices', importClose last id indices session.closed =
        .ok (session.closed.bind SessionResult.index, indices') ∧
      ∀ x, x ∈ indices' ↔ x ∈ indices ∨ session.operation .closed = some x := by
  rw [Session.operation] at hfresh ⊢
  cases hclosed : session.closed with
  | none => exact ⟨indices, rfl, by simp⟩
  | some closed =>
    obtain ⟨index, rfl, hlt, hle⟩ := hvalid.closed closed hclosed
    have hnew : index ∉ indices := hfresh index (by rw [hclosed]; rfl)
    refine ⟨indices.insert index, ?_, fun x => ?_⟩
    · rw [importClose, SessionResult.success]
      simp only []
      rw [snapshotRequire_pos ⟨hlt, hle, rfl⟩, snapshotRequire_pos hnew]
      rfl
    · rw [Std.ExtTreeSet.mem_insert, Std.compare_eq_iff_eq, or_comm]
      simp [SessionResult.success]

/-- The operations of a session are its registration, its close and its keys. -/
theorem Session.operation_iff (hvalid : session.Valid sha id last) (x : Nat) :
    (∃ slot, session.operation slot = some x) ↔ id = x ∨ session.operation .closed = some x ∨
      ∃ p ∈ session.keys.toList, p.2.result.index = some x := by
  constructor
  · rintro ⟨slot, hop⟩
    cases slot with
    | registered =>
      rw [Session.operation, hvalid.registered] at hop
      exact .inl (Option.some.inj hop)
    | closed => exact .inr (.inl hop)
    | key key =>
      obtain ⟨record, hrecord, hop⟩ := Option.bind_eq_some_iff.1 hop
      exact .inr (.inr ⟨(key, record), Table.mem_toList.2 hrecord, hop⟩)
  · rintro (rfl | hop | ⟨p, hp, hop⟩)
    · exact ⟨.registered, by rw [Session.operation, hvalid.registered]; rfl⟩
    · exact ⟨.closed, hop⟩
    · exact ⟨.key p.1, by rw [Session.operation, Table.mem_toList.1 hp]; exact hop⟩

/-- What the import of one more session does. -/
def Import.add (i : Import) (nonce : String) (id : Nat) (session : Session)
    (indices : BTreeSet Nat) : Import where
  state := { i.state with
    registrations := i.state.registrations.insert nonce id
    sessions := i.state.sessions.insert id session
    retainedKeys := i.state.retainedKeys + session.keys.size
    retainedPayloadBytes := i.state.retainedPayloadBytes + session.payloadBytes }
  indices := indices

/-- No two operations of a session share an index. -/
def Session.Distinct (session : Session) : Prop :=
  ∀ slot slot' x, session.operation slot = some x → session.operation slot' = some x → slot = slot'

/-- A session in a list: its nonce, its identity, and its keys in any order. -/
structure Named where
  nonce : String
  id : Nat
  session : Session
  keys : List (String × KeyRecord)

def Named.snapshot (t : Named) : SessionSnapshot :=
  ⟨t.nonce, t.id, t.session.registered, t.session.closed, t.keys.map exportKey⟩

theorem importSession_spec (i : Import) {t : Named} (hkeys : t.keys.Perm t.session.keys.toList)
    (hnonce : validNonce t.nonce = true) (hvalid : t.session.Valid sha t.id i.state.lastApplied)
    (hdistinct : t.session.Distinct)
    (hfresh : ∀ slot x, t.session.operation slot = some x → x ∉ i.indices)
    (hregistered : i.state.registrations[t.nonce]? = none) (hnew : i.state.sessions[t.id]? = none)
    (hcount : i.state.retainedKeys + t.session.keys.size ≤ maxSessionKeys)
    (hbytes : i.state.retainedPayloadBytes + t.session.payloadBytes ≤ maxRetainedPayloadBytes) :
    ∃ indices, importSession sha t.snapshot i = .ok (i.add t.nonce t.id t.session indices) ∧
      ∀ x, x ∈ indices ↔ x ∈ i.indices ∨ ∃ slot, t.session.operation slot = some x := by
  obtain ⟨nonce, id, session, keys⟩ := t
  dsimp only at *
  have hid : session.operation .registered = some id := by
    rw [Session.operation, hvalid.registered]
    rfl
  have hmem : ∀ p, p ∈ keys ↔ session.keys[p.1]? = some p.2 := by
    intro p
    rw [hkeys.mem_iff, Table.mem_toList]
  have hnodup : (keys.map Prod.fst).Nodup :=
    (hkeys.map Prod.fst).nodup_iff.2 (Table.nodup_keys session.keys)
  have hkey : ∀ p ∈ keys, ∀ x, p.2.result.index = some x →
      session.operation (.key p.1) = some x := by
    intro p hp x hx
    rw [Session.operation, (hmem p).1 hp]
    exact hx
  have hlength : keys.length = session.keys.size := by
    rw [hkeys.length_eq, Std.ExtTreeMap.length_toList]
  have hsum : (keys.map fun p => p.2.payload.length).sum = session.payloadBytes :=
    (hkeys.map fun p => p.2.payload.length).sum_eq
  obtain ⟨closed, hclose, hclosed⟩ := importClose_spec hvalid (i.indices.insert id) (by
    intro x hx hin
    rw [Std.ExtTreeSet.mem_insert, Std.compare_eq_iff_eq] at hin
    rcases hin with rfl | hin
    · cases hdistinct _ _ _ hid hx
    · exact hfresh _ x hx hin)
  have hapart : keys.Pairwise fun p q =>
      ∀ x, p.2.result.index = some x → q.2.result.index ≠ some x := by
    refine (List.pairwise_map.1 hnodup).imp_of_mem ?_
    intro p q hp hq hne x hx hx'
    have heq := hdistinct _ _ x (hkey p hp x hx) (hkey q hq x hx')
    exact hne (Slot.key.inj heq)
  have hnewKeys : ∀ p ∈ keys, ∀ x, p.2.result.index = some x → x ∉ closed := by
    intro p hp x hx hin
    rw [hclosed, Std.ExtTreeSet.mem_insert, Std.compare_eq_iff_eq] at hin
    rcases hin with (rfl | hin) | hin
    · cases hdistinct _ _ _ hid (hkey p hp _ hx)
    · exact hfresh _ x (hkey p hp x hx) hin
    · cases hdistinct _ _ _ hin (hkey p hp x hx)
  obtain ⟨indices, himport, hindices⟩ := importKeys_spec
    ⟨closed, i.state.retainedKeys, i.state.retainedPayloadBytes, ∅⟩
    (fun p hp => hvalid.keys p.1 p.2 ((hmem p).1 hp)) hnodup
    (fun p _ => Std.ExtTreeMap.getElem?_empty) hapart hnewKeys
    (by simpa only [hlength] using hcount) (by simpa only [hsum] using hbytes)
  refine ⟨indices, ?_, fun x => ?_⟩
  · have hmany : (keys.map exportKey).length ≤ maxKeysPerSession := by
      rw [List.length_map, hlength]
      exact hvalid.count
    have hback : keys.foldl (fun m p => m.insert p.1 p.2) ∅ = session.keys :=
      Table.foldl_insert_eq hnodup hmem
    have hnone : i.state.sessions[id]?.isNone = true := by rw [hnew]; rfl
    rw [importSession, Named.snapshot]
    dsimp only
    rw [snapshotRequire_pos hnonce, snapshotRequire_pos ⟨hvalid.positive, hvalid.applied⟩,
      snapshotRequire_pos hvalid.registered, snapshotRequire_pos (hfresh _ _ hid),
      snapshotRequire_pos hmany, snapshotRequire_pos hregistered, snapshotRequire_pos hnone, hclose]
    simp only [himport, bind, Except.bind, hback, hlength, hsum]
    rfl
  · rw [hindices, hclosed, Std.ExtTreeSet.mem_insert, Std.compare_eq_iff_eq,
      Session.operation_iff hvalid]
    simp only [hmem, Table.mem_toList]
    tauto

/-- The import of a list of sessions adds them all, when no nonce, identity or index of an
operation occurs twice and everything fits. -/
theorem importSessions_spec {l : List Named} (i : Import)
    (hkeys : ∀ t ∈ l, t.keys.Perm t.session.keys.toList)
    (hvalid : ∀ t ∈ l, validNonce t.nonce = true ∧
      t.session.Valid sha t.id i.state.lastApplied ∧ t.session.Distinct)
    (hnonces : (l.map Named.nonce).Nodup) (hids : (l.map Named.id).Nodup)
    (hdistinct : l.Pairwise fun t u => ∀ slot slot' x, t.session.operation slot = some x →
      u.session.operation slot' ≠ some x)
    (hregistered : ∀ t ∈ l, i.state.registrations[t.nonce]? = none)
    (hnew : ∀ t ∈ l, i.state.sessions[t.id]? = none)
    (hfresh : ∀ t ∈ l, ∀ slot x, t.session.operation slot = some x → x ∉ i.indices)
    (hcount : i.state.retainedKeys + (l.map fun t => t.session.keys.size).sum ≤ maxSessionKeys)
    (hbytes : i.state.retainedPayloadBytes + (l.map fun t => t.session.payloadBytes).sum ≤
      maxRetainedPayloadBytes) :
    ∃ indices, importSessions sha (l.map Named.snapshot) i =
      .ok ⟨{ i.state with
        registrations := l.foldl (fun m t => m.insert t.nonce t.id) i.state.registrations
        sessions := l.foldl (fun m t => m.insert t.id t.session) i.state.sessions
        retainedKeys := i.state.retainedKeys + (l.map fun t => t.session.keys.size).sum
        retainedPayloadBytes :=
          i.state.retainedPayloadBytes + (l.map fun t => t.session.payloadBytes).sum },
        indices⟩ := by
  induction l generalizing i with
  | nil => exact ⟨i.indices, rfl⟩
  | cons t rest ih =>
    obtain ⟨htkeys, hkeys⟩ := List.forall_mem_cons.1 hkeys
    obtain ⟨⟨hnonce, hsession, hown⟩, hrest⟩ := List.forall_mem_cons.1 hvalid
    obtain ⟨hnonceNew, hnonces⟩ := List.nodup_cons.1 hnonces
    obtain ⟨hidNew, hids⟩ := List.nodup_cons.1 hids
    obtain ⟨hapart, hdistinct⟩ := List.pairwise_cons.1 hdistinct
    obtain ⟨htregistered, hregistered⟩ := List.forall_mem_cons.1 hregistered
    obtain ⟨htnew, hnew⟩ := List.forall_mem_cons.1 hnew
    obtain ⟨htfresh, hfresh⟩ := List.forall_mem_cons.1 hfresh
    rw [List.map_cons, List.sum_cons] at hcount hbytes
    obtain ⟨indices, hone, hindices⟩ := importSession_spec i htkeys hnonce hsession hown htfresh
      htregistered htnew (by omega) (by omega)
    have hregistered' : ∀ u ∈ rest,
        (i.add t.nonce t.id t.session indices).state.registrations[u.nonce]? = none := by
      intro u hu
      have hne : u.nonce ≠ t.nonce := fun heq => hnonceNew (List.mem_map.2 ⟨u, hu, heq⟩)
      rw [Import.add, Table.getElem?_insert, if_neg hne]
      exact hregistered u hu
    have hnew' : ∀ u ∈ rest,
        (i.add t.nonce t.id t.session indices).state.sessions[u.id]? = none := by
      intro u hu
      have hne : u.id ≠ t.id := fun heq => hidNew (List.mem_map.2 ⟨u, hu, heq⟩)
      rw [Import.add, Table.getElem?_insert, if_neg hne]
      exact hnew u hu
    have hfresh' : ∀ u ∈ rest, ∀ slot x, u.session.operation slot = some x →
        x ∉ (i.add t.nonce t.id t.session indices).indices := by
      intro u hu slot x hop hin
      rcases (hindices x).1 hin with hin | ⟨slot', hop'⟩
      · exact hfresh u hu slot x hop hin
      · exact hapart u hu slot' slot x hop' hop
    obtain ⟨indices', himport⟩ := ih (i.add t.nonce t.id t.session indices) hkeys hrest hnonces
      hids hdistinct hregistered' hnew' hfresh' (by simp only [Import.add]; omega)
      (by simp only [Import.add]; omega)
    refine ⟨indices', ?_⟩
    rw [List.map_cons, importSessions, hone]
    refine himport.trans ?_
    simp only [Import.add, List.map_cons, List.sum_cons, List.foldl_cons, Nat.add_assoc]

namespace StateMachine

/-- A list of the sessions of a state, in any order. -/
structure Lists (s : StateMachine) (roster : List Named) : Prop where
  nonces : (roster.map Named.nonce).Nodup
  registered : ∀ nonce id, (∃ t ∈ roster, t.nonce = nonce ∧ t.id = id) ↔
    s.registrations[nonce]? = some id
  found : ∀ t ∈ roster, s.sessions[t.id]? = some t.session
  keys : ∀ t ∈ roster, t.keys.Perm t.session.keys.toList

section Roster

variable {roster : List Named} (h : s.Valid sha) (hlists : s.Lists roster)

include h hlists

theorem Valid.nodup_ids : (roster.map Named.id).Nodup := by
  refine List.pairwise_map.2 ((List.pairwise_map.1 hlists.nonces).imp_of_mem ?_)
  intro t u ht hu hne heq
  have hfirst := (hlists.registered t.nonce t.id).1 ⟨t, ht, rfl, rfl⟩
  have hsecond := (hlists.registered u.nonce t.id).1 ⟨u, hu, rfl, heq.symm⟩
  exact hne (h.injective _ _ _ hfirst hsecond)

/-- A list of the registrations lists all sessions once. -/
theorem Valid.mem_roster (id : Nat) (session : Session) :
    (id, session) ∈ roster.map (fun t => (t.id, t.session)) ↔ s.sessions[id]? = some session := by
  constructor
  · intro hin
    obtain ⟨t, ht, heq⟩ := List.mem_map.1 hin
    cases heq
    exact hlists.found t ht
  · intro hsession
    obtain ⟨nonce, hnonce⟩ := h.named id session hsession
    obtain ⟨t, ht, -, rfl⟩ := (hlists.registered nonce id).2 hnonce
    have hfound := hlists.found t ht
    rw [hsession] at hfound
    cases hfound
    exact List.mem_map.2 ⟨t, ht, rfl⟩

theorem Valid.roster_perm : (roster.map fun t => (t.id, t.session)).Perm s.sessions.toList := by
  have hnodup : (roster.map fun t => (t.id, t.session)).Nodup := by
    refine List.Nodup.of_map Prod.fst ?_
    rw [List.map_map]
    exact h.nodup_ids hlists
  refine (List.perm_ext_iff_of_nodup hnodup (Table.nodup_toList _)).2 fun p => ?_
  rw [h.mem_roster hlists, Table.mem_toList]

/-- The sum of a weight over the listed sessions is the sum over the table. -/
theorem Valid.sum_roster (weight : Session → Nat) :
    (roster.map fun t => weight t.session).sum =
      Table.total (fun _ session => weight session) s.sessions := by
  have hsum := ((h.roster_perm hlists).map fun p => weight p.2).sum_eq
  rwa [List.map_map] at hsum

/-- The operations of the listed sessions are distinct. -/
theorem Valid.distinct_roster :
    (∀ t ∈ roster, t.session.Distinct) ∧
      roster.Pairwise fun t u => ∀ slot slot' x, t.session.operation slot = some x →
        u.session.operation slot' ≠ some x := by
  have hop : ∀ t ∈ roster, ∀ slot x, t.session.operation slot = some x →
      s.operation t.id slot = some x := by
    intro t ht slot x hx
    rw [operation, hlists.found t ht]
    exact hx
  refine ⟨fun t ht slot slot' x hx hx' => ?_, ?_⟩
  · exact (h.distinct _ _ _ _ x (hop t ht slot x hx) (hop t ht slot' x hx')).2
  · refine (List.pairwise_map.1 (h.nodup_ids hlists)).imp_of_mem ?_
    intro t u ht hu hne slot slot' x hx hx'
    exact hne (h.distinct _ _ _ _ x (hop t ht slot x hx) (hop u hu slot' x hx')).1

theorem Valid.importSessions_roster :
    ∃ indices, importSessions sha (roster.map Named.snapshot)
      ⟨{ initial with lastApplied := s.lastApplied, values := s.values }, ∅⟩ =
        .ok ⟨s, indices⟩ := by
  obtain ⟨hown, hapart⟩ := h.distinct_roster hlists
  have hids := h.nodup_ids hlists
  have hcount := h.sum_roster hlists fun session => session.keys.size
  have hbytes := h.sum_roster hlists Session.payloadBytes
  rw [← h.retainedKeys] at hcount
  rw [← h.retainedPayloadBytes] at hbytes
  have hnamed : ∀ t ∈ roster, validNonce t.nonce = true ∧
      t.session.Valid sha t.id s.lastApplied ∧ t.session.Distinct := by
    intro t ht
    have hknown := (hlists.registered t.nonce t.id).1 ⟨t, ht, rfl, rfl⟩
    exact ⟨(h.nonces _ _ hknown).1, h.sessions _ _ (hlists.found t ht), hown t ht⟩
  have hregistrations : roster.foldl (fun m t => m.insert t.nonce t.id) ∅ = s.registrations := by
    have hfirst : ((roster.map fun t => (t.nonce, t.id)).map Prod.fst).Nodup := by
      rw [List.map_map]
      exact hlists.nonces
    have hmem : ∀ p : String × Nat, p ∈ roster.map (fun t => (t.nonce, t.id)) ↔
        s.registrations[p.1]? = some p.2 := by
      intro p
      rw [← hlists.registered, List.mem_map]
      simp only [Prod.ext_iff]
    rw [← Table.foldl_insert_eq hfirst hmem, List.foldl_map]
  have hsessions : roster.foldl (fun m t => m.insert t.id t.session) ∅ = s.sessions := by
    have hfirst : ((roster.map fun t => (t.id, t.session)).map Prod.fst).Nodup := by
      rwa [List.map_map]
    rw [← Table.foldl_insert_eq hfirst fun p => h.mem_roster hlists p.1 p.2, List.foldl_map]
  obtain ⟨indices, himport⟩ := importSessions_spec
    ⟨{ initial with lastApplied := s.lastApplied, values := s.values }, ∅⟩ hlists.keys hnamed
    hlists.nonces hids hapart (fun t _ => Std.ExtTreeMap.getElem?_empty)
    (fun t _ => Std.ExtTreeMap.getElem?_empty) (fun t _ slot x _ => Std.ExtTreeSet.not_mem_empty)
    (by simpa only [initial, Nat.zero_add, hcount] using h.keyCount)
    (by simpa only [initial, Nat.zero_add, hbytes] using h.byteCount)
  refine ⟨indices, himport.trans ?_⟩
  simp only [initial, Nat.zero_add, hcount, hbytes, hregistrations, hsessions]

/-- **The lists of a state** are imported as the state. -/
theorem Valid.import_roster (hbounded : s.ValuesBounded) {values : List (String × String)}
    (hnodup : (values.map Prod.fst).Nodup) (hmem : ∀ p, p ∈ values ↔ s.values[p.1]? = some p.2)
    (hzero : s.lastApplied > 0 ∨ (values = [] ∧ roster = [])) :
    importSnapshot sha ⟨1, s.lastApplied, values, roster.map Named.snapshot, s.retainedKeys,
      s.retainedPayloadBytes⟩ s.lastApplied = .ok s := by
  obtain ⟨indices, himport⟩ := h.importSessions_roster hlists
  have hvalues : importValues values ∅ = .ok s.values := by
    rw [importValues_eq ∅ (fun p hp => hbounded p.1 p.2 ((hmem p).1 hp)) hnodup
      fun p _ => Std.ExtTreeMap.getElem?_empty, Table.foldl_insert_eq hnodup hmem]
  have hcount : (roster.map Named.snapshot).length ≤ maxSessions := by
    have hlength := (h.roster_perm hlists).length_eq
    rw [List.length_map, Std.ExtTreeMap.length_toList] at hlength
    rw [List.length_map, hlength]
    exact h.sessionCount
  have hzero : s.lastApplied > 0 ∨ (values = [] ∧ roster.map Named.snapshot = []) := by
    rwa [List.map_eq_nil_iff]
  rw [importSnapshot]
  dsimp only
  rw [snapshotRequire_pos rfl, snapshotRequire_pos rfl, snapshotRequire_pos hcount,
    snapshotRequire_pos h.keyCount, snapshotRequire_pos h.byteCount, snapshotRequire_pos hzero,
    hvalues]
  simp only [bind, Except.bind]
  rw [himport]
  simp only [snapshotRequire_pos]
  rfl

end Roster

/-- The registrations of a valid state with their sessions. -/
theorem exists_roster {l : List (String × Nat)}
    (h : ∀ p ∈ l, ∃ session, s.sessions[p.2]? = some session) :
    ∃ roster : List Named, (roster.map fun t => (t.nonce, t.id)) = l ∧
      (∀ t ∈ roster, s.sessions[t.id]? = some t.session ∧ t.keys = t.session.keys.toList) ∧
      l.mapM s.exportRegistration = some (roster.map Named.snapshot) := by
  induction l with
  | nil => exact ⟨[], rfl, by simp, rfl⟩
  | cons p rest ih =>
    obtain ⟨⟨session, hsession⟩, hrest⟩ := List.forall_mem_cons.1 h
    obtain ⟨roster, hroster, hmem, hexport⟩ := ih hrest
    refine ⟨⟨p.1, p.2, session, session.keys.toList⟩ :: roster, ?_, ?_, ?_⟩
    · rw [List.map_cons, hroster]
    · exact List.forall_mem_cons.2 ⟨⟨hsession, rfl⟩, hmem⟩
    · rw [List.mapM_cons, exportRegistration, hsession, hexport]
      rfl

/-- **Export** lists the state. -/
theorem Valid.exportSnapshot (h : s.Valid sha) :
    ∃ roster, s.Lists roster ∧ (∀ t ∈ roster, t.keys = t.session.keys.toList) ∧
      s.exportSnapshot = some ⟨1, s.lastApplied, s.values.toList, roster.map Named.snapshot,
        s.retainedKeys, s.retainedPayloadBytes⟩ := by
  obtain ⟨roster, hroster, hmem, hexport⟩ := exists_roster (s := s) (l := s.registrations.toList)
    fun p hp => (h.nonces p.1 p.2 (Table.mem_toList.1 hp)).2
  refine ⟨roster, ⟨?_, fun nonce id => ?_, fun t ht => (hmem t ht).1, fun t ht => ?_⟩,
    fun t ht => (hmem t ht).2, ?_⟩
  · have hnodup := Table.nodup_keys s.registrations
    rwa [← hroster, List.map_map] at hnodup
  · rw [← Table.mem_toList (p := (nonce, id)), ← hroster, List.mem_map]
    simp only [Prod.ext_iff]
  · rw [(hmem t ht).2]
  · rw [StateMachine.exportSnapshot, hexport]
    rfl

/-- A state that holds something has applied an entry. -/
theorem Reachable.initial_or_pos {admits : Command → Prop} (h : Reachable sha admits s) :
    s = .initial ∨ 0 < s.lastApplied := by
  cases h with
  | initial => exact .inl rfl
  | applied _ _ happly =>
    obtain ⟨hindex, -, t, -, rfl⟩ := apply_ok happly
    refine .inr ?_
    rw [hindex]
    exact Nat.succ_pos _

/-- A reachable state can be exported, and is imported again from what was exported. -/
theorem Reachable.import_export (h : Reachable sha Bounded s) :
    ∃ snapshot, s.exportSnapshot = some snapshot ∧
      importSnapshot sha snapshot s.lastApplied = .ok s := by
  obtain ⟨roster, hlists, -, hexport⟩ := h.valid.exportSnapshot
  refine ⟨_, hexport, h.valid.import_roster hlists h.valuesBounded (Table.nodup_keys _)
    (fun p => Table.mem_toList) ?_⟩
  rcases h.initial_or_pos with rfl | hpos
  · refine .inr ⟨Std.ExtTreeMap.toList_eq_nil_iff.2 rfl, List.eq_nil_iff_forall_not_mem.2 ?_⟩
    intro t ht
    have hknown := (hlists.registered t.nonce t.id).1 ⟨t, ht, rfl, rfl⟩
    simp [StateMachine.initial] at hknown
  · exact .inl hpos

/-- **Snapshots round trip.**  Every reachable state can be exported, and the import of what was
exported gives the state back.  The state is valid: counters are the sums over all sessions,
identities and indices are distinct and at most the applied index, sequence numbers count entries
behind the registration, and everything is within its limits.  No mutation underflows. -/
theorem snapshot_roundtrip (sha : Digest) {s : StateMachine} (h : Reachable sha Bounded s) :
    (∃ snapshot, s.exportSnapshot = some snapshot ∧
      importSnapshot sha snapshot s.lastApplied = .ok s) ∧
    s.Valid sha ∧ s.ValuesBounded ∧
    ∀ id key sequence value index, s.mutate sha id key sequence value index ≠ none := by
  exact ⟨h.import_export, h.valid, h.valuesBounded,
    fun id key sequence value index => h.valid.mutate_ne_none⟩

end StateMachine

/-- Two sessions that write one key; the first one is closed. -/
def sampleEntries : List Entry :=
  [⟨1, 1, .registerSession "first"⟩, ⟨2, 1, .registerSession "second"⟩,
    ⟨3, 1, .sessionPut 1 "key" 1 "value"⟩, ⟨4, 1, .sessionDelete 2 "key" 1⟩,
    ⟨5, 1, .sessionPut 1 "key" 2 "again"⟩, ⟨6, 1, .closeSession 1⟩]

theorem snapshot_roundtrip_sample :
    ∃ s, StateMachine.initial.applyAll toyDigest sampleEntries = some s ∧ s.lastApplied = 6 ∧
      s.retainedKeys = 2 ∧
      (∃ snapshot, s.exportSnapshot = some snapshot ∧
        importSnapshot toyDigest snapshot s.lastApplied = .ok s) := by
  have hsome : (StateMachine.initial.applyAll toyDigest sampleEntries).any (fun s =>
      s.lastApplied = 6 ∧ s.retainedKeys = 2) = true := by decide +kernel
  obtain ⟨s, hs, hfacts⟩ := (Option.any_eq_true _ _).1 hsome
  obtain ⟨hlast, hkeys⟩ := of_decide_eq_true hfacts
  have hreach : StateMachine.Reachable toyDigest StateMachine.Bounded s :=
    StateMachine.Reachable.initial.applyAll (by decide) hs
  exact ⟨s, hs, hlast, hkeys, (StateMachine.snapshot_roundtrip toyDigest hreach).1⟩

end MicroRaft.Application
