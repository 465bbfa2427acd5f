import MicroRaft.Application.Machine
import MicroRaft.Lib.Table

/-!
# What every application state satisfies

`StateMachine.Valid` says how registrations, sessions and counters of a state belong
together; `apply` keeps it (`Valid.apply`) and does not panic in such a state.  What an
entry can do is said once, by `Change`.

The operations of a state are its registrations, closes and latest mutations.  Each
of them has happened at its own index (`Valid.distinct`): an entry adds at most one
operation, at an index behind all others.
-/

namespace MicroRaft.Application

open Store (Digest)

variable {sha : Digest} {s s' : StateMachine} {id index sequence : Nat} {key nonce : String}
  {value : Option String} {session : Session} {record : KeyRecord} {result : SessionResult}

/-! ## Sessions -/

/-- The latest mutation of a key: its payload and digest are those of a mutation of this key, and
it was applied behind the registration and before a close, with room for all earlier ones. -/
structure KeyRecord.Valid (sha : Digest) (id last : Nat) (closed : Option SessionResult)
    (key : String) (record : KeyRecord) : Prop where
  valid : validKey key = true
  positive : 0 < record.sequence
  payload : ∃ value : Option String, (∀ v ∈ value, v.utf8ByteSize ≤ maxValueBytes) ∧
    record.payload = canonicalPayload key value
  digest : record.digest = sha.run record.payload
  result : ∃ index, record.result = .success id (some record.sequence) index ∧ id < index ∧
    index ≤ last ∧ record.sequence ≤ index - id ∧
    ∀ c ∈ closed, ∀ i ∈ c.index, index < i

/-- A session under its identity. -/
structure Session.Valid (sha : Digest) (id last : Nat) (session : Session) : Prop where
  positive : 0 < id
  applied : id ≤ last
  registered : session.registered = .success id none id
  closed : ∀ c ∈ session.closed, ∃ index, c = .success id none index ∧ id < index ∧ index ≤ last
  count : session.keys.size ≤ maxKeysPerSession
  keys : ∀ (key : String) (record : KeyRecord), session.keys[key]? = some record →
    record.Valid sha id last session.closed key

/-- The bytes a session retains. -/
def Session.payloadBytes (session : Session) : Nat :=
  Table.total (fun _ record => record.payload.length) session.keys

/-! ## Operations -/

/-- The operations of a session that leave something behind. -/
inductive Slot
  | registered
  | closed
  | key (key : String)
  deriving DecidableEq, Repr

/-- When an operation was applied. -/
def Session.operation (session : Session) : Slot → Option Nat
  | .registered => session.registered.index
  | .closed => session.closed.bind SessionResult.index
  | .key key => (session.keys[key]?).bind fun record => record.result.index

def StateMachine.operation (s : StateMachine) (id : Nat) (slot : Slot) : Option Nat :=
  (s.sessions[id]?).bind fun session => session.operation slot

/-! ## States -/

structure StateMachine.Valid (sha : Digest) (s : StateMachine) : Prop where
  lastApplied : s.lastApplied ≤ u64Max
  nonces : ∀ (nonce : String) (id : Nat), s.registrations[nonce]? = some id →
    validNonce nonce = true ∧ ∃ session, s.sessions[id]? = some session
  /-- Two nonces do not share a session. -/
  injective : ∀ (nonce nonce' : String) (id : Nat), s.registrations[nonce]? = some id →
    s.registrations[nonce']? = some id → nonce = nonce'
  /-- Every session has a nonce. -/
  named : ∀ (id : Nat) (session : Session), s.sessions[id]? = some session →
    ∃ nonce : String, s.registrations[nonce]? = some id
  sessions : ∀ (id : Nat) (session : Session), s.sessions[id]? = some session →
    session.Valid sha id s.lastApplied
  /-- No two operations share an index. -/
  distinct : ∀ id slot id' slot' index, s.operation id slot = some index →
    s.operation id' slot' = some index → id = id' ∧ slot = slot'
  sessionCount : s.sessions.size ≤ maxSessions
  retainedKeys : s.retainedKeys = Table.total (fun _ session => session.keys.size) s.sessions
  retainedPayloadBytes :
    s.retainedPayloadBytes = Table.total (fun _ session => session.payloadBytes) s.sessions
  keyCount : s.retainedKeys ≤ maxSessionKeys
  byteCount : s.retainedPayloadBytes ≤ maxRetainedPayloadBytes

theorem valid_initial (sha : Digest) : StateMachine.initial.Valid sha where
  lastApplied := Nat.zero_le _
  nonces nonce id h := by simp [StateMachine.initial] at h
  injective nonce nonce' id h := by simp [StateMachine.initial] at h
  named id session h := by simp [StateMachine.initial] at h
  sessions id session h := by simp [StateMachine.initial] at h
  distinct id slot id' slot' index h := by simp [StateMachine.initial, StateMachine.operation] at h
  sessionCount := by simp [StateMachine.initial]
  retainedKeys := (Table.total_empty _).symm
  retainedPayloadBytes := (Table.total_empty _).symm
  keyCount := Nat.zero_le _
  byteCount := Nat.zero_le _

/-! ## One operation more -/

theorem KeyRecord.Valid.mono {last last' : Nat} {closed : Option SessionResult}
    (h : record.Valid sha id last closed key) (hle : last ≤ last') :
    record.Valid sha id last' closed key := by
  obtain ⟨index, hresult, hlt, hlast, hsequence, hclosed⟩ := h.result
  exact ⟨h.valid, h.positive, h.payload, h.digest, index, hresult, hlt, hlast.trans hle, hsequence,
    hclosed⟩

theorem Session.Valid.mono {last last' : Nat} (h : session.Valid sha id last) (hle : last ≤ last') :
    session.Valid sha id last' where
  positive := h.positive
  applied := h.applied.trans hle
  registered := h.registered
  closed c hc := by
    obtain ⟨index, hresult, hlt, hlast⟩ := h.closed c hc
    exact ⟨index, hresult, hlt, hlast.trans hle⟩
  count := h.count
  keys key record hrecord := (h.keys key record hrecord).mono hle

theorem Session.Valid.operation_le {last : Nat} {slot : Slot} (h : session.Valid sha id last)
    (hop : session.operation slot = some index) : index ≤ last := by
  cases slot with
  | registered =>
    rw [Session.operation, h.registered] at hop
    cases hop
    exact h.applied
  | closed =>
    obtain ⟨c, hc, hindex⟩ := Option.bind_eq_some_iff.1 hop
    obtain ⟨i, rfl, -, hle⟩ := h.closed c hc
    cases hindex
    exact hle
  | key key =>
    obtain ⟨record, hrecord, hindex⟩ := Option.bind_eq_some_iff.1 hop
    obtain ⟨i, hresult, -, hle, -⟩ := (h.keys key record hrecord).result
    rw [hresult] at hindex
    cases hindex
    exact hle

variable {values : BTreeMap String String} {command : Command} {outcome : ApplyOutcome}
  {entry : Entry}

namespace StateMachine

theorem Valid.operation_le {slot : Slot} (h : s.Valid sha)
    (hop : s.operation id slot = some index) : index ≤ s.lastApplied := by
  obtain ⟨session, hsession, hop⟩ := Option.bind_eq_some_iff.1 hop
  exact (h.sessions id session hsession).operation_le hop

/-- Operations stay distinct when one is added behind all others. -/
theorem Valid.distinct_next (h : s.Valid sha) (id₀ : Nat) (slot₀ : Slot)
    (hops : ∀ id slot index, s'.operation id slot = some index →
      s.operation id slot = some index ∨ (id = id₀ ∧ slot = slot₀ ∧ index = s.lastApplied + 1)) :
    ∀ id slot id' slot' index, s'.operation id slot = some index →
      s'.operation id' slot' = some index → id = id' ∧ slot = slot' := by
  intro id slot id' slot' index hop hop'
  rcases hops _ _ _ hop with hop | ⟨rfl, rfl, rfl⟩ <;>
    rcases hops _ _ _ hop' with hop' | ⟨rfl, rfl, hnew⟩
  · exact h.distinct _ _ _ _ _ hop hop'
  · have := h.operation_le hop
    omega
  · have := h.operation_le hop'
    omega
  · exact ⟨rfl, rfl⟩

/-- An entry that changes values only. -/
theorem Valid.advance (h : s.Valid sha) (hindex : s.lastApplied + 1 ≤ u64Max) :
    ({ s with values := values, lastApplied := s.lastApplied + 1 } : StateMachine).Valid sha :=
  { h with
    lastApplied := hindex
    sessions := fun id session hsession => (h.sessions id session hsession).mono (Nat.le_succ _) }

theorem operation_of_insert {sessions : BTreeMap Nat Session}
    (hsessions : s'.sessions = sessions.insert id session) {id' : Nat} {slot : Slot} :
    s'.operation id' slot = if id' = id then session.operation slot
      else (sessions[id']?).bind fun session => session.operation slot := by
  rw [operation, hsessions, Table.getElem?_insert]
  split <;> rfl

/-- A new session. -/
theorem Valid.registered (h : s.Valid sha) (hindex : s.lastApplied + 1 ≤ u64Max)
    (hnonce : validNonce nonce = true) (hfresh : s.registrations[nonce]? = none)
    (hcount : s.sessions.size ≠ maxSessions) :
    ({ s with
      registrations := s.registrations.insert nonce (s.lastApplied + 1)
      sessions := s.sessions.insert (s.lastApplied + 1)
        ⟨.success (s.lastApplied + 1) none (s.lastApplied + 1), none, ∅⟩
      lastApplied := s.lastApplied + 1 } : StateMachine).Valid sha := by
  -- the identity of the session is behind all others
  have hnew : s.sessions[s.lastApplied + 1]? = none := by
    cases hsession : s.sessions[s.lastApplied + 1]? with
    | none => rfl
    | some session =>
      have := (h.sessions _ _ hsession).applied
      omega
  have hunused : ∀ nonce : String, s.registrations[nonce]? ≠ some (s.lastApplied + 1) := by
    intro nonce hnonce
    obtain ⟨-, session, hsession⟩ := h.nonces _ _ hnonce
    rw [hnew] at hsession
    cases hsession
  refine ⟨hindex, fun nonce' id hid => ?_, fun n n' id hid hid' => ?_,
    fun id session hsession => ?_, fun id session hsession => ?_,
    h.distinct_next (s.lastApplied + 1) .registered fun id slot index hop => ?_,
    ?_, ?_, ?_, h.keyCount, h.byteCount⟩
  · rw [Table.getElem?_insert] at hid
    simp only [Table.getElem?_insert]
    split at hid
    · next heq =>
        cases hid
        rw [if_pos rfl, heq]
        exact ⟨hnonce, _, rfl⟩
    · obtain ⟨hvalid, session, hsession⟩ := h.nonces _ _ hid
      refine ⟨hvalid, ?_⟩
      split
      · exact ⟨_, rfl⟩
      · exact ⟨session, hsession⟩
  · simp only [Table.getElem?_insert] at hid hid'
    split at hid <;> split at hid'
    · next heq heq' => rw [heq, heq']
    · cases hid
      exact absurd hid' (hunused n')
    · cases hid'
      exact absurd hid (hunused n)
    · exact h.injective _ _ _ hid hid'
  · simp only [Table.getElem?_insert] at hsession ⊢
    split at hsession
    · next heq => exact ⟨nonce, by rw [if_pos rfl, heq]⟩
    · obtain ⟨nonce', hnonce'⟩ := h.named _ _ hsession
      refine ⟨nonce', ?_⟩
      rw [if_neg]
      · exact hnonce'
      · rintro rfl
        rw [hfresh] at hnonce'
        cases hnonce'
  · simp only [Table.getElem?_insert] at hsession
    split at hsession
    · next heq =>
        cases hsession
        subst heq
        exact ⟨Nat.succ_pos _, le_refl _, rfl, by simp, by simp, by simp⟩
    · exact (h.sessions _ _ hsession).mono (Nat.le_succ _)
  · rw [operation_of_insert rfl] at hop
    split at hop
    · next heq =>
        cases slot with
        | registered =>
          cases hop
          exact .inr ⟨heq, rfl, rfl⟩
        | closed => cases hop
        | key key => simp [Session.operation] at hop
    · exact .inl hop
  · show (s.sessions.insert _ _).size ≤ maxSessions
    have := h.sessionCount
    rw [Table.size_insert_of_none hnew]
    omega
  · show s.retainedKeys = _
    rw [Table.total_insert_of_none _ hnew, ← h.retainedKeys]
    simp
  · show s.retainedPayloadBytes = _
    rw [Table.total_insert_of_none _ hnew, ← h.retainedPayloadBytes]
    simp [Session.payloadBytes, Table.total_empty]

/-- **A session is replaced**: one of its operations happens now, and the counters follow. -/
theorem Valid.replaced {session' : Session}
    {retainedKeys retainedPayloadBytes : Nat} (h : s.Valid sha) (slot : Slot)
    (hindex : s.lastApplied + 1 ≤ u64Max) (hsession : s.sessions[id]? = some session)
    (hvalid : session'.Valid sha id (s.lastApplied + 1))
    (hops : ∀ slot' index, session'.operation slot' = some index →
      session.operation slot' = some index ∨ (slot' = slot ∧ index = s.lastApplied + 1))
    (hkeys : retainedKeys + session.keys.size = s.retainedKeys + session'.keys.size)
    (hbytes : retainedPayloadBytes + session.payloadBytes =
      s.retainedPayloadBytes + session'.payloadBytes) (hkeyCount : retainedKeys ≤ maxSessionKeys)
    (hbyteCount : retainedPayloadBytes ≤ maxRetainedPayloadBytes) : ({ s with
      retainedKeys := retainedKeys
      retainedPayloadBytes := retainedPayloadBytes
      sessions := s.sessions.insert id session'
      values := values
      lastApplied := s.lastApplied + 1 } : StateMachine).Valid sha := by
  refine ⟨hindex, fun nonce id' hid => ?_, h.injective, fun id' session₁ hsession₁ => ?_,
    fun id' session₁ hsession₁ => ?_,
    h.distinct_next id slot fun id' slot' index hop => ?_, ?_, ?_, ?_,
    hkeyCount, hbyteCount⟩
  · obtain ⟨hnonce, session₁, hsession₁⟩ := h.nonces _ _ hid
    refine ⟨hnonce, ?_⟩
    simp only [Table.getElem?_insert]
    split
    · exact ⟨_, rfl⟩
    · exact ⟨session₁, hsession₁⟩
  · simp only [Table.getElem?_insert] at hsession₁
    split at hsession₁
    · next heq => exact heq ▸ h.named id session hsession
    · exact h.named _ _ hsession₁
  · simp only [Table.getElem?_insert] at hsession₁
    split at hsession₁
    · next heq =>
        cases hsession₁
        exact heq ▸ hvalid
    · exact (h.sessions _ _ hsession₁).mono (Nat.le_succ _)
  · rw [operation_of_insert rfl] at hop
    split at hop
    · next heq =>
        subst heq
        rcases hops _ _ hop with hop | ⟨rfl, rfl⟩
        · left
          rw [operation, hsession]
          exact hop
        · exact .inr ⟨rfl, rfl, rfl⟩
    · exact .inl hop
  · show (s.sessions.insert _ _).size ≤ maxSessions
    rw [Table.size_insert_of_some hsession]
    exact h.sessionCount
  · have hsum := Table.total_insert_of_some (v := session')
      (fun _ (session : Session) => session.keys.size) hsession
    have hold := h.retainedKeys
    dsimp only
    omega
  · have hsum := Table.total_insert_of_some (v := session')
      (fun _ (session : Session) => session.payloadBytes) hsession
    have hold := h.retainedPayloadBytes
    dsimp only
    omega

/-! ## Entries -/

theorem Valid.register (h : s.Valid sha) (hindex : s.lastApplied + 1 ≤ u64Max) (nonce : String) :
    ∃ r s', s.register nonce (s.lastApplied + 1) = some (r, s') ∧
      ({ s' with lastApplied := s.lastApplied + 1 } : StateMachine).Valid sha := by
  have hsame : ({ s with lastApplied := s.lastApplied + 1 } : StateMachine).Valid sha :=
    h.advance hindex
  unfold StateMachine.register
  by_cases hnonce : validNonce nonce = true
  · rw [if_neg (not_not.2 hnonce)]
    cases hknown : s.registrations[nonce]? with
    | some id =>
      obtain ⟨-, session, hsession⟩ := h.nonces _ _ hknown
      simp only [hsession]
      exact ⟨_, _, rfl, hsame⟩
    | none =>
      dsimp only
      by_cases hcount : s.sessions.size = maxSessions
      · rw [if_pos hcount]
        exact ⟨_, _, rfl, hsame⟩
      · rw [if_neg hcount]
        exact ⟨_, _, rfl, h.registered hindex hnonce hknown hcount⟩
  · rw [if_pos hnonce]
    exact ⟨_, _, rfl, hsame⟩

theorem Valid.close (h : s.Valid sha) (hindex : s.lastApplied + 1 ≤ u64Max) (id : Nat) :
    ({ (s.close id (s.lastApplied + 1)).2 with lastApplied := s.lastApplied + 1 } :
      StateMachine).Valid sha := by
  have hsame : ({ s with lastApplied := s.lastApplied + 1 } : StateMachine).Valid sha :=
    h.advance hindex
  unfold StateMachine.close
  cases hsession : s.sessions[id]? with
  | none => exact hsame
  | some session =>
    cases hclosed : session.closed with
    | some result => simpa only [hclosed] using hsame
    | none =>
      simp only [hclosed]
      have hold := h.sessions _ _ hsession
      refine h.replaced .closed hindex hsession ?_ (fun slot index hop => ?_)
        rfl rfl h.keyCount h.byteCount
      · refine ⟨hold.positive, hold.applied.trans (Nat.le_succ _), hold.registered,
          fun c hc => ?_, hold.count, fun key record hrecord => ?_⟩
        · cases hc
          exact ⟨_, rfl, Nat.lt_succ_of_le hold.applied, le_refl _⟩
        · obtain ⟨index, hresult, hlt, hle, hsequence, -⟩ := (hold.keys _ _ hrecord).result
          have hkey := hold.keys _ _ hrecord
          refine ⟨hkey.valid, hkey.positive, hkey.payload, hkey.digest, index, hresult, hlt,
            hle.trans (Nat.le_succ _), hsequence, fun c hc i hi => ?_⟩
          cases hc
          cases hi
          exact Nat.lt_succ_of_le hle
      · cases slot with
        | registered => exact .inl hop
        | closed =>
          cases hop
          exact .inr ⟨rfl, rfl⟩
        | key key => exact .inl hop

/-- The record that a mutation leaves. -/
def newRecord (sha : Digest) (id : Nat) (key : String) (sequence : Nat) (value : Option String)
    (index : Nat) : KeyRecord :=
  ⟨sequence, sha.run (canonicalPayload key value), canonicalPayload key value,
    .success id (some sequence) index⟩

/-- When a mutation is accepted. -/
structure Accepts (s : StateMachine) (id : Nat) (key : String) (sequence : Nat)
    (value : Option String) (session : Session) : Prop where
  found : s.sessions[id]? = some session
  valid : validKey key = true
  short : ∀ v ∈ value, v.utf8ByteSize ≤ maxValueBytes
  opened : session.closed = none
  /-- The first mutation of a key has room. -/
  first : session.keys[key]? = none →
    sequence = 1 ∧ session.keys.size ≠ maxKeysPerSession ∧ s.retainedKeys ≠ maxSessionKeys
  /-- A later one has the next number. -/
  next : ∀ previous : KeyRecord, session.keys[key]? = some previous →
    sequence = previous.sequence + 1 ∧ sequence ≤ u64Max
  bytes : s.retainedPayloadBytes - previousBytes session key +
    (canonicalPayload key value).length ≤ maxRetainedPayloadBytes

/-- The numbers that pass. -/
theorem expectedSequence_eq_ok {digest payload : List UInt8} {previous : Option KeyRecord}
    {expected : Nat} (h : expectedSequence sequence digest payload previous = .ok expected) :
    (previous = none ∧ expected = 1) ∨
      ∃ record, previous = some record ∧ expected = record.sequence + 1 ∧ expected ≤ u64Max := by
  unfold expectedSequence at h
  split at h
  · cases h
    exact .inl ⟨rfl, rfl⟩
  · next record =>
      split_ifs at h
      split at h
      · cases h
      · next next hnext =>
          cases h
          rw [checkedAdd] at hnext
          split at hnext
          · next hle =>
              cases hnext
              exact .inr ⟨record, rfl, rfl, hle⟩
          · cases hnext

/-- An answer without an effect. -/
def Rejection (result : SessionResult) : Prop := ∃ error expected, result = .rejected error expected

/-- When a mutation is the latest one of its key. -/
structure Repeats (s : StateMachine) (id : Nat) (key : String) (sequence : Nat)
    (value : Option String) (session : Session) (record : KeyRecord) : Prop where
  found : s.sessions[id]? = some session
  opened : session.closed = none
  recorded : session.keys[key]? = some record
  sequence : record.sequence = sequence
  payload : record.payload = canonicalPayload key value

/-- The numbers that do not pass. -/
theorem expectedSequence_eq_error {digest payload : List UInt8} {previous : Option KeyRecord}
    (h : expectedSequence sequence digest payload previous = .error result) :
    Rejection result ∨ ∃ record, previous = some record ∧ record.sequence = sequence ∧
      record.payload = payload ∧ result = record.result := by
  unfold expectedSequence at h
  split at h
  · cases h
  · next record =>
      by_cases hsame : sequence = record.sequence
      · rw [if_pos hsame] at h
        by_cases hpayload : digest = record.digest ∧ payload = record.payload
        · rw [if_pos hpayload] at h
          cases h
          exact .inr ⟨record, rfl, hsame.symm, hpayload.2.symm, rfl⟩
        · rw [if_neg hpayload] at h
          cases h
          exact .inl ⟨_, _, rfl⟩
      · rw [if_neg hsame] at h
        split_ifs at h
        · cases h
          exact .inl ⟨_, _, rfl⟩
        · split at h
          · cases h
            exact .inl ⟨_, _, rfl⟩
          · cases h

/-- The end of a mutation. -/
theorem retain_cases (h : s.retain id session key value record = some (result, s')) :
    (s' = s ∧ Rejection result) ∨
    (s.retainedPayloadBytes - previousBytes session key + record.payload.length ≤
      maxRetainedPayloadBytes ∧ result = record.result ∧
      s' = s.mutated id session key value record) := by
  unfold retain at h
  by_cases hunderflow : s.retainedPayloadBytes < previousBytes session key
  · rw [if_pos hunderflow] at h
    cases h
  rw [if_neg hunderflow] at h
  by_cases hbytes : s.retainedPayloadBytes - previousBytes session key + record.payload.length >
      maxRetainedPayloadBytes
  · rw [if_pos hbytes] at h
    cases h
    exact .inl ⟨rfl, _, _, rfl⟩
  · rw [if_neg hbytes] at h
    cases h
    exact .inr ⟨not_lt.1 hbytes, rfl, rfl⟩

/-- **What `mutate` does**: it changes nothing, or the mutation is accepted. -/
theorem mutate_cases (h : s.mutate sha id key sequence value index = some (result, s')) :
    (s' = s ∧ (Rejection result ∨
      ∃ session record, s.Repeats id key sequence value session record ∧ result = record.result)) ∨
    ∃ session, s.Accepts id key sequence value session ∧
      result = .success id (some sequence) index ∧
      s' = s.mutated id session key value (newRecord sha id key sequence value index) := by
  unfold mutate at h
  by_cases hkey : validKey key = true
  swap
  · rw [if_pos hkey] at h
    cases h
    exact .inl ⟨rfl, .inl ⟨_, _, rfl⟩⟩
  rw [if_neg (not_not.2 hkey)] at h
  by_cases hlarge : ∃ v ∈ value, v.utf8ByteSize > maxValueBytes
  · rw [if_pos hlarge] at h
    cases h
    exact .inl ⟨rfl, .inl ⟨_, _, rfl⟩⟩
  rw [if_neg hlarge] at h
  cases hsession : s.sessions[id]? with
  | none =>
    rw [hsession] at h
    cases h
    exact .inl ⟨rfl, .inl ⟨_, _, rfl⟩⟩
  | some session =>
    rw [hsession] at h
    dsimp only at h
    by_cases hclosed : session.closed.isSome = true
    · rw [if_pos hclosed] at h
      cases h
      exact .inl ⟨rfl, .inl ⟨_, _, rfl⟩⟩
    rw [if_neg hclosed] at h
    have hopen : session.closed = none := by simpa using hclosed
    by_cases hzero : sequence = 0
    · rw [if_pos hzero] at h
      split at h <;> (cases h; exact .inl ⟨rfl, .inl ⟨_, _, rfl⟩⟩)
    rw [if_neg hzero] at h
    cases hexpected : expectedSequence sequence (sha.run (canonicalPayload key value))
        (canonicalPayload key value) session.keys[key]? with
    | error r =>
      rw [hexpected] at h
      cases h
      refine .inl ⟨rfl, ?_⟩
      rcases expectedSequence_eq_error hexpected with hrejected |
        ⟨record, hrecord, hsequence, hpayload, hresult⟩
      · exact .inl hrejected
      · exact .inr ⟨session, record, ⟨hsession, hopen, hrecord, hsequence, hpayload⟩, hresult⟩
    | ok expected =>
      rw [hexpected] at h
      dsimp only at h
      by_cases hgap : sequence ≠ expected
      · rw [if_pos hgap] at h
        cases h
        exact .inl ⟨rfl, .inl ⟨_, _, rfl⟩⟩
      rw [if_neg hgap] at h
      by_cases hroom : session.keys[key]? = none ∧ (session.keys.size = maxKeysPerSession ∨
          s.retainedKeys = maxSessionKeys)
      · rw [if_pos hroom] at h
        cases h
        exact .inl ⟨rfl, .inl ⟨_, _, rfl⟩⟩
      rw [if_neg hroom] at h
      rcases retain_cases h with ⟨hsame, hrejected⟩ | ⟨hbytes, hresult, hnew⟩
      · exact .inl ⟨hsame, .inl hrejected⟩
      · refine .inr ⟨session, ⟨hsession, hkey, ?_, hopen, ?_, ?_, hbytes⟩, hresult, hnew⟩
        · intro v hv
          by_contra hv'
          exact hlarge ⟨v, hv, not_le.1 hv'⟩
        · intro hnone
          rcases expectedSequence_eq_ok hexpected with ⟨-, rfl⟩ | ⟨record, hsome, -⟩
          · exact ⟨not_not.1 hgap, fun hfull => hroom ⟨hnone, .inl hfull⟩,
              fun hfull => hroom ⟨hnone, .inr hfull⟩⟩
          · rw [hnone] at hsome
            cases hsome
        · intro previous hsome
          rcases expectedSequence_eq_ok hexpected with ⟨hnone, -⟩ | ⟨record, hrecord, rfl, hle⟩
          · rw [hsome] at hnone
            cases hnone
          · rw [hsome] at hrecord
            cases hrecord
            exact ⟨not_not.1 hgap, (not_not.1 hgap).trans_le hle⟩

/-- The only panic of `mutate`. -/
theorem mutate_eq_none (h : s.mutate sha id key sequence value index = none) :
    ∃ session, s.sessions[id]? = some session ∧
      s.retainedPayloadBytes < previousBytes session key := by
  unfold mutate at h
  split at h
  · cases h
  split at h
  · cases h
  split at h
  · cases h
  next session hsession =>
    refine ⟨session, hsession, ?_⟩
    split at h
    · cases h
    split at h
    · split at h <;> cases h
    dsimp only at h
    split at h
    · cases h
    split at h
    · cases h
    split at h
    · cases h
    unfold retain at h
    split at h
    · next hlt => exact hlt
    · split at h <;> cases h

/-- What a key retains is counted. -/
theorem Valid.previousBytes_le (h : s.Valid sha) (hsession : s.sessions[id]? = some session)
    (key : String) : previousBytes session key ≤ s.retainedPayloadBytes := by
  have hle : session.payloadBytes ≤ s.retainedPayloadBytes := by
    rw [h.retainedPayloadBytes]
    exact Table.le_total (fun _ (session : Session) => session.payloadBytes) hsession
  refine le_trans ?_ hle
  cases hrecord : session.keys[key]? with
  | none =>
    rw [previousBytes, hrecord]
    exact Nat.zero_le _
  | some record =>
    rw [previousBytes, hrecord]
    exact Table.le_total (fun _ (record : KeyRecord) => record.payload.length) hrecord

theorem Valid.mutate_ne_none (h : s.Valid sha) :
    s.mutate sha id key sequence value index ≠ none := by
  intro hnone
  obtain ⟨session, hsession, hlt⟩ := mutate_eq_none hnone
  have := h.previousBytes_le hsession key
  omega

/-- The record of an accepted mutation. -/
theorem Valid.newRecord (h : s.Valid sha) (haccepts : s.Accepts id key sequence value session) :
    (newRecord sha id key sequence value (s.lastApplied + 1)).Valid sha id (s.lastApplied + 1)
      session.closed key := by
  have hold := h.sessions _ _ haccepts.found
  have hid := hold.applied
  have hsequence : 0 < sequence ∧ sequence ≤ s.lastApplied + 1 - id := by
    cases hrecord : session.keys[key]? with
    | none =>
      obtain ⟨hone, -⟩ := haccepts.first hrecord
      omega
    | some previous =>
      -- the earlier mutation left room for one more
      obtain ⟨hnext, -⟩ := haccepts.next previous hrecord
      obtain ⟨index, -, hlt, hle, hroom, -⟩ := (hold.keys _ _ hrecord).result
      omega
  refine ⟨haccepts.valid, hsequence.1, ⟨value, haccepts.short, rfl⟩, rfl, s.lastApplied + 1, rfl,
    Nat.lt_succ_of_le hid, le_refl _, hsequence.2, fun c hc => ?_⟩
  rw [haccepts.opened] at hc
  cases hc

theorem Accepts.session_valid (h : s.Valid sha)
    (haccepts : s.Accepts id key sequence value session) :
    (Session.mk session.registered session.closed (session.keys.insert key
      (StateMachine.newRecord sha id key sequence value (s.lastApplied + 1)))).Valid sha id
        (s.lastApplied + 1) := by
  have hold := h.sessions _ _ haccepts.found
  refine ⟨hold.positive, hold.applied.trans (Nat.le_succ _), hold.registered, fun c hc => ?_, ?_,
    fun key' record hrecord => ?_⟩
  · exact (hold.mono (Nat.le_succ _)).closed c hc
  · show (session.keys.insert key _).size ≤ maxKeysPerSession
    have hcount := hold.count
    cases hrecord : session.keys[key]? with
    | none =>
      obtain ⟨-, hroom, -⟩ := haccepts.first hrecord
      rw [Table.size_insert_of_none hrecord]
      omega
    | some previous =>
      rw [Table.size_insert_of_some hrecord]
      exact hcount
  · simp only [Table.getElem?_insert] at hrecord
    split at hrecord
    · next heq =>
        cases hrecord
        subst heq
        have hnew := h.newRecord haccepts
        exact hnew
    · exact (hold.keys _ _ hrecord).mono (Nat.le_succ _)

/-- **An accepted mutation** leads to a valid state. -/
theorem Valid.mutated (h : s.Valid sha) (hindex : s.lastApplied + 1 ≤ u64Max)
    (haccepts : s.Accepts id key sequence value session) :
    ({ s.mutated id session key value
        (StateMachine.newRecord sha id key sequence value (s.lastApplied + 1)) with
      lastApplied := s.lastApplied + 1 } : StateMachine).Valid sha := by
  have hbytes := haccepts.bytes
  have hprevious := h.previousBytes_le haccepts.found key
  refine h.replaced (.key key) hindex haccepts.found (haccepts.session_valid h)
    (fun slot index hop => ?_) ?_ ?_ ?_ hbytes
  · cases slot with
    | registered => exact .inl hop
    | closed => exact .inl hop
    | key key' =>
      simp only [Session.operation, Table.getElem?_insert] at hop
      split at hop
      · next heq =>
          cases hop
          exact .inr ⟨by rw [heq], rfl⟩
      · exact .inl hop
  · show (if session.keys[key]? = none then s.retainedKeys + 1 else s.retainedKeys) + _ = _ +
      (session.keys.insert key _).size
    cases hrecord : session.keys[key]? with
    | none =>
      rw [if_pos rfl, Table.size_insert_of_none hrecord]
      omega
    | some previous => rw [if_neg (by simp), Table.size_insert_of_some hrecord]
  · show s.retainedPayloadBytes - previousBytes session key + (canonicalPayload key value).length +
      session.payloadBytes = _ + Table.total _ (session.keys.insert key _)
    have hlength : (StateMachine.newRecord sha id key sequence value
      (s.lastApplied + 1)).payload.length = (canonicalPayload key value).length := rfl
    cases hrecord : session.keys[key]? with
    | none =>
      have hzero : previousBytes session key = 0 := by rw [previousBytes, hrecord]; rfl
      rw [Table.total_insert_of_none _ hrecord, hzero, Session.payloadBytes]
      omega
    | some previous =>
      have hold : previousBytes session key = previous.payload.length := by
        rw [previousBytes, hrecord]
        rfl
      have hsum := Table.total_insert_of_some
        (v := StateMachine.newRecord sha id key sequence value (s.lastApplied + 1))
        (fun _ (record : KeyRecord) => record.payload.length) hrecord
      rw [Session.payloadBytes]
      omega
  · have hcount := h.keyCount
    show (if session.keys[key]? = none then s.retainedKeys + 1 else s.retainedKeys) ≤ _
    split
    · next hnone =>
        obtain ⟨-, -, hroom⟩ := haccepts.first hnone
        omega
    · exact hcount

theorem Valid.mutate (h : s.Valid sha) (hindex : s.lastApplied + 1 ≤ u64Max) (id : Nat)
    (key : String) (sequence : Nat) (value : Option String) :
    ∃ r s', s.mutate sha id key sequence value (s.lastApplied + 1) = some (r, s') ∧
      ({ s' with lastApplied := s.lastApplied + 1 } : StateMachine).Valid sha := by
  cases hmutate : s.mutate sha id key sequence value (s.lastApplied + 1) with
  | none => exact absurd hmutate h.mutate_ne_none
  | some p =>
    refine ⟨p.1, p.2, rfl, ?_⟩
    rcases mutate_cases hmutate with ⟨hsame, -⟩ | ⟨session, haccepts, -, hnew⟩
    · rw [hsame]
      exact h.advance hindex
    · rw [hnew]
      exact h.mutated hindex haccepts

theorem Valid.applyCommand (h : s.Valid sha) (hindex : s.lastApplied + 1 ≤ u64Max) :
    ∃ outcome s', s.applyCommand sha (s.lastApplied + 1) command = some (outcome, s') ∧
      ({ s' with lastApplied := s.lastApplied + 1 } : StateMachine).Valid sha := by
  cases command with
  | put key value => exact ⟨_, _, rfl, h.advance hindex⟩
  | delete key => exact ⟨_, _, rfl, h.advance hindex⟩
  | noOp => exact ⟨_, _, rfl, h.advance hindex⟩
  | configuration change => exact ⟨_, _, rfl, h.advance hindex⟩
  | registerSession nonce =>
    obtain ⟨r, s', hregister, hvalid⟩ := h.register hindex nonce
    refine ⟨.session r, s', ?_, hvalid⟩
    rw [StateMachine.applyCommand, hregister]
    rfl
  | closeSession id => exact ⟨_, _, rfl, h.close hindex id⟩
  | sessionPut id key sequence value =>
    obtain ⟨r, s', hmutate, hvalid⟩ := h.mutate hindex id key sequence (some value)
    refine ⟨.session r, s', ?_, hvalid⟩
    rw [StateMachine.applyCommand, hmutate]
    rfl
  | sessionDelete id key sequence =>
    obtain ⟨r, s', hmutate, hvalid⟩ := h.mutate hindex id key sequence none
    refine ⟨.session r, s', ?_, hvalid⟩
    rw [StateMachine.applyCommand, hmutate]
    rfl

theorem checkedAdd_one {n i : Nat} (h : checkedAdd n 1 = some i) : i = n + 1 ∧ n + 1 ≤ u64Max := by
  rw [checkedAdd] at h
  split at h
  · next hle =>
      cases h
      exact ⟨rfl, hle⟩
  · cases h

/-- What an applied entry has done. -/
theorem apply_ok (h : s.apply sha entry = some (.ok (outcome, s'))) :
    entry.index = s.lastApplied + 1 ∧ s.lastApplied + 1 ≤ u64Max ∧
      ∃ t, s.applyCommand sha entry.index entry.command = some (outcome, t) ∧
        s' = { t with lastApplied := entry.index } := by
  rw [StateMachine.apply] at h
  by_cases hnext : checkedAdd s.lastApplied 1 ≠ some entry.index
  · rw [if_pos hnext] at h
    cases h
  · obtain ⟨hindex, hle⟩ := checkedAdd_one (not_not.1 hnext)
    rw [if_neg hnext] at h
    obtain ⟨⟨outcome', t⟩, hcommand, heq⟩ := Option.map_eq_some_iff.1 h
    cases heq
    exact ⟨hindex, hle, t, hcommand, rfl⟩

/-- An entry is refused because of its index only. -/
theorem apply_error {e : ApplyError} (h : s.apply sha entry = some (.error e)) :
    checkedAdd s.lastApplied 1 ≠ some entry.index ∧ e = ⟨s.lastApplied, entry.index⟩ := by
  rw [StateMachine.apply] at h
  by_cases hnext : checkedAdd s.lastApplied 1 ≠ some entry.index
  · rw [if_pos hnext] at h
    cases h
    exact ⟨hnext, rfl⟩
  · rw [if_neg hnext] at h
    obtain ⟨p, -, heq⟩ := Option.map_eq_some_iff.1 h
    cases heq

/-- **An entry** does not panic, and leads to a valid state if it is the next one. -/
theorem Valid.apply (h : s.Valid sha) (entry : Entry) :
    (∃ e, s.apply sha entry = some (.error e)) ∨
      ∃ outcome s', s.apply sha entry = some (.ok (outcome, s')) ∧ s'.Valid sha := by
  unfold StateMachine.apply
  by_cases hnext : checkedAdd s.lastApplied 1 ≠ some entry.index
  · rw [if_pos hnext]
    exact .inl ⟨_, rfl⟩
  · obtain ⟨hindex, hle⟩ := checkedAdd_one (not_not.1 hnext)
    obtain ⟨outcome, s', hcommand, hvalid⟩ := h.applyCommand hle
    rw [if_neg hnext, hindex, hcommand]
    exact .inr ⟨outcome, _, rfl, hvalid⟩

theorem Valid.of_apply (h : s.Valid sha)
    (happly : s.apply sha entry = some (.ok (outcome, s'))) : s'.Valid sha := by
  rcases h.apply entry with ⟨e, herror⟩ | ⟨outcome', t, hok, hvalid⟩
  · rw [happly] at herror
    cases herror
  · rw [happly] at hok
    cases hok
    exact hvalid

/-! ## What an entry can do -/

/-- The mutation that a command asks for: session, key, sequence number and new value. -/
def mutationOf : Command → Option (Nat × String × Nat × Option String)
  | .sessionPut id key sequence value => some (id, key, sequence, some value)
  | .sessionDelete id key sequence => some (id, key, sequence, none)
  | _ => none

/-- The plain write that a command asks for. -/
def plainOf : Command → Option (String × Option String)
  | .put key value => some (key, some value)
  | .delete key => some (key, none)
  | _ => none

/-- What the command of an entry does to a state, apart from the applied index. -/
inductive Change (sha : Digest) (s : StateMachine) (index : Nat) :
    Command → StateMachine → Prop
  | same (command : Command) : Change sha s index command s
  | plain {command : Command} {key : String} {value : Option String}
      (hcommand : plainOf command = some (key, value)) :
      Change sha s index command { s with values := writeValue s.values key value }
  | registered {nonce : String} (hnonce : validNonce nonce = true)
      (hfresh : s.registrations[nonce]? = none) :
      Change sha s index (.registerSession nonce) { s with
        registrations := s.registrations.insert nonce index
        sessions := s.sessions.insert index ⟨.success index none index, none, ∅⟩ }
  | closed {id : Nat} {session : Session} (hsession : s.sessions[id]? = some session)
      (hopen : session.closed = none) :
      Change sha s index (.closeSession id) { s with
        sessions := s.sessions.insert id { session with closed := some (.success id none index) } }
  | mutated {command : Command} {id : Nat} {key : String} {sequence : Nat} {value : Option String}
      {session : Session} (hcommand : mutationOf command = some (id, key, sequence, value))
      (haccepts : s.Accepts id key sequence value session) :
      Change sha s index command
        (s.mutated id session key value (newRecord sha id key sequence value index))

theorem register_change (h : s.register nonce index = some (result, s')) :
    Change sha s index (.registerSession nonce) s' := by
  unfold StateMachine.register at h
  by_cases hnonce : validNonce nonce = true
  · rw [if_neg (not_not.2 hnonce)] at h
    cases hknown : s.registrations[nonce]? with
    | some id =>
      simp only [hknown] at h
      split at h
      · cases h
        exact .same _
      · cases h
    | none =>
      simp only [hknown] at h
      split at h
      · cases h
        exact .same _
      · cases h
        exact .registered hnonce hknown
  · rw [if_pos hnonce] at h
    cases h
    exact .same _

theorem close_change : Change sha s index (.closeSession id) (s.close id index).2 := by
  unfold StateMachine.close
  cases hsession : s.sessions[id]? with
  | none => exact .same _
  | some session =>
    cases hclosed : session.closed with
    | some result => simpa only [hclosed] using .same _
    | none =>
      simp only [hclosed]
      exact .closed hsession hclosed

theorem mutate_change (hcommand : mutationOf command = some (id, key, sequence, value))
    (h : s.mutate sha id key sequence value index = some (result, s')) :
    Change sha s index command s' := by
  rcases mutate_cases h with ⟨rfl, -⟩ | ⟨session, haccepts, -, rfl⟩
  · exact .same _
  · exact .mutated hcommand haccepts

theorem applyCommand_change (h : s.applyCommand sha index command = some (outcome, s')) :
    Change sha s index command s' := by
  cases command with
  | put key value =>
    cases h
    have hcommand : plainOf (.put key value) = some (key, some value) := rfl
    exact .plain hcommand
  | delete key =>
    cases h
    have hcommand : plainOf (.delete key) = some (key, none) := rfl
    exact .plain hcommand
  | noOp =>
    cases h
    exact .same _
  | configuration change =>
    cases h
    exact .same _
  | registerSession nonce =>
    obtain ⟨p, hregister, heq⟩ := Option.map_eq_some_iff.1 h
    cases heq
    exact register_change hregister
  | closeSession id =>
    cases h
    exact close_change
  | sessionPut id key sequence value =>
    obtain ⟨p, hmutate, heq⟩ := Option.map_eq_some_iff.1 h
    cases heq
    exact mutate_change rfl hmutate
  | sessionDelete id key sequence =>
    obtain ⟨p, hmutate, heq⟩ := Option.map_eq_some_iff.1 h
    cases heq
    exact mutate_change rfl hmutate

/-! ## Reachable states -/

/-- The states that entries with the given commands lead to. -/
inductive Reachable (sha : Digest) (admits : Command → Prop) : StateMachine → Prop
  | initial : Reachable sha admits .initial
  | applied {s s' : StateMachine} {entry : Entry} {outcome : ApplyOutcome}
      (h : Reachable sha admits s) (hadmits : admits entry.command)
      (happly : s.apply sha entry = some (.ok (outcome, s'))) : Reachable sha admits s'

variable {admits : Command → Prop}

/-- **Every reachable state is valid.** -/
theorem Reachable.valid (h : Reachable sha admits s) : s.Valid sha := by
  induction h with
  | initial => exact valid_initial sha
  | applied _ _ happly ih => exact ih.of_apply happly

/-- The bounds that the front end checks for plain writes. -/
def Bounded : Command → Prop
  | .put key value => validKey key = true ∧ value.utf8ByteSize ≤ maxValueBytes
  | _ => True

instance : DecidablePred Bounded
  | .put key value =>
      inferInstanceAs (Decidable (validKey key = true ∧ value.utf8ByteSize ≤ maxValueBytes))
  | .delete _ | .noOp | .configuration _ | .registerSession _ | .closeSession _
  | .sessionPut _ _ _ _ | .sessionDelete _ _ _ => isTrue trivial

/-- The values are within the limits of the service. -/
def ValuesBounded (s : StateMachine) : Prop :=
  ∀ key value : String, s.values[key]? = some value →
    validKey key = true ∧ value.utf8ByteSize ≤ maxValueBytes

theorem getElem?_writeValue {key' v : String} (h : (writeValue values key value)[key']? = some v) :
    values[key']? = some v ∨ (key' = key ∧ value = some v) := by
  cases value with
  | some value =>
    rw [writeValue, Table.getElem?_insert] at h
    split at h
    · next heq =>
        cases h
        exact .inr ⟨heq, rfl⟩
    · exact .inl h
  | none =>
    rw [writeValue, Table.getElem?_erase] at h
    split at h
    · cases h
    · exact .inl h

theorem getElem?_writeValue_of_ne {key' : String}
    (h : key' ≠ key) : (writeValue values key value)[key']? = values[key']? := by
  cases value with
  | some v => rw [writeValue, Table.getElem?_insert, if_neg h]
  | none => rw [writeValue, Table.getElem?_erase, if_neg h]

theorem ValuesBounded.writeValue {t : StateMachine}
    (h : s.ValuesBounded) (hkey : ∀ v ∈ value, validKey key = true ∧ v.utf8ByteSize ≤ maxValueBytes)
    (ht : t.values = Application.writeValue s.values key value) : t.ValuesBounded := by
  intro key' v hv
  rw [ht] at hv
  rcases getElem?_writeValue hv with hv | ⟨rfl, hvalue⟩
  · exact h _ _ hv
  · exact hkey v hvalue

theorem Change.valuesBounded (hchange : Change sha s index command s')
    (h : s.ValuesBounded) (hbounded : Bounded command) : s'.ValuesBounded := by
  cases hchange with
  | same => exact h
  | @plain _ key value hcommand =>
    refine h.writeValue (fun v hv => ?_) rfl
    cases command with
    | put key' value' =>
      cases hcommand
      cases hv
      exact hbounded
    | delete key' =>
      cases hcommand
      cases hv
    | _ => cases hcommand
  | registered => exact h
  | closed => exact h
  | mutated _ haccepts =>
    exact h.writeValue (fun v hv => ⟨haccepts.valid, haccepts.short v hv⟩) rfl

theorem Reachable.valuesBounded (h : Reachable sha Bounded s) : s.ValuesBounded := by
  induction h with
  | initial =>
    intro key value hvalue
    simp [StateMachine.initial] at hvalue
  | applied _ hbounded happly ih =>
    obtain ⟨-, -, t, hcommand, rfl⟩ := apply_ok happly
    exact (applyCommand_change hcommand).valuesBounded ih hbounded

/-- Entries one after the other: the state behind them, unless one of them is refused. -/
def applyAll (sha : Digest) (s : StateMachine) : List Entry → Option StateMachine
  | [] => some s
  | entry :: rest =>
      match s.apply sha entry with
      | some (.ok (_, s')) => s'.applyAll sha rest
      | _ => none

theorem Reachable.applyAll {entries : List Entry} (h : Reachable sha admits s)
    (hadmits : ∀ entry ∈ entries, admits entry.command)
    (hall : s.applyAll sha entries = some s') : Reachable sha admits s' := by
  induction entries generalizing s with
  | nil =>
    cases hall
    exact h
  | cons entry rest ih =>
    obtain ⟨hfirst, hrest⟩ := List.forall_mem_cons.1 hadmits
    rw [StateMachine.applyAll] at hall
    split at hall
    · next outcome t happly => exact ih (h.applied hfirst happly) hrest hall
    · cases hall

end StateMachine

end MicroRaft.Application
