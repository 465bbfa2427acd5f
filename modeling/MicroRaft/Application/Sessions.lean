import MicroRaft.Application.Snapshot

/-!
# Sessions

What a state remembers of its sessions is never lost: registrations and closes stay as
they are, and the sequence number of a key only grows (`Grows`).  So a mutation is
applied at most once, and a retry of the latest one gets the answer of the original
(`sessions_exactly_once`).
-/

namespace MicroRaft.Application

open Store (Digest toyDigest)

variable {sha : Digest} {s s' t u : StateMachine} {id index sequence : Nat} {key nonce : String}
  {value : Option String} {session session' : Session} {record : KeyRecord} {result : SessionResult}

/-! ## Nothing is forgotten -/

structure Session.Grows (session session' : Session) : Prop where
  registered : session'.registered = session.registered
  closed : ∀ c ∈ session.closed, session'.closed = some c
  /-- A record is replaced by one with a greater number only. -/
  keys : ∀ (key : String) (record : KeyRecord), session.keys[key]? = some record →
    ∃ record', session'.keys[key]? = some record' ∧ record.sequence ≤ record'.sequence ∧
      (record'.sequence = record.sequence → record' = record)

theorem Session.Grows.refl (session : Session) : session.Grows session :=
  ⟨rfl, fun _ hc => hc, fun _ record hrecord => ⟨record, hrecord, le_refl _, fun _ => rfl⟩⟩

theorem Session.Grows.trans {session₁ session₂ session₃ : Session} (h : session₁.Grows session₂)
    (h' : session₂.Grows session₃) : session₁.Grows session₃ where
  registered := h'.registered.trans h.registered
  closed c hc := h'.closed c (h.closed c hc)
  keys key record hrecord := by
    obtain ⟨record₂, hrecord₂, hle, heq⟩ := h.keys key record hrecord
    obtain ⟨record₃, hrecord₃, hle', heq'⟩ := h'.keys key record₂ hrecord₂
    refine ⟨record₃, hrecord₃, hle.trans hle', fun hsame => ?_⟩
    rw [heq' (by omega), heq (by omega)]

namespace StateMachine

structure Grows (s s' : StateMachine) : Prop where
  registrations : ∀ (nonce : String) (id : Nat), s.registrations[nonce]? = some id →
    s'.registrations[nonce]? = some id
  sessions : ∀ (id : Nat) (session : Session), s.sessions[id]? = some session →
    ∃ session', s'.sessions[id]? = some session' ∧ session.Grows session'

theorem Grows.refl (s : StateMachine) : s.Grows s :=
  ⟨fun _ _ h => h, fun _ session h => ⟨session, h, .refl session⟩⟩

theorem Grows.trans (h : s.Grows t) (h' : t.Grows u) : s.Grows u where
  registrations nonce id hid := h'.registrations nonce id (h.registrations nonce id hid)
  sessions id session hsession := by
    obtain ⟨session₂, hsession₂, hgrows⟩ := h.sessions id session hsession
    obtain ⟨session₃, hsession₃, hgrows'⟩ := h'.sessions id session₂ hsession₂
    exact ⟨session₃, hsession₃, hgrows.trans hgrows'⟩

/-- One session is replaced by one that knows more. -/
theorem grows_insert (hsession : s.sessions[id]? = some session) (hgrows : session.Grows session')
    (hregistrations : t.registrations = s.registrations)
    (hsessions : t.sessions = s.sessions.insert id session') : s.Grows t where
  registrations nonce id hid := by rwa [hregistrations]
  sessions id' session₁ hsession₁ := by
    rw [hsessions, Table.getElem?_insert]
    by_cases heq : id' = id
    · subst heq
      rw [hsession] at hsession₁
      cases hsession₁
      exact ⟨session', if_pos rfl, hgrows⟩
    · exact ⟨session₁, (if_neg heq).trans hsession₁, .refl session₁⟩

/-- An accepted mutation replaces the record of its key by the next one. -/
theorem Accepts.grows (h : s.Accepts id key sequence value session) (sha : Digest) (index : Nat) :
    session.Grows { session with
      keys := session.keys.insert key (newRecord sha id key sequence value index) } where
  registered := rfl
  closed c hc := hc
  keys key' record hrecord := by
    rw [Table.getElem?_insert]
    by_cases heq : key' = key
    · subst heq
      obtain ⟨hnext, -⟩ := h.next record hrecord
      refine ⟨_, if_pos rfl, ?_, fun hsame => ?_⟩
      · exact Nat.le_of_lt (by rw [newRecord]; dsimp only; omega)
      · rw [newRecord] at hsame
        dsimp only at hsame
        omega
    · exact ⟨record, (if_neg heq).trans hrecord, le_refl _, fun _ => rfl⟩

/-- **An entry** forgets nothing. -/
theorem apply_grows {entry : Entry} {outcome : ApplyOutcome} (h : s.Valid sha)
    (happly : s.apply sha entry = some (.ok (outcome, s'))) : s.Grows s' := by
  obtain ⟨hindex, -, t, hcommand, rfl⟩ := apply_ok happly
  have hchange := applyCommand_change hcommand
  clear happly hcommand
  obtain ⟨index, term, command⟩ := entry
  dsimp only at hindex hchange ⊢
  cases hchange with
  | same => exact ⟨fun _ _ h => h, fun _ session h => ⟨session, h, .refl session⟩⟩
  | plain _ => exact ⟨fun _ _ h => h, fun _ session h => ⟨session, h, .refl session⟩⟩
  | @registered nonce _ hnew =>
    refine ⟨fun nonce' id hid => ?_, fun id session hsession => ⟨session, ?_, .refl session⟩⟩
    · have hne : nonce' ≠ nonce := by
        rintro rfl
        rw [hnew] at hid
        cases hid
      rwa [Table.getElem?_insert, if_neg hne]
    · have hne : id ≠ index := by
        have := (h.sessions id session hsession).applied
        omega
      rwa [Table.getElem?_insert, if_neg hne]
  | closed hsession hopen =>
    refine grows_insert hsession ?_ rfl rfl
    refine ⟨rfl, fun c hc => ?_, fun key record hrecord => ?_⟩
    · rw [hopen] at hc
      cases hc
    · exact ⟨record, hrecord, le_refl _, fun _ => rfl⟩
  | mutated _ haccepts => exact grows_insert haccepts.found (haccepts.grows sha index) rfl rfl

/-- Applying entries leads from one state to the other. -/
def Later (sha : Digest) (s s' : StateMachine) : Prop := ∃ entries, s.applyAll sha entries = some s'

theorem Later.grows (hlater : Later sha s s') (h : s.Valid sha) :
    s.Grows s' ∧ s'.Valid sha := by
  obtain ⟨entries, hall⟩ := hlater
  induction entries generalizing s with
  | nil =>
    cases hall
    exact ⟨.refl _, h⟩
  | cons entry rest ih =>
    rw [applyAll] at hall
    split at hall
    · next outcome t happly =>
        obtain ⟨hgrows, hvalid'⟩ := ih (h.of_apply happly) hall
        exact ⟨(apply_grows h happly).trans hgrows, hvalid'⟩
    · cases hall

end StateMachine

/-! ## Retries -/

/-- A payload tells the size of its value. -/
theorem canonicalPayload_short {v' : Option String}
    (heq : canonicalPayload key v' = canonicalPayload key value)
    (hshort : ∀ v ∈ value, v.utf8ByteSize ≤ maxValueBytes) :
    ∀ v ∈ v', v.utf8ByteSize ≤ maxValueBytes := by
  intro v hv
  cases hv
  have hlength : ∀ v : String, (lengthPrefixed v).length = 8 + v.utf8ByteSize := by
    intro v
    rw [lengthPrefixed, List.length_append, Bytes.length_be, length_utf8]
  have hsize := congrArg List.length heq
  cases value with
  | none =>
    simp only [canonicalPayload, List.length_append, Option.elim, hlength, List.length_nil] at hsize
    simp at hsize
  | some w =>
    have hw := hshort w rfl
    simp only [canonicalPayload, List.length_append, Option.elim, hlength] at hsize
    simp only [List.length_cons, List.length_nil] at hsize
    omega

namespace StateMachine

/-- The latest mutation of a key. -/
structure Latest (s : StateMachine) (id : Nat) (key : String) (session : Session)
    (record : KeyRecord) : Prop where
  found : s.sessions[id]? = some session
  recorded : session.keys[key]? = some record

/-- A payload that has been retained is one of a key and a value within the limits. -/
theorem Valid.repeat_fits (h : s.Valid sha) (hlatest : s.Latest id key session record)
    (hpayload : canonicalPayload key value = record.payload) :
    validKey key = true ∧ ¬ ∃ v ∈ value, v.utf8ByteSize > maxValueBytes := by
  have hvalid := (h.sessions id session hlatest.found).keys key record hlatest.recorded
  obtain ⟨v, hv, hcanonical⟩ := hvalid.payload
  refine ⟨hvalid.valid, ?_⟩
  rintro ⟨w, hw, hlarge⟩
  have := canonicalPayload_short (hpayload.trans hcanonical) hv w hw
  omega

/-- **A retry** of the latest mutation of a key gets the retained answer and changes nothing. -/
theorem Valid.mutate_retry (h : s.Valid sha) (hlatest : s.Latest id key session record)
    (hopen : session.closed = none) (hpayload : canonicalPayload key value = record.payload)
    (index : Nat) :
    s.mutate sha id key record.sequence value index = some (record.result, s) := by
  have hvalid := (h.sessions id session hlatest.found).keys key record hlatest.recorded
  obtain ⟨hkey, hshort⟩ := h.repeat_fits hlatest hpayload
  have hdigest : sha.run (canonicalPayload key value) = record.digest := by
    rw [hpayload, hvalid.digest]
  have hpositive := hvalid.positive
  rw [StateMachine.mutate, if_neg (not_not.2 hkey), if_neg hshort]
  simp only [hlatest.found, hopen, Option.isSome_none, Bool.false_eq_true, if_false]
  rw [if_neg (by omega), hlatest.recorded, expectedSequence, if_pos rfl,
    if_pos ⟨hdigest, hpayload⟩]

/-- **A closed session** refuses every mutation and keeps what it has. -/
theorem mutate_closed (hsession : s.sessions[id]? = some session) (hclosed : session.closed ≠ none)
    (sha : Digest) (key : String) (sequence : Nat) (value : Option String) (index : Nat) :
    s.mutate sha id key sequence value index =
      some (.rejected (if ¬ validKey key then .invalidKey
        else if ∃ v ∈ value, v.utf8ByteSize > maxValueBytes then .valueTooLarge
        else .sessionClosed) none, s) := by
  have hsome : session.closed.isSome = true := Option.isSome_iff_ne_none.2 hclosed
  rw [StateMachine.mutate]
  split
  · rfl
  split
  · rfl
  simp only [hsession, hsome, if_true]

theorem Latest.advance (h : s.Latest id key session record) (index : Nat) :
    StateMachine.Latest { s with lastApplied := index } id key session record :=
  ⟨h.found, h.recorded⟩

theorem latest_mutated (sha : Digest) (s : StateMachine) (id : Nat) (session : Session)
    (key : String) (sequence : Nat) (value : Option String) (index : Nat) :
    (s.mutated id session key value (newRecord sha id key sequence value index)).Latest id key
      { session with keys := session.keys.insert key (newRecord sha id key sequence value index) }
      (newRecord sha id key sequence value index) := by
  constructor
  · rw [mutated, Table.getElem?_insert, if_pos rfl]
  · rw [Table.getElem?_insert, if_pos rfl]

/-- A mutation that succeeded is the latest one of its key. -/
theorem mutate_ok (h : s.mutate sha id key sequence value index = some (result, s'))
    (hok : result.ok = true) :
    ∃ session record, s'.Latest id key session record ∧ record.sequence = sequence ∧
      record.payload = canonicalPayload key value ∧ record.result = result := by
  rcases mutate_cases h with ⟨rfl, hrejected | ⟨session, record, hrepeats, rfl⟩⟩ |
    ⟨session, haccepts, rfl, rfl⟩
  · obtain ⟨error, expected, rfl⟩ := hrejected
    cases hok
  · exact ⟨session, record, ⟨hrepeats.found, hrepeats.recorded⟩, hrepeats.sequence,
      hrepeats.payload, rfl⟩
  · exact ⟨_, _, latest_mutated .., rfl, rfl, rfl⟩

/-- The latest mutation stays the latest one until a greater number comes. -/
theorem Grows.latest (h : s.Grows t) (hlatest : s.Latest id key session record) :
    ∃ session' record', t.Latest id key session' record' ∧ record.sequence ≤ record'.sequence ∧
      (record'.sequence = record.sequence → record' = record) := by
  obtain ⟨session', hsession', hgrows⟩ := h.sessions id session hlatest.found
  obtain ⟨record', hrecord', hle, heq⟩ := hgrows.keys key record hlatest.recorded
  exact ⟨session', record', ⟨hsession', hrecord'⟩, hle, heq⟩

theorem Latest.unique {session' : Session} {record' : KeyRecord}
    (h : s.Latest id key session record) (h' : s.Latest id key session' record') :
    session' = session ∧ record' = record := by
  have hsession := h'.found
  rw [h.found] at hsession
  cases hsession
  have hrecord := h'.recorded
  rw [h.recorded] at hrecord
  cases hrecord
  exact ⟨rfl, rfl⟩

/-- A mutation is accepted with the next number only. -/
theorem Accepts.sequence_eq (h : s.Accepts id key sequence value session')
    (hlatest : s.Latest id key session record) : sequence = record.sequence + 1 := by
  have hsession := hlatest.found
  rw [h.found] at hsession
  cases hsession
  exact (h.next record hlatest.recorded).1

/-- A number that has been accepted is not accepted again. -/
theorem Latest.not_accepts (h : s.Latest id key session record) (hgrows : s.Grows t)
    (hle : sequence ≤ record.sequence) : ¬ t.Accepts id key sequence value session' := by
  intro haccepts
  obtain ⟨session₂, record₂, hlatest, hgrown, -⟩ := hgrows.latest h
  have hnext := haccepts.sequence_eq hlatest
  omega

/-- A closed session stays closed. -/
theorem Grows.stays_closed (h : s.Grows t) (hsession : s.sessions[id]? = some session)
    (hclosed : session.closed ≠ none) :
    ∃ session', t.sessions[id]? = some session' ∧ session'.closed ≠ none := by
  obtain ⟨session', hsession', hkept⟩ := h.sessions id session hsession
  obtain ⟨c, hc⟩ := Option.ne_none_iff_exists'.1 hclosed
  refine ⟨session', hsession', ?_⟩
  rw [hkept.closed c hc]
  exact Option.some_ne_none c

/-! ## Entries -/

theorem apply_mutation {e : Entry} {outcome : ApplyOutcome}
    (hcommand : mutationOf e.command = some (id, key, sequence, value))
    (h : s.apply sha e = some (.ok (outcome, t))) :
    ∃ result s₁, s.mutate sha id key sequence value e.index = some (result, s₁) ∧
      outcome = .session result ∧ t = { s₁ with lastApplied := e.index } := by
  obtain ⟨-, -, s₁, happly, rfl⟩ := apply_ok h
  obtain ⟨index, term, command⟩ := e
  dsimp only at hcommand happly ⊢
  cases command with
  | sessionPut id key sequence value =>
    cases hcommand
    obtain ⟨p, hmutate, heq⟩ := Option.map_eq_some_iff.1 happly
    cases heq
    exact ⟨p.1, p.2, hmutate, rfl, rfl⟩
  | sessionDelete id key sequence =>
    cases hcommand
    obtain ⟨p, hmutate, heq⟩ := Option.map_eq_some_iff.1 happly
    cases heq
    exact ⟨p.1, p.2, hmutate, rfl, rfl⟩
  | _ => cases hcommand

theorem apply_registration {e : Entry} {outcome : ApplyOutcome}
    (hcommand : e.command = .registerSession nonce)
    (h : s.apply sha e = some (.ok (outcome, t))) :
    ∃ result s₁, s.register nonce e.index = some (result, s₁) ∧
      outcome = .session result ∧ t = { s₁ with lastApplied := e.index } := by
  obtain ⟨-, -, s₁, happly, rfl⟩ := apply_ok h
  rw [hcommand] at happly
  obtain ⟨p, hregister, heq⟩ := Option.map_eq_some_iff.1 happly
  cases heq
  exact ⟨p.1, p.2, hregister, rfl, rfl⟩

/-- A registration that succeeded is retained. -/
theorem register_ok (h : s.register nonce index = some (result, s')) (hok : result.ok = true) :
    validNonce nonce = true ∧ ∃ id session, s'.registrations[nonce]? = some id ∧
      s'.sessions[id]? = some session ∧ session.registered = result := by
  unfold StateMachine.register at h
  by_cases hnonce : validNonce nonce = true
  · refine ⟨hnonce, ?_⟩
    rw [if_neg (not_not.2 hnonce)] at h
    cases hknown : s.registrations[nonce]? with
    | some id =>
      simp only [hknown] at h
      cases hsession : s.sessions[id]? with
      | some session =>
        simp only [hsession] at h
        cases h
        exact ⟨id, session, hknown, hsession, rfl⟩
      | none =>
        simp only [hsession] at h
        cases h
    | none =>
      simp only [hknown] at h
      split at h
      · cases h
        cases hok
      · cases h
        refine ⟨index, ⟨.success index none index, none, ∅⟩, ?_, ?_, rfl⟩
        · rw [Table.getElem?_insert, if_pos rfl]
        · rw [Table.getElem?_insert, if_pos rfl]
  · rw [if_pos hnonce] at h
    cases h
    cases hok

/-- A retained registration is answered again. -/
theorem register_again (hnonce : validNonce nonce = true)
    (hknown : s.registrations[nonce]? = some id)
    (hsession : s.sessions[id]? = some session) (index : Nat) :
    s.register nonce index = some (session.registered, s) := by
  rw [register, if_neg (not_not.2 hnonce)]
  simp only [hknown, hsession]

end StateMachine

namespace StateMachine

/-- **Sessions are exactly once.**  Let an entry be applied in a reachable state, and another one
after any number of entries behind it.

If both mutate a key of a session with one sequence number, and the first one changed the state,
the second one moves the applied index only.  If the number is still the latest one, the second one
with the payload of a success gets its answer while the session is open, and moves the applied
index only.  Once the session is closed the same repeat is answered `session_closed`.  A mutation
that does more has found its session, open and with room, and has the next number of its key.
In a session that is closed behind the first entry, the second one is refused.  A nonce that
has been registered gets the answer of its registration. -/
theorem sessions_exactly_once (sha : Digest) {s t u u' : StateMachine} {e e' : Entry}
    {outcome outcome' : ApplyOutcome} (hreach : s.Reachable sha fun _ => True)
    (he : s.apply sha e = some (.ok (outcome, t))) (hlater : Later sha t u)
    (he' : u.apply sha e' = some (.ok (outcome', u'))) :
    (∀ id key sequence v v', mutationOf e.command = some (id, key, sequence, v) →
      mutationOf e'.command = some (id, key, sequence, v') →
      t ≠ { s with lastApplied := e.index } → u' = { u with lastApplied := e'.index }) ∧
    (∀ id key sequence v v' result session record,
      mutationOf e.command = some (id, key, sequence, v) →
      mutationOf e'.command = some (id, key, sequence, v') →
      canonicalPayload key v' = canonicalPayload key v →
      outcome = .session result → result.ok = true → u.Latest id key session record →
      (session.closed = none → record.sequence = sequence →
        outcome' = .session result ∧ u' = { u with lastApplied := e'.index }) ∧
      (session.closed ≠ none → outcome' = .session (.rejected .sessionClosed none) ∧
        u' = { u with lastApplied := e'.index })) ∧
    (∀ id key sequence v, mutationOf e'.command = some (id, key, sequence, v) →
      u' ≠ { u with lastApplied := e'.index } →
      outcome' = .session (.success id (some sequence) e'.index) ∧
        ∃ session, u.Accepts id key sequence v session) ∧
    (∀ id key sequence v session, mutationOf e'.command = some (id, key, sequence, v) →
      t.sessions[id]? = some session → session.closed ≠ none →
      u' = { u with lastApplied := e'.index } ∧
        outcome' = .session (.rejected (if ¬ validKey key then .invalidKey
          else if ∃ w ∈ v, w.utf8ByteSize > maxValueBytes then .valueTooLarge
          else .sessionClosed) none)) ∧
    (∀ nonce result, e.command = .registerSession nonce → e'.command = .registerSession nonce →
      outcome = .session result → result.ok = true →
      outcome' = .session result ∧ u' = { u with lastApplied := e'.index }) := by
  have hvalid := hreach.valid.of_apply he
  obtain ⟨hgrows, huvalid⟩ := hlater.grows hvalid
  refine ⟨?_, ?_, ?_, ?_, ?_⟩
  · intro id key sequence v v' hcommand hcommand' hchanged
    obtain ⟨result, s₁, hmutate, -, rfl⟩ := apply_mutation hcommand he
    obtain ⟨result', u₁, hmutate', -, rfl⟩ := apply_mutation hcommand' he'
    rcases mutate_cases hmutate with ⟨rfl, -⟩ | ⟨session, haccepts, -, rfl⟩
    · exact absurd rfl hchanged
    rcases mutate_cases hmutate' with ⟨rfl, -⟩ | ⟨session', haccepts', -, -⟩
    · rfl
    have hfirst := latest_mutated sha s id session key sequence v e.index
    exact absurd haccepts' ((hfirst.advance e.index).not_accepts hgrows le_rfl)
  · intro id key sequence v v' result session record hcommand hcommand' hpayload houtcome hok
      hlatest
    obtain ⟨result₁, s₁, hmutate, hresult, rfl⟩ := apply_mutation hcommand he
    obtain ⟨result', u₁, hmutate', rfl, rfl⟩ := apply_mutation hcommand' he'
    rw [houtcome] at hresult
    cases hresult
    obtain ⟨session₁, record₁, hfirst, hsequence₁, hpayload₁, rfl⟩ := mutate_ok hmutate hok
    obtain ⟨session₂, record₂, hlatest₂, -, hsame⟩ := hgrows.latest (hfirst.advance e.index)
    obtain ⟨rfl, rfl⟩ := hlatest₂.unique hlatest
    refine ⟨fun hopen hsequence => ?_, fun hclosed => ?_⟩
    · have heq := hsame (hsequence.trans hsequence₁.symm)
      subst heq
      have hretry := huvalid.mutate_retry hlatest hopen (hpayload.trans hpayload₁.symm) e'.index
      rw [hsequence, hmutate'] at hretry
      cases hretry
      exact ⟨rfl, rfl⟩
    · -- the payload of a success is within the limits, so the close is what refuses the repeat
      obtain ⟨hkey, hshort⟩ := hvalid.repeat_fits (hfirst.advance e.index)
        (hpayload.trans hpayload₁.symm)
      have hrefused := mutate_closed hlatest.found hclosed sha key sequence v' e'.index
      rw [if_neg (not_not.2 hkey), if_neg hshort, hmutate'] at hrefused
      cases hrefused
      exact ⟨rfl, rfl⟩
  · intro id key sequence v hcommand hchanged
    obtain ⟨result, u₁, hmutate, rfl, rfl⟩ := apply_mutation hcommand he'
    rcases mutate_cases hmutate with ⟨rfl, -⟩ | ⟨session, haccepts, rfl, -⟩
    · exact absurd rfl hchanged
    · exact ⟨rfl, session, haccepts⟩
  · intro id key sequence v session hcommand hsession hclosed
    obtain ⟨result, u₁, hmutate, rfl, rfl⟩ := apply_mutation hcommand he'
    obtain ⟨session', hsession', hclosed'⟩ := hgrows.stays_closed hsession hclosed
    rw [mutate_closed hsession' hclosed' sha key sequence v e'.index] at hmutate
    cases hmutate
    exact ⟨rfl, rfl⟩
  · intro nonce result hcommand hcommand' houtcome hok
    obtain ⟨result₁, s₁, hregister, hresult, rfl⟩ := apply_registration hcommand he
    obtain ⟨result', u₁, hregister', rfl, rfl⟩ := apply_registration hcommand' he'
    rw [houtcome] at hresult
    cases hresult
    obtain ⟨hnonce, id, session, hid, hsession, rfl⟩ := register_ok hregister hok
    obtain ⟨session', hsession', hkept⟩ := hgrows.sessions id session hsession
    rw [register_again hnonce (hgrows.registrations nonce id hid) hsession'] at hregister'
    cases hregister'
    exact ⟨congrArg ApplyOutcome.session hkept.registered, rfl⟩

end StateMachine

/-! ## A retry, and a retry behind a close -/

/-- The applied entry satisfies a test. -/
def tests (r : Option (Except ApplyError (ApplyOutcome × StateMachine)))
    (test : ApplyOutcome → StateMachine → Bool) : Bool :=
  match r with
  | some (.ok (outcome, s)) => test outcome s
  | _ => false

theorem of_tests {r : Option (Except ApplyError (ApplyOutcome × StateMachine))}
    {test : ApplyOutcome → StateMachine → Bool} (h : tests r test = true) :
    ∃ outcome s, r = some (.ok (outcome, s)) ∧ test outcome s = true := by
  unfold tests at h
  split at h
  · next outcome s => exact ⟨outcome, s, rfl, h⟩
  · cases h

/-- The latest number of a key in a session, with the state of the session. -/
def latestOf (s : StateMachine) (id : Nat) (key : String) : Option (Nat × Bool) :=
  (s.sessions[id]?).bind fun session =>
    (session.keys[key]?).map fun record => (record.sequence, session.closed.isSome)

theorem latest_of_latestOf {n : Nat} {closed : Bool} (h : latestOf s id key = some (n, closed)) :
    ∃ session record, s.Latest id key session record ∧ record.sequence = n ∧
      session.closed.isSome = closed := by
  obtain ⟨session, hsession, hrest⟩ := Option.bind_eq_some_iff.1 h
  obtain ⟨record, hrecord, heq⟩ := Option.map_eq_some_iff.1 hrest
  cases heq
  exact ⟨session, record, ⟨hsession, hrecord⟩, rfl, rfl⟩

/-- A put in the session of entry 1. -/
def samplePut (index : Nat) : Entry := ⟨index, 1, .sessionPut 1 "key" 1 "value"⟩

/-- A run with the put at 2, an entry at 3 and the same put at 4. -/
theorem sample_run (between : Command) (n : Nat) (closed : Bool) (outcome' : ApplyOutcome)
    (h : (StateMachine.initial.applyAll toyDigest [⟨1, 1, .registerSession "first"⟩]).any (fun s =>
      tests (s.apply toyDigest (samplePut 2)) fun outcome t =>
        outcome = .session (.success 1 (some 1) 2) &&
          (t.applyAll toyDigest [⟨3, 1, between⟩]).any fun u =>
            latestOf u 1 "key" = some (n, closed) &&
              tests (u.apply toyDigest (samplePut 4)) fun outcome _ => outcome = outcome') = true) :
    ∃ s t u u' : StateMachine, s.Reachable toyDigest (fun _ => True) ∧
      s.apply toyDigest (samplePut 2) = some (.ok (.session (.success 1 (some 1) 2), t)) ∧
      StateMachine.Later toyDigest t u ∧
      u.apply toyDigest (samplePut 4) = some (.ok (outcome', u')) ∧
      ∃ session record, u.Latest 1 "key" session record ∧ record.sequence = n ∧
        session.closed.isSome = closed := by
  obtain ⟨s, hs, h⟩ := (Option.any_eq_true _ _).1 h
  obtain ⟨outcome, t, ht, h⟩ := of_tests h
  simp only [Bool.and_eq_true, decide_eq_true_eq] at h
  obtain ⟨rfl, h⟩ := h
  obtain ⟨u, hu, h⟩ := (Option.any_eq_true _ _).1 h
  simp only [Bool.and_eq_true, decide_eq_true_eq] at h
  obtain ⟨hlatest, h⟩ := h
  obtain ⟨outcome, u', hu', h⟩ := of_tests h
  cases of_decide_eq_true h
  exact ⟨s, t, u, u', StateMachine.Reachable.initial.applyAll (by simp) hs, ht, ⟨_, hu⟩, hu',
    latest_of_latestOf hlatest⟩

/-- The retry of a put gets the index of the original, although another write came between. -/
theorem sessions_exactly_once_retry :
    ∃ (s t u u' : StateMachine) (outcome' : ApplyOutcome), s.Reachable toyDigest (fun _ => True) ∧
      s.apply toyDigest (samplePut 2) = some (.ok (.session (.success 1 (some 1) 2), t)) ∧
      StateMachine.Later toyDigest t u ∧
      u.apply toyDigest (samplePut 4) = some (.ok (outcome', u')) ∧
      outcome' = .session (.success 1 (some 1) 2) ∧ u' = { u with lastApplied := 4 } := by
  obtain ⟨s, t, u, u', hs, ht, hu, hu', session, record, hlatest, hsequence, hopen⟩ :=
    sample_run (.put "key" "other") 1 false (.session (.success 1 (some 1) 2)) (by decide +kernel)
  obtain ⟨-, hretry, -⟩ := StateMachine.sessions_exactly_once toyDigest hs ht hu hu'
  obtain ⟨houtcome, hsame⟩ := (hretry 1 "key" 1 (some "value") (some "value") _ session record rfl
    rfl rfl rfl rfl hlatest).1 (by simpa using hopen) hsequence
  exact ⟨s, t, u, u', _, hs, ht, hu, hu', houtcome, hsame⟩

/-- **Behind a close** the retry of the latest number does not get the answer of the original. -/
theorem retry_closed :
    ∃ s t u u' : StateMachine, s.Reachable toyDigest (fun _ => True) ∧
      s.apply toyDigest (samplePut 2) = some (.ok (.session (.success 1 (some 1) 2), t)) ∧
      StateMachine.Later toyDigest t u ∧
      u.apply toyDigest (samplePut 4) =
        some (.ok (.session (.rejected .sessionClosed none), u')) ∧
      ∃ session record, u.Latest 1 "key" session record ∧ record.sequence = 1 := by
  obtain ⟨s, t, u, u', hs, ht, hu, hu', session, record, hlatest, hsequence, -⟩ :=
    sample_run (.closeSession 1) 1 true (.session (.rejected .sessionClosed none))
      (by decide +kernel)
  exact ⟨s, t, u, u', hs, ht, hu, hu', session, record, hlatest, hsequence⟩

end MicroRaft.Application
