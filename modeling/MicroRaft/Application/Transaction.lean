import MicroRaft.Application.Snapshot

/-!
# Provisional application

An `ApplicationTransaction` applies entries in place and keeps, for each of them, the
cells that its command could change.  What it is for is said by `Saved`, which keeps a
copy of the whole state in front of every entry.  The two cannot be told apart by any
sequence of calls (`transaction_exact`).
-/

namespace MicroRaft.Application

open Store (Digest toyDigest)

variable {sha : Digest} {s s' : StateMachine} {index : Nat}

/-! ## The undo record -/

inductive SessionUndo
  | unchanged
  | registered (sessionId : Nat)
  | closed (sessionId : Nat) (previous : Option SessionResult)
  | key (sessionId : Nat) (key : String) (previous : Option KeyRecord)
  deriving DecidableEq, Repr

structure ApplicationUndo where
  lastApplied : Nat
  retainedKeys : Nat
  retainedPayloadBytes : Nat
  value : Option (String × Option String)
  registration : Option (String × Option Nat)
  session : SessionUndo
  deriving DecidableEq, Repr

namespace ApplicationUndo

/-- The record of an entry that changes a value or a registration, or something of a session. -/
def ofState (s : StateMachine) (value : Option (String × Option String))
    (registration : Option (String × Option Nat)) (session : SessionUndo) : ApplicationUndo :=
  ⟨s.lastApplied, s.retainedKeys, s.retainedPayloadBytes, value, registration, session⟩

/-- The key of a session, if the session is known. -/
def captureKey (s : StateMachine) (id : Nat) (key : String) : SessionUndo :=
  match s.sessions[id]? with
  | some session => .key id key session.keys[key]?
  | none => .unchanged

def capture (s : StateMachine) (entry : Entry) : ApplicationUndo :=
  match entry.command with
  | .put key _ => ofState s (some (key, s.values[key]?)) none .unchanged
  | .delete key => ofState s (some (key, s.values[key]?)) none .unchanged
  | .registerSession nonce =>
      ofState s none (some (nonce, s.registrations[nonce]?)) (.registered entry.index)
  | .closeSession id =>
      match s.sessions[id]? with
      | some session => ofState s none none (.closed id session.closed)
      | none => ofState s none none .unchanged
  | .sessionPut id key _ _ => ofState s (some (key, s.values[key]?)) none (captureKey s id key)
  | .sessionDelete id key _ => ofState s (some (key, s.values[key]?)) none (captureKey s id key)
  | .noOp => ofState s none none .unchanged
  | .configuration _ => ofState s none none .unchanged

section

variable {K V : Type} [Ord K] [Std.TransOrd K]

def restoreCell (map : BTreeMap K V) (key : K) : Option V → BTreeMap K V
  | some value => map.insert key value
  | none => map.erase key

/-- A cell that may have been captured. -/
def restoreSome (map : BTreeMap K V) : Option (K × Option V) → BTreeMap K V
  | some (key, value) => restoreCell map key value
  | none => map

end

/-- `none` is the panic of `expect("undo retains prior session")`. -/
def restoreSession (sessions : BTreeMap Nat Session) : SessionUndo → Option (BTreeMap Nat Session)
  | .unchanged => some sessions
  | .registered id => some (sessions.erase id)
  | .closed id previous =>
      (sessions[id]?).map fun session => sessions.insert id { session with closed := previous }
  | .key id key previous =>
      (sessions[id]?).map fun session =>
        sessions.insert id { session with keys := restoreCell session.keys key previous }

def restore (undo : ApplicationUndo) (s : StateMachine) : Option StateMachine :=
  (restoreSession s.sessions undo.session).map fun sessions =>
    { values := restoreSome s.values undo.value
      registrations := restoreSome s.registrations undo.registration
      sessions := sessions
      lastApplied := undo.lastApplied
      retainedKeys := undo.retainedKeys
      retainedPayloadBytes := undo.retainedPayloadBytes }

end ApplicationUndo

/-! ## Transactions -/

/-- The records are in a stack, the latest one on top. -/
structure ApplicationTransaction where
  state : StateMachine
  undo : List ApplicationUndo

namespace ApplicationTransaction

def undoLast (tx : ApplicationTransaction) : Option ApplicationTransaction :=
  match tx.undo with
  -- `expect("undo applies only to a prepared entry")`
  | [] => none
  | undo :: rest => (undo.restore tx.state).map fun state => ⟨state, rest⟩

def apply (sha : Digest) (tx : ApplicationTransaction) (entry : Entry) :
    Option (Except ApplyError ApplyOutcome × ApplicationTransaction) :=
  if checkedAdd tx.state.lastApplied 1 ≠ some entry.index then
    some (.error ⟨tx.state.lastApplied, entry.index⟩, tx)
  else
    match tx.state.apply sha entry with
    | none => none
    | some (.ok (outcome, state)) =>
        some (.ok outcome, ⟨state, ApplicationUndo.capture tx.state entry :: tx.undo⟩)
    | some (.error e) =>
        (undoLast ⟨tx.state, ApplicationUndo.capture tx.state entry :: tx.undo⟩).map fun tx' =>
          (.error e, tx')

/-- `StateMachine::transaction`. -/
def start (s : StateMachine) : ApplicationTransaction := ⟨s, []⟩

def commit (tx : ApplicationTransaction) : StateMachine := tx.state

/-- Restoring all records, the latest one first. -/
def unwind : List ApplicationUndo → StateMachine → Option StateMachine
  | [], s => some s
  | undo :: rest, s => (undo.restore s).bind (unwind rest)

/-- The state behind a transaction that was not committed. -/
def drop (tx : ApplicationTransaction) : Option StateMachine := unwind tx.undo tx.state

end ApplicationTransaction

/-! ## Saved states -/

/-- What a transaction is for: the states in front of the applied entries, the latest on top. -/
structure Saved where
  current : StateMachine
  before : List StateMachine

inductive Call
  | apply (entry : Entry)
  | undoLast
  deriving DecidableEq, Repr

/-- The answer of a call; taking back has none. -/
abbrev Answer := Option (Except ApplyError ApplyOutcome)

def Saved.call (sha : Digest) (saved : Saved) : Call → Option (Answer × Saved)
  | .apply entry =>
      match saved.current.apply sha entry with
      | none => none
      | some (.ok (outcome, state)) =>
          some (some (.ok outcome), ⟨state, saved.current :: saved.before⟩)
      | some (.error e) => some (some (.error e), saved)
  | .undoLast =>
      match saved.before with
      | [] => none
      | state :: rest => some (none, ⟨state, rest⟩)

def Saved.run (sha : Digest) (saved : Saved) : List Call → Option (List Answer × Saved)
  | [] => some ([], saved)
  | call :: rest =>
      (saved.call sha call).bind fun p => (p.2.run sha rest).map fun q => (p.1 :: q.1, q.2)

namespace ApplicationTransaction

def call (sha : Digest) (tx : ApplicationTransaction) :
    Call → Option (Answer × ApplicationTransaction)
  | .apply entry => (tx.apply sha entry).map fun p => (some p.1, p.2)
  | .undoLast => tx.undoLast.map fun tx' => (none, tx')

def run (sha : Digest) (tx : ApplicationTransaction) :
    List Call → Option (List Answer × ApplicationTransaction)
  | [] => some ([], tx)
  | call :: rest =>
      (tx.call sha call).bind fun p => (p.2.run sha rest).map fun q => (p.1 :: q.1, q.2)

end ApplicationTransaction

/-! ## One entry is taken back -/

namespace ApplicationUndo

section

variable {K V : Type} [Ord K] [Std.TransOrd K] [Std.LawfulEqOrd K] {m m' : BTreeMap K V} {k : K}

/-- A table that differs in one cell is restored by this cell. -/
theorem restoreCell_eq (h : ∀ a, a ≠ k → m'[a]? = m[a]?) : restoreCell m' k m[k]? = m := by
  classical
  refine Std.ExtTreeMap.ext_getElem? fun a => ?_
  by_cases ha : a = k
  · subst ha
    cases hcell : m[a]? with
    | none => rw [restoreCell, Table.getElem?_erase, if_pos rfl]
    | some v => rw [restoreCell, Table.getElem?_insert, if_pos rfl]
  · rw [← h a ha]
    cases m[k]? with
    | none => rw [restoreCell, Table.getElem?_erase, if_neg ha]
    | some v => rw [restoreCell, Table.getElem?_insert, if_neg ha]

theorem restoreCell_insert {v : V} : restoreCell (m.insert k v) k m[k]? = m := by
  classical
  exact restoreCell_eq fun a ha => by rw [Table.getElem?_insert, if_neg ha]

theorem restoreCell_self : restoreCell m k m[k]? = m := restoreCell_eq fun _ _ => rfl

/-- A table is restored by the value that was replaced. -/
theorem insert_insert {v w : V} (h : m[k]? = some v) : (m.insert k w).insert k v = m := by
  have hback := restoreCell_insert (m := m) (k := k) (v := w)
  rwa [h] at hback

theorem erase_eq_self (h : m[k]? = none) : m.erase k = m := by
  have hback := restoreCell_self (m := m) (k := k)
  rwa [h] at hback

end

theorem restoreCell_writeValue {values : BTreeMap String String} {key : String}
    {value : Option String} :
      restoreCell (writeValue values key value) key values[key]? = values := by
  exact restoreCell_eq fun a ha => StateMachine.getElem?_writeValue_of_ne ha

/-- A captured key restores a session that lost or changed this key only. -/
theorem restoreSession_captureKey {id : Nat} {key : String} :
    restoreSession s.sessions (captureKey s id key) = some s.sessions := by
  rw [captureKey]
  cases hsession : s.sessions[id]? with
  | none => rfl
  | some session =>
    rw [restoreSession, hsession, Option.map_some, restoreCell_self, Table.insert_eq_self hsession]

theorem restoreSession_mutated {id : Nat} {key : String} {session : Session} {record : KeyRecord}
    (hsession : s.sessions[id]? = some session) :
    restoreSession (s.sessions.insert id { session with keys := session.keys.insert key record })
      (captureKey s id key) = some s.sessions := by
  simp only [captureKey, hsession, restoreSession, Table.getElem?_insert, if_true, Option.map_some,
    restoreCell_insert]
  rw [insert_insert hsession]

theorem restoreSession_close {id : Nat} {session : Session} {closed : Option SessionResult}
    (hsession : s.sessions[id]? = some session) :
    restoreSession (s.sessions.insert id { session with closed := closed })
      (.closed id session.closed) = some s.sessions := by
  simp only [restoreSession, Table.getElem?_insert, if_true, Option.map_some]
  rw [insert_insert hsession]

end ApplicationUndo

namespace ApplicationUndo

/-- A record restores a state whose counters are known, when it restores each of the tables. -/
theorem restore_ofState {t : StateMachine} {value : Option (String × Option String)}
    {registration : Option (String × Option Nat)} {session : SessionUndo}
    (hvalues : restoreSome t.values value = s.values)
    (hregistrations : restoreSome t.registrations registration = s.registrations)
    (hsessions : restoreSession t.sessions session = some s.sessions) :
    (ofState s value registration session).restore t = some s := by
  rw [restore, ofState, hsessions, Option.map_some, hvalues, hregistrations]

/-- **An applied entry is taken back exactly.** -/
theorem restore_capture {entry : Entry} {outcome : ApplyOutcome} (h : s.Valid sha)
    (happly : s.apply sha entry = some (.ok (outcome, s'))) :
    (capture s entry).restore s' = some s := by
  obtain ⟨hindex, -, t, hcommand, rfl⟩ := StateMachine.apply_ok happly
  have hchange := StateMachine.applyCommand_change hcommand
  clear happly hcommand
  obtain ⟨index, term, command⟩ := entry
  have hfresh : s.sessions[index]? = none := by
    cases hsession : s.sessions[index]? with
    | none => rfl
    | some session =>
      have := (h.sessions _ _ hsession).applied
      dsimp only at hindex
      omega
  cases hchange with
  | same =>
    cases command with
    | put key value => exact restore_ofState restoreCell_self rfl rfl
    | delete key => exact restore_ofState restoreCell_self rfl rfl
    | noOp => exact restore_ofState rfl rfl rfl
    | configuration change => exact restore_ofState rfl rfl rfl
    | registerSession nonce =>
      exact restore_ofState rfl restoreCell_self (congrArg some (erase_eq_self hfresh))
    | closeSession id =>
      cases hsession : s.sessions[id]? with
      | none =>
        simp only [capture, hsession]
        exact restore_ofState rfl rfl rfl
      | some session =>
        simp only [capture, hsession]
        refine restore_ofState rfl rfl ?_
        simp only [restoreSession, hsession, Option.map_some, Table.insert_eq_self hsession]
    | sessionPut id key sequence value =>
      exact restore_ofState restoreCell_self rfl restoreSession_captureKey
    | sessionDelete id key sequence =>
      exact restore_ofState restoreCell_self rfl restoreSession_captureKey
  | plain hcommand =>
    cases command with
    | put key value =>
      cases hcommand
      exact restore_ofState restoreCell_writeValue rfl rfl
    | delete key =>
      cases hcommand
      exact restore_ofState restoreCell_writeValue rfl rfl
    | _ => cases hcommand
  | registered hnonce hnew =>
    refine restore_ofState rfl restoreCell_insert ?_
    have hback := restoreCell_insert (m := s.sessions) (k := index)
      (v := ⟨.success index none index, none, ∅⟩)
    rw [hfresh] at hback
    exact congrArg some hback
  | closed hsession hopen =>
    simp only [capture, hsession]
    exact restore_ofState rfl rfl (restoreSession_close hsession)
  | mutated hcommand haccepts =>
    cases command with
    | sessionPut id key sequence value =>
      cases hcommand
      exact restore_ofState restoreCell_writeValue rfl (restoreSession_mutated haccepts.found)
    | sessionDelete id key sequence =>
      cases hcommand
      exact restore_ofState restoreCell_writeValue rfl (restoreSession_mutated haccepts.found)
    | _ => cases hcommand

end ApplicationUndo

/-! ## The transaction and the saved states -/

/-- The records lead back through the saved states. -/
inductive Leads : List ApplicationUndo → StateMachine → List StateMachine → Prop
  | nil (s : StateMachine) : Leads [] s []
  | cons {undo : ApplicationUndo} {records : List ApplicationUndo} {s p : StateMachine}
      {before : List StateMachine} (hrestore : undo.restore s = some p)
      (hrest : Leads records p before) : Leads (undo :: records) s (p :: before)

/-- A transaction and the saved states it stands for. -/
structure Matches (sha : Digest) (s : StateMachine) (tx : ApplicationTransaction) (saved : Saved) :
    Prop where
  state : tx.state = saved.current
  valid : saved.current.Valid sha
  earlier : ∀ p ∈ saved.before, p.Valid sha
  leads : Leads tx.undo saved.current saved.before
  /-- The state in front of the first entry. -/
  first : (saved.current :: saved.before).getLast? = some s

theorem Leads.unwind {records : List ApplicationUndo} {before : List StateMachine}
    (h : Leads records s before) :
    ApplicationTransaction.unwind records s = (s :: before).getLast? := by
  induction h with
  | nil s => rfl
  | cons hrestore _ ih =>
    rw [ApplicationTransaction.unwind, hrestore, Option.bind_some, ih, List.getLast?_cons_cons]

namespace Matches

variable {tx : ApplicationTransaction} {saved : Saved}

theorem start (h : s.Valid sha) : Matches sha s (.start s) ⟨s, []⟩ :=
  ⟨rfl, h, by simp, .nil s, rfl⟩

/-- A transaction that is dropped restores the state in front of its first entry. -/
theorem drop (h : Matches sha s tx saved) : tx.drop = some s := by
  rw [ApplicationTransaction.drop, h.state, h.leads.unwind, h.first]

/-- **One call** gives the same answer, panics alike and leads to related states. -/
theorem step (h : Matches sha s tx saved) (call : Call) :
    Option.Rel (fun p q => p.1 = q.1 ∧ Matches sha s p.2 q.2) (tx.call sha call)
      (saved.call sha call) := by
  obtain ⟨state, records⟩ := tx
  obtain ⟨current, before⟩ := saved
  obtain ⟨rfl, hvalid, hearlier, hleads, hfirst⟩ := h
  dsimp only at hvalid hearlier hleads hfirst
  cases call with
  | undoLast =>
    cases hleads with
    | nil => exact .none
    | @cons undo records _ p before hrestore hrest =>
      have hundo : ApplicationTransaction.call sha ⟨state, undo :: records⟩ .undoLast =
          some (none, ⟨p, records⟩) := by
        simp only [ApplicationTransaction.call, ApplicationTransaction.undoLast, hrestore,
          Option.map_some]
      rw [hundo]
      refine .some ⟨rfl, rfl, hearlier p List.mem_cons_self, fun q hq => ?_, hrest, ?_⟩
      · exact hearlier q (List.mem_cons_of_mem _ hq)
      · rwa [List.getLast?_cons_cons] at hfirst
  | apply entry =>
    rw [ApplicationTransaction.call, ApplicationTransaction.apply, Saved.call]
    rcases hvalid.apply entry with ⟨e, happly⟩ | ⟨outcome, s', happly, hvalid'⟩
    · obtain ⟨hnext, rfl⟩ := StateMachine.apply_error happly
      rw [if_pos hnext]
      simp only [happly]
      exact .some ⟨rfl, rfl, hvalid, hearlier, hleads, hfirst⟩
    · have hnext : ¬ checkedAdd state.lastApplied 1 ≠ some entry.index := by
        obtain ⟨hindex, hle, -⟩ := StateMachine.apply_ok happly
        rw [not_not, checkedAdd, if_pos hle, hindex]
      rw [if_neg hnext]
      simp only [happly]
      refine .some ⟨rfl, rfl, hvalid', List.forall_mem_cons.2 ⟨hvalid, hearlier⟩, ?_, ?_⟩
      · exact .cons (ApplicationUndo.restore_capture hvalid happly) hleads
      · rw [List.getLast?_cons_cons]
        exact hfirst

/-- **A run** of calls gives the same answers. -/
theorem run (h : Matches sha s tx saved) (calls : List Call) :
    Option.Rel (fun p q => p.1 = q.1 ∧ Matches sha s p.2 q.2) (tx.run sha calls)
      (saved.run sha calls) := by
  induction calls generalizing tx saved with
  | nil => exact .some ⟨rfl, h⟩
  | cons call rest ih =>
    rw [ApplicationTransaction.run, Saved.run]
    have hcall := h.step call
    generalize tx.call sha call = x at hcall ⊢
    generalize saved.call sha call = y at hcall ⊢
    cases hcall with
    | none => exact .none
    | @some p q hpq =>
      obtain ⟨hanswer, hmatches⟩ := hpq
      have hrun := ih hmatches
      simp only [Option.bind_some]
      generalize p.2.run sha rest = x at hrun ⊢
      generalize q.2.run sha rest = y at hrun ⊢
      cases hrun with
      | none => exact .none
      | some hrest => exact .some ⟨congrArg₂ List.cons hanswer hrest.1, hrest.2⟩

end Matches

/-- An entry is refused, or applied by a transaction that can take it back. -/
theorem Matches.apply_cases {tx : ApplicationTransaction} {saved : Saved}
    (h : Matches sha s tx saved) (entry : Entry) :
    (∃ e, tx.apply sha entry = some (.error e, tx) ∧
        tx.state.apply sha entry = some (.error e)) ∨
      ∃ outcome tx', tx.apply sha entry = some (.ok outcome, tx') ∧
        tx.state.apply sha entry = some (.ok (outcome, tx'.state)) ∧ tx'.undoLast = some tx ∧
        ∃ saved', Matches sha s tx' saved' := by
  have hvalid : tx.state.Valid sha := h.state ▸ h.valid
  have hstep := h.step (.apply entry)
  rw [ApplicationTransaction.call] at hstep
  unfold ApplicationTransaction.apply at hstep ⊢
  rcases hvalid.apply entry with ⟨e, happly⟩ | ⟨outcome, s', happly, -⟩
  · obtain ⟨hnext, rfl⟩ := StateMachine.apply_error happly
    rw [if_pos hnext]
    exact .inl ⟨_, rfl, happly⟩
  · have hnext : ¬ checkedAdd tx.state.lastApplied 1 ≠ some entry.index := by
      obtain ⟨hindex, hle, -⟩ := StateMachine.apply_ok happly
      rw [not_not, checkedAdd, if_pos hle, hindex]
    rw [if_neg hnext] at hstep ⊢
    simp only [happly, Option.map_some] at hstep ⊢
    refine .inr ⟨_, _, rfl, rfl, ?_, ?_⟩
    · simp only [ApplicationTransaction.undoLast, ApplicationUndo.restore_capture hvalid happly,
        Option.map_some]
    · generalize saved.call sha (.apply entry) = answer at hstep
      cases hstep with
      | some hpq => exact ⟨_, hpq.2⟩

/-- An entry that is refused changes nothing, and one that is applied can be taken back. -/
theorem Matches.apply {tx : ApplicationTransaction} {saved : Saved} (h : Matches sha s tx saved)
    (entry : Entry) :
    ∃ result tx', tx.apply sha entry = some (result, tx') ∧
      ((∃ e, result = .error e ∧ tx' = tx) ∨
        ∃ outcome, result = .ok outcome ∧
          tx.state.apply sha entry = some (.ok (outcome, tx'.state)) ∧
          tx'.undoLast = some tx) := by
  rcases h.apply_cases entry with ⟨e, happly, -⟩ | ⟨outcome, tx', happly, hstate, hundo, -⟩
  · exact ⟨_, _, happly, .inl ⟨e, rfl, rfl⟩⟩
  · exact ⟨_, _, happly, .inr ⟨outcome, rfl, hstate, hundo⟩⟩

/-- **A transaction is undone exactly.**  From every reachable state, a sequence of calls gives the
answers and states of a transaction that keeps copies of the state, and panics only where there is
nothing to take back.  Dropping the transaction restores the state in front of it.  A refused entry
changes nothing, and an applied one is taken back by the next `undo_last`. -/
theorem transaction_exact (sha : Digest) {s : StateMachine}
    (h : s.Reachable sha fun _ => True) (calls : List Call) :
    Option.Rel (fun p q => p.1 = q.1 ∧ p.2.state = q.2.current ∧ p.2.drop = some s)
      ((ApplicationTransaction.start s).run sha calls) (Saved.run sha ⟨s, []⟩ calls) ∧
    ∀ answers tx, (ApplicationTransaction.start s).run sha calls = some (answers, tx) →
      ∀ entry, ∃ result tx', tx.apply sha entry = some (result, tx') ∧
        ((∃ e, result = .error e ∧ tx' = tx) ∨
          ∃ outcome, result = .ok outcome ∧
            tx.state.apply sha entry = some (.ok (outcome, tx'.state)) ∧
            tx'.undoLast = some tx) := by
  have hrun := (Matches.start h.valid).run calls
  refine ⟨?_, fun answers tx htx entry => ?_⟩
  · generalize (ApplicationTransaction.start s).run sha calls = x at hrun ⊢
    generalize Saved.run sha ⟨s, []⟩ calls = y at hrun ⊢
    cases hrun with
    | none => exact .none
    | some hpq => exact .some ⟨hpq.1, hpq.2.state, hpq.2.drop⟩
  · rw [htx] at hrun
    generalize Saved.run sha ⟨s, []⟩ calls = y at hrun
    cases hrun with
    | some hpq => exact hpq.2.apply entry

/-- A repeated registration, a repeated close and two writes of one key, one of them taken back. -/
def sampleCalls : List Call :=
  [.apply ⟨7, 1, .registerSession "first"⟩, .apply ⟨8, 1, .closeSession 1⟩,
    .apply ⟨9, 1, .sessionPut 2 "key" 2 "value"⟩, .undoLast, .apply ⟨9, 1, .put "key" "other"⟩,
    .apply ⟨5, 1, .noOp⟩]

theorem transaction_exact_sample :
    ∃ s answers tx, StateMachine.initial.applyAll toyDigest sampleEntries = some s ∧
      (ApplicationTransaction.start s).run toyDigest sampleCalls = some (answers, tx) ∧
      tx.state.lastApplied = 9 ∧ tx.drop = some s := by
  have hsome : (StateMachine.initial.applyAll toyDigest sampleEntries).any (fun s =>
      ((ApplicationTransaction.start s).run toyDigest sampleCalls).any fun p =>
        p.2.state.lastApplied = 9) = true := by decide +kernel
  obtain ⟨s, hs, hrun⟩ := (Option.any_eq_true _ _).1 hsome
  obtain ⟨⟨answers, tx⟩, hrun, hlast⟩ := (Option.any_eq_true _ _).1 hrun
  have hreach : StateMachine.Reachable toyDigest (fun _ => True) s :=
    StateMachine.Reachable.initial.applyAll (by simp) hs
  have hexact := (transaction_exact toyDigest hreach sampleCalls).1
  rw [hrun] at hexact
  refine ⟨s, answers, tx, hs, hrun, of_decide_eq_true hlast, ?_⟩
  generalize Saved.run toyDigest ⟨s, []⟩ sampleCalls = y at hexact
  cases hexact with
  | some hpq => exact hpq.2.2

end MicroRaft.Application
