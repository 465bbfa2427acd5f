import MicroRaft.Application.Merge
import MicroRaft.Application.Transaction

/-!
# Entries applied in groups

The driver hands a run of committed entries to `applyGroup`, which applies a prefix of it
provisionally, commits the coalesced cells to the engine with one barrier and only then
shows the new state; what it leaves is offered again.  What this is for is said by
`applyEach`, which applies and commits every entry on its own.  The engine is taken by the
contract of its `commit_range` (`Store.Logical`).
-/

namespace MicroRaft.Application

open Store (Digest Key Value Mutation IoError Logical invalid rejected maxBatchBytes maxBatchRecords
  maxApplyRange batchBytes overlay toyDigest)

variable {sha : Digest} {identity : ApplicationIdentity}

/-- `Display` for the error. -/
def ApplyError.message (e : ApplyError) : String :=
  "application index " ++ toString e.received ++ " does not follow " ++ toString e.previous

/-! ## The engine behind the application -/

/-- The memory backend has no engine. -/
structure AppliedStore where
  identity : ApplicationIdentity
  engine : Option Logical
  index : Nat
  term : Nat
  poisoned : Bool

/-- An engine that fails while it commits, and what it holds then. -/
abbrev CommitFault := Option (IoError × Logical)

def AppliedStore.commit (sha : Digest) (fault : CommitFault) (store : AppliedStore)
    (first index term : Nat) (cells : List Mutation) : Except IoError Unit × AppliedStore :=
  if store.poisoned then
    (.error ⟨.other, "application engine requires reopen after I/O failure"⟩, store)
  else if checkedAdd store.index 1 ≠ some first then
    (.error (invalid "application range does not follow engine watermark"), store)
  else
    match store.engine, fault with
    | none, _ => (.ok (), { store with index, term })
    | some _, some (e, engine) => (.error e, { store with engine := some engine, poisoned := true })
    | some engine, none =>
        match engine.commitRange sha first index cells with
        | .error e => (.error e, { store with poisoned := true })
        | .ok (_, engine) => (.ok (), { store with engine := some engine, index, term })

/-! ## `apply_group` -/

/-- The locked part of `ReadState` that the group changes. -/
structure SharedState where
  application : StateMachine
  /-- `status.last_applied` -/
  lastApplied : Nat
  /-- `status.commit_index` -/
  commitIndex : Nat

abbrev Outcomes := List (Nat × ApplyOutcome)

/-- The local variables of `apply_group`. -/
structure Progress where
  transaction : ApplicationTransaction
  cells : CellMap
  bytes : Nat
  outcomes : Outcomes
  term : Nat

def Progress.start (s : StateMachine) : Progress := ⟨.start s, ∅, 0, [], 0⟩

/-- How one iteration ends: with the next one, or with `break`. -/
inductive Round
  | more (p : Progress)
  | full (p : Progress)

/-- The body of the loop.  An error comes with the transaction that is dropped. -/
def Progress.prepare (sha : Digest) (identity : ApplicationIdentity) (p : Progress)
    (entry : Entry) : Option (Except (IoError × ApplicationTransaction) Round) :=
  match p.transaction.apply sha entry with
  | none => none
  | some (.error e, tx) => some (.error (invalid e.message, tx))
  | some (.ok outcome, tx) =>
      match entryCells tx.state identity entry with
      | .error e => some (.error (e, tx))
      | .ok changes =>
          match mergeCells p.cells p.bytes changes with
          | .error e => some (.error (e, tx))
          | .ok none =>
              tx.undoLast.map fun tx =>
                if p.outcomes = [] then
                  .error (invalid "one applied entry exceeds engine transaction budget", tx)
                else .ok (.full { p with transaction := tx })
          | .ok (some (cells, bytes)) =>
              some (.ok (.more
                ⟨tx, cells, bytes, p.outcomes ++ [(entry.index, outcome)], entry.term⟩))

/-- The loop over the entries. -/
def Progress.loop (sha : Digest) (identity : ApplicationIdentity) :
    List Entry → Progress → Option (Except (IoError × ApplicationTransaction) Progress)
  | [], p => some (.ok p)
  | entry :: rest, p =>
      match p.prepare sha identity entry with
      | none => none
      | some (.error e) => some (.error e)
      | some (.ok (.full p)) => some (.ok p)
      | some (.ok (.more p)) => loop sha identity rest p

/-- What may go wrong: the commit of the engine, and the report asked from it afterwards. -/
structure GroupFaults where
  commit : CommitFault
  status : Option IoError

/-- Nothing goes wrong. -/
def GroupFaults.none : GroupFaults := ⟨.none, .none⟩

abbrev GroupResult := Except IoError Outcomes × SharedState × AppliedStore

def applyGroup (sha : Digest) (faults : GroupFaults) (entries : List Entry) (shared : SharedState)
    (store : AppliedStore) : Option GroupResult :=
  match entries with
  | [] => some (.error (rejected "empty applied range"), shared, store)
  | first :: rest =>
      match Progress.loop sha store.identity ((first :: rest).take maxApplyRange)
          (.start shared.application) with
      | none => none
      | some (.error (e, tx)) =>
          tx.drop.map fun s => (.error e, { shared with application := s }, store)
      | some (.ok p) =>
          match p.outcomes.getLast? with
          -- `expect("a nonempty applied range was prepared")`
          | none => none
          | some (last, _) =>
              match store.commit sha faults.commit first.index last p.term (mutations p.cells) with
              | (.error e, store) =>
                  p.transaction.drop.map fun s =>
                    (.error e, { shared with application := s }, store)
              | (.ok (), store) =>
                  let shared := ⟨p.transaction.commit, last, max shared.commitIndex last⟩
                  match faults.status with
                  | some e => some (.error e, shared, store)
                  | none => some (.ok p.outcomes, shared, store)

/-! ## The driver -/

/-- How a run of the driver ends: the outcomes it has sent to the waiting clients, the error that
stopped it, if one did, and the state it leaves. -/
structure QueueResult where
  delivered : Outcomes
  error : Option IoError
  shared : SharedState
  store : AppliedStore

/-- The driver offers a run of entries: as many as stand together in its queue.  What the group did
not take is put back in front of the queue, whose next offer may be any other. -/
def applyQueue (sha : Digest) (offer : List Entry → Nat) :
    Nat → List Entry → SharedState → AppliedStore → Option QueueResult
  | _, [], shared, store => some ⟨[], none, shared, store⟩
  | 0, _ :: _, _, _ => none
  | fuel + 1, entry :: queue, shared, store =>
      let more := min (offer (entry :: queue)) (maxApplyRange - 1)
      let entries := entry :: queue.take more
      match applyGroup sha .none entries shared store with
      | none => none
      | some (.error e, shared, store) => some ⟨[], some e, shared, store⟩
      | some (.ok outcomes, shared, store) =>
          (applyQueue sha offer fuel (entries.drop outcomes.length ++ queue.drop more) shared
            store).map fun r => { r with delivered := outcomes ++ r.delivered }

/-- The run of a queue.  A group takes at least one entry. -/
def applyRun (sha : Digest) (offer : List Entry → Nat) (queue : List Entry) (shared : SharedState)
    (store : AppliedStore) : Option QueueResult :=
  applyQueue sha offer queue.length queue shared store

/-- Every entry alone. -/
def singly : List Entry → Nat := fun _ => 0

/-! ## What a run of entries is for -/

/-- The state of the application and the contents of its engine. -/
structure Visible where
  state : StateMachine
  cells : Key → Option Value

/-- An entry applied and committed on its own. -/
def Visible.apply (sha : Digest) (identity : ApplicationIdentity) (w : Visible) (entry : Entry) :
    Option (ApplyOutcome × Visible) :=
  match w.state.apply sha entry with
  | some (.ok (outcome, state)) =>
      match entryCells state identity entry with
      | .ok changes =>
          match Store.validateChanges changes with
          | .ok _ => some (outcome, ⟨state, overlay w.cells changes⟩)
          | .error _ => none
      | .error _ => none
  | _ => none

/-- One entry after the other. -/
def applyEach (sha : Digest) (identity : ApplicationIdentity) :
    List Entry → Visible → Option (Outcomes × Visible)
  | [], w => some ([], w)
  | entry :: rest, w => do
      let (outcome, w) ← w.apply sha identity entry
      let (outcomes, w) ← applyEach sha identity rest w
      return ((entry.index, outcome) :: outcomes, w)

/-! ## The entries one after the other -/

variable {w w' : Visible} {entry : Entry} {outcome : ApplyOutcome} {entries done : List Entry}
  {outcomes : Outcomes}

theorem validateChanges_ok {changes : List Mutation} :
    (∃ total, Store.validateChanges changes = .ok total) ↔
      Store.Admitted changes maxBatchRecords maxBatchBytes := by
  constructor
  · rintro ⟨total, h⟩
    exact ((Store.validateMutations_eq_ok Store.maxBatchBytes_le).1 h).1
  · intro h
    exact ⟨_, (Store.validateMutations_eq_ok Store.maxBatchBytes_le).2 ⟨h, rfl⟩⟩

theorem Visible.apply_eq_some : w.apply sha identity entry = some (outcome, w') ↔
    ∃ changes, w.state.apply sha entry = some (.ok (outcome, w'.state)) ∧
      entryCells w'.state identity entry = .ok changes ∧
      Store.Admitted changes maxBatchRecords maxBatchBytes ∧
        w'.cells = overlay w.cells changes := by
  rw [Visible.apply]
  constructor
  · intro h
    split at h
    · rename_i happly
      split at h
      · rename_i changes hcells
        split at h
        · rename_i total hvalid
          cases h
          exact ⟨changes, happly, hcells, validateChanges_ok.1 ⟨total, hvalid⟩, rfl⟩
        · cases h
      · cases h
    · cases h
  · rintro ⟨changes, happly, hcells, hadmitted, hoverlay⟩
    obtain ⟨total, hvalid⟩ := validateChanges_ok.2 hadmitted
    simp only [happly, hcells, hvalid, ← hoverlay]

theorem applyEach_cons : applyEach sha identity (entry :: entries) w =
    (w.apply sha identity entry).bind fun (outcome, w) =>
      (applyEach sha identity entries w).map fun (outcomes, w) =>
        ((entry.index, outcome) :: outcomes, w) := by
  rw [applyEach]
  cases w.apply sha identity entry with
  | none => rfl
  | some p =>
    obtain ⟨outcome, w₁⟩ := p
    dsimp only [bind, Option.bind, pure]
    cases applyEach sha identity entries w₁ <;> rfl

/-- A run is the run of what follows, after the run of the first entries. -/
theorem applyEach_append (a b : List Entry) (w : Visible) : applyEach sha identity (a ++ b) w =
    (applyEach sha identity a w).bind fun (outcomes, w) =>
      (applyEach sha identity b w).map fun (more, w) => (outcomes ++ more, w) := by
  induction a generalizing w with
  | nil =>
    rw [List.nil_append, applyEach, Option.bind_some]
    dsimp only
    cases applyEach sha identity b w <;> rfl
  | cons entry a ih =>
    rw [List.cons_append, applyEach_cons, applyEach_cons]
    cases w.apply sha identity entry with
    | none => rfl
    | some p =>
      simp only [Option.bind_some, ih]
      cases applyEach sha identity a p.2 with
      | none => rfl
      | some q =>
        simp only [Option.bind_some, Option.map_some, Option.map_map]
        rfl

theorem applyEach_of_append {a b : List Entry} {more : Outcomes} {w₂ : Visible}
    (h : applyEach sha identity a w = some (outcomes, w'))
    (h' : applyEach sha identity b w' = some (more, w₂)) :
    applyEach sha identity (a ++ b) w = some (outcomes ++ more, w₂) := by
  simp [applyEach_append, h, h']

theorem applyEach_singleton (h : w.apply sha identity entry = some (outcome, w')) :
    applyEach sha identity [entry] w = some ([(entry.index, outcome)], w') := by
  rw [applyEach_cons, h]
  rfl

/-- One by one, the entries are applied up to one that fails. -/
def StopsAt (sha : Digest) (identity : ApplicationIdentity) (w : Visible) (done : List Entry)
    (fail : Entry) : Prop :=
  ∃ outcomes w', applyEach sha identity done w = some (outcomes, w') ∧
    w'.apply sha identity fail = none

section StopsAt

variable {fail fail' : Entry} {done' rest rest' : List Entry}

@[simp] theorem stopsAt_nil : StopsAt sha identity w [] fail ↔
    w.apply sha identity fail = none := by
  simp [StopsAt, applyEach]

@[simp] theorem stopsAt_cons : StopsAt sha identity w (entry :: done) fail ↔
    ∃ outcome w', w.apply sha identity entry = some (outcome, w') ∧
      StopsAt sha identity w' done fail := by
  constructor
  · rintro ⟨outcomes, w₂, heach, hfail⟩
    rw [applyEach_cons] at heach
    obtain ⟨⟨outcome, w₁⟩, happly, hrest⟩ := Option.bind_eq_some_iff.1 heach
    obtain ⟨⟨more, w'⟩, hmore, heq⟩ := Option.map_eq_some_iff.1 hrest
    cases heq
    exact ⟨outcome, w₁, happly, more, _, hmore, hfail⟩
  · rintro ⟨outcome, w₁, happly, outcomes, w₂, heach, hfail⟩
    exact ⟨_, w₂, applyEach_of_append (applyEach_singleton happly) heach, hfail⟩

/-- What comes first is applied before the entry that fails. -/
theorem StopsAt.append (heach : applyEach sha identity entries w = some (outcomes, w'))
    (h : StopsAt sha identity w' done fail) : StopsAt sha identity w (entries ++ done) fail := by
  obtain ⟨more, w₂, hmore, hfail⟩ := h
  exact ⟨_, w₂, applyEach_of_append heach hmore, hfail⟩

/-- The run as a whole then fails. -/
theorem StopsAt.eq_none (h : StopsAt sha identity w done fail) (rest : List Entry) :
    applyEach sha identity (done ++ fail :: rest) w = none := by
  obtain ⟨outcomes, w', heach, hfail⟩ := h
  rw [applyEach_append, heach, Option.bind_some]
  dsimp only
  rw [applyEach_cons, hfail]
  rfl

/-- A run stops at one entry only. -/
theorem StopsAt.unique (h : StopsAt sha identity w done fail)
    (h' : StopsAt sha identity w done' fail')
    (heq : done ++ fail :: rest = done' ++ fail' :: rest') :
    done = done' := by
  induction done generalizing w done' with
  | nil =>
    cases done' with
    | nil => rfl
    | cons entry done' =>
      obtain ⟨rfl, -⟩ := List.cons.inj heq
      obtain ⟨outcome, w₁, happly, -⟩ := stopsAt_cons.1 h'
      rw [stopsAt_nil, happly] at h
      cases h
  | cons entry done ih =>
    obtain ⟨outcome, w₁, happly, hrest⟩ := stopsAt_cons.1 h
    cases done' with
    | nil =>
      obtain ⟨rfl, -⟩ := List.cons.inj heq
      rw [stopsAt_nil, happly] at h'
      cases h'
    | cons entry' done' =>
      obtain ⟨rfl, htail⟩ := List.cons.inj heq
      obtain ⟨outcome', w₁', happly', hrest'⟩ := stopsAt_cons.1 h'
      rw [happly] at happly'
      cases happly'
      rw [ih hrest hrest' htail]

end StopsAt

/-- The entries of a run follow each other. -/
structure Consecutive (w : Visible) (entries : List Entry) (outcomes : Outcomes) (w' : Visible) :
    Prop where
  lastApplied : w'.state.lastApplied = w.state.lastApplied + entries.length
  length : outcomes.length = entries.length
  bound : entries ≠ [] → w'.state.lastApplied ≤ u64Max
  head : ∀ first ∈ entries.head?, first.index = w.state.lastApplied + 1
  last : ∀ p ∈ outcomes.getLast?, p.1 = w'.state.lastApplied

theorem consecutive (h : applyEach sha identity entries w = some (outcomes, w')) :
    Consecutive w entries outcomes w' := by
  induction entries generalizing w outcomes with
  | nil =>
    cases h
    exact ⟨rfl, rfl, fun hne => absurd rfl hne, by simp, by simp⟩
  | cons entry rest ih =>
    rw [applyEach_cons] at h
    obtain ⟨⟨outcome, w₁⟩, happly, hrest⟩ := Option.bind_eq_some_iff.1 h
    obtain ⟨⟨more, w₂⟩, hmore, heq⟩ := Option.map_eq_some_iff.1 hrest
    cases heq
    have hnext := ih hmore
    obtain ⟨changes, hstate, -⟩ := Visible.apply_eq_some.1 happly
    obtain ⟨hindex, hle, _, -, hlast⟩ := StateMachine.apply_ok hstate
    have happlied : w₁.state.lastApplied = entry.index := by rw [hlast]
    refine ⟨?_, ?_, fun _ => ?_, ?_, ?_⟩
    · rw [hnext.lastApplied, happlied, hindex, List.length_cons]
      omega
    · rw [List.length_cons, List.length_cons, hnext.length]
    · by_cases hnil : rest = []
      · subst hnil
        rw [hnext.lastApplied, happlied, hindex]
        exact hle
      · exact hnext.bound hnil
    · rintro first ⟨⟩
      exact hindex
    · intro p hp
      rw [List.getLast?_cons] at hp
      cases hget : more.getLast? with
      | none =>
        rw [hget] at hp
        cases hp
        have hnil : more = [] := List.getLast?_eq_none_iff.1 hget
        have hrest : rest.length = 0 := by rw [← hnext.length, hnil, List.length_nil]
        rw [hnext.lastApplied, hrest, happlied]
        rfl
      | some q =>
        rw [hget] at hp
        cases hp
        exact hnext.last _ hget

/-! ## The loop -/

variable {p p' : Progress}

/-- What the transaction would show if the group ended here. -/
def Progress.visible (p : Progress) (w : Visible) : Visible :=
  ⟨p.transaction.state, overlay w.cells (mutations p.cells)⟩

/-- The loop after some entries: the transaction leads back to the state in front of the group, and
the three representations of the entries (provisional state, coalesced cells, outcomes) are those of
the entries applied one by one. -/
structure Prepared (sha : Digest) (identity : ApplicationIdentity) (w : Visible) (done : List Entry)
    (p : Progress) : Prop where
  leads : ∃ saved, Matches sha w.state p.transaction saved
  accumulated : Accumulated p.cells p.bytes
  fresh : p.outcomes = [] → p.cells = ∅
  term : ∀ entry ∈ done.getLast?, p.term = entry.term
  each : applyEach sha identity done w = some (p.outcomes, p.visible w)

theorem Prepared.start (h : w.state.Valid sha) : Prepared sha identity w [] (.start w.state) where
  leads := ⟨_, .start h⟩
  accumulated := .empty
  fresh _ := rfl
  term := by simp
  each := by
    have hcells : overlay w.cells (mutations ∅) = w.cells := by
      funext k
      rw [overlay_mutations, Std.ExtTreeMap.getElem?_empty]
      rfl
    rw [applyEach, Progress.visible, Progress.start, hcells]
    rfl

/-- **One iteration** extends the prefix, ends the group in front of the entry, or fails on an entry
that would also fail on its own. -/
theorem Prepared.prepare (h : Prepared sha identity w done p) (entry : Entry) :
    (∃ p', p.prepare sha identity entry = some (.ok (.more p')) ∧
        Prepared sha identity w (done ++ [entry]) p' ∧ p'.outcomes ≠ []) ∨
      (p.prepare sha identity entry = some (.ok (.full p)) ∧ p.outcomes ≠ [] ∧
        ∃ s changes, entryCells s identity entry = .ok changes ∧ ∀ m ∈ changes, m.Bounded) ∨
      ∃ e tx, p.prepare sha identity entry = some (.error (e, tx)) ∧ tx.drop = some w.state ∧
        (p.visible w).apply sha identity entry = none := by
  obtain ⟨saved, hmatches⟩ := h.leads
  rw [Progress.prepare]
  rcases hmatches.apply_cases entry with
    ⟨e, happly, hstate⟩ | ⟨outcome, tx, happly, hstate, hundo, saved', hmatches'⟩
  · refine .inr (.inr ⟨_, _, by rw [happly], hmatches.drop, ?_⟩)
    simp only [Visible.apply, Progress.visible, hstate]
  have hvalid : tx.state.Valid sha := hmatches'.state ▸ hmatches'.valid
  have hcells := entryCells_eq hvalid identity entry
  simp only [happly, hcells]
  generalize hchanges : List.map _ _ = changes at hcells ⊢
  -- an entry whose own cells the engine would not take fails on its own as well
  have hfails : ¬ Store.Admitted changes maxBatchRecords maxBatchBytes →
      (p.visible w).apply sha identity entry = none := by
    intro hnot
    refine Option.eq_none_iff_forall_ne_some.2 fun ⟨outcome', w'⟩ hsome => hnot ?_
    obtain ⟨changes', hstate', hcells', hadmitted, -⟩ := Visible.apply_eq_some.1 hsome
    rw [Progress.visible, hstate, Option.some.injEq, Except.ok.injEq, Prod.mk.injEq] at hstate'
    rw [← hstate'.2, hcells] at hcells'
    cases hcells'
    exact hadmitted
  cases hmerge : mergeCells p.cells p.bytes changes with
  | error e =>
    refine .inr (.inr ⟨_, _, rfl, hmatches'.drop, hfails fun hadmitted => ?_⟩)
    obtain ⟨result, hresult, -⟩ := h.accumulated.merge hadmitted
    rw [hmerge] at hresult
    cases hresult
  | ok result =>
    cases result with
    | none =>
      simp only [hundo, Option.map_some]
      by_cases hnil : p.outcomes = []
      · rw [if_pos hnil]
        refine .inr (.inr ⟨_, _, rfl, hmatches.drop, hfails fun hadmitted => ?_⟩)
        obtain ⟨result, hresult, hsome⟩ := h.accumulated.merge hadmitted
        rw [hmerge] at hresult
        cases hresult
        exact hsome (h.fresh hnil) rfl
      · rw [if_neg hnil]
        exact .inr (.inl ⟨rfl, hnil, tx.state, changes, hcells, h.accumulated.bounded hmerge⟩)
    | some result =>
      obtain ⟨hadmitted, hset, haccumulated⟩ := h.accumulated.merged hmerge
      refine .inl ⟨_, rfl, ⟨⟨_, hmatches'⟩, haccumulated, by simp, by simp, ?_⟩, by simp⟩
      have hentry : (p.visible w).apply sha identity entry =
          some (outcome, ⟨tx.state, overlay w.cells (mutations result.1)⟩) := by
        refine Visible.apply_eq_some.2 ⟨changes, hstate, hcells, hadmitted, ?_⟩
        rw [hset]
        exact overlay_insertCells w.cells hadmitted.distinct p.cells
      exact applyEach_of_append h.each (applyEach_singleton hentry)

/-- **The loop** prepares a prefix, at least one entry of it, or fails on an entry at which the run
stops entry by entry. -/
theorem Prepared.loop (h : Prepared sha identity w done p) (entries : List Entry)
    (hne : p.outcomes = [] → entries ≠ []) :
    (∃ p' taken left, p.loop sha identity entries = some (.ok p') ∧ entries = taken ++ left ∧
        Prepared sha identity w (done ++ taken) p' ∧ p'.outcomes ≠ []) ∨
      ∃ e tx more fail rest, p.loop sha identity entries = some (.error (e, tx)) ∧
        tx.drop = some w.state ∧ entries = more ++ fail :: rest ∧
        StopsAt sha identity w (done ++ more) fail := by
  induction entries generalizing done p with
  | nil =>
    refine .inl ⟨p, [], [], rfl, rfl, by rwa [List.append_nil], fun hnil => hne hnil rfl⟩
  | cons entry rest ih =>
    rw [Progress.loop]
    rcases h.prepare entry with ⟨p', hprepare, hnext, hsome⟩ | ⟨hprepare, hsome, -⟩ |
      ⟨e, tx, hprepare, hdrop, hfails⟩
    · rw [hprepare]
      rcases ih hnext (fun hnil => absurd hnil hsome) with
        ⟨p₂, taken, left, hloop, rfl, hprepared, hsome₂⟩ |
          ⟨e, tx, more, fail, left, hloop, hdrop, rfl, hstops⟩
      · refine .inl ⟨p₂, entry :: taken, left, hloop, rfl, ?_, hsome₂⟩
        rwa [List.append_assoc] at hprepared
      · refine .inr ⟨e, tx, entry :: more, fail, left, hloop, hdrop, rfl, ?_⟩
        rwa [List.append_assoc] at hstops
    · rw [hprepare]
      exact .inl ⟨p, [], entry :: rest, rfl, rfl, by rwa [List.append_nil], hsome⟩
    · rw [hprepare]
      refine .inr ⟨e, tx, [], entry, rest, rfl, hdrop, rfl, ?_⟩
      rw [List.append_nil]
      exact ⟨_, _, h.each, hfails⟩

/-! ## The commit -/

/-- A batch that follows the engine's watermark is applied. -/
theorem commitRange_applied (sha : Digest) {l : Logical} {b : Store.Batch} (hvalid : b.Valid)
    (hfirst : b.first = l.applied + 1) :
    l.commitRange sha b.first b.index b.changes = .ok (.applied, l.commit sha b) := by
  obtain ⟨total, hchanges⟩ := validateChanges_ok.2 hvalid.changes
  have hencode := (Store.encodeBatch_eq_ok hvalid.index).2 ⟨hvalid, rfl⟩
  obtain ⟨-, hle, -⟩ := hvalid.range
  have hnext : checkedAdd l.applied 1 = some b.first := by
    rw [checkedAdd, if_pos (hfirst ▸ hle.trans hvalid.index), hfirst]
  have hreplay : ¬ (b.index = l.applied ∧ b.index > 0 ∧ sha.run b.bytes = l.digest) := by
    rintro ⟨heq, -⟩
    omega
  rw [Logical.commitRange, hchanges, Store.ok_bind, hencode, Store.ok_bind, if_neg hreplay,
    if_neg (not_not.2 hnext)]
  rfl

/-- The engine takes a batch that follows what has been applied. -/
theorem AppliedStore.commit_eq (sha : Digest) {store : AppliedStore} {b : Store.Batch} (term : Nat)
    (hhealthy : store.poisoned = false) (hengine : ∀ l ∈ store.engine, l.applied = store.index)
    (hvalid : b.Valid) (hfirst : b.first = store.index + 1) :
    store.commit sha none b.first b.index term b.changes =
      (.ok (), { store with
        engine := store.engine.map fun l => l.commit sha b
        index := b.index
        term }) := by
  obtain ⟨-, hle, -⟩ := hvalid.range
  have hnext : checkedAdd store.index 1 = some b.first := by
    rw [checkedAdd, if_pos (hfirst ▸ hle.trans hvalid.index), hfirst]
  unfold AppliedStore.commit
  rw [hhealthy, if_neg Bool.false_ne_true, if_neg (not_not.2 hnext)]
  cases hstore : store.engine with
  | none => simp
  | some l =>
    have happlied := hengine l hstore
    simp only [commitRange_applied sha hvalid (hfirst.trans (by rw [happlied])),
      Option.map_some]

/-- The batch of the prepared entries. -/
theorem Prepared.batch {first : Entry} {rest : List Entry} {last : Nat × ApplyOutcome}
    (h : Prepared sha identity w (first :: rest) p)
    (hlength : (first :: rest).length ≤ maxApplyRange) (hlast : p.outcomes.getLast? = some last) :
    Store.Batch.Valid ⟨first.index, last.1, mutations p.cells⟩ ∧
      first.index = w.state.lastApplied + 1 ∧ last.1 = p.transaction.state.lastApplied := by
  have hrun := consecutive h.each
  have hfirst : first.index = w.state.lastApplied + 1 := hrun.head first rfl
  have hend : last.1 = p.transaction.state.lastApplied := hrun.last last hlast
  have hgrow : p.transaction.state.lastApplied = w.state.lastApplied + (first :: rest).length :=
    hrun.lastApplied
  have hbound : p.transaction.state.lastApplied ≤ u64Max := hrun.bound (List.cons_ne_nil _ _)
  rw [List.length_cons] at hlength hgrow
  refine ⟨⟨?_, hend ▸ hbound, h.accumulated.admitted⟩, hfirst, hend⟩
  dsimp only
  omega

/-! ## The group -/

variable {shared shared' : SharedState} {store store' : AppliedStore}

/-- The shared state and the store stand for an application and its contents. -/
structure Stands (sha : Digest) (shared : SharedState) (store : AppliedStore) (w : Visible) :
    Prop where
  state : shared.application = w.state
  valid : w.state.Valid sha
  healthy : store.poisoned = false
  index : store.index = w.state.lastApplied
  engine : ∀ l ∈ store.engine, l.cells = w.cells ∧ l.applied = store.index

/-- What can be seen of the node: the digest of the last batch is left out. -/
structure View where
  shared : SharedState
  identity : ApplicationIdentity
  contents : Option ((Key → Option Value) × Nat)
  index : Nat
  term : Nat
  poisoned : Bool

def viewOf (shared : SharedState) (store : AppliedStore) : View :=
  ⟨shared, store.identity, store.engine.map fun l => (l.cells, l.applied), store.index, store.term,
    store.poisoned⟩

/-- What is seen after a run of entries that leads to an application and its contents. -/
def View.after (v : View) (entries : List Entry) (w : Visible) : View :=
  match entries.getLast? with
  | none => v
  | some last =>
      { v with
        shared := ⟨w.state, w.state.lastApplied, max v.shared.commitIndex w.state.lastApplied⟩
        contents := v.contents.map fun _ => (w.cells, w.state.lastApplied)
        index := w.state.lastApplied
        term := last.term }

/-- What is seen after the rest of a run does not depend on what was seen in between. -/
theorem View.after_append (v : View) {a b : List Entry} {w w' : Visible} (hb : b ≠ [])
    (hle : w.state.lastApplied ≤ w'.state.lastApplied) :
    (v.after a w).after b w' = v.after (a ++ b) w' := by
  obtain ⟨last, hlast⟩ : ∃ last, b.getLast? = some last :=
    ⟨_, List.getLast?_eq_some_getLast hb⟩
  have hlast' : (a ++ b).getLast? = some last := by
    rw [List.getLast?_append, hlast]
    rfl
  cases ha : a.getLast? with
  | none => simp only [View.after, ha, hlast, hlast']
  | some first =>
    simp only [View.after, ha, hlast, hlast', Option.map_map, max_assoc, max_eq_right hle]
    rfl

/-- **A group** takes at least one entry and leaves what the entries one by one leave, or fails
without a trace on an entry at which the run stops entry by entry. -/
theorem applyGroup_spec (h : Stands sha shared store w) (hne : entries ≠ []) :
    (∃ taken left outcomes w' shared' store',
        applyGroup sha .none entries shared store = some (.ok outcomes, shared', store') ∧
        entries = taken ++ left ∧ taken ≠ [] ∧
        applyEach sha store.identity taken w = some (outcomes, w') ∧
        Stands sha shared' store' w' ∧
        viewOf shared' store' = (viewOf shared store).after taken w') ∨
      ∃ e done fail rest,
        applyGroup sha .none entries shared store = some (.error e, shared, store) ∧
        entries = done ++ fail :: rest ∧ StopsAt sha store.identity w done fail := by
  obtain ⟨first, rest, rfl⟩ := List.exists_cons_of_ne_nil hne
  have hstart : Prepared sha store.identity w [] (.start shared.application) :=
    h.state ▸ Prepared.start h.valid
  rw [applyGroup]
  rcases hstart.loop ((first :: rest).take maxApplyRange) (fun _ => by simp [maxApplyRange]) with
    ⟨p, taken, left, hloop, hsplit, hprepared, hsome⟩ |
      ⟨e, tx, done, fail, left, hloop, hdrop, hsplit, hstops⟩
  · rw [List.nil_append] at hprepared
    obtain ⟨last, hlast⟩ : ∃ last, p.outcomes.getLast? = some last :=
      ⟨_, List.getLast?_eq_some_getLast hsome⟩
    -- the first entry of the group is the first one taken
    obtain ⟨more, rfl⟩ : ∃ more, taken = first :: more := by
      cases taken with
      | nil =>
        have hnone := hprepared.each
        rw [applyEach, Option.some.injEq, Prod.mk.injEq] at hnone
        exact absurd hnone.1.symm hsome
      | cons entry more =>
        rw [maxApplyRange, List.take_succ_cons, List.cons_append, List.cons.injEq] at hsplit
        exact ⟨more, by rw [hsplit.1]⟩
    have hlength : (first :: more).length ≤ maxApplyRange := by
      have hle := List.length_take_le maxApplyRange (first :: rest)
      rw [hsplit, List.length_append] at hle
      omega
    obtain ⟨hvalid, hfirst, hend⟩ := hprepared.batch hlength hlast
    have hcommit := AppliedStore.commit_eq sha p.term h.healthy
      (fun l hl => (h.engine l hl).2) hvalid (hfirst.trans (by rw [h.index]))
    obtain ⟨saved, hmatches⟩ := hprepared.leads
    have hvalid' : p.transaction.state.Valid sha := hmatches.state ▸ hmatches.valid
    refine .inl ⟨first :: more, left ++ (first :: rest).drop maxApplyRange, p.outcomes, p.visible w,
      ⟨p.transaction.state, last.1, max shared.commitIndex last.1⟩,
      { store with
        engine := store.engine.map fun l => l.commit sha ⟨first.index, last.1, mutations p.cells⟩
        index := last.1
        term := p.term }, ?_, ?_, List.cons_ne_nil _ _, hprepared.each, ?_, ?_⟩
    · simp only [hloop, hlast, GroupFaults.none]
      simp only [hcommit]
      rfl
    · rw [← List.append_assoc, ← hsplit, List.take_append_drop]
    · refine ⟨rfl, hvalid', h.healthy, hend, fun l hl => ?_⟩
      obtain ⟨l₀, hl₀, rfl⟩ := Option.map_eq_some_iff.1 hl
      exact ⟨by rw [Logical.commit, (h.engine l₀ hl₀).1]; rfl, rfl⟩
    · obtain ⟨final, hfinal⟩ : ∃ final, (first :: more).getLast? = some final :=
        ⟨_, List.getLast?_eq_some_getLast (List.cons_ne_nil _ _)⟩
      simp only [viewOf, View.after, hfinal, hend, hprepared.term final hfinal, Option.map_map]
      congr 1
      cases hstore : store.engine with
      | none => rfl
      | some l =>
        simp only [Option.map_some, Function.comp_apply, Logical.commit, (h.engine l hstore).1]
        rfl
  · refine .inr ⟨e, done, fail, left ++ (first :: rest).drop maxApplyRange, ?_, ?_, hstops⟩
    · simp only [hloop, hdrop, Option.map_some, ← h.state]
    · rw [← List.cons_append, ← List.append_assoc, ← hsplit, List.take_append_drop]

/-! ## The run -/

/-- The run has delivered the outcomes of these entries, and shows what they leave one by one. -/
def QueueResult.Shows (sha : Digest) (identity : ApplicationIdentity) (v : View) (w : Visible)
    (entries : List Entry) (r : QueueResult) : Prop :=
  ∃ w', applyEach sha identity entries w = some (r.delivered, w') ∧
    viewOf r.shared r.store = v.after entries w'

/-- The entries of a first group come in front of what the rest of the run shows. -/
theorem QueueResult.Shows.append {v : View} {r : QueueResult}
    (heach : applyEach sha identity done w = some (outcomes, w'))
    (h : r.Shows sha identity (v.after done w') w' entries) :
    QueueResult.Shows sha identity v w (done ++ entries)
      { r with delivered := outcomes ++ r.delivered } := by
  obtain ⟨w₂, heach₂, hview⟩ := h
  refine ⟨w₂, applyEach_of_append heach heach₂, hview.trans ?_⟩
  by_cases hnil : entries = []
  · subst hnil
    obtain ⟨-, rfl⟩ := Prod.mk.inj (Option.some.inj heach₂)
    rw [List.append_nil]
    rfl
  · refine View.after_append _ hnil ?_
    rw [(consecutive heach₂).lastApplied]
    exact Nat.le_add_right _ _

theorem QueueResult.Shows.unique {v : View} {r r' : QueueResult}
    (h : r.Shows sha identity v w entries) (h' : r'.Shows sha identity v w entries) :
    r.delivered = r'.delivered ∧ viewOf r.shared r.store = viewOf r'.shared r'.store := by
  obtain ⟨w₁, heach, hview⟩ := h
  obtain ⟨w₂, heach', hview'⟩ := h'
  rw [heach, Option.some.injEq, Prod.mk.injEq] at heach'
  obtain ⟨hdelivered, rfl⟩ := heach'
  exact ⟨hdelivered, hview.trans hview'.symm⟩

/-- Nothing is shown behind the entry at which a run stops. -/
theorem StopsAt.not_shows {v : View} {r : QueueResult} {rest : List Entry}
    (h : StopsAt sha identity w done fail) :
    ¬ r.Shows sha identity v w (done ++ fail :: rest) := by
  rintro ⟨w₁, heach, -⟩
  rw [h.eq_none] at heach
  cases heach

/-- **A queue** leaves what its entries one by one leave, however it is offered.  When they stop at
an entry it stops at it too, and shows the entries in front of the group that the entry is in. -/
theorem applyQueue_spec (offer : List Entry → Nat) {bound fuel : Nat} {queue : List Entry}
    (hoffer : ∀ queue, min (offer queue) (maxApplyRange - 1) ≤ bound)
    (h : Stands sha shared store w) (hfuel : queue.length ≤ fuel) :
    ∃ r, applyQueue sha offer fuel queue shared store = some r ∧
      ((r.error = none ∧ r.Shows sha store.identity (viewOf shared store) w queue) ∨
        r.error.isSome ∧ ∃ kept lost fail rest, queue = kept ++ lost ++ fail :: rest ∧
          lost.length ≤ bound ∧ StopsAt sha store.identity w (kept ++ lost) fail ∧
          r.Shows sha store.identity (viewOf shared store) w kept) := by
  induction fuel generalizing queue shared store w with
  | zero =>
    obtain rfl : queue = [] := List.length_eq_zero_iff.1 (Nat.le_zero.1 hfuel)
    exact ⟨_, rfl, .inl ⟨rfl, w, rfl, rfl⟩⟩
  | succ fuel ih =>
    cases queue with
    | nil => exact ⟨_, rfl, .inl ⟨rfl, w, rfl, rfl⟩⟩
    | cons entry queue =>
      rw [applyQueue]
      have hmore := hoffer (entry :: queue)
      generalize min (offer (entry :: queue)) (maxApplyRange - 1) = more at hmore
      have hqueue : entry :: queue = entry :: queue.take more ++ queue.drop more := by
        rw [List.cons_append, List.take_append_drop]
      rcases applyGroup_spec h (List.cons_ne_nil entry (queue.take more)) with
        ⟨taken, left, outcomes, w₁, shared₁, store₁, hgroup, hsplit, htaken, heach, hstands,
          hview⟩ | ⟨e, done, fail, rest, hgroup, hsplit, hstops⟩
      · have hleft : (entry :: queue.take more).drop outcomes.length = left := by
          rw [(consecutive heach).length, hsplit, List.drop_left]
        simp only [hgroup, hleft]
        rw [hsplit, List.append_assoc] at hqueue
        have hidentity : store₁.identity = store.identity := by
          have hsame := congrArg View.identity hview
          unfold View.after at hsame
          split at hsame <;> exact hsame
        have hshort : (left ++ queue.drop more).length ≤ fuel := by
          have hlength := congrArg List.length hqueue
          rw [List.length_append] at hlength
          have := List.length_pos_iff.2 htaken
          omega
        obtain ⟨r, hrest, hends⟩ := ih hstands hshort
        rw [hidentity, hview] at hends
        refine ⟨_, by rw [hrest]; rfl, ?_⟩
        rcases hends with ⟨hok, hshows⟩ |
          ⟨herror, kept, lost, fail, rest, hsplit₂, hlost, hstops, hshows⟩
        · rw [hqueue]
          exact .inl ⟨hok, hshows.append heach⟩
        · refine .inr ⟨herror, taken ++ kept, lost, fail, rest, ?_, hlost, ?_,
            hshows.append heach⟩
          · rw [hqueue, hsplit₂, List.append_assoc, List.append_assoc, List.append_assoc]
          · rw [List.append_assoc]
            exact hstops.append heach
      · -- nothing of the group is kept
        simp only [hgroup]
        refine ⟨_, rfl, .inr ⟨rfl, [], done, fail, rest ++ queue.drop more, ?_, ?_, hstops,
          w, rfl, rfl⟩⟩
        · rw [hqueue, hsplit, List.nil_append, List.append_assoc, List.cons_append]
        · have hlength := congrArg List.length hsplit
          have htake := List.length_take_le more queue
          rw [List.length_cons, List.length_append, List.length_cons] at hlength
          omega

/-! ## A group that fails -/

/-- Whatever goes wrong before the new state is shown, the shared state is the one in front of the
group. -/
theorem applyGroup_error (hvalid : shared.application.Valid sha) (store : AppliedStore)
    (faults : GroupFaults) (entries : List Entry) :
    (∃ e store', applyGroup sha faults entries shared store = some (.error e, shared, store')) ∨
      ((faults.commit.isSome → store.engine = none) ∧
        ∃ outcomes shared' store', applyGroup sha faults entries shared store =
          some ((faults.status.elim (.ok outcomes) .error), shared', store')) := by
  cases entries with
  | nil => exact .inl ⟨_, _, rfl⟩
  | cons first rest =>
    rw [applyGroup]
    have hstart : Prepared sha store.identity ⟨shared.application, fun _ => none⟩ []
        (.start shared.application) := Prepared.start hvalid
    rcases hstart.loop ((first :: rest).take maxApplyRange) (fun _ => by simp [maxApplyRange]) with
      ⟨p, taken, left, hloop, -, hprepared, hsome⟩ | ⟨e, tx, -, -, -, hloop, hdrop, -⟩
    · obtain ⟨saved, hmatches⟩ := hprepared.leads
      obtain ⟨last, hlast⟩ : ∃ last, p.outcomes.getLast? = some last :=
        ⟨_, List.getLast?_eq_some_getLast hsome⟩
      simp only [hloop, hlast]
      rcases hcommit : store.commit sha faults.commit first.index last.1 p.term
        (mutations p.cells) with ⟨result, store'⟩
      cases result with
      | error e =>
        simp only [hmatches.drop, Option.map_some]
        exact .inl ⟨e, store', rfl⟩
      | ok done =>
        refine .inr ⟨fun hfault => ?_, p.outcomes, ⟨p.transaction.commit, last.1,
          max shared.commitIndex last.1⟩, store', ?_⟩
        · -- a commit with a fault succeeds only when there is no engine
          obtain ⟨fault, hfault⟩ := Option.isSome_iff_exists.1 hfault
          unfold AppliedStore.commit at hcommit
          rw [hfault] at hcommit
          split at hcommit
          · cases hcommit
          · split at hcommit
            · cases hcommit
            · cases hengine : store.engine with
              | none => rfl
              | some l => simp [hengine] at hcommit
        · cases faults.status <;> rfl
    · simp only [hloop, hdrop, Option.map_some]
      exact .inl ⟨e, store, rfl⟩

/-! ## Grouped application -/

/-- The store has committed what the application has applied. -/
structure InStep (shared : SharedState) (store : AppliedStore) : Prop where
  healthy : store.poisoned = false
  index : store.index = shared.application.lastApplied
  engine : ∀ l ∈ store.engine, l.applied = store.index

/-- The application and the contents of its engine, none without an engine. -/
def visibleOf (shared : SharedState) (store : AppliedStore) : Visible :=
  ⟨shared.application, store.engine.elim (fun _ => none) Logical.cells⟩

theorem InStep.stands (h : InStep shared store) (hvalid : shared.application.Valid sha) :
    Stands sha shared store (visibleOf shared store) where
  state := rfl
  valid := hvalid
  healthy := h.healthy
  index := h.index
  engine l hl := ⟨by rw [visibleOf, hl]; rfl, h.engine l hl⟩

/-- The loop of a group always holds a prefix of its entries. -/
theorem loop_prepared (hvalid : w.state.Valid sha)
    (hloop : Progress.loop sha identity entries (.start w.state) = some (.ok p)) :
    ∃ taken, Prepared sha identity w taken p := by
  have hstart : Prepared sha identity w [] (.start w.state) := Prepared.start hvalid
  by_cases hnil : entries = []
  · subst hnil
    cases hloop
    exact ⟨[], hstart⟩
  · rcases hstart.loop entries (fun _ => hnil) with
      ⟨p', taken, left, hloop', -, hprepared, -⟩ | ⟨e, tx, -, -, -, hloop', -⟩
    · rw [hloop] at hloop'
      cases hloop'
      exact ⟨_, hprepared⟩
    · rw [hloop] at hloop'
      cases hloop'

/-- **Entries applied in groups are entries applied one by one.**  From every reachable state, every
way to offer a run of entries ends without an error when the entries one by one do, and then gives
the same outcomes, the same application and the same contents of the engine.  When they stop at an
entry both runs stop at it: one by one everything in front of it is delivered and shown, in groups
only what is in front of its group.  The count of the coalesced cells is their size, which the
engine's limits allow; and a group whose commit fails, or that fails before, shows the state in
front of it. -/
theorem grouped_application (sha : Digest) {admits : Command → Prop} {shared : SharedState}
    {store : AppliedStore} (hreach : shared.application.Reachable sha admits)
    (hstep : InStep shared store) :
    (∀ offer queue, ∃ r r', applyRun sha offer queue shared store = some r ∧
      applyRun sha singly queue shared store = some r' ∧
      let Shows := QueueResult.Shows sha store.identity (viewOf shared store)
        (visibleOf shared store)
      (r.error = none ∧ r'.error = none ∧ Shows queue r ∧ Shows queue r' ∧
          r.delivered = r'.delivered ∧ viewOf r.shared r.store = viewOf r'.shared r'.store) ∨
        r.error.isSome ∧ r'.error.isSome ∧
          ∃ kept lost fail rest, queue = kept ++ lost ++ fail :: rest ∧
            lost.length < maxApplyRange ∧
            StopsAt sha store.identity (visibleOf shared store) (kept ++ lost) fail ∧
            Shows kept r ∧ Shows (kept ++ lost) r') ∧
    (∀ entries p, Progress.loop sha store.identity entries (.start shared.application) =
        some (.ok p) →
      p.bytes = batchBytes (mutations p.cells) ∧
        Store.Admitted (mutations p.cells) maxBatchRecords maxBatchBytes) ∧
    (∀ faults entries, faults.commit.isSome → store.engine.isSome →
      ∃ e store', applyGroup sha faults entries shared store = some (.error e, shared, store')) ∧
    ∀ fault entries e shared' store', applyGroup sha ⟨fault, none⟩ entries shared store =
      some (.error e, shared', store') → shared' = shared := by
  have hvalid := hreach.valid
  have hstands := hstep.stands hvalid
  refine ⟨fun offer queue => ?_, fun entries p hloop => ?_, fun faults entries hfault hengine => ?_,
    fun fault entries e shared' store' hgroup => ?_⟩
  · obtain ⟨r, hrun, hends⟩ := applyQueue_spec offer (fun _ => min_le_right _ _) hstands
      (le_refl queue.length)
    obtain ⟨r', hrun', hends'⟩ := applyQueue_spec singly (fun _ => min_le_left _ _) hstands
      (le_refl queue.length)
    refine ⟨r, r', hrun, hrun', ?_⟩
    rcases hends with ⟨hok, hshows⟩ |
      ⟨herror, kept, lost, fail, rest, hsplit, hlost, hstops, hshows⟩
    · rcases hends' with ⟨hok', hshows'⟩ | ⟨-, kept, lost, fail, rest, hsplit, -, hstops, -⟩
      · exact .inl ⟨hok, hok', hshows, hshows', hshows.unique hshows'⟩
      · exact absurd (hsplit ▸ hshows) hstops.not_shows
    · rcases hends' with ⟨-, hshows'⟩ |
        ⟨herror', kept', lost', fail', rest', hsplit', hlost', hstops', hshows'⟩
      · exact absurd (hsplit ▸ hshows') hstops.not_shows
      · -- one by one nothing is lost, and both runs stop at the same entry
        obtain rfl : lost' = [] := List.length_eq_zero_iff.1 (Nat.le_zero.1 hlost')
        rw [List.append_nil] at hsplit' hstops'
        rw [← hstops.unique hstops' (hsplit.symm.trans hsplit')] at hshows'
        exact .inr ⟨herror, herror', kept, lost, fail, rest, hsplit,
          Nat.lt_of_le_pred (by decide) hlost, hstops, hshows, hshows'⟩
  · obtain ⟨taken, hprepared⟩ := loop_prepared (w := visibleOf shared store) hvalid hloop
    rw [batchBytes_mutations]
    exact ⟨hprepared.accumulated.bytes, hprepared.accumulated.admitted⟩
  · rcases applyGroup_error hvalid store faults entries with herror | ⟨hnone, -⟩
    · exact herror
    · rw [hnone hfault] at hengine
      cases hengine
  · rcases applyGroup_error hvalid store ⟨fault, none⟩ entries with
      ⟨e', store₁, herror⟩ | ⟨-, outcomes, shared₁, store₁, hok⟩
    · rw [hgroup] at herror
      cases herror
      rfl
    · rw [hgroup] at hok
      cases hok

/-- A node with an empty engine. -/
def emptyShared : SharedState := ⟨.initial, 0, 0⟩

def emptyStore : AppliedStore := ⟨⟨"group", [1, 2, 3]⟩, some ⟨fun _ => none, 0, []⟩, 0, 0, false⟩

theorem emptyStore_inStep : InStep emptyShared emptyStore := by
  refine ⟨rfl, rfl, ?_⟩
  rintro l ⟨⟩
  rfl

/-- Two writes of one key, a session and a write of it. -/
def groupedEntries : List Entry :=
  [⟨1, 1, .put "key" "old"⟩, ⟨2, 1, .put "key" "new"⟩, ⟨3, 1, .registerSession "nonce"⟩,
    ⟨4, 2, .sessionPut 3 "key" 1 "last"⟩]

/-- The four entries offered together, in one group, and one by one. -/
theorem grouped_application_sample :
    ∃ r r', applyRun toyDigest (fun _ => 3) groupedEntries emptyShared emptyStore = some r ∧
      applyRun toyDigest singly groupedEntries emptyShared emptyStore = some r' ∧
      r.error = none ∧ r.delivered.map Prod.fst = [1, 2, 3, 4] ∧ r.delivered = r'.delivered ∧
      r.shared.application = r'.shared.application := by
  have hsome : (applyRun toyDigest (fun _ => 3) groupedEntries emptyShared emptyStore).any
      (fun r => r.error.isNone && (r.delivered.map Prod.fst == [1, 2, 3, 4])) = true := by
    decide +kernel
  obtain ⟨r₀, hrun, hresult⟩ := (Option.any_eq_true _ _).1 hsome
  simp only [Bool.and_eq_true, Option.isNone_iff_eq_none, beq_iff_eq] at hresult
  have hreach : StateMachine.Reachable toyDigest (fun _ => True) emptyShared.application :=
    .initial
  obtain ⟨r, r', hr, hr', hends⟩ := (grouped_application toyDigest hreach emptyStore_inStep).1
    (fun _ => 3) groupedEntries
  rw [hrun] at hr
  cases hr
  rcases hends with ⟨-, -, -, -, hdelivered, hview⟩ | ⟨herror, -⟩
  · exact ⟨r₀, r', hrun, hr', hresult.1, hresult.2, hdelivered,
      congrArg (fun v => v.shared.application) hview⟩
  · rw [hresult.1] at herror
    cases herror

theorem length_utf8_replicate (n : Nat) :
    (utf8 (String.ofList (List.replicate n 'k'))).length = n := by
  induction n with
  | zero => rfl
  | succ n ih =>
    have hchar : "k".utf8ByteSize = 1 := rfl
    simpa [utf8, List.replicate_succ, hchar, Nat.add_comm] using ih

/-- A write, and one of the given key. -/
def writesTo (key : String) : List Entry := [⟨1, 1, .put "a" "1"⟩, ⟨2, 1, .put key "2"⟩]

section Overlong

-- the key leaves no room for the kind of its cell in front of it
variable {key : String} (hkey : Store.maxKeyBytes < (utf8 key).length + 2)

include hkey

theorem overlong_cells {s : StateMachine} {index term : Nat} {value : String}
    {changes : List Mutation}
    (h : entryCells s identity ⟨index, term, .put key value⟩ = .ok changes) :
    ¬ ∀ m ∈ changes, m.Bounded := by
  intro hbounded
  cases h
  have hlong : (named valueSpace key).length ≤ Store.maxKeyBytes :=
    (hbounded (valueCell s key) (by simp)).key
  rw [named, List.length_append, show valueSpace.length = 2 from rfl] at hlong
  omega

theorem overlong_apply (w : Visible) (index term : Nat) (value : String) :
    w.apply sha identity ⟨index, term, .put key value⟩ = none := by
  refine Option.eq_none_iff_forall_ne_some.2 fun ⟨outcome, w'⟩ hsome => ?_
  obtain ⟨changes, -, hcells, hadmitted, -⟩ := Visible.apply_eq_some.1 hsome
  exact overlong_cells hkey hcells hadmitted.bounded

theorem overlong_stops : ∃ outcome w, w.state.lastApplied = 1 ∧
    applyEach toyDigest emptyStore.identity [⟨1, 1, .put "a" "1"⟩]
      (visibleOf emptyShared emptyStore) = some ([(1, outcome)], w) ∧
    StopsAt toyDigest emptyStore.identity (visibleOf emptyShared emptyStore)
      [⟨1, 1, .put "a" "1"⟩] ⟨2, 1, .put key "2"⟩ := by
  have hsome : ((visibleOf emptyShared emptyStore).apply toyDigest emptyStore.identity
      ⟨1, 1, .put "a" "1"⟩).any (fun r => r.2.state.lastApplied == 1) = true := by decide +kernel
  obtain ⟨⟨outcome, w⟩, hfirst, happlied⟩ := (Option.any_eq_true _ _).1 hsome
  have heach := applyEach_singleton hfirst
  exact ⟨outcome, w, beq_iff_eq.1 happlied, heach, _, _, heach, overlong_apply hkey _ _ _ _⟩

/-- The group is prepared up to the second entry, and dropped. -/
theorem overlong_loop : ∃ e tx, Progress.loop toyDigest emptyStore.identity (writesTo key)
    (.start emptyShared.application) = some (.error (e, tx)) ∧ tx.drop = some .initial := by
  obtain ⟨outcome, w, -, hfirst, hstops⟩ := overlong_stops hkey
  have hstart : Prepared toyDigest emptyStore.identity (visibleOf emptyShared emptyStore) []
      (.start emptyShared.application) := Prepared.start (valid_initial toyDigest)
  rcases hstart.prepare ⟨1, 1, .put "a" "1"⟩ with ⟨p, hprepare, hnext, -⟩ | ⟨-, hsome, -⟩ |
    ⟨e, tx, -, -, hfails⟩
  · rw [writesTo, Progress.loop, hprepare]
    dsimp only
    rcases hnext.prepare ⟨2, 1, .put key "2"⟩ with ⟨p', -, hboth, -⟩ |
      ⟨-, -, s, changes, hcells, hbounded⟩ | ⟨e, tx, hfails, hdrop, -⟩
    · have heach := hboth.each
      rw [List.nil_append, hstops.eq_none []] at heach
      cases heach
    · exact absurd hbounded (overlong_cells hkey hcells)
    · rw [Progress.loop, hfails]
      exact ⟨e, tx, rfl, hdrop⟩
  · exact absurd rfl hsome
  · have hnone := StopsAt.eq_none ⟨_, _, hstart.each, hfails⟩ []
    rw [List.nil_append, hfirst] at hnone
    cases hnone

theorem overlong_grouped : ∃ e, applyRun toyDigest (fun _ => 1) (writesTo key) emptyShared
    emptyStore = some ⟨[], some e, emptyShared, emptyStore⟩ := by
  obtain ⟨e, tx, hloop, hdrop⟩ := overlong_loop hkey
  have hgroup : applyGroup toyDigest .none (writesTo key) emptyShared emptyStore =
      some (.error e, emptyShared, emptyStore) := by
    have htake : (writesTo key).take maxApplyRange = writesTo key := rfl
    unfold writesTo at htake hloop ⊢
    rw [applyGroup, htake, hloop]
    dsimp only
    rw [hdrop]
    rfl
  refine ⟨e, ?_⟩
  have hmore : min 1 (maxApplyRange - 1) = 1 := by decide
  unfold writesTo at hgroup ⊢
  rw [applyRun, List.length_cons, applyQueue, hmore]
  simp only [List.take_succ_cons, List.take_zero, hgroup]

theorem overlong_singly : ∃ r, applyRun toyDigest singly (writesTo key) emptyShared emptyStore =
    some r ∧ r.error.isSome ∧ r.delivered.map Prod.fst = [1] ∧
      r.shared.application.lastApplied = 1 ∧ r.store.engine.map Logical.applied = some 1 := by
  obtain ⟨outcome, w, happlied, heach, hstops⟩ := overlong_stops hkey
  obtain ⟨r, hrun, hends⟩ := applyQueue_spec singly (fun _ => min_le_left _ _)
    (emptyStore_inStep.stands (valid_initial toyDigest)) (le_refl (writesTo key).length)
  refine ⟨r, hrun, ?_⟩
  rcases hends with ⟨-, hshows⟩ |
    ⟨herror, kept, lost, fail, rest, hsplit, hlost, hstops', w', heach', hview⟩
  · exact absurd hshows hstops.not_shows
  · obtain rfl : lost = [] := List.length_eq_zero_iff.1 (Nat.le_zero.1 hlost)
    rw [List.append_nil] at hsplit hstops'
    obtain rfl := hstops.unique hstops' (by rw [← hsplit]; rfl)
    rw [heach, Option.some.injEq, Prod.mk.injEq] at heach'
    obtain ⟨hdelivered, rfl⟩ := heach'
    refine ⟨herror, by rw [← hdelivered]; rfl, ?_, ?_⟩
    · rw [← happlied]
      exact congrArg (fun v => v.shared.application.lastApplied) hview
    · have hcontents := congrArg (fun v => v.contents.map Prod.snd) hview
      simpa [viewOf, View.after, emptyStore, happlied, Function.comp_def] using hcontents

end Overlong

/-- Offered together, the second entry takes the first one with it; one by one the first one is
delivered and shown. -/
theorem grouped_application_overlong :
    ∃ key r r', key = String.ofList (List.replicate 4096 'k') ∧
      applyRun toyDigest (fun _ => 1) (writesTo key) emptyShared emptyStore = some r ∧
      applyRun toyDigest singly (writesTo key) emptyShared emptyStore = some r' ∧
      r.error.isSome ∧ r'.error.isSome ∧
      r.delivered.map Prod.fst = [] ∧ r'.delivered.map Prod.fst = [1] ∧
      r.shared.application.lastApplied = 0 ∧ r'.shared.application.lastApplied = 1 ∧
      r.store.engine.map Logical.applied = some 0 ∧
      r'.store.engine.map Logical.applied = some 1 := by
  obtain ⟨key, hdef⟩ : ∃ key, key = String.ofList (List.replicate 4096 'k') := ⟨_, rfl⟩
  have hkey : Store.maxKeyBytes < (utf8 key).length + 2 := by
    rw [hdef, length_utf8_replicate]
    decide
  obtain ⟨e, hgrouped⟩ := overlong_grouped hkey
  obtain ⟨r', hsingly, herror, hdelivered, happlied, hengine⟩ := overlong_singly hkey
  exact ⟨key, _, r', hdef, hgrouped, hsingly, rfl, herror, rfl, hdelivered, rfl, happlied, rfl,
    hengine⟩

end MicroRaft.Application
