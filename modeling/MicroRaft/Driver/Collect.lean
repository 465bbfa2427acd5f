import MicroRaft.Core.Encoding
import MicroRaft.Core.Node
import MicroRaft.Store.Basic

/-!
# Collecting proposals

The driver takes proposals from a channel in batches: `next_proposal` gives the first
request, `collect_proposals` adds what is queued or arrives until a limit, the deadline or
the shutdown ends the batch.  A request that does not fit is kept in a side slot for the
next call.  Callers may add requests, give up and ask for the shutdown at any time, so the
collection is a transition system: its events are those of the callers and the driver's
own steps, one for every point at which it looks at the channel, a caller or the clock.

`Accounted` is the invariant: every request that arrived is settled, in the driver's hands,
deferred or queued, in the order of arrival.
-/

namespace MicroRaft.Driver

open Json (write)
open Store (IoError rejected)

/-! ## Requests and their sizes -/

/-- `MAX_BATCH_BYTES`. -/
def maxBatchBytes : Nat := 1024 * 1024

/-- `MAX_BATCH_DELAY_MS`. -/
def maxBatchDelayMs : Nat := 10

/-- `command_bytes`: the counting writer fails once the text is longer than a batch. -/
def commandBytes (command : Command) : Option Nat :=
  let size := (write command).length
  if size > maxBatchBytes then none else some size

/-- One client command; `respondTo` names the channel on which its caller waits. -/
structure ProposalRequest where
  command : Command
  respondTo : Nat
  deriving DecidableEq

/-- The length of the command's JSON text. -/
def ProposalRequest.size (request : ProposalRequest) : Nat := (write request.command).length

variable {request : ProposalRequest}

theorem commandBytes_eq_some {size : Nat} : commandBytes request.command = some size ↔
      request.size ≤ maxBatchBytes ∧ size = request.size := by
  simp only [commandBytes, ProposalRequest.size, Option.ite_none_left_eq_some, Nat.not_lt,
    Option.some.injEq, eq_comm (a := size)]

theorem commandBytes_eq_none :
    commandBytes request.command = none ↔ maxBatchBytes < request.size := by
  simp [commandBytes, ProposalRequest.size]

structure BatchOptions where
  records : Nat
  delayMs : Nat
  deriving DecidableEq

/-- `BatchOptions::validate`. -/
def BatchOptions.validate (options : BatchOptions) : Except IoError BatchOptions :=
  if options.records = 0 ∨ options.records > maxProposalBatch ∨
      options.delayMs > maxBatchDelayMs then
    .error (rejected "batch records must be 1..=16 and delay at most 10ms")
  else .ok options

/-! ## The transition system -/

/-- The locals of `collect_proposals`. -/
structure Collecting where
  batch : List ProposalRequest
  bytes : Nat
  scanned : Nat
  deriving DecidableEq

/-- Where the driver stands. -/
inductive Phase where
  /-- Between two calls. -/
  | idle
  /-- At the head of the loop, with the next request in hand. -/
  | scanning (c : Collecting) (next : ProposalRequest)
  /-- After a request, before the limits are looked at. -/
  | scanned (c : Collecting)
  /-- Before `try_recv`. -/
  | receiving (c : Collecting)
  /-- The channel was empty: the deadline, the shutdown or a request comes first. -/
  | waiting (c : Collecting)
  deriving DecidableEq

/-- The channel, the side slot and the driver.  The last two fields are the history: what
has arrived, and what was settled with the state of its caller that was seen then. -/
structure Collector where
  queue : List ProposalRequest
  connected : Bool
  deferred : Option ProposalRequest
  closed : List Nat
  shutdown : Bool
  phase : Phase
  returned : List Collecting
  answered : List ProposalRequest
  arrived : List ProposalRequest
  settled : List (ProposalRequest × Bool)
  deriving DecidableEq

/-- `respond_to.is_closed()`. -/
def Collector.isClosed (s : Collector) (request : ProposalRequest) : Bool :=
  s.closed.contains request.respondTo

def Collector.start : Collector where
  queue := []
  connected := true
  deferred := none
  closed := []
  shutdown := false
  phase := .idle
  returned := []
  answered := []
  arrived := []
  settled := []

inductive Event where
  /-- A caller's request enters the channel. -/
  | arrive (request : ProposalRequest)
  /-- A caller stops waiting. -/
  | cancel (respondTo : Nat)
  /-- The last sender of the channel is gone. -/
  | disconnect
  | requestShutdown
  /-- `next_proposal` gives a request, and `collect_proposals` begins. -/
  | next
  | scan
  | check
  | receive
  /-- The deadline has passed. -/
  | expire
  /-- The shutdown ends the wait. -/
  | interrupt
  /-- `recv` ends the wait. -/
  | wake

/-- `collect_proposals` returns its batch. -/
def Collector.finish (s : Collector) (c : Collecting) : Collector :=
  { s with phase := .idle, returned := s.returned ++ [c] }

/-- The body of the loop: the request is dropped, deferred, taken or refused. -/
def Collector.scan (s : Collector) (c : Collecting) (request : ProposalRequest) : Collector :=
  let c := { c with scanned := c.scanned + 1 }
  let settled := s.settled ++ [(request, s.isClosed request)]
  if s.isClosed request then
    { s with phase := .scanned c, settled }
  else
    match commandBytes request.command with
    | some size =>
        if c.bytes + size > maxBatchBytes then
          { s with deferred := some request }.finish c
        else
          { s with
            phase := .scanned { c with bytes := c.bytes + size, batch := c.batch ++ [request] }
            settled }
    | none => { s with phase := .scanned c, settled, answered := s.answered ++ [request] }

/-- One event; `none` where it cannot happen. -/
def Collector.step (options : BatchOptions) (s : Collector) : Event → Option Collector
  | .arrive request =>
      if s.connected then
        some { s with queue := s.queue ++ [request], arrived := s.arrived ++ [request] }
      else none
  | .cancel respondTo => some { s with closed := respondTo :: s.closed }
  | .disconnect => some { s with connected := false }
  | .requestShutdown => some { s with shutdown := true }
  | .next =>
      match s.phase, s.deferred, s.queue with
      | .idle, some request, _ =>
          some { s with deferred := none, phase := .scanning ⟨[], 0, 0⟩ request }
      | .idle, none, request :: queue =>
          some { s with queue, phase := .scanning ⟨[], 0, 0⟩ request }
      | _, _, _ => none
  | .scan =>
      match s.phase with
      | .scanning c request => some (s.scan c request)
      | _ => none
  | .check =>
      match s.phase with
      | .scanned c =>
          if c.batch.length ≥ options.records ∨ c.scanned ≥ maxProposalBatch ∨
              s.shutdown = true then
            some (s.finish c)
          else some { s with phase := .receiving c }
      | _ => none
  | .receive =>
      match s.phase, s.queue with
      | .receiving c, request :: queue => some { s with queue, phase := .scanning c request }
      | .receiving c, [] =>
          if s.connected then some { s with phase := .waiting c } else some (s.finish c)
      | _, _ => none
  | .expire =>
      match s.phase with
      | .waiting c => some (s.finish c)
      | _ => none
  | .interrupt =>
      match s.phase with
      | .waiting c => if s.shutdown then some (s.finish c) else none
      | _ => none
  | .wake =>
      match s.phase, s.queue with
      | .waiting c, request :: queue => some { s with queue, phase := .scanning c request }
      | .waiting c, [] => if s.connected then none else some (s.finish c)
      | _, _ => none

/-- Several events, one after another. -/
def Collector.run (options : BatchOptions) (s : Collector) (events : List Event) :
    Option Collector :=
  events.foldlM (Collector.step options) s

/-- What callers sent, in order. -/
def arrivals (events : List Event) : List ProposalRequest :=
  events.filterMap fun
    | .arrive request => some request
    | _ => none

/-! ## What the invariant speaks of -/

/-- The request in the driver's hands. -/
def Phase.inHand : Phase → List ProposalRequest
  | .scanning _ request => [request]
  | _ => []

/-- The locals of a call that is going on. -/
def Phase.locals : Phase → Option Collecting
  | .idle => none
  | .scanning c _ | .scanned c | .receiving c | .waiting c => some c

/-- The batch of a call that is going on. -/
def Phase.batch (phase : Phase) : List ProposalRequest :=
  (phase.locals.map Collecting.batch).getD []

/-- A settled request that belongs to a batch: its caller was there and its command fits. -/
def taken (entry : ProposalRequest × Bool) : Bool :=
  !entry.2 && decide (entry.1.size ≤ maxBatchBytes)

/-- A settled request that was refused for its size. -/
def refused (entry : ProposalRequest × Bool) : Bool :=
  !entry.2 && decide (maxBatchBytes < entry.1.size)

/-- The limits of a batch. -/
structure Collecting.Within (options : BatchOptions) (c : Collecting) : Prop where
  records : c.batch.length ≤ options.records
  scans : c.scanned ≤ maxProposalBatch
  bytes_le : c.bytes ≤ maxBatchBytes
  bytes_eq : c.bytes = (c.batch.map ProposalRequest.size).sum

/-- Another request can be looked at. -/
def Collecting.Spare (options : BatchOptions) (c : Collecting) : Prop :=
  c.batch.length < options.records ∧ c.scanned < maxProposalBatch

/-- Before a request is taken from the channel there is room for it. -/
def Phase.Spare (options : BatchOptions) : Phase → Prop
  | .idle | .scanned _ => True
  | .scanning c _ | .receiving c | .waiting c => c.Spare options

/-- **The invariant of the collection.** -/
structure Accounted (options : BatchOptions) (s : Collector) : Prop where
  order : s.arrived = s.settled.map Prod.fst ++ s.phase.inHand ++ s.deferred.toList ++ s.queue
  slot : s.phase ≠ .idle → s.deferred = none
  collected : s.returned.flatMap Collecting.batch ++ s.phase.batch =
    (s.settled.filter taken).map Prod.fst
  answered : s.answered = (s.settled.filter refused).map Prod.fst
  within : ∀ c ∈ s.returned, c.Within options
  locals_within : ∀ c ∈ s.phase.locals, c.Within options
  spare : s.phase.Spare options

/-! ## Every event keeps it -/

section Steps

variable {options : BatchOptions} {s : Collector} {c : Collecting} {request : ProposalRequest}

theorem Accounted.start (options : BatchOptions) : Accounted options .start where
  order := rfl
  slot := fun _ => rfl
  collected := rfl
  answered := rfl
  within := by
    intro c h
    cases h
  locals_within := by
    intro c h
    cases h
  spare := trivial

/-- The call ends and its batch is returned. -/
theorem Accounted.finish (h : Accounted options s) (hlocals : s.phase.locals = some c)
    (hhand : s.phase.inHand = []) : Accounted options (s.finish c) where
  order := by
    have horder := h.order
    rw [hhand] at horder
    exact horder
  slot := fun hidle => absurd rfl hidle
  collected := by
    have hcollected := h.collected
    rw [Phase.batch, hlocals] at hcollected
    have hreturned : (s.finish c).returned.flatMap Collecting.batch =
        s.returned.flatMap Collecting.batch ++ c.batch := by
      simp [Collector.finish]
    rw [hreturned]
    simpa [Phase.batch, Phase.locals, Collector.finish] using hcollected
  answered := h.answered
  within := by
    intro d hd
    rcases List.mem_append.1 hd with hd | hd
    · exact h.within d hd
    · rw [List.mem_singleton.1 hd]
      exact h.locals_within c hlocals
  locals_within := by
    intro d hd
    cases hd
  spare := trivial

/-- The next request of the channel comes into the driver's hands. -/
theorem Accounted.take {queue : List ProposalRequest} (h : Accounted options s)
    (hqueue : s.queue = request :: queue) (hslot : s.deferred = none)
    (hhand : s.phase.inHand = []) (hbatch : s.phase.batch = c.batch) (hwithin : c.Within options)
    (hspare : c.Spare options) :
    Accounted options { s with queue := queue, phase := .scanning c request } where
  order := by
    have horder := h.order
    rw [hhand, hslot, hqueue] at horder
    simpa [Phase.inHand, hslot] using horder
  slot := fun _ => hslot
  collected := by
    have hcollected := h.collected
    rw [hbatch] at hcollected
    exact hcollected
  answered := h.answered
  within := h.within
  locals_within := by
    intro d hd
    cases hd
    exact hwithin
  spare := hspare

theorem Collecting.Within.empty (options : BatchOptions) :
    Collecting.Within options ⟨[], 0, 0⟩ where
  records := Nat.zero_le _
  scans := Nat.zero_le _
  bytes_le := Nat.zero_le _
  bytes_eq := rfl

theorem BatchOptions.pos_of_validate (hvalid : options.validate = .ok options) :
    0 < options.records := by
  unfold validate at hvalid
  split at hvalid
  · cases hvalid
  · omega

theorem Collecting.Spare.empty (hvalid : options.validate = .ok options) :
    Collecting.Spare options ⟨[], 0, 0⟩ :=
  ⟨BatchOptions.pos_of_validate hvalid, by decide⟩

/-- A phase of the same call that holds nothing. -/
theorem Accounted.turn {phase : Phase} (h : Accounted options s)
    (hlocals : phase.locals = s.phase.locals) (hhand : phase.inHand = s.phase.inHand)
    (hidle : s.phase ≠ .idle) (hspare : phase.Spare options) :
    Accounted options { s with phase := phase } where
  order := by
    have horder := h.order
    rw [← hhand] at horder
    exact horder
  slot := fun _ => h.slot hidle
  collected := by
    have hcollected := h.collected
    rw [Phase.batch, ← hlocals] at hcollected
    exact hcollected
  answered := h.answered
  within := h.within
  locals_within := by
    intro d hd
    exact h.locals_within d (hlocals ▸ hd)
  spare := hspare

/-- A request is received in the middle of a call. -/
theorem Accounted.receive {queue : List ProposalRequest} (h : Accounted options s)
    (hqueue : s.queue = request :: queue)
    (hphase : s.phase = .receiving c ∨ s.phase = .waiting c) :
    Accounted options { s with queue := queue, phase := .scanning c request } := by
  have hlocals : s.phase.locals = some c := by
    rcases hphase with hphase | hphase <;> rw [hphase] <;> rfl
  have hhand : s.phase.inHand = [] := by
    rcases hphase with hphase | hphase <;> rw [hphase] <;> rfl
  have hspare : c.Spare options := by
    have hspare := h.spare
    rcases hphase with hphase | hphase <;> rw [hphase] at hspare <;> exact hspare
  have hidle : s.phase ≠ .idle := by
    rcases hphase with hphase | hphase <;> simp [hphase]
  exact h.take hqueue (h.slot hidle) hhand (by rw [Phase.batch, hlocals]; rfl)
    (h.locals_within c hlocals) hspare

/-- A call begins with the request of the slot. -/
theorem Accounted.resume (h : Accounted options s) (hvalid : options.validate = .ok options)
    (hphase : s.phase = .idle) (hdeferred : s.deferred = some request) :
    Accounted options { s with deferred := none, phase := .scanning ⟨[], 0, 0⟩ request } where
  order := by
    have horder := h.order
    rw [hphase, hdeferred] at horder
    simpa [Phase.inHand] using horder
  slot := fun _ => rfl
  collected := by
    have hcollected := h.collected
    rw [hphase] at hcollected
    exact hcollected
  answered := h.answered
  within := h.within
  locals_within := by
    intro d hd
    cases hd
    exact .empty options
  spare := Collecting.Spare.empty hvalid

/-- A request that is looked at counts, whatever becomes of it. -/
theorem Collecting.Within.count (h : c.Within options) (hspare : c.Spare options) :
    Collecting.Within options { c with scanned := c.scanned + 1 } where
  records := h.records
  scans := hspare.2
  bytes_le := h.bytes_le
  bytes_eq := h.bytes_eq

/-- A request that fits is added. -/
theorem Collecting.Within.add (h : c.Within options) (hspare : c.Spare options)
    (hfits : c.bytes + request.size ≤ maxBatchBytes) :
    Collecting.Within options ⟨c.batch ++ [request], c.bytes + request.size, c.scanned + 1⟩ where
  records := by
    rw [List.length_append, List.length_singleton]
    exact hspare.1
  scans := hspare.2
  bytes_le := hfits
  bytes_eq := by
    rw [List.map_append, List.sum_append, ← h.bytes_eq, List.map_singleton, List.sum_singleton]

theorem filter_concat (p : ProposalRequest × Bool → Bool)
    (settled : List (ProposalRequest × Bool)) (x : ProposalRequest × Bool) :
    ((settled ++ [x]).filter p).map Prod.fst =
      (settled.filter p).map Prod.fst ++ if p x then [x.1] else [] := by
  rw [List.filter_append, List.map_append]
  congr 1
  cases hp : p x <;> simp [hp]

/-- The request in hand is settled, with the state of its caller as it is seen. -/
theorem Accounted.settle {c' : Collecting} {answered : List ProposalRequest}
    (h : Accounted options s) (hphase : s.phase = .scanning c request)
    (hbatch : c'.batch =
      c.batch ++ if taken (request, s.isClosed request) then [request] else [])
    (hanswered : answered =
      s.answered ++ if refused (request, s.isClosed request) then [request] else [])
    (hwithin : c'.Within options) :
    Accounted options { s with
      phase := .scanned c'
      settled := s.settled ++ [(request, s.isClosed request)]
      answered := answered } where
  order := by
    have horder := h.order
    rw [hphase] at horder
    simpa [Phase.inHand] using horder
  slot := fun _ => h.slot (by simp [hphase])
  collected := by
    have hcollected := h.collected
    rw [hphase] at hcollected
    show s.returned.flatMap Collecting.batch ++ c'.batch = _
    rw [filter_concat, ← hcollected, hbatch, ← List.append_assoc]
    rfl
  answered := by
    show answered = _
    rw [filter_concat, ← h.answered, hanswered]
  within := h.within
  locals_within := by
    intro d hd
    cases hd
    exact hwithin
  spare := trivial

/-- The request in hand does not fit: it waits in the slot, and the call ends. -/
theorem Accounted.defer (h : Accounted options s) (hphase : s.phase = .scanning c request)
    (hspare : c.Spare options) :
    Accounted options
      ({ s with deferred := some request }.finish { c with scanned := c.scanned + 1 }) where
  order := by
    have horder := h.order
    have hslot := h.slot (by simp [hphase])
    rw [hphase, hslot] at horder
    simpa [Collector.finish, Phase.inHand] using horder
  slot := fun hidle => absurd rfl hidle
  collected := by
    have hcollected := h.collected
    rw [hphase] at hcollected
    simpa [Collector.finish, Phase.batch, Phase.locals] using hcollected
  answered := h.answered
  within := by
    intro d hd
    rcases List.mem_append.1 hd with hd | hd
    · exact h.within d hd
    · rw [List.mem_singleton.1 hd]
      exact (h.locals_within c (by simp [hphase, Phase.locals])).count hspare
  locals_within := by
    intro d hd
    cases hd
  spare := trivial

theorem Accounted.scan (h : Accounted options s) (hphase : s.phase = .scanning c request) :
    Accounted options (s.scan c request) := by
  have hwithin : c.Within options := h.locals_within c (by simp [hphase, Phase.locals])
  have hspare : c.Spare options := by
    have := h.spare
    rwa [hphase] at this
  unfold Collector.scan
  dsimp only
  by_cases hclosed : s.isClosed request = true
  · rw [if_pos hclosed]
    exact h.settle hphase (by simp [taken, hclosed]) (by simp [refused, hclosed])
      (hwithin.count hspare)
  · rw [if_neg hclosed]
    have hopen : s.isClosed request = false := by simpa using hclosed
    cases hsize : commandBytes request.command with
    | none =>
      have hlarge := commandBytes_eq_none.1 hsize
      exact h.settle hphase (by simp [taken, hlarge]) (by simp [refused, hlarge, hopen])
        (hwithin.count hspare)
    | some size =>
      obtain ⟨hfits, rfl⟩ := commandBytes_eq_some.1 hsize
      dsimp only
      split
      · exact h.defer hphase hspare
      · rename_i hroom
        exact h.settle hphase (by simp [taken, hfits, hopen])
          (by simp [refused, Nat.not_lt.2 hfits]) (hwithin.add hspare (Nat.not_lt.1 hroom))

/-- What a caller does leaves the driver where it stands. -/
theorem Accounted.outside {s' : Collector} {arrived : List ProposalRequest}
    (h : Accounted options s) (hqueue : s'.queue = s.queue ++ arrived)
    (harrived : s'.arrived = s.arrived ++ arrived) (hdeferred : s'.deferred = s.deferred)
    (hphase : s'.phase = s.phase)
    (hreturned : s'.returned = s.returned) (hanswered : s'.answered = s.answered)
    (hsettled : s'.settled = s.settled) : Accounted options s' where
  order := by
    rw [harrived, h.order, hqueue, hsettled, hphase, hdeferred, List.append_assoc]
  slot := by
    rw [hphase, hdeferred]
    exact h.slot
  collected := by
    rw [hreturned, hphase, hsettled]
    exact h.collected
  answered := by
    rw [hanswered, hsettled]
    exact h.answered
  within := by
    rw [hreturned]
    exact h.within
  locals_within := by
    rw [hphase]
    exact h.locals_within
  spare := by
    rw [hphase]
    exact h.spare

/-- One event keeps the account. -/
theorem Accounted.step (hvalid : options.validate = .ok options) {s' : Collector}
    (h : Accounted options s) {event : Event} (hstep : s.step options event = some s') :
    Accounted options s' := by
  cases event with
  | arrive request =>
    simp only [Collector.step, Option.ite_none_right_eq_some, Option.some.injEq] at hstep
    obtain ⟨-, rfl⟩ := hstep
    exact h.outside rfl rfl rfl rfl rfl rfl rfl
  | cancel respondTo =>
    cases hstep
    exact h.outside (List.append_nil _).symm (List.append_nil _).symm rfl rfl rfl rfl rfl
  | disconnect =>
    cases hstep
    exact h.outside (List.append_nil _).symm (List.append_nil _).symm rfl rfl rfl rfl rfl
  | requestShutdown =>
    cases hstep
    exact h.outside (List.append_nil _).symm (List.append_nil _).symm rfl rfl rfl rfl rfl
  | next =>
    rw [Collector.step] at hstep
    split at hstep
    · rename_i hphase hdeferred
      cases hstep
      exact h.resume hvalid hphase hdeferred
    · rename_i hphase hdeferred hqueue
      cases hstep
      exact h.take hqueue hdeferred (by simp [hphase, Phase.inHand])
        (by simp [hphase, Phase.batch, Phase.locals]) (.empty options) (.empty hvalid)
    · cases hstep
  | scan =>
    rw [Collector.step] at hstep
    split at hstep
    · rename_i hphase
      cases hstep
      exact h.scan hphase
    · cases hstep
  | check =>
    rw [Collector.step] at hstep
    split at hstep
    · rename_i c hphase
      split at hstep
      · cases hstep
        exact h.finish (by simp [hphase, Phase.locals]) (by simp [hphase, Phase.inHand])
      · rename_i hroom
        cases hstep
        refine h.turn (by simp [hphase, Phase.locals]) (by simp [hphase, Phase.inHand])
          (by simp [hphase]) ?_
        simp only [not_or, Nat.not_le] at hroom
        exact ⟨hroom.1, hroom.2.1⟩
    · cases hstep
  | receive =>
    rw [Collector.step] at hstep
    split at hstep
    · rename_i c request queue hphase hqueue
      cases hstep
      exact h.receive hqueue (.inl hphase)
    · rename_i c hphase hqueue
      split at hstep
      · cases hstep
        have hspare := h.spare
        rw [hphase] at hspare
        exact h.turn (by simp [hphase, Phase.locals]) (by simp [hphase, Phase.inHand])
          (by simp [hphase]) hspare
      · cases hstep
        exact h.finish (by simp [hphase, Phase.locals]) (by simp [hphase, Phase.inHand])
    · cases hstep
  | expire =>
    rw [Collector.step] at hstep
    split at hstep
    · rename_i hphase
      cases hstep
      exact h.finish (by simp [hphase, Phase.locals]) (by simp [hphase, Phase.inHand])
    · cases hstep
  | interrupt =>
    rw [Collector.step] at hstep
    split at hstep
    · rename_i hphase
      split at hstep
      · cases hstep
        exact h.finish (by simp [hphase, Phase.locals]) (by simp [hphase, Phase.inHand])
      · cases hstep
    · cases hstep
  | wake =>
    rw [Collector.step] at hstep
    split at hstep
    · rename_i c request queue hphase hqueue
      cases hstep
      exact h.receive hqueue (.inr hphase)
    · rename_i c hphase hqueue
      split at hstep
      · cases hstep
      · cases hstep
        exact h.finish (by simp [hphase, Phase.locals]) (by simp [hphase, Phase.inHand])
    · cases hstep

end Steps

/-! ## The history of a run -/

section History

variable {options : BatchOptions} {s s' : Collector} {event : Event} {events : List Event}

/-- What an event adds to the history: a request that arrives, a caller that has gone, or the
request in hand, settled with the state of its caller. -/
structure Recorded (s : Collector) (event : Event) (s' : Collector) : Prop where
  arrived : s'.arrived = s.arrived ++ arrivals [event]
  closed : ∀ k, k ∈ s'.closed ↔ k ∈ s.closed ∨ event = .cancel k
  settled : s'.settled = s.settled ∨ event = .scan ∧ ∃ c request, s.phase = .scanning c request ∧
    s'.settled = s.settled ++ [(request, s.isClosed request)]

/-- An event that leaves the history alone. -/
theorem Recorded.unchanged (harrivals : arrivals [event] = [])
    (hcancel : ∀ k, event ≠ .cancel k) (harrived : s'.arrived = s.arrived)
    (hclosed : s'.closed = s.closed) (hsettled : s'.settled = s.settled) :
    Recorded s event s' where
  arrived := by rw [harrived, harrivals, List.append_nil]
  closed k := by simp [hclosed, hcancel k]
  settled := .inl hsettled

/-- When the request at a place among the settled ones was looked at, and what was seen of its
caller. -/
def SeenAt (options : BatchOptions) (events : List Event) (j : Nat) (request : ProposalRequest)
    (gone : Bool) : Prop :=
  ∃ before after t c, events = before ++ .scan :: after ∧
    Collector.start.run options before = some t ∧ t.phase = .scanning c request ∧
    t.settled.length = j ∧ (gone = true ↔ .cancel request.respondTo ∈ before)

theorem SeenAt.later {j : Nat} {gone : Bool}
    (h : SeenAt options events j request gone) (event : Event) :
    SeenAt options (events ++ [event]) j request gone := by
  obtain ⟨before, after, t, c, rfl, hseen⟩ := h
  exact ⟨before, after ++ [event], t, c, by rw [List.append_assoc, List.cons_append], hseen⟩

end History

end MicroRaft.Driver
