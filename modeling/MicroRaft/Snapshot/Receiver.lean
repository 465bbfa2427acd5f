import MicroRaft.Snapshot.Image

/-!
# Receiving a snapshot

The receiver has one slot for a transfer.  Its chunks are appended to a temporary file and
the complete file is checked and decoded; a chunk that was staged before is compared with
the file.  File operations may fail in any call (`Faults`), after which the receiver is
poisoned and reports nothing.

The run of a receiver keeps one invariant (`Staged`): the file is the concatenation of the
chunks that were accepted for the active transfer, and a complete image is what the file
decodes to.
-/

namespace MicroRaft.Snapshot

open Store (Digest IoError)

/-! ## The receiver -/

structure StagedChunk where
  nextOffset : Nat
  complete : Bool
  deriving DecidableEq

/-- A rejection of content is recoverable, a failure of the file system is not. -/
inductive SnapshotReceiveError where
  | rejected (message : String)
  | io (error : IoError)
  deriving DecidableEq

structure ActiveTransfer where
  identity : SnapshotTransferId
  descriptor : SnapshotDescriptor
  /-- The content of the temporary file. -/
  file : List UInt8
  nextOffset : Nat
  complete : Option SnapshotImage

structure SnapshotReceiver where
  active : Option ActiveTransfer
  poisoned : Bool

/-- `SnapshotReceiver::new`. -/
def SnapshotReceiver.new : SnapshotReceiver where
  active := none
  poisoned := false

/-- The file operations that fail in a call, with their errors; a write may fail after some
of its bytes. -/
structure Faults where
  create : Option IoError
  seek : Option IoError
  read : Option IoError
  write : Option (Nat × IoError)
  sync : Option IoError
  rewind : Option IoError
  readBack : Option IoError
  truncate : Option IoError

def Faults.none : Faults :=
  ⟨.none, .none, .none, .none, .none, .none, .none, .none⟩

/-- What is reported once the receiver is poisoned. -/
def poisonedError : IoError :=
  ⟨.other, "snapshot receiver requires reopen after I/O failure"⟩

/-- The checks of a chunk that look at nothing but the call. -/
def checkChunk (identity : SnapshotTransferId) (descriptor : SnapshotDescriptor) (offset : Nat)
    (bytes : List UInt8) (members : List NodeId) (coreAuthorized : Bool) :
    Except SnapshotReceiveError Unit := do
  descriptor.validate.mapError .rejected
  if identity.sequence = 0 ∨ identity.term < descriptor.metadata.lastIncludedTerm ∨
      (coreAuthorized = false ∧ identity.leaderId ∉ members) ∨
      descriptor.metadata.members ≠ members then
    .error (.rejected "snapshot transfer authority or membership is invalid")
  else if descriptor.totalLen < offset then
    .error (.rejected "snapshot chunk offset beyond end")
  else
    let expected := min (descriptor.totalLen - offset) maxSnapshotChunkBytes
    if expected = 0 ∨ bytes.length ≠ expected ∨ offset % maxSnapshotChunkBytes ≠ 0 then
      .error (.rejected "snapshot chunk is not a canonical bounded segment")
    else .ok ()

/-- Does an identity replace the active one? -/
def newer (identity active : SnapshotTransferId) : Bool :=
  decide (identity.term > active.term) ||
    (decide (identity.term = active.term) && decide (identity.leaderId = active.leaderId) &&
      decide (identity.incarnation = active.incarnation) &&
      decide (identity.sequence > active.sequence))

/-- The transfer a chunk belongs to: the active one, or one that begins with it. -/
def SnapshotReceiver.transfer (faults : Faults) (r : SnapshotReceiver)
    (identity : SnapshotTransferId) (descriptor : SnapshotDescriptor) (offset : Nat) :
    Except SnapshotReceiveError ActiveTransfer :=
  let start : Except SnapshotReceiveError ActiveTransfer :=
    match faults.create with
    | some error => .error (.io error)
    | none => .ok ⟨identity, descriptor, [], 0, none⟩
  match r.active with
  | some active =>
      if active.identity = identity then
        if active.descriptor ≠ descriptor then
          .error (.rejected "snapshot descriptor changed within one transfer")
        else .ok active
      else if offset ≠ 0 then
        .error (.rejected "new snapshot transfer must begin at offset zero")
      else if newer identity active.identity = false ∨
          descriptor.metadata.lastIncludedIndex < active.descriptor.metadata.lastIncludedIndex then
        .error (.rejected "snapshot transfer identity is stale")
      else start
  | none =>
      if offset ≠ 0 then .error (.rejected "new snapshot transfer must begin at offset zero")
      else start

/-- The content of a file after a write at an offset; a gap before it is zero. -/
def writeAt (file : List UInt8) (offset : Nat) (bytes : List UInt8) : List UInt8 :=
  file.take offset ++ List.replicate (offset - file.length) 0 ++ bytes ++
    file.drop (offset + bytes.length)

section Staging

variable (sha : Digest) (format : Json.Format Payload)

/-- The check of a complete file. -/
def verify (descriptor : SnapshotDescriptor) (file : List UInt8) :
    Except SnapshotReceiveError SnapshotImage :=
  let complete := file.take (descriptor.totalLen + 1)
  if complete.length ≠ descriptor.totalLen ∨ sha.run complete ≠ descriptor.sha256 then
    .error (.rejected "complete transfer checksum or length mismatch")
  else
    match SnapshotImage.decode sha format complete with
    | .error e => .error (.rejected e.message)
    | .ok image =>
        if image.descriptor ≠ descriptor then
          .error (.rejected "transfer descriptor differs from snapshot content")
        else .ok image

/-- The file's part of a chunk: it is compared with what is there, or appended. -/
def ActiveTransfer.put (faults : Faults) (active : ActiveTransfer) (offset : Nat)
    (bytes : List UInt8) : Except SnapshotReceiveError Unit × ActiveTransfer :=
  match faults.seek with
  | some error => (.error (.io error), active)
  | none =>
      if offset < active.nextOffset then
        match faults.read with
        | some error => (.error (.io error), active)
        | none =>
            if active.file.length < offset + bytes.length then
              (.error (.io ⟨.other, "failed to fill whole buffer"⟩), active)
            else if (active.file.drop offset).take bytes.length ≠ bytes then
              (.error (.rejected "duplicate snapshot chunk differs"), active)
            else (.ok (), active)
      else
        match faults.write with
        | some (count, error) =>
            (.error (.io error),
              { active with file := writeAt active.file offset (bytes.take count) })
        | none =>
            let written := { active with file := writeAt active.file offset bytes }
            match faults.sync with
            | some error => (.error (.io error), written)
            | none => (.ok (), { written with nextOffset := active.nextOffset + bytes.length })

/-- A file that has reached its length is read back and checked, once. -/
def ActiveTransfer.conclude (faults : Faults) (active : ActiveTransfer) :
    Except SnapshotReceiveError StagedChunk × ActiveTransfer :=
  if active.nextOffset = active.descriptor.totalLen ∧ active.complete.isNone = true then
    match faults.rewind, faults.readBack with
    | some error, _ => (.error (.io error), active)
    | none, some error => (.error (.io error), active)
    | none, none =>
        match verify sha format active.descriptor active.file with
        | .error e => (.error e, active)
        | .ok image =>
            (.ok ⟨active.nextOffset, true⟩, { active with complete := some image })
  else (.ok ⟨active.nextOffset, active.complete.isSome⟩, active)

/-- The work on the active transfer. -/
def ActiveTransfer.stage (faults : Faults) (active : ActiveTransfer) (offset : Nat)
    (bytes : List UInt8) : Except SnapshotReceiveError StagedChunk × ActiveTransfer :=
  match active.put faults offset bytes with
  | (.error e, active) => (.error e, active)
  | (.ok (), active) => active.conclude sha format faults

def SnapshotReceiveError.isIo : SnapshotReceiveError → Bool
  | .io _ => true
  | .rejected _ => false

/-- Did the call fail in the file system? -/
def failsIo {α : Type} : Except SnapshotReceiveError α → Bool
  | .error e => e.isIo
  | .ok _ => false

/-- The arguments of a call that stages a chunk. -/
structure Chunk where
  identity : SnapshotTransferId
  descriptor : SnapshotDescriptor
  offset : Nat
  bytes : List UInt8
  minimumIndex : Nat
  members : List NodeId
  installed : Option SnapshotImage

/-- `stage_inner`. -/
def SnapshotReceiver.stageInner (faults : Faults) (coreAuthorized : Bool) (r : SnapshotReceiver)
    (c : Chunk) : Except SnapshotReceiveError StagedChunk × SnapshotReceiver :=
  if r.poisoned then (.error (.io poisonedError), r)
  else
    match checkChunk c.identity c.descriptor c.offset c.bytes c.members coreAuthorized with
    | .error e => (.error e, r)
    | .ok () =>
        match c.installed.filter fun image => image.descriptor = c.descriptor with
        | some image =>
            if (image.bytes.drop c.offset).take c.bytes.length ≠ c.bytes then
              (.error (.rejected "installed snapshot duplicate chunk differs"), r)
            else (.ok ⟨c.descriptor.totalLen, true⟩, r)
        | none =>
            if c.descriptor.metadata.lastIncludedIndex ≤ c.minimumIndex then
              (.error (.rejected "snapshot transfer is stale"), r)
            else
              match r.transfer faults c.identity c.descriptor c.offset with
              | .error e => (.error e, { r with poisoned := e.isIo })
              | .ok active =>
                  if c.offset > active.nextOffset then
                    (.error (.rejected "snapshot chunk gap"), { r with active := some active })
                  else
                    let (result, active) := active.stage sha format faults c.offset c.bytes
                    (result, ⟨some active, failsIo result⟩)

/-- `stage_authorized_chunk`. -/
def SnapshotReceiver.stageAuthorizedChunk (faults : Faults) (r : SnapshotReceiver) (c : Chunk) :
    Except SnapshotReceiveError StagedChunk × SnapshotReceiver :=
  r.stageInner sha format faults true c

end Staging

/-- `completed`. -/
def SnapshotReceiver.completed (r : SnapshotReceiver) (identity : SnapshotTransferId) :
    Option SnapshotImage :=
  if r.poisoned then none
  else (r.active.filter fun active => active.identity = identity).bind ActiveTransfer.complete

/-- `cancel`. -/
def SnapshotReceiver.cancel (faults : Faults) (r : SnapshotReceiver)
    (identity : SnapshotTransferId) : Except IoError Bool × SnapshotReceiver :=
  if r.poisoned then (.error poisonedError, r)
  else
    match r.active.filter fun active => active.identity = identity with
    | none => (.ok false, r)
    | some _ =>
        match faults.truncate with
        | some error => (.error error, { r with poisoned := true })
        | none => (.ok true, { r with active := none })

/-! ## Runs -/

/-- A call of the receiver, with the file operations that fail in it. -/
inductive Call where
  | stage (c : Chunk) (faults : Faults)
  | cancel (identity : SnapshotTransferId) (faults : Faults)

/-- A receiver and the chunks it has answered with success, in order. -/
structure Session where
  receiver : SnapshotReceiver
  accepted : List Chunk

section Runs

variable (sha : Digest) (format : Json.Format Payload)

def Session.call (s : Session) : Call → Session
  | .stage c faults =>
      match s.receiver.stageAuthorizedChunk sha format faults c with
      | (.ok _, receiver) => ⟨receiver, s.accepted ++ [c]⟩
      | (.error _, receiver) => { s with receiver }
  | .cancel identity faults => { s with receiver := (s.receiver.cancel faults identity).2 }

/-- The session after a sequence of calls. -/
def Session.run (calls : List Call) : Session :=
  calls.foldl (Session.call sha format) ⟨.new, []⟩

end Runs

/-- Chunks that follow each other from an offset on. -/
def Laid : Nat → List Chunk → Prop
  | _, [] => True
  | offset, c :: chunks => c.offset = offset ∧ Laid (offset + c.bytes.length) chunks

theorem Laid.append {offset : Nat} {chunks : List Chunk} (h : Laid offset chunks) {c : Chunk}
    (hc : c.offset = offset + (chunks.flatMap Chunk.bytes).length) :
    Laid offset (chunks ++ [c]) := by
  induction chunks generalizing offset with
  | nil => exact ⟨by simpa using hc, trivial⟩
  | cons d chunks ih =>
    refine ⟨h.1, ih h.2 ?_⟩
    rw [hc, List.flatMap_cons, List.length_append]
    omega

section Invariant

variable {sha : Digest} {format : Json.Format Payload} {active : ActiveTransfer} {faults : Faults}
  {log : List Chunk} {c : Chunk}

/-- The chunks of a transfer that were accepted and lie one after another. -/
structure Covers (log chunks : List Chunk) (active : ActiveTransfer) : Prop where
  logged : chunks.Sublist log
  of_transfer : ∀ c ∈ chunks, c.identity = active.identity ∧ c.descriptor = active.descriptor
  laid : Laid 0 chunks
  file : active.file = chunks.flatMap Chunk.bytes

/-- **The invariant of a transfer.**  Its file ends where the next chunk is expected.  It
consists of accepted chunks, and an image is there exactly when the file is full; or the full
file has failed its check, and then it stays without an image. -/
structure ActiveTransfer.Staged (sha : Digest) (format : Json.Format Payload) (log : List Chunk)
    (active : ActiveTransfer) : Prop where
  next : active.nextOffset = active.file.length
  state : (∃ chunks, Covers log chunks active ∧
      match active.complete with
      | none => active.nextOffset < active.descriptor.totalLen
      | some image => verify sha format active.descriptor active.file = .ok image) ∨
    (active.complete = none ∧ active.nextOffset = active.descriptor.totalLen ∧
      ∃ e, verify sha format active.descriptor active.file = .error e)

/-- A transfer with a chunk added at its end. -/
def ActiveTransfer.add (active : ActiveTransfer) (bytes : List UInt8) : ActiveTransfer :=
  { active with file := active.file ++ bytes, nextOffset := active.nextOffset + bytes.length }

theorem writeAt_end (file bytes : List UInt8) : writeAt file file.length bytes = file ++ bytes := by
  have hrest : file.drop (file.length + bytes.length) = [] :=
    List.drop_eq_nil_of_le (Nat.le_add_right _ _)
  rw [writeAt, List.take_length, Nat.sub_self, hrest]
  simp

/-- What the file's part of a chunk comes to: a failure, a refusal, a repetition or an
addition at the end. -/
theorem ActiveTransfer.put_cases (active : ActiveTransfer) (faults : Faults)
    (hnext : active.nextOffset = active.file.length) {offset : Nat}
    (hoffset : offset ≤ active.nextOffset) (bytes : List UInt8) :
    (∃ error x, active.put faults offset bytes = (.error (.io error), x)) ∨
    (∃ message, active.put faults offset bytes = (.error (.rejected message), active)) ∨
    (offset < active.nextOffset ∧ (active.file.drop offset).take bytes.length = bytes ∧
      active.put faults offset bytes = (.ok (), active)) ∨
    (offset = active.nextOffset ∧
      active.put faults offset bytes = (.ok (), active.add bytes)) := by
  unfold ActiveTransfer.put
  cases faults.seek with
  | some error => exact .inl ⟨error, active, rfl⟩
  | none =>
    by_cases hlt : offset < active.nextOffset
    · simp only [if_pos hlt]
      cases faults.read with
      | some error => exact .inl ⟨error, active, rfl⟩
      | none =>
        dsimp only
        split
        · exact .inl ⟨_, active, rfl⟩
        · split
          · exact .inr (.inl ⟨_, rfl⟩)
          · rename_i hsame
            exact .inr (.inr (.inl ⟨hlt, by simpa using hsame, rfl⟩))
    · have heq : offset = active.nextOffset := by omega
      simp only [if_neg hlt]
      cases faults.write with
      | some failure => exact .inl ⟨failure.2, _, rfl⟩
      | none =>
        cases faults.sync with
        | some error => exact .inl ⟨error, _, rfl⟩
        | none =>
          refine .inr (.inr (.inr ⟨heq, ?_⟩))
          dsimp only
          rw [ActiveTransfer.add, heq, hnext, writeAt_end]

/-- What the end of a call comes to. -/
theorem ActiveTransfer.conclude_cases (sha : Digest) (format : Json.Format Payload)
    (faults : Faults) (active : ActiveTransfer) :
    (∃ error, active.conclude sha format faults = (.error (.io error), active)) ∨
    (active.nextOffset = active.descriptor.totalLen ∧ active.complete = none ∧
      ∃ message, verify sha format active.descriptor active.file = .error (.rejected message) ∧
        active.conclude sha format faults = (.error (.rejected message), active)) ∨
    (active.nextOffset = active.descriptor.totalLen ∧ active.complete = none ∧
      ∃ image, verify sha format active.descriptor active.file = .ok image ∧
        active.conclude sha format faults =
          (.ok ⟨active.nextOffset, true⟩, { active with complete := some image })) ∨
    (¬ (active.nextOffset = active.descriptor.totalLen ∧ active.complete = none) ∧
      active.conclude sha format faults =
        (.ok ⟨active.nextOffset, active.complete.isSome⟩, active)) := by
  unfold ActiveTransfer.conclude
  by_cases hfull : active.nextOffset = active.descriptor.totalLen ∧ active.complete = none
  · have hcond : active.nextOffset = active.descriptor.totalLen ∧
        active.complete.isNone = true := ⟨hfull.1, by rw [hfull.2]; rfl⟩
    rw [if_pos hcond]
    cases faults.rewind with
    | some error => exact .inl ⟨error, rfl⟩
    | none =>
      cases faults.readBack with
      | some error => exact .inl ⟨error, rfl⟩
      | none =>
        dsimp only
        cases hverify : verify sha format active.descriptor active.file with
        | ok image => exact .inr (.inr (.inl ⟨hfull.1, hfull.2, image, rfl, rfl⟩))
        | error e =>
          cases e with
          | io error => exact .inl ⟨error, rfl⟩
          | rejected message =>
            exact .inr (.inl ⟨hfull.1, hfull.2, message, rfl, rfl⟩)
  · have hcond : ¬ (active.nextOffset = active.descriptor.totalLen ∧
        active.complete.isNone = true) := by
      simpa using hfull
    rw [if_neg hcond]
    exact .inr (.inr (.inr ⟨hfull, rfl⟩))

/-- An image that passes the check is the file's, with the announced descriptor. -/
theorem verify_eq_ok {descriptor : SnapshotDescriptor} {file : List UInt8} {image : SnapshotImage}
    (h : verify sha format descriptor file = .ok image) :
    file.length = descriptor.totalLen ∧ image.bytes = file ∧ image.descriptor = descriptor := by
  unfold verify at h
  dsimp only at h
  split at h
  · cases h
  rename_i hcheck
  split at h
  · cases h
  rename_i decoded hdecode
  split at h
  · cases h
  rename_i hdescriptor
  cases h
  simp only [not_or, not_not] at hcheck hdescriptor
  have hlength : file.length = descriptor.totalLen := by
    have htake := hcheck.1
    rw [List.length_take] at htake
    omega
  have hwhole : file.take (descriptor.totalLen + 1) = file := List.take_of_length_le (by omega)
  rw [hwhole] at hdecode
  exact ⟨hlength, (SnapshotImage.decode_eq_ok hdecode).1, hdescriptor⟩

theorem Covers.mono {chunks log' : List Chunk} (h : Covers log chunks active)
    (hlog : log.Sublist log') : Covers log' chunks active :=
  ⟨h.logged.trans hlog, h.of_transfer, h.laid, h.file⟩

theorem ActiveTransfer.Staged.mono {log' : List Chunk} (h : active.Staged sha format log)
    (hlog : log.Sublist log') : active.Staged sha format log' := by
  refine ⟨h.next, ?_⟩
  rcases h.state with ⟨chunks, hcovers, hstate⟩ | hdead
  · exact .inl ⟨chunks, hcovers.mono hlog, hstate⟩
  · exact .inr hdead

/-- The log after a call. -/
def logged {α : Type} (log : List Chunk) (c : Chunk) : Except SnapshotReceiveError α → List Chunk
  | .ok _ => log ++ [c]
  | .error _ => log

theorem sublist_logged {α : Type} (log : List Chunk) (c : Chunk)
    (result : Except SnapshotReceiveError α) : log.Sublist (logged log c result) := by
  cases result with
  | ok a => exact List.sublist_append_left log [c]
  | error e => exact List.Sublist.refl log

/-- The chunk of a call belongs to the transfer and lies within it. -/
structure Fits (active : ActiveTransfer) (c : Chunk) : Prop where
  identity : c.identity = active.identity
  descriptor : c.descriptor = active.descriptor
  offset : c.offset ≤ active.nextOffset
  pos : 0 < c.bytes.length
  within : c.offset + c.bytes.length ≤ active.descriptor.totalLen

/-- The end of a call keeps the invariant when nothing was added. -/
theorem ActiveTransfer.Staged.conclude (h : active.Staged sha format log) (faults : Faults)
    (c : Chunk) :
    failsIo (active.conclude sha format faults).1 = true ∨
      (active.conclude sha format faults).2.Staged sha format
        (logged log c (active.conclude sha format faults).1) := by
  rcases active.conclude_cases sha format faults with ⟨error, heq⟩ | ⟨-, -, message, -, heq⟩ |
    ⟨hfull, hnone, image, hverify, -⟩ | ⟨-, heq⟩
  · left
    rw [heq]
    rfl
  · right
    rw [heq]
    exact h
  · -- a full file without an image has failed this check before
    exfalso
    rcases h.state with ⟨chunks, -, hstate⟩ | ⟨-, -, e, hfailed⟩
    · rw [hnone] at hstate
      exact absurd hfull (Nat.ne_of_lt hstate)
    · rw [hverify] at hfailed
      cases hfailed
  · right
    rw [heq]
    exact h.mono (sublist_logged log c _)

/-- The end of a call that has added a chunk. -/
theorem ActiveTransfer.Staged.conclude_added {chunks : List Chunk}
    (hnext : active.nextOffset = active.file.length) (hcovers : Covers log chunks active)
    (hnone : active.complete = none) (hfits : Fits active c)
    (hend : c.offset = active.nextOffset) (faults : Faults) :
    failsIo ((active.add c.bytes).conclude sha format faults).1 = true ∨
      ((active.add c.bytes).conclude sha format faults).2.Staged sha format
        (logged log c ((active.add c.bytes).conclude sha format faults).1) := by
  let added := active.add c.bytes
  have hnext' : added.nextOffset = added.file.length := by
    show active.nextOffset + c.bytes.length = (active.file ++ c.bytes).length
    rw [List.length_append, hnext]
  have hcovers' : Covers (log ++ [c]) (chunks ++ [c]) added := by
    refine ⟨hcovers.logged.append (List.Sublist.refl [c]), ?_, ?_, ?_⟩
    · intro d hd
      rcases List.mem_append.1 hd with hd | hd
      · exact hcovers.of_transfer d hd
      · rw [List.mem_singleton.1 hd]
        exact ⟨hfits.identity, hfits.descriptor⟩
    · refine hcovers.laid.append ?_
      rw [hend, hnext, hcovers.file, Nat.zero_add]
    · show active.file ++ c.bytes = _
      rw [List.flatMap_append, ← hcovers.file]
      simp
  rcases added.conclude_cases sha format faults with ⟨error, heq⟩ |
    ⟨hfull, -, message, hverify, heq⟩ | ⟨-, -, image, hverify, heq⟩ | ⟨hnot, heq⟩
  · left
    rw [heq]
    rfl
  · right
    rw [heq]
    exact ⟨hnext', .inr ⟨hnone, hfull, _, hverify⟩⟩
  · right
    rw [heq]
    exact ⟨hnext', .inl ⟨_, ⟨hcovers'.logged, hcovers'.of_transfer, hcovers'.laid, hcovers'.file⟩,
      hverify⟩⟩
  · right
    rw [heq]
    refine ⟨hnext', .inl ⟨_, hcovers', ?_⟩⟩
    have hroom : added.nextOffset < added.descriptor.totalLen := by
      refine lt_of_le_of_ne ?_ fun heq => hnot ⟨heq, hnone⟩
      have hwithin := hfits.within
      rw [hend] at hwithin
      exact hwithin
    have hnone' : added.complete = none := hnone
    rw [hnone']
    exact hroom

/-- **The step.**  A chunk of the transfer keeps the invariant, or the receiver is poisoned. -/
theorem ActiveTransfer.Staged.stage (h : active.Staged sha format log) (hfits : Fits active c)
    (faults : Faults) :
    failsIo (active.stage sha format faults c.offset c.bytes).1 = true ∨
      (active.stage sha format faults c.offset c.bytes).2.Staged sha format
        (logged log c (active.stage sha format faults c.offset c.bytes).1) := by
  unfold ActiveTransfer.stage
  rcases active.put_cases faults h.next hfits.offset c.bytes with ⟨error, x, hput⟩ |
    ⟨message, hput⟩ | ⟨-, -, hput⟩ | ⟨hend, hput⟩
  · rw [hput]
    exact .inl rfl
  · rw [hput]
    exact .inr h
  · rw [hput]
    exact h.conclude faults c
  · rw [hput]
    have hroom : active.nextOffset < active.descriptor.totalLen := by
      have hpos := hfits.pos
      have hwithin := hfits.within
      omega
    rcases h.state with ⟨chunks, hcovers, hstate⟩ | ⟨-, hfull, -⟩
    · rcases Option.eq_none_or_eq_some active.complete with hcomplete | ⟨image, hcomplete⟩
      · exact ActiveTransfer.Staged.conclude_added h.next hcovers hcomplete hfits hend faults
      · rw [hcomplete] at hstate
        have hfull := (verify_eq_ok hstate).1
        rw [← h.next] at hfull
        exact absurd hfull (Nat.ne_of_lt hroom)
    · exact absurd hfull (Nat.ne_of_lt hroom)

/-! ## Calls of the receiver -/

/-- What the checks of a call establish. -/
structure Canonical (c : Chunk) : Prop where
  valid : c.descriptor.validate = .ok ()
  inside : c.offset ≤ c.descriptor.totalLen
  length : c.bytes.length = min (c.descriptor.totalLen - c.offset) maxSnapshotChunkBytes
  pos : 0 < c.bytes.length
  aligned : c.offset % maxSnapshotChunkBytes = 0

theorem checkChunk_eq_ok {coreAuthorized : Bool}
    (h : checkChunk c.identity c.descriptor c.offset c.bytes c.members coreAuthorized = .ok ()) :
    Canonical c := by
  unfold checkChunk at h
  cases hvalid : c.descriptor.validate with
  | error message =>
    rw [hvalid] at h
    cases h
  | ok u =>
    rw [hvalid, Except.mapError, Store.ok_bind] at h
    split at h
    · cases h
    split at h
    · cases h
    rename_i hinside
    dsimp only at h
    split at h
    · cases h
    rename_i hcanonical
    simp only [not_or, not_not] at hcanonical
    obtain ⟨hexpected, hlength, haligned⟩ := hcanonical
    exact ⟨hvalid, Nat.not_lt.1 hinside, hlength, by omega, haligned⟩

theorem Canonical.within (h : Canonical c) :
    c.offset + c.bytes.length ≤ c.descriptor.totalLen := by
  have hlength := h.length
  have hinside := h.inside
  have hmin := Nat.min_le_left (c.descriptor.totalLen - c.offset) maxSnapshotChunkBytes
  omega

/-- The transfer that begins with a chunk. -/
def ActiveTransfer.start (c : Chunk) : ActiveTransfer :=
  ⟨c.identity, c.descriptor, [], 0, none⟩

/-- A chunk that begins a transfer: it is the first, and its identity replaces that of an
active transfer. -/
structure Begins (r : SnapshotReceiver) (c : Chunk) : Prop where
  first : c.offset = 0
  replaces : ∀ old ∈ r.active, old.identity ≠ c.identity ∧ newer c.identity old.identity = true

/-- The transfer a chunk goes to. -/
def Receives (r : SnapshotReceiver) (c : Chunk) (active : ActiveTransfer) : Prop :=
  r.active = some active ∨ Begins r c ∧ active = .start c

theorem SnapshotReceiver.transfer_cases (r : SnapshotReceiver) (c : Chunk) (faults : Faults) :
    (∃ e, r.transfer faults c.identity c.descriptor c.offset = .error e) ∨
    ∃ active, r.transfer faults c.identity c.descriptor c.offset = .ok active ∧
      Receives r c active ∧ c.identity = active.identity ∧ c.descriptor = active.descriptor := by
  unfold SnapshotReceiver.transfer
  dsimp only
  split
  · rename_i active hactive
    split
    · rename_i hidentity
      split
      · exact .inl ⟨_, rfl⟩
      · rename_i hdescriptor
        exact .inr ⟨active, rfl, .inl hactive, hidentity.symm, (not_not.1 hdescriptor).symm⟩
    · rename_i hidentity
      split
      · exact .inl ⟨_, rfl⟩
      · rename_i hfirst
        split
        · exact .inl ⟨_, rfl⟩
        · rename_i hstale
          split
          · exact .inl ⟨_, rfl⟩
          · refine .inr ⟨.start c, rfl, .inr ⟨⟨not_not.1 hfirst, ?_⟩, rfl⟩, rfl, rfl⟩
            intro old hold
            rw [hactive] at hold
            cases hold
            exact ⟨hidentity, by simpa using fun h => hstale (.inl h)⟩
  · rename_i hnone
    split
    · exact .inl ⟨_, rfl⟩
    · rename_i hfirst
      split
      · exact .inl ⟨_, rfl⟩
      · refine .inr ⟨.start c, rfl, .inr ⟨⟨not_not.1 hfirst, ?_⟩, rfl⟩, rfl, rfl⟩
        intro old hold
        rw [hnone] at hold
        cases hold

/-- What a call that stages a chunk does to the slot: nothing, or the work on the transfer
the chunk goes to. -/
theorem SnapshotReceiver.stage_cases (sha : Digest) (format : Json.Format Payload)
    (r : SnapshotReceiver) (c : Chunk) (faults : Faults) :
    ((r.stageAuthorizedChunk sha format faults c).2 = r ∨
      (r.stageAuthorizedChunk sha format faults c).2 = { r with poisoned := true }) ∨
    ∃ active, Receives r c active ∧ Fits active c ∧ Canonical c ∧ r.poisoned = false ∧
      r.stageAuthorizedChunk sha format faults c =
        ((active.stage sha format faults c.offset c.bytes).1,
          ⟨some (active.stage sha format faults c.offset c.bytes).2,
            failsIo (active.stage sha format faults c.offset c.bytes).1⟩) := by
  unfold stageAuthorizedChunk stageInner
  by_cases hpoisoned : r.poisoned = true
  · rw [if_pos hpoisoned]
    exact .inl (.inl rfl)
  have hsound : r.poisoned = false := by simpa using hpoisoned
  rw [if_neg hpoisoned]
  cases hcheck : checkChunk c.identity c.descriptor c.offset c.bytes c.members true with
  | error e => exact .inl (.inl rfl)
  | ok u =>
    have hcanonical := checkChunk_eq_ok hcheck
    dsimp only
    split
    · split
      · exact .inl (.inl rfl)
      · exact .inl (.inl rfl)
    · split
      · exact .inl (.inl rfl)
      · rcases r.transfer_cases c faults with ⟨e, htransfer⟩ |
          ⟨active, htransfer, hreceives, hidentity, hdescriptor⟩
        · rw [htransfer]
          refine .inl ?_
          cases e with
          | io error => exact .inr rfl
          | rejected message =>
            left
            obtain ⟨slot, poisoned⟩ := r
            cases hsound
            rfl
        · rw [htransfer]
          dsimp only
          split
          · rename_i hgap
            -- a transfer that begins expects offset zero
            rcases hreceives with hactive | ⟨hbegins, rfl⟩
            · left
              left
              rw [← hactive]
            · rw [hbegins.first] at hgap
              cases hgap
          · rename_i hgap
            exact .inr ⟨active, hreceives, ⟨hidentity, hdescriptor, Nat.not_lt.1 hgap,
              hcanonical.pos, hdescriptor ▸ hcanonical.within⟩, hcanonical, hsound, rfl⟩

/-! ## Every run keeps the invariant -/

/-- A receiver that is not poisoned has staged accepted chunks only. -/
def Session.Staged (sha : Digest) (format : Json.Format Payload) (s : Session) : Prop :=
  s.receiver.poisoned = false → ∀ active ∈ s.receiver.active, active.Staged sha format s.accepted

theorem ActiveTransfer.staged_start (hvalid : c.descriptor.validate = .ok ()) :
    (ActiveTransfer.start c).Staged sha format log := by
  refine ⟨rfl, .inl ⟨[], ⟨List.nil_sublist log, ?_, trivial, rfl⟩, ?_⟩⟩
  · intro d hd
    cases hd
  · -- an image is never empty
    unfold SnapshotDescriptor.validate at hvalid
    cases hmetadata : c.descriptor.metadata.validate with
    | error message =>
      rw [hmetadata] at hvalid
      cases hvalid
    | ok u =>
      rw [hmetadata, Store.ok_bind] at hvalid
      split at hvalid
      · rename_i hsize
        have hpos : 0 < minSnapshotBytes := by decide
        exact lt_of_lt_of_le hpos hsize.1
      · cases hvalid

theorem Session.call_stage (s : Session) (c : Chunk) (faults : Faults) :
    s.call sha format (.stage c faults) =
      ⟨(s.receiver.stageAuthorizedChunk sha format faults c).2,
        logged s.accepted c (s.receiver.stageAuthorizedChunk sha format faults c).1⟩ := by
  rw [Session.call]
  split
  · rename_i heq
    rw [heq]
    rfl
  · rename_i heq
    rw [heq]
    rfl

theorem Session.Staged.call {s : Session} (h : s.Staged sha format) (call : Call) :
    (s.call sha format call).Staged sha format := by
  cases call with
  | cancel identity faults =>
    show ((s.receiver.cancel faults identity).2.poisoned = false →
      ∀ active ∈ (s.receiver.cancel faults identity).2.active,
        active.Staged sha format s.accepted)
    unfold SnapshotReceiver.cancel
    split
    · exact h
    · split
      · exact h
      · split
        · intro hsound
          cases hsound
        · intro _ active hactive
          cases hactive
  | stage c faults =>
    rw [Session.call_stage]
    intro hsound active hactive
    rcases s.receiver.stage_cases sha format c faults with (hsame | hpoison) |
      ⟨old, hreceives, hfits, hcanonical, hready, hstage⟩
    · dsimp only at hsound hactive
      rw [hsame] at hsound hactive
      exact (h hsound active hactive).mono (sublist_logged _ _ _)
    · dsimp only at hsound
      rw [hpoison] at hsound
      cases hsound
    · have hold : old.Staged sha format s.accepted := by
        rcases hreceives with hactive | ⟨-, rfl⟩
        · exact h hready old hactive
        · exact ActiveTransfer.staged_start hcanonical.valid
      rw [hstage] at hsound hactive ⊢
      cases hactive
      rcases hold.stage hfits faults with hfail | hkept
      · rw [hfail] at hsound
        cases hsound
      · exact hkept

theorem Session.staged_run (calls : List Call) :
    (Session.run sha format calls).Staged sha format := by
  have hrun : ∀ (calls : List Call) (s : Session), s.Staged sha format →
      (calls.foldl (Session.call sha format) s).Staged sha format := by
    intro calls
    induction calls with
    | nil => exact fun s h => h
    | cons call calls ih => exact fun s h => ih _ (h.call call)
  refine hrun calls _ ?_
  intro _ active hactive
  cases hactive

end Invariant

end MicroRaft.Snapshot
