import MicroRaft.Core.Commit

/-!
# Snapshot boundaries and transfers

The handlers of `snapshot.rs`, except the one for `InstallSnapshotReply`, which
continues into replication.  Decoding, hashing and durable publication belong
to the shell; the core only orders them.
-/

namespace MicroRaft

open EffectM

/-- `valid_chunk`: a canonical chunk of the described image. -/
def validChunk (descriptor : SnapshotDescriptor) (offset len : Nat) (done : Bool) : Bool :=
  descriptor.validate.toBool && decide (offset < descriptor.totalLen) &&
    decide (offset % maxSnapshotChunkBytes = 0) &&
    decide (len = min (descriptor.totalLen - offset) maxSnapshotChunkBytes) &&
    done == decide (offset + len = descriptor.totalLen)

/-! ## Local compaction and publication -/

def onCompact (descriptor : SnapshotDescriptor) : Handler Unit := do
  let n ← peek
  let boundary := descriptor.metadata.lastIncludedIndex
  if n.publishingSnapshot.isSome || n.incomingSnapshot.isSome then
    emit (.snapshotRejected "snapshot_busy")
  else if descriptor.validate.toBool = false ∨ n.compactionMembershipMatches descriptor = false ∨
      boundary ≤ n.snapshotIndex ∨ n.lastApplied < boundary ∨ n.commitIndex < boundary ∨
      n.logTerm boundary ≠ some descriptor.metadata.lastIncludedTerm then
    emit (.snapshotRejected "invalid_compaction_boundary")
  else do
    let retained := n.retainedSuffix descriptor
    update fun n =>
      { n with publishingSnapshot := some { transfer := none, descriptor, retained,
                                            contactRound := 0 } }
    emit (.publishSnapshot none descriptor retained)

def snapshotReply (transfer : SnapshotTransferId) (nextOffset : Nat) (accepted installed : Bool)
    (matchIndex : Nat) (contactRound : Nat) : Handler Unit := do
  let n ← peek
  emit (.send transfer.leaderId (.installSnapshotReply n.hard.currentTerm transfer nextOffset
    matchIndex accepted installed contactRound))

/-- The refusal that leaves the transfer where it is. -/
def snapshotRefuse (transfer : SnapshotTransferId) (nextOffset : Nat) : Handler Unit := do
  let n ← peek
  snapshotReply transfer nextOffset false false n.lastLogIndex 0

/-- The membership an installed image records becomes the durable one. -/
def adoptMembership (descriptor : SnapshotDescriptor) : Handler Unit := do
  let n ← peek
  match descriptor.metadata.membership with
  | some membership =>
      when (n.hard.membership ≠ some membership) do
        update fun n => { n with hard := { n.hard with membership := some membership } }
        emit (.persistHardState { n.hard with membership := some membership })
  | none => pure ()

/-- An installed image becomes the node's committed and applied prefix. -/
def installPublished (transfer : SnapshotTransferId) (descriptor : SnapshotDescriptor)
    (contactRound : Nat) : Handler Unit := do
  adoptMembership descriptor
  update fun n => { n with commitIndex := descriptor.metadata.lastIncludedIndex }
  refreshEffectiveMembership
  update fun n => { n with lastApplied := n.commitIndex, incomingSnapshot := none }
  emit (.applySnapshot descriptor)
  snapshotReply transfer descriptor.totalLen true true descriptor.metadata.lastIncludedIndex
    contactRound

def onSnapshotPublished (transfer : Option SnapshotTransferId)
    (descriptor : SnapshotDescriptor) : Handler Unit := do
  let n ← peek
  match n.publishingSnapshot with
  | none => pure ()
  | some pending =>
      if pending.transfer ≠ transfer ∨ pending.descriptor ≠ descriptor then pure ()
      else do
        update fun n =>
          { n with publishingSnapshot := none, log := pending.retained,
                   snapshot := some descriptor, outgoingSnapshots := ∅ }
        match transfer with
        | none => pure ()
        | some transfer => installPublished transfer descriptor pending.contactRound

/-! ## The sending side -/

def RaftNode.setOutgoing (n : RaftNode) (dest : NodeId) (active : OutgoingSnapshot) : RaftNode :=
  { n with outgoingSnapshots := n.outgoingSnapshots.insert dest active }

/-- Ask the shell for the next chunk of a transfer unless one is being read. -/
def readChunk (dest : NodeId) (active : OutgoingSnapshot) : Handler Unit :=
  if active.reading then pure ()
  else do
    update fun n => n.setOutgoing dest { active with reading := true }
    emit (.readSnapshotChunk dest active.transfer active.descriptor active.offset
      maxSnapshotChunkBytes)

def sendSnapshotChunk (dest : NodeId) : Handler Unit := do
  let n ← peek
  if !n.isLeader then pure ()
  else
    match n.snapshot with
    | none => pure ()
    | some descriptor =>
        match n.outgoingSnapshots[dest]? with
        | some active => readChunk dest active
        | none =>
            match checkedAdd n.snapshotSequence 1 with
            | none => emit (.snapshotRejected "snapshot_transfer_exhausted")
            | some sequence => do
                let active : OutgoingSnapshot :=
                  { transfer := { leaderId := n.id, term := n.hard.currentTerm,
                                  incarnation := n.campaignIncarnation, sequence },
                    descriptor, offset := 0, reading := false, sentEnd := none }
                update fun n => { n with snapshotSequence := sequence }.setOutgoing dest active
                readChunk dest active

def onSnapshotChunkRead (dest : NodeId) (transfer : SnapshotTransferId)
    (descriptor : SnapshotDescriptor) (offset : Nat) (data : List UInt8) : Handler Unit := do
  let n ← peek
  if !n.isLeader || transfer.term ≠ n.hard.currentTerm then pure ()
  else
    match n.outgoingSnapshots[dest]? with
    | none => pure ()
    | some active =>
        if transfer ≠ active.transfer ∨ descriptor ≠ active.descriptor ∨ offset ≠ active.offset ∨
            active.reading = false then pure ()
        else
          let done := checkedAdd offset data.length = some descriptor.totalLen
          if !validChunk descriptor offset data.length done then do
            update fun n => n.setOutgoing dest { active with reading := false }
            emit (.snapshotRejected "invalid_snapshot_read")
          else do
            require (offset + data.length ≤ u64Max)
            update fun n => n.setOutgoing dest
              { active with reading := false, sentEnd := some (offset + data.length) }
            emit (.send dest (.installSnapshot transfer descriptor offset data done n.contactRound))

/-! ## The receiving side -/

/-- Has a newer transfer of the same term superseded this one? -/
def supersededTransfer (transfer : SnapshotTransferId) (descriptor : SnapshotDescriptor)
    (last : SnapshotTransferId) (lastDescriptor : SnapshotDescriptor) : Bool :=
  decide (transfer.term < last.term) ||
    (transfer.term == last.term &&
      (transfer.leaderId != last.leaderId || transfer.incarnation != last.incarnation ||
        decide (transfer.sequence < last.sequence) ||
        decide (descriptor.metadata.lastIncludedIndex <
          lastDescriptor.metadata.lastIncludedIndex))) ||
    (transfer == last && descriptor != lastDescriptor)

/-- Hand a chunk of the active transfer to the shell. -/
def stageChunk (transfer : SnapshotTransferId) (descriptor : SnapshotDescriptor) (offset : Nat)
    (data : List UInt8) (done : Bool) (contactRound : Nat) (sameImage : Bool) : Handler Unit := do
  let n ← peek
  let active ← expect n.incomingSnapshot
  if active.pending.isSome || (decide (active.nextOffset < offset) && !sameImage) then
    snapshotRefuse transfer 0
  else do
    require (offset + data.length ≤ u64Max)
    let pending := some (offset, offset + data.length, contactRound)
    update fun n => { n with incomingSnapshot := some { active with pending } }
    becomeFollower
    resetElectionDeadline
    update fun n =>
      { n with leaderHint := some transfer.leaderId, lastLeaderContactMs := some n.nowMs }
    emit (.stageSnapshotChunk transfer descriptor offset data done)

def onInstallSnapshot (transfer : SnapshotTransferId) (descriptor : SnapshotDescriptor)
    (offset : Nat) (data : List UInt8) (done : Bool) (contactRound : Nat) : Handler Unit := do
  let n ← peek
  let sameImage := decide (n.snapshot = some descriptor)
  let boundary := descriptor.metadata.lastIncludedIndex
  if transfer.term < n.hard.currentTerm then snapshotRefuse transfer 0
  else if n.publishingSnapshot.isSome ||
      (!sameImage && (decide (boundary ≤ n.lastApplied) || decide (boundary < n.commitIndex))) then
    snapshotRefuse transfer 0
  else if n.lastSnapshotTransfer.any fun p => supersededTransfer transfer descriptor p.1 p.2 then
    snapshotRefuse transfer 0
  else
    let sameTransfer := n.incomingSnapshot.any fun active =>
      active.transfer = transfer && active.descriptor = descriptor
    if !sameTransfer && offset ≠ 0 && !sameImage then snapshotRefuse transfer 0
    else do
      when (sameTransfer = false) do
        cancelIncomingSnapshot
        update fun n =>
          { n with lastSnapshotTransfer := some (transfer, descriptor),
                   incomingSnapshot :=
                     some { transfer, descriptor, nextOffset := 0, pending := none } }
      stageChunk transfer descriptor offset data done contactRound sameImage

/-- A complete stage: acknowledge an image already installed, or publish a new one. -/
def completeStage (transfer : SnapshotTransferId) (descriptor : SnapshotDescriptor)
    (nextOffset contactRound : Nat) : Handler Unit := do
  let n ← peek
  let boundary := descriptor.metadata.lastIncludedIndex
  if n.snapshot = some descriptor then do
    update fun n => { n with incomingSnapshot := none }
    snapshotReply transfer nextOffset true true boundary contactRound
  else if boundary ≤ n.lastApplied ∨ boundary < n.commitIndex then do
    cancelIncomingSnapshot
    snapshotRefuse transfer nextOffset
  else do
    let retained := n.retainedSuffix descriptor
    update fun n =>
      { n with publishingSnapshot := some { transfer := some transfer, descriptor, retained,
                                            contactRound } }
    emit (.publishSnapshot (some transfer) descriptor retained)

/-- Where the receiver's offset has to be once a chunk is staged. -/
def RaftNode.expectedNext (n : RaftNode) (descriptor : SnapshotDescriptor)
    (nextOffset expectedEnd : Nat) : Nat :=
  if n.snapshot = some descriptor then descriptor.totalLen else max nextOffset expectedEnd

def onSnapshotChunkStaged (transfer : SnapshotTransferId) (descriptor : SnapshotDescriptor)
    (offset : Nat) (result : SnapshotStageResult) : Handler Unit := do
  let n ← peek
  match n.incomingSnapshot with
  | none => pure ()
  | some active =>
      if active.transfer ≠ transfer ∨ active.descriptor ≠ descriptor ∨
          transfer.term ≠ n.hard.currentTerm then pure ()
      else
        match active.pending with
        | none => pure ()
        | some (expectedOffset, expectedEnd, contactRound) =>
            if expectedOffset ≠ offset then pure ()
            else do
              update fun n => { n with incomingSnapshot := some { active with pending := none } }
              match result with
              | .rejected => snapshotRefuse transfer active.nextOffset
              | .accepted nextOffset complete =>
                  if nextOffset ≠ n.expectedNext descriptor active.nextOffset expectedEnd ∨
                      descriptor.totalLen < nextOffset ∨
                      complete ≠ decide (nextOffset = descriptor.totalLen) ∨
                      (complete = false ∧ nextOffset % maxSnapshotChunkBytes ≠ 0) then do
                    cancelIncomingSnapshot
                    snapshotRefuse transfer 0
                  else do
                    update fun n =>
                      { n with
                        incomingSnapshot := some { active with nextOffset, pending := none } }
                    if !complete then
                      snapshotReply transfer nextOffset true false n.lastLogIndex contactRound
                    else completeStage transfer descriptor nextOffset contactRound

end MicroRaft
