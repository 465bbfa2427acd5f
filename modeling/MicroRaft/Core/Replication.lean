import MicroRaft.Core.Snapshot

/-!
# Log replication

The handlers of `replication.rs`: framing checks, bounded append batches, client
proposals, the follower's consistency check and log repair, conflict hints, and
the leader's progress tracking.
-/

namespace MicroRaft

open EffectM

/-! ## Framing -/

/-- The entries follow the anchor without a gap and with nondecreasing terms. -/
def validEntries (messageTerm : Nat) : Nat → Nat → List Entry → Bool
  | _, _, [] => true
  | prevIndex, prevTerm, e :: es =>
      decide (e.index = prevIndex + 1) && decide (prevTerm ≤ e.term) &&
        decide (e.term ≤ messageTerm) && validEntries messageTerm e.index e.term es

/-- `validate_append_entries`: the last index the request covers, if its framing is sound. -/
def validateAppendEntries (messageTerm : Nat) (prevLogIndex : Nat) (prevLogTerm : Nat)
    (entries : List Entry) : Option Nat :=
  if prevLogTerm > messageTerm then none
  else
    match checkedAdd prevLogIndex entries.length with
    | none => none
    | some lastIndex =>
        if validEntries messageTerm prevLogIndex prevLogTerm entries then some lastIndex else none

/-! ## Advertising the membership -/

/-- Tell a peer the configuration this node's log ends in. -/
def advertiseMembership (dest : NodeId) : Handler Unit := do
  let n ← peek
  let configuration ← expect (n.membershipAt n.lastLogIndex).toOption
  if configuration.state.groupId ≠ legacyGroupId ∧
      configuration.state.voters.contains n.id = true then
    emit (.send dest (.membershipAdvertisement n.hard.currentTerm configuration))
  else pure ()

/-- Was the same configuration advertised to this peer within the window? -/
def RaftNode.recentlyAdvertised (n : RaftNode) (dest : NodeId)
    (configuration : CommittedMembership) : Bool :=
  (n.advertisementLast[dest]?).any fun p =>
    p.1 = n.hard.currentTerm && p.2.1 = configuration.index &&
      decide (n.nowMs - p.2.2 < checkQuorumMs)

def advertiseReplicationMembership (dest : NodeId) : Handler Unit := do
  let n ← peek
  if n.committedMembership.state.groupId = legacyGroupId then pure ()
  else do
    let configuration ← expect (n.membershipAt n.lastLogIndex).toOption
    match n.role with
    | .leader _ matched =>
        if configuration.index = 0 ∨ configuration.index ≤ (matched[dest]?).getD 0 then pure ()
        else if n.recentlyAdvertised dest configuration then pure ()
        else do
          let sent := (n.hard.currentTerm, configuration.index, n.nowMs)
          update fun n => { n with advertisementLast := n.advertisementLast.insert dest sent }
          advertiseMembership dest
    | _ => pure ()

/-! ## The leader's side -/

/-- The append batch for a peer whose next index is `next`. -/
def RaftNode.appendBatch (n : RaftNode) (next : Nat) : RaftMessage :=
  let prevLogIndex := next - 1
  let skip := prevLogIndex - n.snapshotIndex
  .appendEntries n.hard.currentTerm n.id prevLogIndex (n.termAt prevLogIndex)
    ((n.log.drop skip).take maxAppendEntries) n.commitIndex n.contactRound

/-- One peer's share of `send_append_entries`. -/
def sendAppendTo (progress : BTreeMap NodeId Nat) (peer : NodeId) : Handler Unit := do
  advertiseReplicationMembership peer
  let n ← peek
  let next := (progress[peer]?).getD (saturatingAdd n.lastLogIndex 1)
  if next ≤ n.snapshotIndex then sendSnapshotChunk peer
  else do
    update fun n => { n with outgoingSnapshots := n.outgoingSnapshots.erase peer }
    emit (.send peer (n.appendBatch next))

/-- To every peer, a bounded batch beginning at its next index, or a snapshot chunk. -/
def sendAppendEntries : Handler Unit := do
  let n ← peek
  match n.role with
  | .leader next _ => n.peers.forM (sendAppendTo next)
  | _ => pure ()

/-- The entries a leader makes of a batch of commands. -/
def proposedEntries (last : Nat) (term : Nat) : List Command → List Entry
  | [] => []
  | command :: commands =>
      { index := last + 1, term, command } :: proposedEntries (last + 1) term commands

def onClientProposeBatch (commands : List Command) : Handler Unit := do
  let n ← peek
  if commands = [] then pure ()
  else
    match nextIndex n.lastLogIndex commands.length with
    | some finalIndex =>
        if n.isLeader = false ∨ n.isVoter n.id = false ∨
            commands.any Command.isConfiguration = true ∨
            commands.length > maxProposalBatch then
          emits (commands.map fun _ => .proposeRejected n.leaderHint)
        else do
          let entries := proposedEntries n.lastLogIndex n.hard.currentTerm commands
          update fun n => { n with log := n.log ++ entries }
          emit (.persistLogEntries none entries)
          emits (entries.map fun e => .proposeAccepted e.index)
          let n ← peek
          if n.selfQuorum then advanceCommit finalIndex else pure ()
    | none => emits (commands.map fun _ => .proposeRejected n.leaderHint)

def onClientPropose (command : Command) : Handler Unit := onClientProposeBatch [command]

/-! ## The follower's side -/

/-- `partition_point` on a log: the length of the prefix on which the predicate holds. -/
def partitionPoint (p : Entry → Bool) (log : List Entry) : Nat := (log.takeWhile p).length

/-- The first available index of the conflicting term, or the end of a log that is too
short. The outer `none` is the out-of-bounds panic of the source. -/
def RaftNode.appendConflictHint (n : RaftNode) (rejectedIndex : Nat) :
    Option (Option AppendConflictHint) :=
  match n.logTerm rejectedIndex with
  | some 0 => some none
  | some term =>
      if n.snapshotTerm = term then
        some (some { rejectedIndex, term := some term, firstIndex := n.snapshotIndex })
      else
        (n.log[partitionPoint (fun e => decide (e.term < term)) n.log]?).map fun e =>
          some { rejectedIndex, term := some term, firstIndex := e.index }
  | none =>
      some ((checkedAdd n.lastLogIndex 1).map fun firstIndex =>
        { rejectedIndex, term := none, firstIndex })

/-- The rejection of an append request. -/
def appendReject (leaderId : NodeId) (contactRound : Nat)
    (conflict : Option AppendConflictHint) : Handler Unit := do
  let n ← peek
  emit (.send leaderId
    (.appendEntriesReply n.hard.currentTerm false n.lastLogIndex contactRound conflict))

/-- The log the request would leave behind, built apart from the node's own log. -/
def candidateLog (snapshotIndex : Nat) (log : List Entry) : List Entry → List Entry
  | [] => log
  | e :: es =>
      let offset := e.index - snapshotIndex - 1
      if (log[offset]?).any (fun old => old.term = e.term) then candidateLog snapshotIndex log es
      else candidateLog snapshotIndex (log.take offset ++ [e]) es

/-- The state of the repair loop: the node's own log, where it was cut, what is appended. -/
structure Repair where
  log : List Entry
  truncateFrom : Option Nat
  appended : List Entry

/-- One round of the repair loop over the payload. -/
def repairEntry (n : RaftNode) (r : Repair) (e : Entry) : Repair :=
  let here := { n with log := r.log }
  if e.index > here.lastLogIndex then { r with appended := r.appended ++ [e] }
  else if here.termAt e.index = e.term then r
  else
    { log := r.log.take (e.index - n.snapshotIndex - 1), truncateFrom := some e.index,
      appended := r.appended ++ [e] }

/-- Walk the payload against the existing log; cut only at the first conflict. -/
def repairLog (n : RaftNode) (entries : List Entry) : Repair :=
  entries.foldl (repairEntry n) { log := n.log, truncateFrom := none, appended := [] }

/-- Commit what the leader reports committed, or at least adopt the new log's membership. -/
def followCommit (newCommit : Nat) : Handler Unit := do
  let n ← peek
  if newCommit > n.commitIndex then advanceCommit newCommit else refreshEffectiveMembership

/-- The accepting branch of `on_append_entries`. -/
def acceptEntries (leaderId : NodeId) (entries : List Entry) (payloadLastIndex : Nat)
    (leaderCommit : Nat) (contactRound : Nat) : Handler Unit := do
  let n ← peek
  let repair := repairLog n entries
  when (repair.appended ≠ []) do
    update fun n => { n with log := repair.log ++ repair.appended }
    emit (.persistLogEntries repair.truncateFrom repair.appended)
  followCommit (min leaderCommit payloadLastIndex)
  let n ← peek
  emit (.send leaderId
    (.appendEntriesReply n.hard.currentTerm true payloadLastIndex contactRound none))

/-- A payload entry that contradicts the committed prefix. -/
def RaftNode.conflictsCommitted (n : RaftNode) (entries : List Entry) : Bool :=
  entries.any fun e =>
    decide (e.index ≤ n.commitIndex) && decide (n.logTerm e.index ≠ some e.term)

def onAppendEntries (term : Nat) (leaderId : NodeId) (prevLogIndex : Nat)
    (prevLogTerm : Nat) (entries : List Entry) (payloadLastIndex leaderCommit : Nat)
    (contactRound : Nat) : Handler Unit := do
  let n ← peek
  if term < n.hard.currentTerm then appendReject leaderId contactRound none
  else do
    becomeFollower
    resetElectionDeadline
    update fun n => { n with leaderHint := some leaderId, lastLeaderContactMs := some n.nowMs }
    let n ← peek
    if prevLogIndex < n.snapshotIndex then
      emit (.send leaderId
        (.compactedPrefix n.hard.currentTerm n.snapshotIndex n.snapshotTerm contactRound))
    else if n.logTerm prevLogIndex ≠ some prevLogTerm then do
      let conflict ← expect (n.appendConflictHint prevLogIndex)
      appendReject leaderId contactRound conflict
    else if n.conflictsCommitted entries then appendReject leaderId contactRound none
    else do
      -- both merge loops subtract the boundary from every index of the payload
      require (∀ e ∈ entries, n.snapshotIndex < e.index)
      if !n.validConfigurationSuffix (candidateLog n.snapshotIndex n.log entries) then
        appendReject leaderId 0 none
      else acceptEntries leaderId entries payloadLastIndex leaderCommit contactRound

/-! ## Progress tracking -/

def RaftNode.lastIndexInTerm (n : RaftNode) (term : Nat) : Option Nat :=
  let stop := partitionPoint (fun e => decide (e.term ≤ term)) n.log
  match (if stop = 0 then none else n.log[stop - 1]?) with
  | some e =>
      if e.term = term then some e.index
      else if n.snapshotTerm = term then some n.snapshotIndex else none
  | none => if n.snapshotTerm = term then some n.snapshotIndex else none

/-- The checks a conflict hint has to pass before it counts as anything. -/
def RaftNode.validHint (n : RaftNode) (term : Nat) (success : Bool) (matchIndex : Nat)
    (hint : AppendConflictHint) : Bool :=
  !success && decide (0 < hint.firstIndex) && decide (hint.firstIndex ≤ hint.rejectedIndex) &&
    match hint.term with
    | some conflictTerm =>
        decide (0 < conflictTerm) && decide (conflictTerm ≤ term) &&
          decide (hint.rejectedIndex ≤ matchIndex) &&
          decide (n.logTerm hint.rejectedIndex ≠ some conflictTerm)
    | none => decide (checkedAdd matchIndex 1 = some hint.firstIndex)

/-- Where the hint sends the retry cursor. -/
def RaftNode.hintedNext (n : RaftNode) (hint : AppendConflictHint) : Nat :=
  match hint.term.bind n.lastIndexInTerm with
  | some index => saturatingAdd index 1
  | none => hint.firstIndex

/-- Record one reply in the leader's progress maps. -/
def recordReply (sender : NodeId) (success : Bool) (matchIndex : Nat) (contactRound : Nat)
    (hinted : Option Nat) (next matched : BTreeMap NodeId Nat)
    (peerNext peerMatch : Nat) (n : RaftNode) : RaftNode :=
  let quorumContacts :=
    if contactRound ≠ 0 ∧ contactRound = n.contactRound then n.quorumContacts.insert sender
    else n.quorumContacts
  if success then
    let m := max peerMatch matchIndex
    { n with quorumContacts,
             role := .leader (next.insert sender (saturatingAdd m 1)) (matched.insert sender m) }
  else
    let floor := max (saturatingAdd peerMatch 1) 1
    let candidate := hinted.getD (saturatingAdd matchIndex 1)
    { n with quorumContacts,
             role := .leader (next.insert sender (max (min candidate (peerNext - 1)) floor))
               matched }

def onAppendEntriesReply (sender : NodeId) (term : Nat) (success : Bool)
    (matchIndex : Nat) (contactRound : Nat) (conflict : Option AppendConflictHint) :
    Handler Unit := do
  let n ← peek
  if term ≠ n.hard.currentTerm then pure ()
  else if success = true ∧ matchIndex > n.lastLogIndex then pure ()
  else if conflict.any (fun hint => !n.validHint term success matchIndex hint) then pure ()
  else
    match n.role with
    | .leader next matched =>
        match next[sender]?, matched[sender]? with
        | some peerNext, some peerMatch =>
            if conflict.any (fun hint =>
                decide (hint.rejectedIndex ≠ peerNext - 1) ||
                  decide (hint.rejectedIndex ≤ peerMatch)) then pure ()
            else do
              update (recordReply sender success matchIndex contactRound
                (conflict.map n.hintedNext) next matched peerNext peerMatch)
              if success then commitQuorum else pure ()
        | _, _ => pure ()
    | _ => pure ()

/-! ## Replies to snapshot chunks -/

/-- A refused transfer is dropped; a receiver that is already past it is resumed after its
own last entry. -/
def onTransferRefused (sender : NodeId) (matchIndex : Nat) (active : OutgoingSnapshot) :
    Handler Unit :=
  update fun n =>
    let role :=
      match n.role with
      | .leader next matched =>
          if active.descriptor.metadata.lastIncludedIndex ≤ matchIndex ∧
              matchIndex ≤ n.lastLogIndex then
            Role.leader (next.insert sender (saturatingAdd matchIndex 1)) matched
          else n.role
      | role => role
    { n with role, outgoingSnapshots := n.outgoingSnapshots.erase sender }

/-- Does the acknowledgement fit the chunk that was sent? -/
def OutgoingSnapshot.acknowledges (active : OutgoingSnapshot) (nextOffset : Nat)
    (matchIndex : Nat) (installed : Bool) : Bool :=
  if installed then
    decide (nextOffset = active.descriptor.totalLen) &&
      decide (matchIndex = active.descriptor.metadata.lastIncludedIndex)
  else
    decide (some nextOffset = active.sentEnd) && decide (nextOffset < active.descriptor.totalLen) &&
      decide (active.offset < nextOffset)

def onInstallSnapshotReply (sender : NodeId) (term : Nat) (transfer : SnapshotTransferId)
    (nextOffset : Nat) (matchIndex : Nat) (accepted installed : Bool) (contactRound : Nat) :
    Handler Unit := do
  let n ← peek
  if term ≠ n.hard.currentTerm ∨ transfer.term ≠ term ∨ n.isLeader = false then pure ()
  else
    match n.outgoingSnapshots[sender]? with
    | none => pure ()
    | some active =>
        if active.transfer ≠ transfer ∨ active.sentEnd = none then pure ()
        else if !accepted then onTransferRefused sender matchIndex active
        else if !active.acknowledges nextOffset matchIndex installed then pure ()
        else do
          when (contactRound ≠ 0 ∧ contactRound = n.contactRound)
            (update fun n => { n with quorumContacts := n.quorumContacts.insert sender })
          if installed then do
            update fun n => { n with outgoingSnapshots := n.outgoingSnapshots.erase sender }
            onAppendEntriesReply sender term true matchIndex 0 none
            sendAppendEntries
          else do
            update fun n => n.setOutgoing sender
              { active with offset := nextOffset, sentEnd := none, reading := false }
            sendSnapshotChunk sender

end MicroRaft
