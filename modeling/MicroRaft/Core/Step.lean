import MicroRaft.Core.Election

/-!
# One step of a node

Membership administration (`membership_protocol.rs`), the logical clock, message
dispatch, and `step` itself (`lib.rs`).
-/

namespace MicroRaft

open EffectM

/-! ## Membership administration -/

/-- Append a configuration entry; it is effective at once and may commit at once. -/
def appendConfiguration (change : ConfigurationEntry) : Handler (Option Nat) := do
  let n ← peek
  match nextIndex n.lastLogIndex 1 with
  | none => pure none
  | some index => do
      let entry : Entry :=
        { index, term := n.hard.currentTerm, command := .configuration change }
      update fun n => { n with log := n.log ++ [entry] }
      emit (.persistLogEntries none [entry])
      refreshEffectiveMembership
      commitQuorum
      pure (some index)

/-- A leader that knows a committed joint phase appends its final entry. -/
def maybeFinalizeMembership : Handler Unit := do
  let n ← peek
  if n.isLeader = false ∨ n.uncommittedConfiguration = true then pure ()
  else
    match n.committedMembership.state.pending with
    | none => pure ()
    | some (id, record) => do
        let _ ← appendConfiguration
          { requestId := id, operation := record.operation, phase := .final }
        pure ()

def RaftNode.rejectAdmin (n : RaftNode) (reason : String) : MembershipOutcome :=
  .rejected reason n.leaderHint

/-- The entry of the log that already carries this request, if any. -/
def RaftNode.loggedRequest (n : RaftNode) (requestId : String) :
    Option (Nat × ConfigurationEntry) :=
  n.log.findSome? fun e =>
    match e.command with
    | .configuration change => if change.requestId = requestId then some (e.index, change) else none
    | _ => none

/-- The fence of a promotion, set at the first attempt of its request; `none` if the request
came back with another payload. -/
def fenceFor (requestId : String) (operation : AdminOperation) : Handler (Option Nat) := do
  let n ← peek
  match n.promotionFence.filter fun fence => fence.1 = requestId with
  | some (_, prior, fence) => pure (if prior = operation then some fence else none)
  | none => do
      update fun n => { n with promotionFence := some (requestId, operation, n.lastLogIndex) }
      pure (some n.lastLogIndex)

/-- The catch-up proof that new voters owe, anchored at the first attempt of the request. -/
def promotionCheck (requestId : String) (operation : AdminOperation) (voters : List NodeId) :
    Handler (Option String) := do
  let n ← peek
  let fence ← fenceFor requestId operation
  match fence with
  | none => pure (some "request_payload_changed")
  | some fence =>
      match n.role with
      | .leader _ matched =>
          if voters.any fun id =>
              !n.isVoter id &&
                (decide ((matched[id]?).getD 0 < fence) || !n.quorumContacts.contains id) then
            pure (some "learner_not_caught_up")
          else pure none
      | _ => pure none

/-- Why a change may not be appended yet, if it may not. -/
def promotionRefusal (requestId : String) : AdminOperation → Handler (Option String)
  | .setVoters voters => promotionCheck requestId (.setVoters voters) voters
  | _ => pure none

/-- The last part of admission: catch-up, then the append. -/
def admitChange (requestId : String) (operation : AdminOperation) (phase : ConfigurationPhase) :
    Handler MembershipOutcome := do
  let n ← peek
  let refusal ← promotionRefusal requestId operation
  match refusal with
  | some reason => pure (n.rejectAdmin reason)
  | none => do
      let appended ← appendConfiguration { requestId, operation, phase }
      match appended with
      | some index => do
          update fun n => { n with promotionFence := none }
          pure (.accepted index)
      | none => do
          let n ← peek
          pure (n.rejectAdmin "log_index_exhausted")

def admitMembership (requestId : String) (operation : AdminOperation) :
    Handler MembershipOutcome := do
  let n ← peek
  if !n.isLeader then pure (n.rejectAdmin "not_leader")
  else
    match n.committedMembership.state.records[requestId]? with
    | some record =>
        pure (if record.operation = operation then .recorded record
          else n.rejectAdmin "request_payload_changed")
    | none =>
        match n.loggedRequest requestId with
        | some (index, change) =>
            pure (if change.operation = operation then .accepted index
              else n.rejectAdmin "request_payload_changed")
        | none =>
            if n.uncommittedConfiguration then pure (n.rejectAdmin "membership_change_pending")
            else if n.commitIndex = 0 ∨ n.logTerm n.commitIndex ≠ some n.hard.currentTerm then
              pure (n.rejectAdmin "current_term_not_committed")
            else
              match n.committedMembership.state.firstPhase requestId operation with
              | .error reason => pure (n.rejectAdmin reason)
              | .ok phase => admitChange requestId operation phase

def onMembershipChange (requestId : String) (operation : AdminOperation) : Handler Unit := do
  let outcome ← admitMembership requestId operation
  emit (.membershipResult requestId outcome)

/-- An advertised history grants admission to replication and elections, never more. -/
def onMembershipAdvertisement (sender : NodeId) (term : Nat)
    (configuration : CommittedMembership) : Handler Unit := do
  let n ← peek
  if sender = n.id ∨ term < n.hard.currentTerm ∨ configuration.term > term ∨
      configuration.state.voters.contains sender = false ∨
      configuration.isConsistentExtensionOf n.committedMembership = false then pure ()
  else do
    emits (configuration.state.endpoints[sender]?.toList.map fun endpoints =>
      .membershipRouteHint sender term endpoints)
    update fun n =>
      { n with membershipAdvertisements :=
          n.membershipAdvertisements.insert sender (term, configuration) }

/-! ## Group envelopes -/

def RaftMessage.isGroupMessage : RaftMessage → Bool
  | .groupMessage .. => true
  | _ => false

/-- `unwrap_group_message`: explicit groups accept only their own envelope. -/
def RaftNode.unwrapGroupMessage (n : RaftNode) : RaftMessage → Option RaftMessage
  | .groupMessage groupId genesisVoters message =>
      let known := n.committedMembership.state
      if known.groupId ≠ legacyGroupId ∧ groupId = known.groupId ∧
          genesisVoters = known.genesisVoters ∧ message.isGroupMessage = false then
        some message
      else none
  | message => if n.committedMembership.state.groupId = legacyGroupId then some message else none

/-- The envelope of a group around one effect. -/
def wrapEffect (known : MembershipState) : Effect → Effect
  | .send dest msg =>
      if msg.isGroupMessage then .send dest msg
      else .send dest (.groupMessage known.groupId known.genesisVoters msg)
  | effect => effect

def RaftNode.wrapGroupEffects (n : RaftNode) (effects : List Effect) : List Effect :=
  let known := n.committedMembership.state
  if known.groupId = legacyGroupId then effects else effects.map (wrapEffect known)

/-! ## The clock -/

/-- The leader's part of a tick once its quorum window is settled. -/
def leaderTick (nowMs : Nat) : Handler Unit := do
  maybeFinalizeMembership
  let n ← peek
  if !n.isLeader then pure ()
  else if n.heartbeatDueMs ≤ nowMs then do
    sendAppendEntries
    update fun n => { n with heartbeatDueMs := saturatingAdd nowMs heartbeatMs }
  else pure ()

/-- A leader at the end of its quorum window renews it or steps down. -/
def quorumWindow (nowMs : Nat) : Handler Unit := do
  let n ← peek
  if n.quorumDeadlineMs ≤ nowMs then
    let missedWindow := checkQuorumMs ≤ nowMs - n.quorumDeadlineMs
    match checkedAdd n.contactRound 1 with
    | some round =>
        if missedWindow ∨ n.voterConfig.hasQuorum n.quorumContacts = false then do
          becomeFollower
          update fun n => { n with leaderHint := none }
          resetElectionDeadline
        else do
          update fun n =>
            { n with contactRound := round, quorumContacts := {n.id},
                     quorumDeadlineMs := saturatingAdd nowMs checkQuorumMs,
                     heartbeatDueMs := nowMs }
          leaderTick nowMs
    | none => do
        becomeFollower
        update fun n => { n with leaderHint := none }
        resetElectionDeadline
  else leaderTick nowMs

def onTick (nowMs : Nat) : Handler Unit := do
  let n ← peek
  if nowMs < n.nowMs ∨ (nowMs = n.nowMs ∧ n.electionDeadlineMs ≠ 0) then pure ()
  else do
    update fun n => { n with nowMs }
    if checkedAdd nowMs checkQuorumMs = none then do
      update fun n => { n with campaignExhausted := true }
      becomeFollower
      update fun n => { n with leaderHint := none }
    else do
      when (n.electionDeadlineMs = 0) resetElectionDeadline
      let n ← peek
      if n.isLeader then quorumWindow nowMs
      else if n.electionDeadlineMs ≤ nowMs ∧ n.campaignExhausted = false ∧
          n.isVoter n.id = true then startPreVote
      else pure ()

/-! ## Messages -/

/-- May the sender take part in this exchange at all? -/
def RaftNode.eligible (n : RaftNode) (sender : NodeId) : RaftMessage → Bool
  | .requestVote term _ lastLogIndex lastLogTerm =>
      n.mayVoteFor sender term false lastLogIndex lastLogTerm
  | .preVote prospectiveTerm _ _ lastLogIndex lastLogTerm =>
      n.mayVoteFor sender prospectiveTerm true lastLogIndex lastLogTerm
  | .appendEntries term .. => n.mayReplicateFrom sender term
  | .installSnapshot transfer .. => n.mayReplicateFrom sender transfer.term
  | .appendEntriesReply .. | .installSnapshotReply .. | .compactedPrefix .. =>
      n.peers.contains sender
  | _ => n.isVoter sender

/-- Structural checks made before the term of a message is looked at. -/
def RaftNode.malformed (n : RaftNode) (sender : NodeId) : RaftMessage → Bool
  | .requestVote term candidateId _ lastLogTerm =>
      candidateId ≠ sender || decide (lastLogTerm > term)
  | .preVote prospectiveTerm _ candidateId _ lastLogTerm =>
      candidateId ≠ sender || decide (lastLogTerm ≥ prospectiveTerm)
  | .appendEntries _ leaderId .. => leaderId ≠ sender
  | .readProbe _ leaderId context => leaderId ≠ sender || context = 0
  | .readProbeReply _ context _ => context = 0
  | .installSnapshot transfer descriptor offset data done _ =>
      transfer.leaderId ≠ sender || transfer.sequence = 0 ||
        decide (descriptor.metadata.lastIncludedTerm > transfer.term) ||
        !n.validSnapshotMembership descriptor || !validChunk descriptor offset data.length done
  | .compactedPrefix term lastIncludedIndex lastIncludedTerm _ =>
      lastIncludedIndex = 0 || lastIncludedTerm = 0 || decide (lastIncludedTerm > term)
  | .installSnapshotReply _ transfer .. => transfer.leaderId ≠ n.id || transfer.sequence = 0
  | _ => false

/-- The term a message speaks for; a pre-vote speaks for none. -/
def RaftNode.messageTerm (n : RaftNode) : RaftMessage → Nat
  | .requestVote term .. | .requestVoteReply term _ | .appendEntries term ..
  | .appendEntriesReply term .. | .preVoteReply term .. | .readProbe term ..
  | .readProbeReply term .. | .installSnapshotReply term .. | .compactedPrefix term .. => term
  | .installSnapshot transfer .. => transfer.term
  | _ => n.hard.currentTerm

/-- A newer term is durable before the node visibly steps down. -/
def adoptTerm (term : Nat) : Handler Unit := do
  let n ← peek
  if term > n.hard.currentTerm then do
    let hard := { n.hard with currentTerm := term, votedFor := none }
    update fun n => { n with hard }
    emit (.persistHardState hard)
    becomeFollower
    update fun n => { n with lastLeaderContactMs := none }
    cancelIncomingSnapshot
  else pure ()

/-- The dispatch at the end of `on_message`. -/
def dispatch (sender : NodeId) : RaftMessage → Handler Unit
  | .compactedPrefix term lastIncludedIndex lastIncludedTerm contactRound => do
      let n ← peek
      if n.logTerm lastIncludedIndex = some lastIncludedTerm then
        onAppendEntriesReply sender term true lastIncludedIndex contactRound none
      else pure ()
  | .installSnapshot transfer descriptor offset data done contactRound =>
      onInstallSnapshot transfer descriptor offset data done contactRound
  | .installSnapshotReply term transfer nextOffset matchIndex accepted installed contactRound =>
      onInstallSnapshotReply sender term transfer nextOffset matchIndex accepted installed
        contactRound
  | .requestVote term candidateId lastLogIndex lastLogTerm =>
      onRequestVote term candidateId lastLogIndex lastLogTerm
  | .requestVoteReply term voteGranted => onRequestVoteReply sender term voteGranted
  | .appendEntries term leaderId prevLogIndex prevLogTerm entries leaderCommit contactRound =>
      match validateAppendEntries term prevLogIndex prevLogTerm entries with
      | some payloadLastIndex =>
          onAppendEntries term leaderId prevLogIndex prevLogTerm entries payloadLastIndex
            leaderCommit contactRound
      | none => pure ()
  | .appendEntriesReply term success matchIndex contactRound conflict =>
      onAppendEntriesReply sender term success matchIndex contactRound conflict
  | .readProbe term leaderId context => onReadProbe term leaderId context
  | .readProbeReply term context accepted => onReadProbeReply sender term context accepted
  | .preVote prospectiveTerm campaignId candidateId lastLogIndex lastLogTerm =>
      onPreVote prospectiveTerm campaignId candidateId lastLogIndex lastLogTerm
  | .preVoteReply term prospectiveTerm campaignId voteGranted =>
      onPreVoteReply sender term prospectiveTerm campaignId voteGranted
  | .groupMessage .. | .membershipAdvertisement .. => pure ()

/-- Is the payload of an append request badly framed? -/
def RaftMessage.badFraming : RaftMessage → Bool
  | .appendEntries term _ prevLogIndex prevLogTerm entries _ _ =>
      (validateAppendEntries term prevLogIndex prevLogTerm entries).isNone
  | _ => false

/-- A message of the protocol proper, after its envelope is gone. -/
def onProtocolMessage (sender : NodeId) (msg : RaftMessage) : Handler Unit := do
  let n ← peek
  if sender = n.id ∨ n.eligible sender msg = false ∨ n.malformed sender msg = true then pure ()
  else if msg.badFraming then appendReject sender 0 none
  else do
    adoptTerm (n.messageTerm msg)
    dispatch sender msg

def onMessage (sender : NodeId) (msg : RaftMessage) : Handler Unit := do
  let n ← peek
  match n.unwrapGroupMessage msg with
  | none => pure ()
  | some (.membershipAdvertisement term configuration) =>
      onMembershipAdvertisement sender term configuration
  | some msg => onProtocolMessage sender msg

/-! ## Recovery and the step function -/

/-- Recovery completes as one ordered batch before any other input. -/
def onRecover : Handler Unit := do
  let n ← peek
  if !n.recoveryPending then pure ()
  else do
    update fun n => { n with recoveryPending := false }
    when (n.recoveryRefreshHard = true) do
      emit (.persistHardState n.hard)
      update fun n => { n with recoveryRefreshHard := false }
    applyCommitted

def handle : Input → Handler Unit
  | .recover => onRecover
  | .membershipChange requestId operation => onMembershipChange requestId operation
  | .tick nowMs => onTick nowMs
  | .message sender msg => onMessage sender msg
  | .clientPropose command => onClientPropose command
  | .clientProposeBatch commands => onClientProposeBatch commands
  | .readIndex requestId => onReadIndex requestId
  | .cancelRead requestId => cancelRead requestId
  | .compact descriptor => onCompact descriptor
  | .snapshotChunkRead dest transfer descriptor offset data =>
      onSnapshotChunkRead dest transfer descriptor offset data
  | .snapshotChunkStaged transfer descriptor offset result =>
      onSnapshotChunkStaged transfer descriptor offset result
  | .snapshotPublished transfer descriptor => onSnapshotPublished transfer descriptor

/-- Feed one input; `none` is a panic, otherwise the new node and its ordered batch. -/
def RaftNode.step (n : RaftNode) (input : Input) : Option (RaftNode × List Effect) :=
  if n.recoveryPending = true ∧ input ≠ .recover then some (n, [])
  else (handle input n).map fun r => (r.2.1, r.2.1.wrapGroupEffects r.2.2)

end MicroRaft
