import MicroRaft.Core.Replication

/-!
# Leader election and quorum reads

The handlers of `election.rs` (PreVote, campaigning, the vote decision, reply
counting, the transition to leadership) and of `read.rs` (a fresh quorum
challenge for every read).
-/

namespace MicroRaft

open EffectM

/-! ## The vote decision -/

/-- The fields of `RequestVote`. -/
structure RequestVoteRq where
  term : Nat
  candidateId : NodeId
  lastLogIndex : Nat
  lastLogTerm : Nat
  deriving DecidableEq, Repr

/-- Grant iff the vote is free for this candidate and its log is at least as up to date:
last terms are compared first, lengths only break a tie. -/
def decideVote (hard : HardState) (myLast : Nat × Nat) (req : RequestVoteRq) : Bool :=
  let voteFree :=
    match hard.votedFor with
    | none => true
    | some already => already = req.candidateId
  if !voteFree then false
  else
    decide (req.lastLogTerm > myLast.2) ||
      (decide (req.lastLogTerm = myLast.2) && decide (req.lastLogIndex ≥ myLast.1))

/-! ## The transition to leadership -/

/-- Is the effect a hard-state persist? -/
def Effect.isPersistHard : Effect → Bool
  | .persistHardState _ => true
  | _ => false

/-- Run a handler and keep its batch apart, as the local `committed` vector does. -/
def collect (h : Handler Unit) : Handler (List Effect) := fun n =>
  (h n).map fun r => (r.2.2, r.2.1, [])

/-- A node that is a quorum by itself commits its whole log. -/
def commitAlone : Handler Unit := do
  let n ← peek
  when (n.selfQuorum = true) (advanceCommit n.lastLogIndex)

/-- Start leading: progress anchored before the new no-op entry, the entry itself durable
before anything carries it. -/
def becomeLeader : Handler Unit := do
  let n ← peek
  match nextIndex n.lastLogIndex 1 with
  | none => do
      update fun n => { n with campaignExhausted := true }
      becomeFollower
      update fun n => { n with leaderHint := none }
  | some next => do
      let noop : Entry := { index := next, term := n.hard.currentTerm, command := .noOp }
      update fun n =>
        { n with role := .leader (.ofList (n.peers.map fun peer => (peer, next)))
                   (.ofList (n.peers.map fun peer => (peer, 0))),
                 readContext := 0, contactRound := 1,
                 quorumDeadlineMs := saturatingAdd n.nowMs checkQuorumMs,
                 quorumContacts := {n.id}, log := n.log ++ [noop] }
      emit (.persistLogEntries none [noop])
      let committed ← collect commitAlone
      emits (committed.filter Effect.isPersistHard)
      let n ← peek
      emit (.roleChanged "Leader" n.hard.currentTerm)
      sendAppendEntries
      update fun n => { n with heartbeatDueMs := saturatingAdd n.nowMs heartbeatMs }
      emits (committed.filter fun e => !e.isPersistHard)

/-! ## Campaigning -/

/-- Send a message, preceded by the membership, to every other voter. -/
def solicit (msg : RaftMessage) (peer : NodeId) : Handler Unit := do
  let n ← peek
  if !n.isVoter peer then pure ()
  else do
    advertiseMembership peer
    emit (.send peer msg)

/-- Increment the term, vote for oneself, persist before soliciting, then solicit. -/
def startElection : Handler Unit := do
  let n ← peek
  if !n.isVoter n.id then pure ()
  else
    match checkedAdd n.hard.currentTerm 1 with
    | none => do
        update fun n => { n with campaignExhausted := true }
        becomeFollower
    | some term => do
        let hard := { n.hard with currentTerm := term, votedFor := some n.id }
        update fun n => { n with hard, role := .candidate {n.id} }
        resetElectionDeadline
        emit (.persistHardState hard)
        let n ← peek
        if n.selfQuorum then becomeLeader
        else do
          emit (.roleChanged "Candidate" n.hard.currentTerm)
          n.peers.forM
            (solicit (.requestVote n.hard.currentTerm n.id n.lastLogIndex n.lastLogTerm))

/-- Probe reachability and log eligibility without changing durable state. -/
def startPreVote : Handler Unit := do
  let n ← peek
  if !n.isVoter n.id then pure ()
  else do
    cancelIncomingSnapshot
    match checkedAdd n.hard.currentTerm 1, checkedAdd n.campaignSequence 1 with
    | some prospectiveTerm, some sequence => do
        let campaignId : CampaignId := { incarnation := n.campaignIncarnation, sequence }
        update fun n =>
          { n with campaignSequence := sequence, leaderHint := none,
                   role := .preCandidate prospectiveTerm campaignId {n.id} }
        resetElectionDeadline
        let n ← peek
        if n.selfQuorum then startElection
        else do
          emit (.roleChanged "PreCandidate" n.hard.currentTerm)
          n.peers.forM
            (solicit (.preVote prospectiveTerm campaignId n.id n.lastLogIndex n.lastLogTerm))
    | _, _ => do
        update fun n => { n with campaignExhausted := true }
        becomeFollower

/-- Did a leader make contact within the quorum window? -/
def RaftNode.recentLeader (n : RaftNode) : Bool :=
  n.lastLeaderContactMs.any fun at_ => decide (n.nowMs - at_ < checkQuorumMs)

def onPreVote (prospectiveTerm : Nat) (campaignId : CampaignId) (candidateId : NodeId)
    (lastLogIndex : Nat) (lastLogTerm : Nat) : Handler Unit := do
  let n ← peek
  let freshLog := RaftNode.atLeast lastLogTerm lastLogIndex n.lastLogTerm n.lastLogIndex
  let voteGranted :=
    n.mayVoteFor candidateId prospectiveTerm true lastLogIndex lastLogTerm &&
      decide (prospectiveTerm > n.hard.currentTerm) && freshLog && !n.isLeader && !n.recentLeader
  emit (.send candidateId
    (.preVoteReply n.hard.currentTerm prospectiveTerm campaignId voteGranted))

def onPreVoteReply (sender : NodeId) (term prospectiveTerm : Nat) (campaignId : CampaignId)
    (voteGranted : Bool) : Handler Unit := do
  let n ← peek
  if voteGranted = false ∨ prospectiveTerm ≤ term ∨ n.isVoter sender = false then pure ()
  else
    match n.role with
    | .preCandidate expectedTerm expectedId votesReceived =>
        if prospectiveTerm ≠ expectedTerm ∨ campaignId ≠ expectedId then pure ()
        else do
          let votes := votesReceived.insert sender
          update fun n => { n with role := .preCandidate expectedTerm expectedId votes }
          if n.voterConfig.hasQuorum votes then startElection else pure ()
    | _ => pure ()

/-! ## Real votes -/

def onRequestVote (term : Nat) (candidateId : NodeId) (lastLogIndex : Nat)
    (lastLogTerm : Nat) : Handler Unit := do
  let n ← peek
  if term < n.hard.currentTerm then
    emit (.send candidateId (.requestVoteReply n.hard.currentTerm false))
  else do
    let grant :=
      n.mayVoteFor candidateId term false lastLogIndex lastLogTerm &&
        decideVote n.hard (n.lastLogIndex, n.lastLogTerm)
          { term, candidateId, lastLogIndex, lastLogTerm }
    when (grant = true) do
      update fun n => { n with hard := { n.hard with votedFor := some candidateId } }
      resetElectionDeadline
      emit (.persistHardState { n.hard with votedFor := some candidateId })
    emit (.send candidateId (.requestVoteReply n.hard.currentTerm grant))

def onRequestVoteReply (sender : NodeId) (term : Nat) (voteGranted : Bool) : Handler Unit := do
  let n ← peek
  if term ≠ n.hard.currentTerm ∨ voteGranted = false ∨ n.isVoter sender = false then pure ()
  else
    match n.role with
    | .candidate votesReceived => do
        let votes := votesReceived.insert sender
        update fun n => { n with role := .candidate votes }
        if n.voterConfig.hasQuorum votes then becomeLeader else pure ()
    | _ => pure ()

/-! ## Quorum reads -/

/-- Why a read cannot be admitted, if it cannot. -/
def RaftNode.readRejection (n : RaftNode) : Option ReadRejectReason :=
  if n.isLeader = false ∨ n.isVoter n.id = false then some .notLeader
  else if n.commitIndex = 0 ∨ n.termAt n.commitIndex ≠ n.hard.currentTerm then some .notReady
  else if maxPendingReads ≤ n.pendingReads.size then some .capacity
  else if n.readContext = u64Max then some .contextExhausted
  else none

def onReadIndex (requestId : Nat) : Handler Unit := do
  let n ← peek
  if n.pendingReads.contains requestId then pure ()
  else
    match n.readRejection with
    | some reason => emit (.readRejected requestId n.leaderHint reason)
    | none => do
        let context ← expect (checkedAdd n.readContext 1)
        update fun n => { n with readContext := context }
        if n.selfQuorum then
          emit (.readReady requestId context n.commitIndex n.hard.currentTerm)
        else do
          let read : PendingRead :=
            { context, term := n.hard.currentTerm, index := n.commitIndex, voters := {n.id} }
          update fun n => { n with pendingReads := n.pendingReads.insert requestId read }
          emits ((n.peers.filter fun peer => n.isVoter peer).map fun peer =>
            .send peer (.readProbe n.hard.currentTerm n.id context))

def onReadProbe (term : Nat) (leaderId : NodeId) (context : Nat) : Handler Unit := do
  let n ← peek
  let accepted := decide (term = n.hard.currentTerm) && n.isVoter n.id && n.isVoter leaderId
  when (accepted = true) do
    becomeFollower
    resetElectionDeadline
    update fun n => { n with lastLeaderContactMs := some n.nowMs, leaderHint := some leaderId }
  emit (.send leaderId (.readProbeReply n.hard.currentTerm context accepted))

def onReadProbeReply (sender : NodeId) (term : Nat) (context : Nat) (accepted : Bool) :
    Handler Unit := do
  let n ← peek
  if n.isLeader = false ∨ accepted = false ∨ term ≠ n.hard.currentTerm ∨
      n.isVoter sender = false then pure ()
  else
    match n.pendingReads.toList.find? fun p => p.2.context = context && p.2.term = term with
    | none => pure ()
    | some (requestId, read) => do
        let voters := read.voters.insert sender
        if n.voterConfig.hasQuorum voters then do
          update fun n => { n with pendingReads := n.pendingReads.erase requestId }
          emit (.readReady requestId context read.index term)
        else
          update fun n =>
            { n with pendingReads := n.pendingReads.insert requestId { read with voters } }

def cancelRead (requestId : Nat) : Handler Unit := do
  let n ← peek
  if n.pendingReads.contains requestId then do
    update fun n => { n with pendingReads := n.pendingReads.erase requestId }
    emit (.readRejected requestId n.leaderHint .cancelled)
  else pure ()

end MicroRaft
