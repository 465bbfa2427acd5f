import MicroRaft.Core.Node

/-!
# Role changes, commitment and application

The handlers every other handler ends in: stepping down, drawing an election
deadline, applying what is committed, and moving the commit index together with
the membership it commits.
-/

namespace MicroRaft

open EffectM

/-! ## Stepping down -/

/-- Terminate every pending read with one reason, in request order. -/
def rejectPendingReads (reason : ReadRejectReason) : Handler Unit := do
  let n ← peek
  update fun n => { n with pendingReads := ∅ }
  emits (n.pendingReads.keys.map fun r => .readRejected r n.leaderHint reason)

/-- Drop candidate and leader state; report only a real change of role. -/
def becomeFollower : Handler Unit := do
  update fun n =>
    { n with outgoingSnapshots := ∅, promotionFence := none, advertisementLast := ∅,
             contactRound := 0, quorumContacts := ∅ }
  let n ← peek
  when (n.role ≠ .follower) do
    update fun n => { n with role := .follower }
    emit (.roleChanged "Follower" n.hard.currentTerm)
  rejectPendingReads .leadershipLost

def resetElectionDeadline : Handler Unit :=
  update fun n =>
    let (delay, rng) := n.rng.rangeInclusive electionMinMs electionMaxMs
    { n with rng, electionDeadlineMs := saturatingAdd n.nowMs delay }

def cancelIncomingSnapshot : Handler Unit := do
  let n ← peek
  match n.incomingSnapshot with
  | none => pure ()
  | some active => do
      update fun n => { n with incomingSnapshot := none }
      emit (.cancelSnapshot active.transfer)

/-! ## Application -/

/-- The `while commit_index > last_applied` loop; the argument bounds its rounds. -/
def applyLoop : Nat → Handler Unit
  | 0 => pure ()
  | rounds + 1 => do
      let n ← peek
      if n.commitIndex > n.lastApplied then do
        update fun n => { n with lastApplied := n.lastApplied + 1 }
        let entry ← expect (n.entryAt (n.lastApplied + 1))
        emit (.apply entry)
        applyLoop rounds
      else pure ()

/-- Emit `apply` for every committed entry not yet applied, in index order. -/
def applyCommitted : Handler Unit := do
  let n ← peek
  applyLoop (n.commitIndex - n.lastApplied)

/-! ## The effective membership -/

/-- Keep the known progress of the peers, drop the rest, and start new peers. -/
def retainProgress (peers : List NodeId) (start : Nat) (progress : BTreeMap NodeId Nat) :
    BTreeMap NodeId Nat :=
  peers.foldl (fun m peer => m.insertIfNew peer start)
    (progress.filter fun id _ => peers.contains id)

/-- `update_replication_peers`: retired replicas still receive their own removal. -/
def RaftNode.updateReplicationPeers (n : RaftNode) : RaftNode :=
  let peers := (n.effectiveMembership.participants ∪ n.effectiveMembership.retired).toList.filter
    (· ≠ n.id)
  let role :=
    match n.role with
    | .leader next matched =>
        Role.leader (retainProgress peers (saturatingAdd n.lastLogIndex 1) next)
          (retainProgress peers 0 matched)
    | role => role
  { n with peers, role }

/-- A leader starts a fresh contact window; anyone else, and a leader out of rounds, steps
down. -/
def restartWindow : Handler Unit := do
  let n ← peek
  if !n.isLeader then becomeFollower
  else
    match checkedAdd n.contactRound 1 with
    | some round =>
        update fun n =>
          { n with contactRound := round, quorumContacts := {n.id},
                   quorumDeadlineMs := saturatingAdd n.nowMs checkQuorumMs,
                   heartbeatDueMs := n.nowMs }
    | none => becomeFollower

/-- What a change of the effective voters does to leadership. -/
def onVotersChanged : Handler Unit := do
  rejectPendingReads .leadershipLost
  restartWindow
  resetElectionDeadline

/-- Recompute the effective membership from the committed one and the log above it. -/
def refreshEffectiveMembership : Handler Unit := do
  let n ← peek
  let next ← expect (effectiveAfter n.committedMembership n.log n.commitIndex).toOption
  -- a removed leader steps down once its own removal is durably committed
  when (n.isLeader = true ∧ next.voters.contains n.id = false ∧
      n.committedMembership.state.voters.contains n.id = false) becomeFollower
  when (next ≠ n.effectiveMembership) do
    update fun n => { n with effectiveMembership := next }.updateReplicationPeers
    when (next.voters ≠ n.effectiveMembership.voters) onVotersChanged

/-! ## Commitment -/

/-- Commit through `index`: the committed membership becomes durable before anything is
applied. -/
def advanceCommit (index : Nat) : Handler Unit := do
  let n ← peek
  if index ≤ n.commitIndex then pure ()
  else do
    let next ← expect (n.membershipAt index).toOption
    when (next ≠ n.committedMembership) do
      update fun n => { n with hard := { n.hard with membership := some next } }
      emit (.persistHardState { n.hard with membership := some next })
    update fun n => { n with commitIndex := index }
    refreshEffectiveMembership
    applyCommitted
    when (next ≠ n.committedMembership) (emit (.membershipChanged next))

/-- The replication watermarks of the whole group, the leader's own log included. -/
def RaftNode.watermarks (n : RaftNode) (matched : BTreeMap NodeId Nat) :
    BTreeMap NodeId Nat :=
  matched.insert n.id n.lastLogIndex

/-- The newest entry of the current term that a quorum has and that is not yet committed. -/
def RaftNode.quorumCommitCandidate (n : RaftNode) : Option Nat :=
  match n.role with
  | .leader _ matched =>
      let quorumIndex := n.voterConfig.replicatedIndex (n.watermarks matched)
      (n.log.reverse.find? fun e =>
        decide (n.commitIndex < e.index) && decide (e.index ≤ quorumIndex) &&
          decide (e.term = n.hard.currentTerm)).map Entry.index
  | _ => none

/-- Commit whatever a quorum has confirmed. -/
def commitQuorum : Handler Unit := do
  let n ← peek
  match n.quorumCommitCandidate with
  | some index => advanceCommit index
  | none => pure ()

end MicroRaft
