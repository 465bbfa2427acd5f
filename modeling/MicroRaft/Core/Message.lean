import MicroRaft.Core.Membership

/-!
# Messages, inputs and effects

The data of `types.rs` and `message.rs`: log entries, durable state, roles,
snapshot descriptors, and the core's whole interface with the world.
Everything a node learns is an `Input`; everything it wants done is an
`Effect`.
-/

namespace MicroRaft

/-! ## Log entries and durable state -/

/-- A state-machine command carried by a log entry. -/
inductive Command where
  | put (key value : String)
  | delete (key : String)
  /-- Appended by a leader on election win. -/
  | noOp
  /-- Consensus-owned configuration entry; ordinary proposals reject it. -/
  | configuration (change : ConfigurationEntry)
  | registerSession (nonce : String)
  | closeSession (sessionId : Nat)
  | sessionPut (sessionId : Nat) (key : String) (sequence : Nat) (value : String)
  | sessionDelete (sessionId : Nat) (key : String) (sequence : Nat)
  deriving DecidableEq, Repr

/-- Is the command a configuration change? -/
def Command.isConfiguration : Command → Bool
  | .configuration _ => true
  | _ => false

structure Entry where
  index : Nat
  term : Nat
  command : Command
  deriving DecidableEq, Repr

/-- The state that must survive a crash. -/
structure HardState where
  currentTerm : Nat := 0
  votedFor : Option NodeId := none
  membership : Option CommittedMembership := none
  deriving DecidableEq

/-- One pre-election attempt. -/
structure CampaignId where
  incarnation : Nat
  sequence : Nat
  deriving DecidableEq, Repr

/-- The role, with the volatile state each role carries. -/
inductive Role where
  | follower
  | preCandidate (prospectiveTerm : Nat) (campaignId : CampaignId)
      (votesReceived : BTreeSet NodeId)
  | candidate (votesReceived : BTreeSet NodeId)
  | leader (nextIndex matchIndex : BTreeMap NodeId Nat)
  deriving DecidableEq

inductive ReadRejectReason where
  | notLeader
  | notReady
  | capacity
  | contextExhausted
  | cancelled
  | leadershipLost
  deriving DecidableEq, Repr

/-! ## Snapshots -/

def maxSnapshotBytes : Nat := 64 * 1024 * 1024

def maxSnapshotChunkBytes : Nat := 64 * 1024

def minSnapshotBytes : Nat := 48

structure SnapshotMetadata where
  lastIncludedIndex : Nat
  lastIncludedTerm : Nat
  members : List NodeId
  membership : Option CommittedMembership
  deriving DecidableEq

def SnapshotMetadata.validate (m : SnapshotMetadata) : Except String Unit := do
  match m.membership with
  | none => .ok ()
  | some membership => do
      membership.validate
      if membership.index > m.lastIncludedIndex ∨ membership.term > m.lastIncludedTerm ∨
          membership.state.participants.toList ≠ m.members then
        .error "snapshot membership boundary or participant set mismatch"
      else .ok ()
  if m.lastIncludedIndex = 0 ∨ m.lastIncludedTerm = 0 then
    .error "snapshot boundary index and term must be positive"
  else if m.lastIncludedIndex = u64Max then
    .error "snapshot boundary must leave room for a following entry"
  else if m.members = [] ∨ m.members.length > 256 ∨ ¬ m.members.IsChain (· < ·) then
    .error "snapshot voters must be nonempty, sorted, and unique"
  else .ok ()

structure SnapshotDescriptor where
  metadata : SnapshotMetadata
  totalLen : Nat
  sha256 : List UInt8
  deriving DecidableEq

def SnapshotDescriptor.validate (d : SnapshotDescriptor) : Except String Unit := do
  d.metadata.validate
  if minSnapshotBytes ≤ d.totalLen ∧ d.totalLen ≤ maxSnapshotBytes then .ok ()
  else .error "snapshot image size must be between 48 bytes and 64 MiB"

/-- A transfer attempt, separate from the identity of the image. -/
structure SnapshotTransferId where
  leaderId : NodeId
  term : Nat
  incarnation : Nat
  sequence : Nat
  deriving DecidableEq, Repr

inductive SnapshotStageResult where
  | accepted (nextOffset : Nat) (complete : Bool)
  | rejected
  deriving DecidableEq, Repr

/-! ## The wire protocol -/

/-- Optional acceleration for a rejected consistency check. -/
structure AppendConflictHint where
  rejectedIndex : Nat
  term : Option Nat
  firstIndex : Nat
  deriving DecidableEq, Repr

inductive RaftMessage where
  /-- The one-level envelope explicit groups put on every wire message. -/
  | groupMessage (groupId : String) (genesisVoters : List NodeId) (message : RaftMessage)
  | membershipAdvertisement (term : Nat) (configuration : CommittedMembership)
  | requestVote (term : Nat) (candidateId : NodeId) (lastLogIndex : Nat)
      (lastLogTerm : Nat)
  | requestVoteReply (term : Nat) (voteGranted : Bool)
  | appendEntries (term : Nat) (leaderId : NodeId) (prevLogIndex : Nat)
      (prevLogTerm : Nat) (entries : List Entry) (leaderCommit : Nat) (contactRound : Nat)
  | appendEntriesReply (term : Nat) (success : Bool) (matchIndex : Nat)
      (contactRound : Nat) (conflict : Option AppendConflictHint)
  | preVote (prospectiveTerm : Nat) (campaignId : CampaignId) (candidateId : NodeId)
      (lastLogIndex : Nat) (lastLogTerm : Nat)
  | preVoteReply (term prospectiveTerm : Nat) (campaignId : CampaignId) (voteGranted : Bool)
  | readProbe (term : Nat) (leaderId : NodeId) (context : Nat)
  | readProbeReply (term : Nat) (context : Nat) (accepted : Bool)
  /-- A follower has compacted past an `AppendEntries` anchor. -/
  | compactedPrefix (term : Nat) (lastIncludedIndex : Nat) (lastIncludedTerm : Nat)
      (contactRound : Nat)
  | installSnapshot (transfer : SnapshotTransferId) (descriptor : SnapshotDescriptor)
      (offset : Nat) (data : List UInt8) (done : Bool) (contactRound : Nat)
  | installSnapshotReply (term : Nat) (transfer : SnapshotTransferId) (nextOffset : Nat)
      (matchIndex : Nat) (accepted installed : Bool) (contactRound : Nat)
  deriving DecidableEq

inductive Input where
  /-- The recovery durability and apply barrier. -/
  | recover
  | membershipChange (requestId : String) (operation : AdminOperation)
  | message (sender : NodeId) (msg : RaftMessage)
  | tick (nowMs : Nat)
  | clientPropose (command : Command)
  | clientProposeBatch (commands : List Command)
  | readIndex (requestId : Nat)
  | cancelRead (requestId : Nat)
  | compact (descriptor : SnapshotDescriptor)
  | snapshotChunkRead (dest : NodeId) (transfer : SnapshotTransferId)
      (descriptor : SnapshotDescriptor) (offset : Nat) (data : List UInt8)
  | snapshotChunkStaged (transfer : SnapshotTransferId) (descriptor : SnapshotDescriptor)
      (offset : Nat) (result : SnapshotStageResult)
  | snapshotPublished (transfer : Option SnapshotTransferId) (descriptor : SnapshotDescriptor)
  deriving DecidableEq

/-- Administrative results distinguish admission from durable completion. -/
inductive MembershipOutcome where
  | accepted (index : Nat)
  | recorded (record : AdminRecord)
  | rejected (reason : String) (leaderHint : Option NodeId)
  deriving DecidableEq

inductive Effect where
  | membershipRouteHint (id : NodeId) (term : Nat) (endpoints : MemberEndpoints)
  | membershipResult (requestId : String) (outcome : MembershipOutcome)
  | membershipChanged (committed : CommittedMembership)
  /-- Durably replace the hard state before any later effect of the batch. -/
  | persistHardState (hard : HardState)
  /-- Truncate the durable log from the given index, if any, then append. -/
  | persistLogEntries (truncateFrom : Option Nat) (entries : List Entry)
  | send (dest : NodeId) (msg : RaftMessage)
  | apply (entry : Entry)
  | roleChanged (roleName : String) (term : Nat)
  | proposeAccepted (index : Nat)
  | proposeRejected (leaderHint : Option NodeId)
  | readReady (requestId context : Nat) (index : Nat) (term : Nat)
  | readRejected (requestId : Nat) (leaderHint : Option NodeId) (reason : ReadRejectReason)
  | readSnapshotChunk (dest : NodeId) (transfer : SnapshotTransferId)
      (descriptor : SnapshotDescriptor) (offset maxLen : Nat)
  | stageSnapshotChunk (transfer : SnapshotTransferId) (descriptor : SnapshotDescriptor)
      (offset : Nat) (data : List UInt8) (done : Bool)
  /-- Atomic publication of an image and the log suffix retained after it. -/
  | publishSnapshot (transfer : Option SnapshotTransferId) (descriptor : SnapshotDescriptor)
      (retainedEntries : List Entry)
  | applySnapshot (descriptor : SnapshotDescriptor)
  | cancelSnapshot (transfer : SnapshotTransferId)
  | snapshotRejected (reason : String)
  deriving DecidableEq

end MicroRaft
