import MicroRaft.Core.Message
import MicroRaft.Lib.EffectM

/-!
# The node

One Raft node as a value: the state record of `lib.rs`, the bookkeeping records
of `snapshot.rs` and `read.rs`, the generator of `rng.rs`, and the read-only
questions the handlers ask of a node.
-/

namespace MicroRaft

open EffectM

def heartbeatMs : Nat := 50

def electionMinMs : Nat := 150

def electionMaxMs : Nat := 300

/-- A leader must hear fresh replies from a majority in each window of this length. -/
def checkQuorumMs : Nat := electionMaxMs

def maxAppendEntries : Nat := 16

def maxProposalBatch : Nat := 16

def maxPendingReads : Nat := 128

/-! ## The random generator -/

/-- PCG-XSH-RR 32/64. -/
structure Pcg32 where
  state : UInt64
  inc : UInt64
  deriving DecidableEq, Repr

namespace Pcg32

def multiplier : UInt64 := 6364136223846793005

def defaultStream : UInt64 := 54

def rotateRight (x r : UInt32) : UInt32 := (x >>> (r % 32)) ||| (x <<< ((32 - r % 32) % 32))

def nextU32 (g : Pcg32) : UInt32 × Pcg32 :=
  let old := g.state
  let xorshifted := (((old >>> 18) ^^^ old) >>> 27).toUInt32
  let rot := (old >>> 59).toUInt32
  (rotateRight xorshifted rot, { g with state := old * multiplier + g.inc })

def new (seed : UInt64) : Pcg32 :=
  let g : Pcg32 := { state := 0, inc := (defaultStream <<< 1) ||| 1 }
  let g := g.nextU32.2
  ({ g with state := g.state + seed }).nextU32.2

/-- Draw from `lo..=hi` by modulo. -/
def rangeInclusive (g : Pcg32) (lo hi : Nat) : Nat × Pcg32 :=
  let (x, g) := g.nextU32
  (lo + x.toNat % (hi - lo + 1), g)

end Pcg32

/-! ## The state record -/

structure OutgoingSnapshot where
  transfer : SnapshotTransferId
  descriptor : SnapshotDescriptor
  offset : Nat
  reading : Bool
  sentEnd : Option Nat
  deriving DecidableEq

structure IncomingSnapshot where
  transfer : SnapshotTransferId
  descriptor : SnapshotDescriptor
  nextOffset : Nat
  /-- Offset, end and contact round of the chunk being staged. -/
  pending : Option (Nat × Nat × Nat)
  deriving DecidableEq

structure PublishingSnapshot where
  transfer : Option SnapshotTransferId
  descriptor : SnapshotDescriptor
  retained : List Entry
  contactRound : Nat
  deriving DecidableEq

structure PendingRead where
  context : Nat
  term : Nat
  index : Nat
  voters : BTreeSet NodeId
  deriving DecidableEq

/-- One Raft node. -/
structure RaftNode where
  id : NodeId
  /-- Replication destinations: other voters, learners and retired identities. -/
  peers : List NodeId
  hard : HardState
  /-- The suffix retained after the snapshot boundary. -/
  log : List Entry
  commitIndex : Nat
  lastApplied : Nat
  role : Role
  leaderHint : Option NodeId
  nowMs : Nat
  /-- `0` until the first tick draws it. -/
  electionDeadlineMs : Nat
  heartbeatDueMs : Nat
  rng : Pcg32
  campaignIncarnation : Nat
  campaignSequence : Nat
  campaignExhausted : Bool
  lastLeaderContactMs : Option Nat
  contactRound : Nat
  quorumDeadlineMs : Nat
  quorumContacts : BTreeSet NodeId
  readContext : Nat
  snapshot : Option SnapshotDescriptor
  snapshotSequence : Nat
  outgoingSnapshots : BTreeMap NodeId OutgoingSnapshot
  incomingSnapshot : Option IncomingSnapshot
  lastSnapshotTransfer : Option (SnapshotTransferId × SnapshotDescriptor)
  publishingSnapshot : Option PublishingSnapshot
  pendingReads : BTreeMap Nat PendingRead
  genesisMembership : CommittedMembership
  effectiveMembership : MembershipState
  recoveryPending : Bool
  advertisementLast : BTreeMap NodeId (Nat × Nat × Nat)
  promotionFence : Option (String × AdminOperation × Nat)
  recoveryRefreshHard : Bool
  membershipAdvertisements : BTreeMap NodeId (Nat × CommittedMembership)
  deriving DecidableEq

/-- Handlers read and change a node and emit effects; `none` is a panic. -/
abbrev Handler := EffectM RaftNode Effect

/-! ## Replaying configuration entries -/

/-- One log entry's contribution to the membership. -/
def replayEntry (state : CommittedMembership) (entry : Entry) :
    Except String CommittedMembership :=
  match entry.command with
  | .configuration change => state.advanced entry.index entry.term change
  | _ => .ok state

/-- `replay`: configuration entries up to `through`, without confusing their presence
with commitment. -/
def replay (state : CommittedMembership) (entries : List Entry) (through : Nat) :
    Except String CommittedMembership :=
  (entries.filter fun e => e.index ≤ through).foldlM replayEntry state

/-- `effective_after`: the newest logged configuration is effective immediately. -/
def effectiveAfter (state : CommittedMembership) (entries : List Entry) (committed : Nat) :
    Except String MembershipState := do
  let state ← replay state (entries.filter fun e => committed < e.index) u64Max
  .ok state.state

/-! ## Questions about a node -/

namespace RaftNode

variable (n : RaftNode)

def snapshotIndex : Nat := n.snapshot.elim 0 fun s => s.metadata.lastIncludedIndex

def snapshotTerm : Nat := n.snapshot.elim 0 fun s => s.metadata.lastIncludedTerm

def lastLogIndex : Nat := n.log.getLast?.elim n.snapshotIndex Entry.index

def lastLogTerm : Nat := n.log.getLast?.elim n.snapshotTerm Entry.term

def entryAt (index : Nat) : Option Entry :=
  if n.snapshotIndex < index then n.log[index - n.snapshotIndex - 1]? else none

/-- A compacted-away index has no available term; the boundary keeps its own. -/
def logTerm (index : Nat) : Option Nat :=
  if index = n.snapshotIndex then some n.snapshotTerm else (n.entryAt index).map Entry.term

def termAt (index : Nat) : Nat := (n.logTerm index).getD 0

def isLeader : Bool := n.role matches .leader ..

def committedMembership : CommittedMembership := n.hard.membership.getD n.genesisMembership

def voterConfig : VoterConfig := n.effectiveMembership.voters

def isVoter (id : NodeId) : Bool := n.voterConfig.contains id

def selfQuorum : Bool := n.voterConfig.hasQuorum {n.id}

def members : List NodeId := n.effectiveMembership.participants.toList

/-- The membership the retained log starts from. -/
def baseMembership : CommittedMembership :=
  (n.snapshot.bind fun image => image.metadata.membership).getD n.genesisMembership

def membershipAt (index : Nat) : Except String CommittedMembership :=
  if index < n.snapshotIndex then .error "configuration predates retained snapshot"
  else replay n.baseMembership n.log index

def validConfigurationSuffix (entries : List Entry) : Bool :=
  (replay n.baseMembership entries u64Max).toBool

/-- Is there a configuration entry above the commit index? -/
def uncommittedConfiguration : Bool :=
  n.log.any fun e => decide (n.commitIndex < e.index) && e.command.isConfiguration

/-- The descriptor's membership extends what this node has committed. -/
def validSnapshotMembership (descriptor : SnapshotDescriptor) : Bool :=
  if n.snapshot = some descriptor then true
  else
    match descriptor.metadata.membership with
    | some incoming => incoming.isConsistentExtensionOf n.committedMembership
    | none =>
        n.committedMembership.state.groupId = legacyGroupId &&
          descriptor.metadata.members = n.members

def compactionMembershipMatches (descriptor : SnapshotDescriptor) : Bool :=
  match n.membershipAt descriptor.metadata.lastIncludedIndex with
  | .error _ => false
  | .ok expected =>
      match descriptor.metadata.membership with
      | some actual => actual = expected
      | none =>
          expected.state.groupId = legacyGroupId &&
            descriptor.metadata.members = expected.state.genesisVoters

def mayReplicateFrom (sender : NodeId) (term : Nat) : Bool :=
  n.isVoter sender ||
    (n.membershipAdvertisements[sender]?).any fun p =>
      p.1 = term && p.2.isConsistentExtensionOf n.committedMembership

/-- The lexicographic comparison `(t₁, i₁) >= (t₂, i₂)`. -/
def atLeast (t₁ : Nat) (i₁ : Nat) (t₂ : Nat) (i₂ : Nat) : Bool :=
  t₂ < t₁ || (t₁ = t₂ && i₂ ≤ i₁)

def mayVoteFor (sender : NodeId) (term : Nat) (prospective : Bool) (lastIndex : Nat)
    (lastTerm : Nat) : Bool :=
  if n.isVoter n.id && n.isVoter sender then true
  else
    (n.membershipAdvertisements[sender]?).any fun p =>
      (if prospective then checkedAdd p.1 1 else some p.1) = some term &&
        p.2.state.voters.contains n.id && p.2.state.voters.contains sender &&
        atLeast lastTerm lastIndex p.2.term p.2.index &&
        p.2.isConsistentExtensionOf n.committedMembership

/-- `retained_suffix`: what survives the publication of an image at its boundary. -/
def retainedSuffix (descriptor : SnapshotDescriptor) : List Entry :=
  let boundary := descriptor.metadata.lastIncludedIndex
  if n.logTerm boundary = some descriptor.metadata.lastIncludedTerm then
    n.log.filter fun e => boundary < e.index
  else []

end RaftNode

end MicroRaft
