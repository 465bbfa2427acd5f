import MicroRaft.Core.Step

/-!
# Construction and recovery

How a node comes to be: a fresh node, a node of an explicit group, and a node
rebuilt from exactly the state that survives a crash.
-/

namespace MicroRaft

open EffectM

/-! ## Fresh nodes -/

/-- The fields a fresh node starts with, over a given genesis. -/
def freshNode (id : NodeId) (peers : List NodeId) (seed : Nat) (genesis : CommittedMembership) :
    RaftNode where
  id := id
  peers := peers
  hard := {}
  log := []
  commitIndex := 0
  lastApplied := 0
  role := .follower
  leaderHint := none
  nowMs := 0
  electionDeadlineMs := 0
  heartbeatDueMs := 0
  rng := Pcg32.new (UInt64.ofNat seed)
  campaignIncarnation := seed
  campaignSequence := 0
  campaignExhausted := false
  lastLeaderContactMs := none
  contactRound := 0
  quorumDeadlineMs := 0
  quorumContacts := ∅
  readContext := 0
  snapshot := none
  snapshotSequence := 0
  outgoingSnapshots := ∅
  incomingSnapshot := none
  lastSnapshotTransfer := none
  publishingSnapshot := none
  pendingReads := ∅
  genesisMembership := genesis
  effectiveMembership := genesis.state
  recoveryPending := false
  advertisementLast := ∅
  promotionFence := none
  recoveryRefreshHard := false
  membershipAdvertisements := ∅

/-- `RaftNode::new`: `none` when one of its assertions fails. -/
def RaftNode.new (id : NodeId) (peers : List NodeId) (seed : Nat) : Option RaftNode :=
  if peers.contains id = true ∨ ¬ peers.Nodup then none
  else
    (CommittedMembership.bootstrap ((peers ++ [id]).insertionSort (· ≤ ·))).toOption.map
      (freshNode id peers seed)

/-- `initialize_group`: the bootstrap and migration barrier. -/
def RaftNode.initializeGroup (n : RaftNode) (groupId : String) (genesisVoters : List NodeId) :
    Except String (RaftNode × List Effect) := do
  let genesis ← CommittedMembership.bootstrapWithGroup groupId genesisVoters
  if genesis.state.groupId = legacyGroupId then .error "explicit group required"
  else
    match n.hard.membership with
    | some existing =>
        if existing.state.groupId = genesis.state.groupId ∧
            existing.state.genesisVoters = genesis.state.genesisVoters then .ok (n, [])
        else .error "persisted group identity cannot be changed"
    | none =>
        if n.nowMs ≠ 0 ∨ n.electionDeadlineMs ≠ 0 ∨ n.role ≠ .follower ∨
            n.log.any (fun e => e.command.isConfiguration) = true ∨
            ((n.log ≠ [] ∨ n.snapshot ≠ none) ∧
              n.genesisMembership.state.genesisVoters ≠ genesis.state.genesisVoters) then
          .error "group migration requires a pre-service legacy configuration boundary"
        else
          let hard := { n.hard with membership := some genesis }
          let n' := { n with genesisMembership := genesis, hard,
                             effectiveMembership := genesis.state }.updateReplicationPeers
          .ok (n', [.persistHardState hard])

/-- `new_for_group`: an explicit group's node, independent of the address book. -/
def RaftNode.newForGroup (id : NodeId) (genesisVoters : List NodeId) (seed : Nat)
    (groupId : String) : Option (Except String (RaftNode × List Effect)) :=
  match CommittedMembership.bootstrapWithGroup groupId genesisVoters with
  | .error e => some (.error e)
  | .ok _ =>
      (RaftNode.new id (genesisVoters.filter (· ≠ id)) seed).map fun n =>
        n.initializeGroup groupId genesisVoters

/-! ## Recovery -/

/-- Durable state that no correct node can have written. -/
inductive RestoreError where
  | invalidSnapshot (reason : String)
  | nonContiguousIndex (expected found : Nat)
  | termRegression (index : Nat) (previous found : Nat)
  | entryTermExceedsCurrent (index : Nat) (entryTerm currentTerm : Nat)
  deriving DecidableEq, Repr

structure MembershipRecovery where
  committed : CommittedMembership
  effective : MembershipState
  commitIndex : Nat
  refreshHard : Bool
  deriving DecidableEq

/-- An authority has to be internally sound and not newer than the durable term. -/
def checkAuthority (currentTerm : Nat) (authority : CommittedMembership) : Except String Unit := do
  authority.validate
  if authority.term > currentTerm then .error "membership term exceeds durable term" else .ok ()

/-- Which of the two durable authorities is ahead, and is it borne out by the log? -/
def selectMembership (base : CommittedMembership) (hard : Option CommittedMembership)
    (snapshotIndex : Nat) (log : List Entry) : Except String CommittedMembership :=
  match hard with
  | none => .ok base
  | some hardMembership =>
      if base.isConsistentExtensionOf hardMembership then .ok base
      else if hardMembership.isConsistentExtensionOf base then
        if hardMembership.index > log.getLast?.elim snapshotIndex Entry.index then
          .error "membership watermark lacks selected log suffix"
        else do
          let reconstructed ← replay base log hardMembership.index
          if reconstructed ≠ hardMembership then
            .error "membership watermark contradicts selected snapshot or WAL"
          else .ok hardMembership
      else .error "durable membership histories contradict"

/-- The membership of the selected snapshot image, if it records one. -/
def imageMembership (image : Option SnapshotDescriptor) : Option CommittedMembership :=
  image.bind fun d => d.metadata.membership

/-- The genesis the durable authorities name, or the legacy one. -/
def recoveredGenesis (hard : HardState) (image : Option SnapshotDescriptor)
    (legacyGenesis : List NodeId) : Except String CommittedMembership :=
  match (imageMembership image).or hard.membership with
  | some m => CommittedMembership.bootstrapWithGroup m.state.groupId m.state.genesisVoters
  | none => CommittedMembership.bootstrap legacyGenesis

/-- A snapshot without a recorded membership was taken over the genesis voters. -/
def checkLegacyImage (image : Option SnapshotDescriptor) (genesis : CommittedMembership) :
    Except String Unit :=
  match image with
  | some d =>
      if d.metadata.membership = none ∧ d.metadata.members ≠ genesis.state.genesisVoters then
        .error "legacy snapshot differs from durable genesis"
      else .ok ()
  | none => .ok ()

/-- Reconcile the snapshot's membership, the durable watermark and the log. -/
def recoverMembership (hard : HardState) (image : Option SnapshotDescriptor) (log : List Entry)
    (legacyGenesis : List NodeId) : Except String MembershipRecovery := do
  let snapshotIndex := image.elim 0 fun d => d.metadata.lastIncludedIndex
  (hard.membership.toList ++ (imageMembership image).toList).forM
    (checkAuthority hard.currentTerm)
  let genesis ← recoveredGenesis hard image legacyGenesis
  checkLegacyImage image genesis
  let base := (imageMembership image).getD genesis
  let selected ← selectMembership base hard.membership snapshotIndex log
  let commitIndex := max snapshotIndex selected.index
  let verified ← replay base log commitIndex
  if verified ≠ selected then .error "selected log has unrecorded committed configuration"
  else do
    let effective ← effectiveAfter selected log commitIndex
    let refreshHard := hard.membership ≠ some selected ∧
      (selected.state.groupId ≠ legacyGroupId ∨ selected.index ≠ 0)
    .ok { committed := selected, effective, commitIndex, refreshHard }

/-- The structural checks on a recovered log suffix. -/
def checkRestoredLog (currentTerm : Nat) : Nat → Nat → List Entry →
    Except RestoreError Unit
  | _, _, [] => .ok ()
  | prevIndex, prevTerm, e :: es =>
      match checkedAdd prevIndex 1 with
      | none => .error (.invalidSnapshot "log index overflow")
      | some expected =>
          if e.index ≠ expected then .error (.nonContiguousIndex expected e.index)
          else if e.term < prevTerm then .error (.termRegression e.index prevTerm e.term)
          else if e.term > currentTerm then
            .error (.entryTermExceedsCurrent e.index e.term currentTerm)
          else checkRestoredLog currentTerm e.index e.term es

/-- The checks on a recovered snapshot descriptor. -/
def checkRestoredSnapshot (currentTerm : Nat) (snapshot : Option SnapshotDescriptor) :
    Except RestoreError Unit :=
  match snapshot with
  | none => .ok ()
  | some image =>
      match image.validate with
      | .error reason => .error (.invalidSnapshot reason)
      | .ok _ =>
          if image.metadata.lastIncludedTerm > currentTerm then
            .error (.invalidSnapshot "membership or hard term mismatch")
          else .ok ()

/-- The node that recovered state describes. -/
def restoredNode (node : RaftNode) (hard : HardState) (snapshot : Option SnapshotDescriptor)
    (log : List Entry) (genesis : CommittedMembership) (r : MembershipRecovery) : RaftNode :=
  let base := snapshot.elim 0 fun s => s.metadata.lastIncludedIndex
  { node with
    snapshot, log, genesisMembership := genesis,
    hard := if r.refreshHard then { hard with membership := some r.committed } else hard,
    effectiveMembership := r.effective, commitIndex := r.commitIndex, lastApplied := base,
    recoveryRefreshHard := r.refreshHard,
    recoveryPending := r.refreshHard || decide (base < r.commitIndex) }.updateReplicationPeers

/-- `restore_with_snapshot`: the outer `none` is a failed assertion of the constructor. -/
def restoreWithSnapshot (id : NodeId) (peers : List NodeId) (seed : Nat) (hard : HardState)
    (snapshot : Option SnapshotDescriptor) (log : List Entry) :
    Option (Except RestoreError RaftNode) :=
  (RaftNode.new id peers seed).map fun node => do
    checkRestoredSnapshot hard.currentTerm snapshot
    checkRestoredLog hard.currentTerm
      (snapshot.elim 0 fun s => s.metadata.lastIncludedIndex)
      (snapshot.elim 0 fun s => s.metadata.lastIncludedTerm) log
    let recovery ← (recoverMembership hard snapshot log
      node.genesisMembership.state.genesisVoters).mapError .invalidSnapshot
    let genesis ← (CommittedMembership.bootstrapWithGroup recovery.committed.state.groupId
      recovery.committed.state.genesisVoters).mapError .invalidSnapshot
    .ok (restoredNode node hard snapshot log genesis recovery)

/-- `restore_applied_watermark`: a durable application watermark found before service. -/
def RaftNode.restoreAppliedWatermark (n : RaftNode) (index : Nat) (term : Nat) :
    Except RestoreError RaftNode :=
  if n.nowMs ≠ 0 ∨ n.electionDeadlineMs ≠ 0 ∨ n.role ≠ .follower ∨ index < n.snapshotIndex ∨
      index < n.lastApplied ∨ index > n.lastLogIndex ∨ n.logTerm index ≠ some term ∨
      (index > n.commitIndex ∧ (n.membershipAt index).toOption ≠ some n.committedMembership) then
    .error (.invalidSnapshot "invalid durable application watermark or initialization phase")
  else
    let commitIndex := max n.commitIndex index
    .ok { n with commitIndex, lastApplied := index,
                 recoveryPending := n.recoveryRefreshHard || decide (index < commitIndex) }

end MicroRaft
