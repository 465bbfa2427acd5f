import MicroRaft.Core.Restore

/-!
# The elementary moves of a node

What a handler does, one move at a time.  Each move changes one part of the
node, emits at most one effect, and carries the condition under which the code
makes it.  A move that changes durable state emits the effect that persists the
change, so cutting a batch after any effect cuts a run of moves after a move:
this is what makes a crash inside a batch the same as a crash between moves.

That every step of the node is a run of these moves is shown in the following
modules; everything proved about runs of moves then holds of the code.
-/

namespace MicroRaft

open EffectM

/-! ## What a step reacts to -/

/-- The part of an input that a move's condition may refer to. -/
inductive Cause where
  /-- A protocol message, out of its envelope. -/
  | heard (sender : NodeId) (msg : RaftMessage)
  /-- A read request. -/
  | asked (requestId : Nat)
  | other

/-- The message acknowledges `index` in `term`. -/
def Cause.Acks (c : Cause) (sender : NodeId) (term : Nat) (index : Nat) : Prop :=
  (∃ round hint, c = .heard sender (.appendEntriesReply term true index round hint)) ∨
    (∃ boundaryTerm round, c = .heard sender (.compactedPrefix term index boundaryTerm round)) ∨
    ∃ transfer offset round,
      c = .heard sender (.installSnapshotReply term transfer offset index true true round)

/-- An append request of the leader of `term` that fits the log of `n` at its anchor. -/
structure RaftNode.Anchors (n : RaftNode) (c : Cause) (sender : NodeId) (prev : Nat)
    (entries : List Entry) (leaderCommit payloadLast : Nat) : Prop where
  heard : ∃ prevTerm round,
    c = .heard sender (.appendEntries n.hard.currentTerm sender prev prevTerm entries leaderCommit
      round) ∧
    validateAppendEntries n.hard.currentTerm prev prevTerm entries = some payloadLast ∧
    n.logTerm prev = some prevTerm
  retained : n.snapshotIndex ≤ prev

/-- Effects that report or request something but carry no authority. -/
def Effect.isNote : Effect → Bool
  | .persistHardState _ | .persistLogEntries .. | .send .. | .apply _ | .readReady ..
  | .publishSnapshot .. | .applySnapshot _ => false
  | _ => true

/-- A snapshot publication. -/
def Effect.isPublish : Effect → Bool
  | .publishSnapshot .. => true
  | _ => false

/-! ## Conditions -/

/-- A pre-election is under way. -/
def Role.Probing (r : Role) : Prop :=
  ∃ prospective campaign votes, r = .preCandidate prospective campaign votes

theorem RaftNode.isLeader_iff {n : RaftNode} :
    n.isLeader = true ↔ ∃ next matched, n.role = .leader next matched := by
  unfold isLeader
  cases n.role <;> simp

/-- `n'` claims no more than `n`: bookkeeping may differ, claims may be dropped. -/
structure RaftNode.Weakens (n n' : RaftNode) : Prop where
  id : n'.id = n.id
  hard : n'.hard = n.hard
  log : n'.log = n.log
  commitIndex : n'.commitIndex = n.commitIndex
  lastApplied : n'.lastApplied = n.lastApplied
  snapshot : n'.snapshot = n.snapshot
  publishing : n'.publishingSnapshot = n.publishingSnapshot
  genesis : n'.genesisMembership = n.genesisMembership
  effective : n'.effectiveMembership = n.effectiveMembership
  readContext : n'.readContext = n.readContext
  role : n'.role = n.role ∨ n'.role = .follower ∨
    ((n'.incomingSnapshot = none ∨ n.role.Probing) ∧ n'.role.Probing)
  outgoing : ∀ {p : NodeId} {o' : OutgoingSnapshot}, n'.outgoingSnapshots[p]? = some o' →
    n.snapshot = some o'.descriptor ∨
      ∃ o, n.outgoingSnapshots[p]? = some o ∧ o.descriptor = o'.descriptor
  incoming : ∀ {i' : IncomingSnapshot}, n'.incomingSnapshot = some i' →
    ∃ i, n.incomingSnapshot = some i ∧ i.transfer = i'.transfer ∧ i.descriptor = i'.descriptor
  reads : ∀ {r : Nat} {x : PendingRead}, n'.pendingReads[r]? = some x → n.pendingReads[r]? = some x

/-- A quorum of the leader's effective voters has acknowledged an entry of its term. -/
def RaftNode.QuorumHas (n : RaftNode) (index : Nat) : Prop :=
  n.logTerm index = some n.hard.currentTerm ∧ index ≤ n.lastLogIndex ∧ 0 < index ∧
    ∃ next matched votes, n.role = .leader next matched ∧ n.voterConfig.hasQuorum votes = true ∧
      ∀ v ∈ votes, v = n.id ∨ index ≤ (matched[v]?).getD 0

/-- The leader's append request covers `index`, and the log agrees with all of its payload. -/
def RaftNode.LeaderSays (n : RaftNode) (c : Cause) (index : Nat) : Prop :=
  n.role = .follower ∧ ∃ sender prev entries leaderCommit payloadLast,
    n.Anchors c sender prev entries leaderCommit payloadLast ∧
    (∀ e ∈ entries, n.logTerm e.index = some e.term) ∧ index = min leaderCommit payloadLast

/-- When a message may be sent. -/
def RaftNode.MaySend (n : RaftNode) (c : Cause) (dest : NodeId) : RaftMessage → Prop
  | .groupMessage .. => False
  | .requestVote term candidateId lastIndex lastTerm =>
      term = n.hard.currentTerm ∧ candidateId = n.id ∧ lastIndex = n.lastLogIndex ∧
        lastTerm = n.lastLogTerm ∧ ∃ votes, n.role = .candidate votes
  | .requestVoteReply term granted =>
      term = n.hard.currentTerm ∧ (granted = true → n.hard.votedFor = some dest)
  | .appendEntries term leaderId prev prevTerm entries leaderCommit round =>
      ∃ next nextIndex matched, n.role = .leader nextIndex matched ∧ n.snapshotIndex < next ∧
        (nextIndex[dest]? = some next ∨ next = saturatingAdd n.lastLogIndex 1) ∧
        .appendEntries term leaderId prev prevTerm entries leaderCommit round = n.appendBatch next
  | .appendEntriesReply term success index _ _ =>
      term = n.hard.currentTerm ∧ (success = true → ∃ prev entries leaderCommit,
        n.Anchors c dest prev entries leaderCommit index ∧
        ∀ e ∈ entries, n.logTerm e.index = some e.term)
  | .compactedPrefix term index boundaryTerm _ =>
      term = n.hard.currentTerm ∧ index = n.snapshotIndex ∧ boundaryTerm = n.snapshotTerm ∧
        ∃ prev prevTerm entries leaderCommit round, c = .heard dest
          (.appendEntries n.hard.currentTerm dest prev prevTerm entries leaderCommit round)
  | .installSnapshot transfer descriptor _ _ _ _ =>
      transfer.term = n.hard.currentTerm ∧ n.isLeader = true ∧
        ∃ o, n.outgoingSnapshots[dest]? = some o ∧ o.descriptor = descriptor
  | .installSnapshotReply term _ _ index accepted installed _ =>
      term = n.hard.currentTerm ∧ (accepted = true → installed = true →
        ∃ i, n.incomingSnapshot = some i ∧ i.transfer.term = n.hard.currentTerm ∧
          n.snapshot = some i.descriptor ∧ index = n.snapshotIndex)
  | .readProbe term leaderId context =>
      term = n.hard.currentTerm ∧ leaderId = n.id ∧ n.isLeader = true ∧ context = n.readContext
  | .readProbeReply term context accepted =>
      term = n.hard.currentTerm ∧ (accepted = true → c = .heard dest (.readProbe term dest context))
  | .membershipAdvertisement .. | .preVote .. | .preVoteReply .. => True

/-- The hard state after committing a membership, and the effect that persists it. -/
def RaftNode.hardWith (n : RaftNode) (membership : CommittedMembership) : HardState :=
  if membership = n.committedMembership then n.hard
  else { n.hard with membership := some membership }

/-- When an image may be published: a compaction of the applied prefix, or a transfer that
reaches beyond everything applied and committed. -/
def RaftNode.MayPublish (n : RaftNode) (transfer : Option SnapshotTransferId)
    (descriptor : SnapshotDescriptor) : Prop :=
  let boundary := descriptor.metadata.lastIncludedIndex
  match transfer with
  | none =>
      descriptor.validate = .ok () ∧ n.compactionMembershipMatches descriptor = true ∧
        n.incomingSnapshot = none ∧ n.snapshotIndex < boundary ∧ boundary ≤ n.lastApplied ∧
        boundary ≤ n.commitIndex ∧ n.logTerm boundary = some descriptor.metadata.lastIncludedTerm
  | some transfer =>
      transfer.term = n.hard.currentTerm ∧ n.snapshot ≠ some descriptor ∧
        n.lastApplied < boundary ∧ n.commitIndex ≤ boundary ∧
        ∃ i, n.incomingSnapshot = some i ∧ i.transfer = transfer ∧ i.descriptor = descriptor

/-! ## Moves -/

/-- One elementary move in reaction to `c`. -/
inductive Move (c : Cause) : RaftNode → List Effect → RaftNode → Prop
  | weaken {n n' : RaftNode} (h : n.Weakens n') : Move c n [] n'
  | note {n : RaftNode} {e : Effect} (h : e.isNote = true) : Move c n [e] n
  | send {n : RaftNode} {dest : NodeId} {msg : RaftMessage} (h : n.MaySend c dest msg) :
      Move c n [.send dest msg] n
  /-- Progress is forgotten or set back, never invented. -/
  | progress {n : RaftNode} {next matched next' matched' : BTreeMap NodeId Nat}
      (hrole : n.role = .leader next matched)
      (hnext : ∀ {p : NodeId} {k : Nat}, next'[p]? = some k → k ≤ n.lastLogIndex + 1 ∨
        (∃ k', next[p]? = some k' ∧ k ≤ k') ∨ ∃ m, matched[p]? = some m ∧ k ≤ m + 1)
      (hmatched : ∀ {p : NodeId} {k : Nat}, matched'[p]? = some k → matched[p]? = some k ∨ k = 0) :
      Move c n [] { n with role := .leader next' matched' }
  | peerAck {n : RaftNode} {next matched : BTreeMap NodeId Nat} {sender : NodeId}
      {known index : Nat} (hrole : n.role = .leader next matched)
      (hknown : matched[sender]? = some known)
      (hack : c.Acks sender n.hard.currentTerm index) (hle : index ≤ n.lastLogIndex) :
      Move c n [] { n with
        role := .leader (next.insert sender (saturatingAdd (max known index) 1))
          (matched.insert sender (max known index)) }
  -- terms and votes
  | adopt {n : RaftNode} {term : Nat} (hterm : n.hard.currentTerm < term) :
      Move c n [.persistHardState { n.hard with currentTerm := term, votedFor := none }]
        { n with hard := { n.hard with currentTerm := term, votedFor := none }
                 role := .follower }
  | campaign {n : RaftNode} {term : Nat} (hterm : term = n.hard.currentTerm + 1)
      (hrole : n.role.Probing) :
      Move c n [.persistHardState { n.hard with currentTerm := term, votedFor := some n.id }]
        { n with hard := { n.hard with currentTerm := term, votedFor := some n.id }
                 role := .candidate {n.id} }
  | grant {n : RaftNode} {candidate : NodeId} {lastIndex : Nat} {lastTerm : Nat}
      (hheard : c = .heard candidate
        (.requestVote n.hard.currentTerm candidate lastIndex lastTerm))
      (hdecide : decideVote n.hard (n.lastLogIndex, n.lastLogTerm)
        { term := n.hard.currentTerm, candidateId := candidate, lastLogIndex := lastIndex,
          lastLogTerm := lastTerm } = true) :
      Move c n [.persistHardState { n.hard with votedFor := some candidate }]
        { n with hard := { n.hard with votedFor := some candidate } }
  | countVote {n : RaftNode} {sender : NodeId} {votes : BTreeSet NodeId}
      (hrole : n.role = .candidate votes)
      (hheard : c = .heard sender (.requestVoteReply n.hard.currentTerm true)) :
      Move c n [] { n with role := .candidate (votes.insert sender) }
  | win {n : RaftNode} {votes : BTreeSet NodeId} {index : Nat}
      (hrole : n.role = .candidate votes) (hquorum : n.voterConfig.hasQuorum votes = true)
      (hindex : nextIndex n.lastLogIndex 1 = some index) :
      Move c n
        [.persistLogEntries none [{ index, term := n.hard.currentTerm, command := .noOp }]]
        { n with
          role := .leader (.ofList (n.peers.map fun peer => (peer, index)))
            (.ofList (n.peers.map fun peer => (peer, 0)))
          readContext := 0
          log := n.log ++ [{ index, term := n.hard.currentTerm, command := .noOp }] }
  -- the log
  | extend {n : RaftNode} {commands : List Command} (hlead : n.isLeader = true)
      (hconf : ∀ command ∈ commands, command.isConfiguration = false)
      (hlast : n.lastLogIndex + commands.length < u64Max) :
      Move c n
        [.persistLogEntries none (proposedEntries n.lastLogIndex n.hard.currentTerm commands)]
        { n with log := n.log ++ proposedEntries n.lastLogIndex n.hard.currentTerm commands }
  | extendConf {n : RaftNode} {index : Nat} {change : ConfigurationEntry}
      {next : MembershipState} (hlead : n.isLeader = true)
      (hclear : n.uncommittedConfiguration = false)
      (hindex : nextIndex n.lastLogIndex 1 = some index)
      (hnext : effectiveAfter n.committedMembership
        (n.log ++ [{ index, term := n.hard.currentTerm, command := .configuration change }])
        n.commitIndex = .ok next) :
      Move c n
        [.persistLogEntries none
          [{ index, term := n.hard.currentTerm, command := .configuration change }]]
        { n with
          log := n.log ++ [{ index, term := n.hard.currentTerm, command := .configuration change }]
          effectiveMembership := next }
  /-- The payload is taken over from its first entry the log does not have; `kept` entries of
  it are already there. -/
  | merge {n : RaftNode} {sender : NodeId} {prev leaderCommit payloadLast : Nat}
      {entries : List Entry} {kept : Nat} {membership : CommittedMembership}
      (hrole : n.role = .follower)
      (hanchor : n.Anchors c sender prev entries leaderCommit payloadLast)
      (hcommitted : n.conflictsCommitted entries = false)
      (hkept : ∀ i < kept, ∀ e, entries[i]? = some e → n.logTerm e.index = some e.term)
      (hlt : kept < entries.length)
      (hstop : ∀ e, entries[kept]? = some e → n.logTerm e.index ≠ some e.term)
      (hmembership : replay n.baseMembership
        (n.log.take (prev - n.snapshotIndex + kept) ++ entries.drop kept) u64Max = .ok membership) :
      Move c n
        [.persistLogEntries
          (if prev - n.snapshotIndex + kept < n.log.length then some (prev + kept + 1) else none)
          (entries.drop kept)]
        { n with
          log := n.log.take (prev - n.snapshotIndex + kept) ++ entries.drop kept
          effectiveMembership := membership.state }
  -- commitment
  | commit {n : RaftNode} {index : Nat} {membership : CommittedMembership}
      (hgt : n.commitIndex < index) (hsafe : n.QuorumHas index ∨ n.LeaderSays c index)
      (hmembership : n.membershipAt index = .ok membership) :
      Move c n
        (if membership = n.committedMembership then []
          else [.persistHardState (n.hardWith membership)])
        { n with hard := n.hardWith membership, commitIndex := index }
  | refresh {n : RaftNode} {next : MembershipState}
      (hnext : effectiveAfter n.committedMembership n.log n.commitIndex = .ok next) :
      Move c n [] { n with effectiveMembership := next }
  | applied {n : RaftNode} {index : Nat} (hge : n.lastApplied ≤ index)
      (hle : index ≤ n.commitIndex) : Move c n [] { n with lastApplied := index }
  | apply {n : RaftNode} {index : Nat} {entry : Entry} (hle : index ≤ n.commitIndex)
      (hentry : n.entryAt index = some entry) : Move c n [.apply entry] n
  | rewriteHard {n : RaftNode} : Move c n [.persistHardState n.hard] n
  -- snapshots
  | receive {n : RaftNode} {sender : NodeId} {transfer : SnapshotTransferId}
      {descriptor : SnapshotDescriptor} {offset : Nat} {data : List UInt8} {done : Bool}
      {round : Nat} {active : IncomingSnapshot} (hrole : n.role = .follower)
      (hheard : c = .heard sender (.installSnapshot transfer descriptor offset data done round))
      (hterm : transfer.term = n.hard.currentTerm) (htransfer : active.transfer = transfer)
      (hdescriptor : active.descriptor = descriptor) :
      Move c n [] { n with incomingSnapshot := some active }
  | publish {n : RaftNode} {transfer : Option SnapshotTransferId}
      {descriptor : SnapshotDescriptor} {round : Nat} (h : n.MayPublish transfer descriptor) :
      Move c n [.publishSnapshot transfer descriptor (n.retainedSuffix descriptor)]
        { n with
          publishingSnapshot := some ⟨transfer, descriptor, n.retainedSuffix descriptor, round⟩ }
  | applySnapshot {n : RaftNode} {descriptor : SnapshotDescriptor}
      (hsnapshot : n.snapshot = some descriptor)
      (hcommit : n.commitIndex = descriptor.metadata.lastIncludedIndex) :
      Move c n [.applySnapshot descriptor] n
  | syncApplied {n : RaftNode} (hcommit : n.commitIndex = n.snapshotIndex) :
      Move c n [] { n with lastApplied := n.commitIndex, incomingSnapshot := none }
  -- reads
  | readStart {n : RaftNode} {requestId : Nat} (hasked : c = .asked requestId)
      (hfresh : requestId ∉ n.pendingReads) (hready : n.readRejection = none) :
      Move c n [] { n with
        readContext := n.readContext + 1
        pendingReads := n.pendingReads.insert requestId
          ⟨n.readContext + 1, n.hard.currentTerm, n.commitIndex, {n.id}⟩ }
  | readSelf {n : RaftNode} {requestId : Nat} (hasked : c = .asked requestId)
      (hready : n.readRejection = none) (hquorum : n.selfQuorum = true) :
      Move c n [.readReady requestId (n.readContext + 1) n.commitIndex n.hard.currentTerm]
        { n with readContext := n.readContext + 1 }
  | readCount {n : RaftNode} {sender : NodeId} {requestId : Nat} {read : PendingRead}
      (hlead : n.isLeader = true) (hread : n.pendingReads[requestId]? = some read)
      (hheard : c = .heard sender (.readProbeReply n.hard.currentTerm read.context true))
      (hterm : read.term = n.hard.currentTerm) :
      Move c n [] { n with
        pendingReads := n.pendingReads.insert requestId
          ⟨read.context, read.term, read.index, read.voters.insert sender⟩ }
  | readReady {n : RaftNode} {sender : NodeId} {requestId : Nat} {read : PendingRead}
      (hlead : n.isLeader = true) (hread : n.pendingReads[requestId]? = some read)
      (hheard : c = .heard sender (.readProbeReply n.hard.currentTerm read.context true))
      (hterm : read.term = n.hard.currentTerm)
      (hquorum : n.voterConfig.hasQuorum (read.voters.insert sender) = true) :
      Move c n [.readReady requestId read.context read.index read.term]
        { n with pendingReads := n.pendingReads.erase requestId }

/-- What memory does once an image is durably published. -/
inductive Land : RaftNode → List Effect → RaftNode → Prop
  | compacted {n : RaftNode} {p : PublishingSnapshot} (hp : n.publishingSnapshot = some p)
      (htransfer : p.transfer = none) :
      Land n [] { n with
        publishingSnapshot := none, log := p.retained, snapshot := some p.descriptor
        outgoingSnapshots := ∅ }
  | installed {n : RaftNode} {p : PublishingSnapshot} {transfer : SnapshotTransferId}
      {hard : HardState} {next : MembershipState} (hp : n.publishingSnapshot = some p)
      (htransfer : p.transfer = some transfer)
      (hhard : hard = { n.hard with
        membership := (p.descriptor.metadata.membership).or n.hard.membership })
      (hnext : effectiveAfter (hard.membership.getD n.genesisMembership) p.retained
        p.descriptor.metadata.lastIncludedIndex = .ok next) :
      Land n (if hard = n.hard then [] else [.persistHardState hard])
        { n with
          publishingSnapshot := none, log := p.retained, snapshot := some p.descriptor
          outgoingSnapshots := ∅, hard
          commitIndex := p.descriptor.metadata.lastIncludedIndex, effectiveMembership := next }

/-- A move of a node that is not waiting for a publication, or the end of that wait. -/
inductive Step (c : Cause) (n : RaftNode) (es : List Effect) (n' : RaftNode) : Prop
  | move (hidle : n.publishingSnapshot = none) (h : Move c n es n')
  | land (h : Land n es n')

theorem Step.length_le_one {c : Cause} {n n' : RaftNode} {es : List Effect}
    (h : Step c n es n') : es.length ≤ 1 := by
  cases h with
  | move _ h =>
    cases h with
    | commit => split <;> simp
    | _ => simp
  | land h =>
    cases h with
    | compacted => simp
    | installed => split <;> simp

/-! ## What an effect tells -/

/-- A leader answers a read: alone, or with the confirmation that completes a quorum. -/
def RaftNode.MayAnswer (n : RaftNode) (c : Cause) (requestId index term : Nat) : Prop :=
  (n.readRejection = none ∧ n.selfQuorum = true ∧ index = n.commitIndex ∧
      term = n.hard.currentTerm) ∨
    ∃ sender read, n.isLeader = true ∧ n.pendingReads[requestId]? = some read ∧
      c = .heard sender (.readProbeReply read.term read.context true) ∧
      read.term = n.hard.currentTerm ∧
      n.voterConfig.hasQuorum (read.voters.insert sender) = true ∧
      index = read.index ∧ term = read.term

/-- What a message or an answer tells about the node that emits it. -/
def RaftNode.MayEmit (n : RaftNode) (c : Cause) (n' : RaftNode) : Effect → Prop
  | .send dest msg => n.MaySend c dest msg ∧ n' = n
  | .readReady requestId _ index term =>
      n.publishingSnapshot = none ∧ n.MayAnswer c requestId index term
  | _ => True

theorem RaftNode.mayEmit_persistHardState {c : Cause} {n n' : RaftNode} {p : Prop} [Decidable p]
    {hard : HardState} : ∀ e ∈ (if p then [] else [Effect.persistHardState hard]),
      n.MayEmit c n' e := by
  intro e he
  split at he
  · cases he
  · cases List.mem_singleton.1 he
    trivial

theorem Step.mayEmit {c : Cause} {n n' : RaftNode} {es : List Effect} (hs : Step c n es n') :
    ∀ e ∈ es, n.MayEmit c n' e := by
  cases hs with
  | land hl =>
    cases hl with
    | compacted => simp
    | installed => exact RaftNode.mayEmit_persistHardState
  | move hidle hm =>
    cases hm with
    | send hsend => simp [RaftNode.MayEmit, hsend]
    | readSelf hasked hready hquorum =>
      simp only [List.mem_singleton, forall_eq]
      exact ⟨hidle, Or.inl ⟨hready, hquorum, rfl, rfl⟩⟩
    | readReady hlead hread hheard hterm hquorum =>
      simp only [List.mem_singleton, forall_eq]
      rw [← hterm] at hheard
      exact ⟨hidle, Or.inr ⟨_, _, hlead, hread, hheard, hterm, hquorum, rfl, rfl⟩⟩
    | note hnote =>
      simp only [List.mem_singleton, forall_eq]
      unfold RaftNode.MayEmit
      split
      · cases hnote
      · cases hnote
      · trivial
    | commit => exact RaftNode.mayEmit_persistHardState
    | _ => simp [RaftNode.MayEmit]

end MicroRaft
