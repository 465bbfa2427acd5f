import MicroRaft.Node.Step

/-!
# The order of a batch

What a handler persists comes before what it lets out.  Every handler is shown to
work in two phases, whatever the state it runs in: first effects that stay inside
(`Effect.Inner`), among them everything durable, then effects that persist nothing
(`Effect.Calm`).  Two places stand out: an election, whose vote requests follow the
vote it makes durable, and an accepted proposal of a node that is a quorum of its own,
which may commit a membership after it has been acknowledged.
-/

namespace MicroRaft

open EffectM

variable {es first second : List Effect} {n n' : RaftNode} {input : Input}
  {descriptor : SnapshotDescriptor} {e : Effect} {transfer : SnapshotTransferId} {u : Unit}
  {p : Effect → Prop}

namespace Effect

/-- A hard-state or log write. -/
def isPersist : Effect → Bool
  | .persistHardState _ | .persistLogEntries .. => true
  | _ => false

/-- A message, an acknowledged proposal or an applied entry. -/
def isOutward : Effect → Bool
  | .send .. | .proposeAccepted _ | .apply _ => true
  | _ => false

/-- A message. -/
def isSend : Effect → Bool
  | .send .. => true
  | _ => false

/-- A request for a vote, in or out of its envelope. -/
def solicits : Effect → Bool
  | .send _ (.requestVote ..) | .send _ (.groupMessage _ _ (.requestVote ..)) => true
  | _ => false

/-- Nothing leaves the node. -/
abbrev Inner (e : Effect) : Prop := (e.isOutward || e.isPublish) = false

/-- Nothing is written. -/
abbrev Light (e : Effect) : Prop := (e.isPersist || e.isPublish) = false

/-- Nothing is written, and no vote is asked for. -/
abbrev Calm (e : Effect) : Prop := e.Light ∧ e.solicits = false

theorem Inner.isOutward (h : e.Inner) : e.isOutward = false :=
  (Bool.or_eq_false_iff.1 h).1

theorem Light.isPersist (h : e.Light) : e.isPersist = false :=
  (Bool.or_eq_false_iff.1 h).1

end Effect

open Effect

/-! ## Handlers that neither persist nor let anything out -/

/-- Reports only. -/
abbrev Effect.Still (e : Effect) : Prop := e.Light ∧ e.Inner

theorem Only.inner (h : Only Still es) : Only Inner es := fun e he => (h e he).2

theorem Only.calm (h : Only Still es) : Only Calm es := by
  intro e he
  obtain ⟨hp, ho⟩ := h e he
  refine ⟨hp, ?_⟩
  cases e <;> simp_all [isOutward, solicits]

theorem Emits.inner {α : Type} {m : Handler α} (h : Emits (Only Still) m) : Emits (Only Inner) m :=
  h.mono fun _ => Only.inner

theorem Emits.calm {α : Type} {m : Handler α} (h : Emits (Only Still) m) : Emits (Only Calm) m :=
  h.mono fun _ => Only.calm

/-- `p` holds of what a node reports when it gives up a role or a read. -/
structure Effect.Reports (p : Effect → Prop) : Prop where
  role : ∀ {name : String} {term : Nat}, p (.roleChanged name term)
  read : ∀ {requestId : Nat} {hint : Option NodeId} {reason : ReadRejectReason},
    p (.readRejected requestId hint reason)

section Reports

variable {p : Effect → Prop} (hp : Effect.Reports p)
include hp

theorem rejectPendingReads_reports (reason : ReadRejectReason) :
    Emits (Only p) (rejectPendingReads reason) :=
  Emits.peek fun _ => Emits.update (Emits.emits (Only.map fun _ _ => hp.read))

theorem becomeFollower_reports : Emits (Only p) becomeFollower :=
  Emits.update <| Emits.peek fun _ => Emits.seq
    (Emits.when (Emits.update (Emits.emit (Only.single hp.role))) Only.nil)
    fun _ => rejectPendingReads_reports hp _

theorem restartWindow_reports : Emits (Only p) restartWindow := by
  refine Emits.peek fun n => Emits.ite (becomeFollower_reports hp) ?_
  cases checkedAdd n.contactRound 1 with
  | none => exact becomeFollower_reports hp
  | some round => exact Emits.update_only Only.nil

theorem refreshEffectiveMembership_reports : Emits (Only p) refreshEffectiveMembership := by
  refine Emits.peek fun n => Emits.expect fun next => Emits.seq
    (Emits.when (becomeFollower_reports hp) Only.nil) fun _ => Emits.when ?_ Only.nil
  refine Emits.update (Emits.when ?_ Only.nil)
  exact Emits.seq (rejectPendingReads_reports hp _) fun _ => Emits.seq (restartWindow_reports hp)
    fun _ => Emits.update_only Only.nil

end Reports

theorem Effect.Reports.still : Effect.Reports Still := ⟨⟨rfl, rfl⟩, ⟨rfl, rfl⟩⟩

theorem becomeFollower_still : Emits (Only Still) becomeFollower :=
  becomeFollower_reports Reports.still

theorem resetElectionDeadline_still : Emits (Only Still) resetElectionDeadline :=
  Emits.update_only Only.nil

theorem cancelIncomingSnapshot_still : Emits (Only Still) cancelIncomingSnapshot := by
  refine Emits.peek fun n => ?_
  cases n.incomingSnapshot with
  | none => exact Emits.pure Only.nil
  | some active => exact Emits.update (Emits.emit (Only.single ⟨rfl, rfl⟩))

theorem refreshEffectiveMembership_still : Emits (Only Still) refreshEffectiveMembership :=
  refreshEffectiveMembership_reports Reports.still

/-! ## What replication lets out -/

/-- `p` holds of the messages and requests of replication. -/
structure Effect.Mails (p : Effect → Prop) : Prop where
  send : ∀ {dest : NodeId} {msg : RaftMessage}, (Effect.send dest msg).solicits = false →
    p (.send dest msg)
  read : ∀ {dest : NodeId} {transfer : SnapshotTransferId} {descriptor : SnapshotDescriptor}
    {offset maxLen : Nat}, p (.readSnapshotChunk dest transfer descriptor offset maxLen)
  reject : ∀ {reason : String}, p (.snapshotRejected reason)

section Mails

variable {p : Effect → Prop} (hp : Effect.Mails p)
include hp

theorem readChunk_mails (dest : NodeId) (active : OutgoingSnapshot) :
    Emits (Only p) (readChunk dest active) :=
  Emits.ite (Emits.pure Only.nil) (Emits.update (Emits.emit (Only.single hp.read)))

theorem sendSnapshotChunk_mails (dest : NodeId) : Emits (Only p) (sendSnapshotChunk dest) := by
  refine Emits.peek fun n => Emits.ite (Emits.pure Only.nil) ?_
  split
  · exact Emits.pure Only.nil
  · split
    · exact readChunk_mails hp ..
    · split
      · exact Emits.emit (Only.single hp.reject)
      · exact Emits.update (readChunk_mails hp ..)

theorem advertiseMembership_mails (dest : NodeId) : Emits (Only p) (advertiseMembership dest) :=
  Emits.peek fun _ => Emits.expect fun _ => Emits.ite (Emits.emit (Only.single (hp.send rfl)))
    (Emits.pure Only.nil)

theorem advertiseReplicationMembership_mails (dest : NodeId) :
    Emits (Only p) (advertiseReplicationMembership dest) := by
  refine Emits.peek fun n => Emits.ite (Emits.pure Only.nil) (Emits.expect fun configuration => ?_)
  split
  · exact Emits.ite (Emits.pure Only.nil) (Emits.ite (Emits.pure Only.nil)
      (Emits.update (advertiseMembership_mails hp dest)))
  · exact Emits.pure Only.nil

theorem sendAppendTo_mails (progress : BTreeMap NodeId Nat) (peer : NodeId) :
    Emits (Only p) (sendAppendTo progress peer) :=
  Emits.seq (advertiseReplicationMembership_mails hp peer) fun _ => Emits.peek fun _ => Emits.ite
    (sendSnapshotChunk_mails hp peer) (Emits.update (Emits.emit (Only.single (hp.send rfl))))

theorem sendAppendEntries_mails : Emits (Only p) sendAppendEntries := by
  refine Emits.peek fun n => ?_
  split
  · exact Emits.forM fun peer => sendAppendTo_mails hp _ peer
  · exact Emits.pure Only.nil

end Mails

theorem Effect.Mails.calm : Effect.Mails Calm :=
  ⟨fun h => ⟨rfl, h⟩, ⟨rfl, rfl⟩, ⟨rfl, rfl⟩⟩

/-! ## Handlers that persist nothing -/

theorem applyLoop_only (hp : ∀ entry, p (.apply entry)) :
    ∀ rounds, Emits (Only p) (applyLoop rounds)
  | 0 => Emits.pure Only.nil
  | rounds + 1 => Emits.peek fun _ => Emits.ite
      (Emits.update <| Emits.expect fun _ => Emits.seq (Emits.emit (Only.single (hp _)))
        fun _ => applyLoop_only hp rounds)
      (Emits.pure Only.nil)

theorem applyCommitted_only (hp : ∀ entry, p (.apply entry)) : Emits (Only p) applyCommitted :=
  Emits.peek fun _ => applyLoop_only hp _

theorem applyCommitted_calm : Emits (Only Calm) applyCommitted :=
  applyCommitted_only fun _ => ⟨rfl, rfl⟩

theorem snapshotReply_calm (transfer : SnapshotTransferId) (nextOffset : Nat)
    (accepted installed : Bool) (matchIndex contactRound : Nat) :
    Emits (Only Calm) (snapshotReply transfer nextOffset accepted installed matchIndex
      contactRound) :=
  Emits.peek fun _ => Emits.emit (Only.single ⟨rfl, rfl⟩)

theorem snapshotRefuse_calm (transfer : SnapshotTransferId) (nextOffset : Nat) :
    Emits (Only Calm) (snapshotRefuse transfer nextOffset) :=
  Emits.peek fun _ => snapshotReply_calm ..

theorem onSnapshotChunkRead_calm (dest : NodeId) (transfer : SnapshotTransferId)
    (descriptor : SnapshotDescriptor) (offset : Nat) (data : List UInt8) :
    Emits (Only Calm) (onSnapshotChunkRead dest transfer descriptor offset data) := by
  refine Emits.peek fun n => Emits.ite (Emits.pure Only.nil) ?_
  split
  · exact Emits.pure Only.nil
  · exact Emits.ite (Emits.pure Only.nil) (Emits.ite
      (Emits.update (Emits.emit (Only.single ⟨rfl, rfl⟩)))
      (Emits.require (Emits.update (Emits.emit (Only.single ⟨rfl, rfl⟩)))))

theorem stageChunk_calm (transfer : SnapshotTransferId) (descriptor : SnapshotDescriptor)
    (offset : Nat) (data : List UInt8) (done : Bool) (contactRound : Nat) (sameImage : Bool) :
    Emits (Only Calm) (stageChunk transfer descriptor offset data done contactRound sameImage) :=
  Emits.peek fun _ => Emits.expect fun _ => Emits.ite (snapshotRefuse_calm ..) <|
    Emits.require <| Emits.update <|
    Emits.seq (Emits.calm becomeFollower_still) fun _ =>
      Emits.seq (Emits.calm resetElectionDeadline_still)
      fun _ => Emits.update (Emits.emit (Only.single ⟨rfl, rfl⟩))

theorem onInstallSnapshot_calm (transfer : SnapshotTransferId) (descriptor : SnapshotDescriptor)
    (offset : Nat) (data : List UInt8) (done : Bool) (contactRound : Nat) :
    Emits (Only Calm) (onInstallSnapshot transfer descriptor offset data done contactRound) := by
  refine Emits.peek fun n => Emits.ite (snapshotRefuse_calm ..) (Emits.ite (snapshotRefuse_calm ..)
    (Emits.ite (snapshotRefuse_calm ..) (Emits.ite (snapshotRefuse_calm ..) ?_)))
  exact Emits.seq (Emits.when (Emits.seq (Emits.calm cancelIncomingSnapshot_still)
    fun _ => Emits.update_only Only.nil) Only.nil) fun _ => stageChunk_calm ..

theorem appendReject_calm (leaderId : NodeId) (contactRound : Nat)
    (conflict : Option AppendConflictHint) :
    Emits (Only Calm) (appendReject leaderId contactRound conflict) :=
  Emits.peek fun _ => Emits.emit (Only.single ⟨rfl, rfl⟩)

theorem onPreVote_calm (prospectiveTerm : Nat) (campaignId : CampaignId) (candidateId : NodeId)
    (lastLogIndex lastLogTerm : Nat) :
    Emits (Only Calm) (onPreVote prospectiveTerm campaignId candidateId lastLogIndex lastLogTerm) :=
  Emits.peek fun _ => Emits.emit (Only.single ⟨rfl, rfl⟩)

theorem onReadIndex_calm (requestId : Nat) : Emits (Only Calm) (onReadIndex requestId) := by
  refine Emits.peek fun n => Emits.ite (Emits.pure Only.nil) ?_
  split
  · exact Emits.emit (Only.single ⟨rfl, rfl⟩)
  · exact Emits.expect fun _ => Emits.update (Emits.ite (Emits.emit (Only.single ⟨rfl, rfl⟩))
      (Emits.update (Emits.emits (Only.map fun _ _ => ⟨rfl, rfl⟩))))

theorem onReadProbe_calm (term : Nat) (leaderId : NodeId) (context : Nat) :
    Emits (Only Calm) (onReadProbe term leaderId context) := by
  refine Emits.peek fun n => Emits.seq (Emits.when ?_ Only.nil)
    fun _ => Emits.emit (Only.single ⟨rfl, rfl⟩)
  exact Emits.seq (Emits.calm becomeFollower_still) fun _ => Emits.seq
    (Emits.calm resetElectionDeadline_still) fun _ => Emits.update_only Only.nil

theorem onReadProbeReply_calm (sender : NodeId) (term context : Nat) (accepted : Bool) :
    Emits (Only Calm) (onReadProbeReply sender term context accepted) := by
  refine Emits.peek fun n => Emits.ite (Emits.pure Only.nil) ?_
  split
  · exact Emits.pure Only.nil
  · exact Emits.ite (Emits.update (Emits.emit (Only.single ⟨rfl, rfl⟩)))
      (Emits.update_only Only.nil)

theorem cancelRead_calm (requestId : Nat) : Emits (Only Calm) (cancelRead requestId) :=
  Emits.peek fun _ => Emits.ite (Emits.update (Emits.emit (Only.single ⟨rfl, rfl⟩)))
    (Emits.pure Only.nil)

theorem onMembershipAdvertisement_calm (sender : NodeId) (term : Nat)
    (configuration : CommittedMembership) :
    Emits (Only Calm) (onMembershipAdvertisement sender term configuration) :=
  Emits.peek fun _ => Emits.ite (Emits.pure Only.nil) (Emits.seq
    (Emits.emits (Only.map fun _ _ => ⟨rfl, rfl⟩)) fun _ => Emits.update_only Only.nil)

/-! ## Publications -/

/-- A publication is alone in its batch. -/
def Publishes (es : List Effect) : Prop :=
  ∃ transfer descriptor retained, es = [.publishSnapshot transfer descriptor retained]

/-- Nothing is written but possibly a whole generation. -/
abbrev Announces (es : List Effect) : Prop := Only Calm es ∨ Publishes es

theorem Emits.announces {α : Type} {m : Handler α} (h : Emits (Only Calm) m) : Emits Announces m :=
  h.mono fun _ => Or.inl

theorem publishSnapshot_announces (transfer : Option SnapshotTransferId)
    (descriptor : SnapshotDescriptor) (retained : List Entry) :
    Emits Announces (emit (.publishSnapshot transfer descriptor retained) : Handler Unit) :=
  Emits.emit (Or.inr ⟨transfer, descriptor, retained, rfl⟩)

theorem onCompact_announces (descriptor : SnapshotDescriptor) :
    Emits Announces (onCompact descriptor) :=
  have hnote {e : Effect} (h : e.Calm) : Announces [e] := Or.inl (Only.single h)
  Emits.peek fun _ => Emits.ite (Emits.emit (hnote ⟨rfl, rfl⟩)) (Emits.ite
    (Emits.emit (hnote ⟨rfl, rfl⟩)) (Emits.update (publishSnapshot_announces ..)))

theorem completeStage_announces (transfer : SnapshotTransferId) (descriptor : SnapshotDescriptor)
    (nextOffset contactRound : Nat) :
    Emits Announces (completeStage transfer descriptor nextOffset contactRound) :=
  Emits.peek fun _ => Emits.ite (Emits.update (Emits.announces (snapshotReply_calm ..))) (Emits.ite
    (Emits.announces (Emits.seq (Emits.calm cancelIncomingSnapshot_still)
      fun _ => snapshotRefuse_calm ..))
    (Emits.update (publishSnapshot_announces ..)))

theorem onSnapshotChunkStaged_announces (transfer : SnapshotTransferId)
    (descriptor : SnapshotDescriptor) (offset : Nat) (result : SnapshotStageResult) :
    Emits Announces (onSnapshotChunkStaged transfer descriptor offset result) := by
  have hnil : Announces [] := Or.inl Only.nil
  refine Emits.peek fun n => ?_
  split
  · exact Emits.pure hnil
  refine Emits.ite (Emits.pure hnil) ?_
  split
  · exact Emits.pure hnil
  refine Emits.ite (Emits.pure hnil) (Emits.update ?_)
  split
  · exact Emits.announces (snapshotRefuse_calm ..)
  · refine Emits.ite (Emits.announces (Emits.seq (Emits.calm cancelIncomingSnapshot_still)
      fun _ => snapshotRefuse_calm ..)) (Emits.update ?_)
    exact Emits.ite (Emits.announces (snapshotReply_calm ..)) (completeStage_announces ..)

/-! ## Handlers in two phases -/

/-- Durable effects and reports first, then what persists nothing. -/
abbrev Ordered : List Effect → Prop := Phased Inner Calm

theorem Emits.ordered {α : Type} {m : Handler α} (h : Emits (Only Calm) m) : Emits Ordered m :=
  h.mono fun _ => Phased.of_second

theorem advanceCommit_ordered (index : Nat) : Emits Ordered (advanceCommit index) := by
  refine Emits.peek fun n => Emits.ite (Emits.pure Phased.nil) (Emits.expect fun next => ?_)
  refine Emits.first (Emits.when (Emits.update (Emits.emit (Only.single rfl))) Only.nil) fun _ => ?_
  refine Emits.update (Emits.first (Emits.inner refreshEffectiveMembership_still) fun _ => ?_)
  exact Emits.ordered (Emits.seq applyCommitted_calm
    fun _ => Emits.when (Emits.emit (Only.single ⟨rfl, rfl⟩)) Only.nil)

theorem commitQuorum_ordered : Emits Ordered commitQuorum := by
  refine Emits.peek fun n => ?_
  split
  · exact advanceCommit_ordered _
  · exact Emits.pure Phased.nil

theorem followCommit_ordered (newCommit : Nat) : Emits Ordered (followCommit newCommit) :=
  Emits.peek fun _ => Emits.ite (advanceCommit_ordered _)
    (Emits.ordered (Emits.calm refreshEffectiveMembership_still))

theorem acceptEntries_ordered (leaderId : NodeId) (entries : List Entry)
    (payloadLastIndex leaderCommit contactRound : Nat) :
    Emits Ordered (acceptEntries leaderId entries payloadLastIndex leaderCommit contactRound) := by
  refine Emits.peek fun n => ?_
  refine Emits.first (Emits.when (Emits.update (Emits.emit (Only.single rfl))) Only.nil) fun _ => ?_
  exact Emits.second (followCommit_ordered _)
    fun _ => Emits.peek fun _ => Emits.emit (Only.single ⟨rfl, rfl⟩)

theorem onAppendEntries_ordered (term : Nat) (leaderId : NodeId) (prevLogIndex prevLogTerm : Nat)
    (entries : List Entry) (payloadLastIndex leaderCommit contactRound : Nat) :
    Emits Ordered (onAppendEntries term leaderId prevLogIndex prevLogTerm entries payloadLastIndex
      leaderCommit contactRound) := by
  refine Emits.peek fun n => Emits.ite (Emits.ordered (appendReject_calm ..)) ?_
  refine Emits.first (Emits.inner becomeFollower_still) fun _ =>
    Emits.first (Emits.inner resetElectionDeadline_still) fun _ => Emits.update ?_
  refine Emits.peek fun n => Emits.ite
    (Emits.ordered (Emits.emit (Only.single ⟨rfl, rfl⟩))) (Emits.ite ?_ ?_)
  · exact Emits.expect fun conflict => Emits.ordered (appendReject_calm ..)
  · exact Emits.ite (Emits.ordered (appendReject_calm ..)) (Emits.require (Emits.ite
      (Emits.ordered (appendReject_calm ..)) (acceptEntries_ordered ..)))

theorem onAppendEntriesReply_ordered (sender : NodeId) (term : Nat) (success : Bool)
    (matchIndex contactRound : Nat) (conflict : Option AppendConflictHint) :
    Emits Ordered
      (onAppendEntriesReply sender term success matchIndex contactRound conflict) := by
  refine Emits.peek fun n => Emits.ite (Emits.pure Phased.nil) (Emits.ite (Emits.pure Phased.nil)
    (Emits.ite (Emits.pure Phased.nil) ?_))
  split
  · split
    · exact Emits.ite (Emits.pure Phased.nil) (Emits.update (Emits.ite commitQuorum_ordered
        (Emits.pure Phased.nil)))
    · exact Emits.pure Phased.nil
  · exact Emits.pure Phased.nil

theorem onInstallSnapshotReply_ordered (sender : NodeId) (term : Nat)
    (transfer : SnapshotTransferId) (nextOffset matchIndex : Nat) (accepted installed : Bool)
    (contactRound : Nat) :
    Emits Ordered (onInstallSnapshotReply sender term transfer nextOffset matchIndex accepted
      installed contactRound) := by
  refine Emits.peek fun n => Emits.ite (Emits.pure Phased.nil) ?_
  split
  · exact Emits.pure Phased.nil
  refine Emits.ite (Emits.pure Phased.nil) (Emits.ite (Emits.update_only Phased.nil)
    (Emits.ite (Emits.pure Phased.nil) ?_))
  refine Emits.first (Emits.when (Emits.update_only Only.nil) Only.nil) fun _ => Emits.ite ?_ ?_
  · exact Emits.update (Emits.second (onAppendEntriesReply_ordered ..)
      fun _ => sendAppendEntries_mails Mails.calm)
  · exact Emits.update (Emits.ordered (sendSnapshotChunk_mails Mails.calm sender))

theorem onRequestVote_ordered (term : Nat) (candidateId : NodeId) (lastLogIndex lastLogTerm : Nat) :
    Emits Ordered (onRequestVote term candidateId lastLogIndex lastLogTerm) := by
  refine Emits.peek fun n => Emits.ite
    (Emits.ordered (Emits.emit (Only.single ⟨rfl, rfl⟩))) ?_
  refine Emits.first (Emits.when ?_ Only.nil)
    fun _ => Emits.ordered (Emits.emit (Only.single ⟨rfl, rfl⟩))
  exact Emits.update (Emits.seq (Emits.inner resetElectionDeadline_still)
    fun _ => Emits.emit (Only.single rfl))

theorem appendConfiguration_ordered (change : ConfigurationEntry) :
    Emits Ordered (appendConfiguration change) := by
  refine Emits.peek fun n => ?_
  split
  · exact Emits.pure Phased.nil
  · refine Emits.update (Emits.first (Emits.emit (Only.single rfl)) fun _ => ?_)
    exact Emits.first (Emits.inner refreshEffectiveMembership_still) fun _ =>
      Emits.second commitQuorum_ordered fun _ => Emits.pure Only.nil

theorem maybeFinalizeMembership_ordered : Emits Ordered maybeFinalizeMembership := by
  refine Emits.peek fun n => Emits.ite (Emits.pure Phased.nil) ?_
  split
  · exact Emits.pure Phased.nil
  · exact Emits.second (appendConfiguration_ordered _) fun _ => Emits.pure Only.nil

theorem fenceFor_still (requestId : String) (operation : AdminOperation) :
    Emits (Only Still) (fenceFor requestId operation) := by
  refine Emits.peek fun n => ?_
  split
  · exact Emits.pure Only.nil
  · exact Emits.update (Emits.pure Only.nil)

theorem promotionRefusal_still (requestId : String) (operation : AdminOperation) :
    Emits (Only Still) (promotionRefusal requestId operation) := by
  cases operation with
  | setVoters voters =>
    refine Emits.peek fun n => Emits.seq (fenceFor_still ..) fun fence => ?_
    split
    · exact Emits.pure Only.nil
    · split
      · exact Emits.ite (Emits.pure Only.nil) (Emits.pure Only.nil)
      · exact Emits.pure Only.nil
  | _ => exact Emits.pure Only.nil

theorem admitChange_ordered (requestId : String) (operation : AdminOperation)
    (phase : ConfigurationPhase) : Emits Ordered (admitChange requestId operation phase) := by
  refine Emits.peek fun n => Emits.first (Emits.inner (promotionRefusal_still ..)) fun refusal => ?_
  split
  · exact Emits.pure Phased.nil
  · refine Emits.second (appendConfiguration_ordered _) fun appended => ?_
    split
    · exact Emits.update (Emits.pure Only.nil)
    · exact Emits.peek fun _ => Emits.pure Only.nil

theorem onMembershipChange_ordered (requestId : String) (operation : AdminOperation) :
    Emits Ordered (onMembershipChange requestId operation) := by
  refine Emits.second ?_ fun _ => Emits.emit (Only.single ⟨rfl, rfl⟩)
  refine Emits.peek fun n => Emits.ite (Emits.pure Phased.nil) ?_
  split
  · exact Emits.pure Phased.nil
  split
  · exact Emits.pure Phased.nil
  refine Emits.ite (Emits.pure Phased.nil) (Emits.ite (Emits.pure Phased.nil) ?_)
  split
  · exact Emits.pure Phased.nil
  · exact admitChange_ordered ..

theorem leaderTick_ordered (nowMs : Nat) : Emits Ordered (leaderTick nowMs) := by
  refine Emits.second maybeFinalizeMembership_ordered fun _ => Emits.peek fun n => ?_
  exact Emits.ite (Emits.pure Only.nil) (Emits.ite
    (Emits.seq (sendAppendEntries_mails Mails.calm) fun _ => Emits.update_only Only.nil)
    (Emits.pure Only.nil))

theorem quorumWindow_ordered (nowMs : Nat) : Emits Ordered (quorumWindow nowMs) := by
  have hdown : Emits Ordered (do
      becomeFollower
      update fun n => { n with leaderHint := none }
      resetElectionDeadline) :=
    Emits.first (Emits.inner becomeFollower_still) fun _ =>
      Emits.update (Emits.ordered (Emits.calm resetElectionDeadline_still))
  refine Emits.peek fun n => Emits.ite ?_ (leaderTick_ordered nowMs)
  dsimp only
  split
  · exact Emits.ite hdown (Emits.update (leaderTick_ordered nowMs))
  · exact hdown

theorem onRecover_ordered : Emits Ordered onRecover := by
  refine Emits.peek fun n => Emits.ite (Emits.pure Phased.nil) (Emits.update ?_)
  exact Emits.first (Emits.when (Emits.seq (Emits.emit (Only.single rfl))
    fun _ => Emits.update_only Only.nil) Only.nil) fun _ => Emits.ordered applyCommitted_calm

theorem onSnapshotPublished_ordered (transfer : Option SnapshotTransferId)
    (descriptor : SnapshotDescriptor) :
      Emits Ordered (onSnapshotPublished transfer descriptor) := by
  refine Emits.peek fun n => ?_
  split
  · exact Emits.pure Phased.nil
  refine Emits.ite (Emits.pure Phased.nil) (Emits.update ?_)
  split
  · exact Emits.pure Phased.nil
  refine Emits.first (Emits.peek fun n => ?_) fun _ => Emits.update (Emits.first
    (Emits.inner refreshEffectiveMembership_still) fun _ => Emits.update (Emits.ordered
      (Emits.seq (Emits.emit (Only.single ⟨rfl, rfl⟩)) fun _ => snapshotReply_calm ..)))
  split
  · exact Emits.when (Emits.update (Emits.emit (Only.single rfl))) Only.nil
  · exact Emits.pure Only.nil

/-! ## Elections -/

/-- The effects of a commitment besides its hard-state write persist nothing. -/
theorem advanceCommit_hard (index : Nat) :
    Emits (Only fun e => e.isPersistHard = true ∨ Calm e) (advanceCommit index) := by
  have hcalm {α : Type} {m : Handler α} (h : Emits (Only Calm) m) :
      Emits (Only fun e => e.isPersistHard = true ∨ Calm e) m :=
    h.mono fun _ ho e he => Or.inr (ho e he)
  refine Emits.peek fun n => Emits.ite (Emits.pure Only.nil) (Emits.expect fun next => ?_)
  refine Emits.seq (Emits.when (Emits.update (Emits.emit (Only.single (Or.inl rfl)))) Only.nil)
    fun _ => Emits.update (hcalm ?_)
  exact Emits.seq (Emits.calm refreshEffectiveMembership_still) fun _ =>
    Emits.seq applyCommitted_calm
      fun _ => Emits.when (Emits.emit (Only.single ⟨rfl, rfl⟩)) Only.nil

theorem inner_of_isPersistHard (h : e.isPersistHard = true) : Inner e := by
  cases e with
  | persistHardState => rfl
  | _ => cases h

theorem Emits.collect {P Q : List Effect → Prop} {α : Type} {m : Handler Unit}
    {f : List Effect → Handler α} (hm : Emits Q m) (hf : ∀ es, Q es → Emits P (f es)) :
    Emits P (collect m >>= f) := by
  intro n b n' es h
  obtain ⟨committed, n₁, e₁, e₂, h₁, h₂, rfl⟩ := bind_eq_some h
  obtain ⟨⟨u, n₂, es₂⟩, hrun, heq⟩ := Option.map_eq_some_iff.1 h₁
  cases heq
  exact hf _ (hm hrun) h₂

theorem becomeLeader_ordered : Emits Ordered becomeLeader := by
  refine Emits.peek fun n => ?_
  split
  · exact Emits.update (Emits.first (Emits.inner becomeFollower_still)
      fun _ => Emits.update_only Phased.nil)
  refine Emits.update (Emits.first (Emits.emit (Only.single rfl)) fun _ => ?_)
  have halone : Emits (Only fun e => e.isPersistHard = true ∨ Calm e) commitAlone :=
    Emits.peek fun _ => Emits.when (advanceCommit_hard _) Only.nil
  refine Emits.collect halone fun committed hcommitted => ?_
  refine Emits.first (Emits.emits fun e he => ?_) fun _ => Emits.peek fun _ => Emits.ordered ?_
  · exact inner_of_isPersistHard (List.mem_filter.1 he).2
  refine Emits.seq (Emits.emit (Only.single ⟨rfl, rfl⟩)) fun _ =>
    Emits.seq (sendAppendEntries_mails Mails.calm)
    fun _ => Emits.update (Emits.emits fun e he => ?_)
  obtain ⟨hmem, hnot⟩ := List.mem_filter.1 he
  exact (hcommitted e hmem).resolve_left (by simpa using hnot)

/-- Two phases; votes are asked for only after a hard state is durable. -/
def Campaigns (es : List Effect) : Prop :=
  ∃ first second, es = first ++ second ∧ Only Inner first ∧
    Only Light second ∧
    ((∃ e ∈ second, e.solicits = true) → ∃ e ∈ first, e.isPersistHard = true)

theorem Campaigns.of_ordered (h : Ordered es) : Campaigns es := by
  obtain ⟨first, second, rfl, hf, hs⟩ := h
  refine ⟨first, second, rfl, hf, fun e he => (hs e he).1, ?_⟩
  rintro ⟨e, he, hsol⟩
  rw [(hs e he).2] at hsol
  cases hsol

theorem Campaigns.after {es es' : List Effect} (h : Only Inner es) (h' : Campaigns es') :
    Campaigns (es ++ es') := by
  obtain ⟨first, second, rfl, hf, hs, hsol⟩ := h'
  refine ⟨es ++ first, second, (List.append_assoc ..).symm, h.append hf, hs, fun hex => ?_⟩
  obtain ⟨e, he, hhard⟩ := hsol hex
  exact ⟨e, List.mem_append_right _ he, hhard⟩

theorem Emits.campaigns {α : Type} {m : Handler α} (h : Emits Ordered m) : Emits Campaigns m :=
  h.mono fun _ => Campaigns.of_ordered

theorem Emits.prelude {α β : Type} {m : Handler α} {f : α → Handler β} (hm : Emits (Only Inner) m)
    (hf : ∀ a, Emits Campaigns (f a)) : Emits Campaigns (m >>= f) :=
  EffectM.Emits.bind hm hf fun _ _ => Campaigns.after

theorem solicit_persistsNothing (msg : RaftMessage) (peer : NodeId) :
    Emits (Only Light) (solicit msg peer) := by
  refine Emits.peek fun n => Emits.ite (Emits.pure Only.nil) (Emits.seq ?_ fun _ =>
    Emits.emit (Only.single rfl))
  exact (advertiseMembership_mails Mails.calm peer).mono fun _ h e he => (h e he).1

theorem startElection_campaigns : Emits Campaigns startElection := by
  refine Emits.peek fun n => Emits.ite (Emits.pure (.of_ordered Phased.nil)) ?_
  split
  · exact Emits.update (Emits.campaigns (Emits.ordered (Emits.calm becomeFollower_still)))
  refine Emits.update (Emits.prelude (Emits.inner resetElectionDeadline_still) fun _ => ?_)
  -- the vote for oneself is durable before anybody is asked
  intro n₁ u n₂ es h
  obtain ⟨es₂, hrest, rfl⟩ := emit_bind_inv h
  rw [peek_bind] at hrest
  split at hrest
  · obtain ⟨first, second, rfl, hf, hs⟩ := becomeLeader_ordered hrest
    exact Campaigns.of_ordered (Phased.after (Only.single rfl : Only Effect.Inner [_])
      ⟨first, second, rfl, hf, hs⟩)
  · refine ⟨[_], es₂, rfl, Only.single rfl, ?_, fun _ => ⟨_, List.mem_singleton_self _, rfl⟩⟩
    exact Emits.seq (p := Light) (Emits.emit (Only.single rfl))
      (fun _ => Emits.forM fun peer => solicit_persistsNothing _ peer) hrest

theorem startPreVote_campaigns : Emits Campaigns startPreVote := by
  refine Emits.peek fun n => Emits.ite (Emits.pure (.of_ordered Phased.nil)) ?_
  refine Emits.prelude (Emits.inner cancelIncomingSnapshot_still) fun _ => ?_
  split
  · refine Emits.update (Emits.prelude (Emits.inner resetElectionDeadline_still)
      fun _ => Emits.peek fun n => Emits.ite startElection_campaigns (Emits.campaigns
        (Emits.ordered ?_)))
    refine Emits.seq (Emits.emit (Only.single ⟨rfl, rfl⟩)) fun _ => Emits.forM fun peer => ?_
    exact Emits.peek fun n => Emits.ite (Emits.pure Only.nil) (Emits.seq
      (advertiseMembership_mails Mails.calm peer) fun _ => Emits.emit (Only.single ⟨rfl, rfl⟩))
  · exact Emits.update (Emits.campaigns (Emits.ordered (Emits.calm becomeFollower_still)))

theorem onPreVoteReply_campaigns (sender : NodeId) (term prospectiveTerm : Nat)
    (campaignId : CampaignId) (voteGranted : Bool) :
    Emits Campaigns (onPreVoteReply sender term prospectiveTerm campaignId voteGranted) := by
  have hnil : Campaigns [] := .of_ordered Phased.nil
  refine Emits.peek fun n => Emits.ite (Emits.pure hnil) ?_
  split
  · exact Emits.ite (Emits.pure hnil) (Emits.update (Emits.ite startElection_campaigns
      (Emits.pure hnil)))
  · exact Emits.pure hnil

theorem onRequestVoteReply_ordered (sender : NodeId) (term : Nat) (voteGranted : Bool) :
    Emits Ordered (onRequestVoteReply sender term voteGranted) := by
  refine Emits.peek fun n => Emits.ite (Emits.pure Phased.nil) ?_
  split
  · exact Emits.update (Emits.ite becomeLeader_ordered (Emits.pure Phased.nil))
  · exact Emits.pure Phased.nil

theorem onTick_campaigns (nowMs : Nat) : Emits Campaigns (onTick nowMs) := by
  have hnil : Campaigns [] := .of_ordered Phased.nil
  refine Emits.peek fun n => Emits.ite (Emits.pure hnil) (Emits.update (Emits.ite ?_ ?_))
  · exact Emits.update (Emits.prelude (Emits.inner becomeFollower_still)
      fun _ => Emits.update_only hnil)
  · refine Emits.prelude (Emits.when (Emits.inner resetElectionDeadline_still) Only.nil)
      fun _ => Emits.peek fun n => Emits.ite (Emits.campaigns (quorumWindow_ordered nowMs)) ?_
    exact Emits.ite startPreVote_campaigns (Emits.pure hnil)

theorem adoptTerm_inner (term : Nat) : Emits (Only Inner) (adoptTerm term) :=
  Emits.peek fun _ => Emits.ite (Emits.update <| Emits.seq (Emits.emit (Only.single rfl))
    fun _ => Emits.seq (Emits.inner becomeFollower_still)
      fun _ => Emits.update (Emits.inner cancelIncomingSnapshot_still)) (Emits.pure Only.nil)

theorem dispatch_campaigns (sender : NodeId) (msg : RaftMessage) :
    Emits Campaigns (dispatch sender msg) := by
  have hnil : Campaigns [] := .of_ordered Phased.nil
  cases msg with
  | compactedPrefix =>
    exact Emits.peek fun n => Emits.ite (Emits.campaigns (onAppendEntriesReply_ordered ..))
      (Emits.pure hnil)
  | installSnapshot => exact Emits.campaigns (Emits.ordered (onInstallSnapshot_calm ..))
  | installSnapshotReply => exact Emits.campaigns (onInstallSnapshotReply_ordered ..)
  | requestVote => exact Emits.campaigns (onRequestVote_ordered ..)
  | requestVoteReply => exact Emits.campaigns (onRequestVoteReply_ordered ..)
  | appendEntries =>
    simp only [dispatch]
    split
    · exact Emits.campaigns (onAppendEntries_ordered ..)
    · exact Emits.pure hnil
  | appendEntriesReply => exact Emits.campaigns (onAppendEntriesReply_ordered ..)
  | readProbe => exact Emits.campaigns (Emits.ordered (onReadProbe_calm ..))
  | readProbeReply => exact Emits.campaigns (Emits.ordered (onReadProbeReply_calm ..))
  | preVote => exact Emits.campaigns (Emits.ordered (onPreVote_calm ..))
  | preVoteReply => exact onPreVoteReply_campaigns ..
  | groupMessage => exact Emits.pure hnil
  | membershipAdvertisement => exact Emits.pure hnil

theorem onMessage_campaigns (sender : NodeId) (msg : RaftMessage) :
    Emits Campaigns (onMessage sender msg) := by
  refine Emits.peek fun n => ?_
  split
  · exact Emits.pure (.of_ordered Phased.nil)
  · exact Emits.campaigns (Emits.ordered (onMembershipAdvertisement_calm ..))
  · exact Emits.peek fun n => Emits.ite (Emits.pure (.of_ordered Phased.nil)) (Emits.ite
      (Emits.campaigns (Emits.ordered (appendReject_calm ..)))
      (Emits.prelude (adoptTerm_inner _) fun _ => dispatch_campaigns ..))

/-! ## Proposals -/

/-- A commitment starts with a hard-state write exactly if it moves the committed
membership. -/
theorem advanceCommit_cases {index : Nat} (h : advanceCommit index n = some (u, n', es)) :
    (Only Calm es ∧ (n.commitIndex < index → n.membershipAt index = .ok n.committedMembership)) ∨
    (n.commitIndex < index ∧ n.membershipAt index ≠ .ok n.committedMembership ∧
      ∃ hard rest, es = .persistHardState hard :: rest) := by
  unfold advanceCommit at h
  rw [peek_bind] at h
  split at h
  · next hle =>
      cases h
      exact Or.inl ⟨Only.nil, fun hlt => absurd hle (not_le.2 hlt)⟩
  next hlt =>
  obtain ⟨next, hnext, h⟩ := expect_bind_inv h
  have hmembership : n.membershipAt index = .ok next := by
    cases hm : n.membershipAt index with
    | error msg => rw [hm] at hnext; cases hnext
    | ok m => rw [hm] at hnext; cases hnext; rfl
  obtain ⟨u₁, n₁, e₁, e₂, h₁, h₂, rfl⟩ := bind_eq_some h
  rcases when_inv h₁ with ⟨hne, h₁⟩ | ⟨heq, rfl, rfl⟩
  · rw [update_bind] at h₁
    cases h₁
    refine Or.inr ⟨not_le.1 hlt, ?_, _, _, rfl⟩
    rw [hmembership]
    exact fun heq => hne (Except.ok.inj heq)
  · rw [not_not] at heq
    refine Or.inl ⟨?_, fun _ => by rw [hmembership, heq]⟩
    rw [update_bind] at h₂
    exact Emits.seq (Emits.calm refreshEffectiveMembership_still) (fun _ =>
      Emits.seq applyCommitted_calm fun _ => Emits.when (Emits.emit (Only.single ⟨rfl, rfl⟩))
        Only.nil) h₂

/-- A batch of proposals is refused one by one, or it is accepted: its entries are durable,
every one of them is acknowledged, and a node that is a quorum of its own goes on to
commit. -/
theorem onClientProposeBatch_cases {commands : List Command}
    (h : onClientProposeBatch commands n = some (u, n', es)) :
    (es = commands.map fun _ => .proposeRejected n.leaderHint) ∨ ∃ entries tail,
      entries = proposedEntries n.lastLogIndex n.hard.currentTerm commands ∧ commands ≠ [] ∧
      (∀ command ∈ commands, command.isConfiguration = false) ∧
      es = .persistLogEntries none entries ::
        ((entries.map fun e => .proposeAccepted e.index) ++ tail) ∧
      (n.selfQuorum = false ∧ tail = [] ∨ n.selfQuorum = true ∧
        advanceCommit (n.lastLogIndex + commands.length) { n with log := n.log ++ entries } =
          some (u, n', tail)) := by
  unfold onClientProposeBatch at h
  rw [peek_bind] at h
  split at h
  · next hempty =>
      cases h
      exact Or.inl (by rw [hempty, List.map_nil])
  next hne =>
  cases hfinal : nextIndex n.lastLogIndex commands.length with
  | none =>
    simp only [hfinal] at h
    cases h
    exact Or.inl rfl
  | some finalIndex =>
  simp only [hfinal] at h
  split at h
  · cases h
    exact Or.inl rfl
  next hok =>
  simp only [not_or, Bool.not_eq_true, List.any_eq_false] at hok
  obtain ⟨hindex, -⟩ := nextIndex_eq_some hfinal
  obtain ⟨n₁, rfl, h⟩ := update_bind_inv h
  obtain ⟨e₁, h₁, rfl⟩ := emit_bind_inv h
  obtain ⟨e₂, h₂, rfl⟩ := emits_bind_inv h₁
  refine Or.inr ⟨_, e₂, rfl, hne, by simpa using hok.2.2.1, rfl, ?_⟩
  rw [peek_bind] at h₂
  split at h₂
  · next hself =>
      rw [hindex] at h₂
      exact Or.inr ⟨hself, h₂⟩
  · next hself =>
      cases h₂
      exact Or.inl ⟨Bool.not_eq_true _ ▸ hself, rfl⟩

/-! ## Persisting first -/

/-- Every message, acknowledged proposal and applied entry comes after everything that is
persisted. -/
def PersistsFirst (es : List Effect) : Prop :=
  es.Pairwise fun e e' => e.isOutward = true → e'.isPersist = false

theorem persistsFirst_append (hf : Only Inner first)
    (hs : Only Light second) : PersistsFirst (first ++ second) := by
  refine List.pairwise_append.2 ⟨?_, ?_, fun e _ e' he' _ => Light.isPersist (hs e' he')⟩
  · refine List.Pairwise.imp_of_mem (R := fun _ _ => True) (fun {e e'} he _ _ ho => ?_)
      (List.pairwise_of_forall fun _ _ => trivial)
    rw [Inner.isOutward (hf e he)] at ho
    cases ho
  · exact List.Pairwise.imp_of_mem (R := fun _ _ => True)
      (fun {e e'} _ he' _ _ => Light.isPersist (hs e' he'))
      (List.pairwise_of_forall fun _ _ => trivial)

theorem Campaigns.persistsFirst (h : Campaigns es) : PersistsFirst es := by
  obtain ⟨first, second, rfl, hf, hs, -⟩ := h
  exact persistsFirst_append hf hs

theorem Publishes.persistsFirst (h : Publishes es) : PersistsFirst es := by
  obtain ⟨transfer, descriptor, retained, rfl⟩ := h
  exact List.pairwise_singleton ..

theorem foldlM_replayEntry_plain {m : CommittedMembership} {entries : List Entry}
    (h : ∀ e ∈ entries, e.command.isConfiguration = false) :
    entries.foldlM replayEntry m = .ok m := by
  induction entries with
  | nil => rfl
  | cons e entries ih =>
    rw [List.foldlM_cons, replayEntry_of_not_conf (h e (List.mem_cons_self ..))]
    exact ih fun e' he' => h e' (List.mem_cons_of_mem _ he')

/-- Entries that are no configurations do not change the membership a log ends in. -/
theorem RaftNode.membershipAt_append {n : RaftNode} (hc : n.Contiguous) {entries : List Entry}
    (hplain : ∀ e ∈ entries, e.command.isConfiguration = false) {index : Nat}
    (hindex : n.lastLogIndex ≤ index) :
    RaftNode.membershipAt { n with log := n.log ++ entries } index =
      n.membershipAt n.lastLogIndex := by
  have hall {through : Nat} (hle : n.lastLogIndex ≤ through) :
      n.log.filter (fun e => e.index ≤ through) = n.log := by
    refine List.filter_eq_self.2 fun e he => ?_
    have hbound := (hc.mem_bounds he).2
    rw [← hc.lastLogIndex] at hbound
    simp only [decide_eq_true_eq]
    omega
  have hfloor := hc.lastLogIndex
  show (if index < n.snapshotIndex then _ else
    replay n.baseMembership (n.log ++ entries) index) = _
  rw [RaftNode.membershipAt, if_neg (by omega), if_neg (by omega), replay, replay,
    List.filter_append, hall hindex, hall le_rfl, List.foldlM_append]
  cases hreplay : n.log.foldlM replayEntry n.baseMembership with
  | error msg => rfl
  | ok m => exact foldlM_replayEntry_plain fun e he => hplain e (List.mem_of_mem_filter he)

/-- The commands a client proposes. -/
def Input.proposals : Input → List Command
  | .clientPropose command => [command]
  | .clientProposeBatch commands => commands
  | _ => []

/-- Proposals reach a node that is a quorum of its own and whose log ends in another
membership than the committed one; committing them commits that membership. -/
def RaftNode.Exposed (n : RaftNode) (input : Input) : Prop :=
  input.proposals ≠ [] ∧ n.selfQuorum = true ∧
    n.commitIndex < n.lastLogIndex + input.proposals.length ∧
    n.membershipAt n.lastLogIndex ≠ .ok n.committedMembership

/-- Proposals are acknowledged after everything durable, except that an exposed node
persists the membership they commit afterwards. -/
theorem onClientProposeBatch_persistsFirst (hc : n.Contiguous)
    (h : onClientProposeBatch input.proposals n = some (u, n', es)) :
    PersistsFirst es ↔ ¬ (n.Exposed input ∧ ∃ i, .proposeAccepted i ∈ es) := by
  rcases onClientProposeBatch_cases h with hrej | ⟨entries, tail, hentries, hne, hplain, rfl, htail⟩
  · rw [hrej]
    refine iff_of_true ?_ ?_
    · have hinner : Only Inner (input.proposals.map fun _ => Effect.proposeRejected n.leaderHint) :=
        Only.map fun _ _ => rfl
      simpa using persistsFirst_append hinner Only.nil
    · rintro ⟨-, i, hi⟩
      simp at hi
  have hsplit (ht : Only Light tail) :
      PersistsFirst (.persistLogEntries none entries ::
        ((entries.map fun e => .proposeAccepted e.index) ++ tail)) :=
    persistsFirst_append (Only.single rfl : Only Effect.Inner [_])
      (Only.append (Only.map fun _ _ => rfl) ht)
  rcases htail with ⟨hself, rfl⟩ | ⟨hself, hadvance⟩
  · refine iff_of_true (hsplit Only.nil) ?_
    rintro ⟨⟨-, hq, -⟩, -⟩
    rw [hself] at hq
    cases hq
  have hmembership : RaftNode.membershipAt { n with log := n.log ++ entries }
      (n.lastLogIndex + input.proposals.length) = n.membershipAt n.lastLogIndex := by
    refine RaftNode.membershipAt_append hc (fun e he => ?_) (Nat.le_add_right _ _)
    rw [hentries] at he
    exact hplain _ (proposedEntries_mem he).2
  rcases advanceCommit_cases hadvance with ⟨hcalm, hsame⟩ | ⟨hlt, hdiff, hard, rest, rfl⟩
  · refine iff_of_true (hsplit fun e he => (hcalm e he).1) ?_
    rintro ⟨⟨-, -, hlt, hdiff⟩, -⟩
    exact hdiff (hmembership ▸ hsame hlt)
  · -- the membership is persisted after the first acknowledgement
    obtain ⟨e, he, -⟩ := proposedEntries_last n.lastLogIndex n.hard.currentTerm hne
    rw [← hentries] at he
    have hacc : Effect.proposeAccepted e.index ∈ entries.map fun e => .proposeAccepted e.index :=
      List.mem_map_of_mem he
    refine iff_of_false (fun hp => ?_) (not_not.2
      ⟨⟨hne, hself, hlt, hmembership ▸ hdiff⟩, e.index,
        List.mem_cons_of_mem _ (List.mem_append_left _ hacc)⟩)
    have hpair := (List.pairwise_append.1 (List.pairwise_cons.1 hp).2).2.2 _ hacc
      (.persistHardState hard) (List.mem_cons_self ..) rfl
    cases hpair

/-- A batch in order, or a publication. -/
abbrev Disciplined (es : List Effect) : Prop := Campaigns es ∨ Publishes es

theorem Announces.disciplined (h : Announces es) : Disciplined es :=
  h.imp_left fun hcalm => .of_ordered (Phased.of_second hcalm)

theorem Disciplined.persistsFirst (h : Disciplined es) : PersistsFirst es :=
  h.elim Campaigns.persistsFirst Publishes.persistsFirst

/-- Inputs that may start a publication. -/
def Input.mayPublish : Input → Bool
  | .compact _ | .snapshotChunkStaged .. => true
  | _ => false

theorem handle_campaigns (h : input.proposals = []) (h' : input.mayPublish = false) :
    Emits Campaigns (handle input) := by
  cases input with
  | recover => exact Emits.campaigns onRecover_ordered
  | membershipChange => exact Emits.campaigns (onMembershipChange_ordered ..)
  | message => exact onMessage_campaigns ..
  | tick => exact onTick_campaigns _
  | clientPropose => cases h
  | clientProposeBatch commands =>
    have hnil : commands = [] := h
    subst hnil
    exact Emits.peek fun n => Emits.pure (.of_ordered Phased.nil)
  | readIndex => exact Emits.campaigns (Emits.ordered (onReadIndex_calm _))
  | cancelRead => exact Emits.campaigns (Emits.ordered (cancelRead_calm _))
  | compact => cases h'
  | snapshotChunkRead => exact Emits.campaigns (Emits.ordered (onSnapshotChunkRead_calm ..))
  | snapshotChunkStaged => cases h'
  | snapshotPublished => exact Emits.campaigns (onSnapshotPublished_ordered ..)

theorem handle_disciplined (h : input.proposals = []) : Emits Disciplined (handle input) := by
  by_cases hpub : input.mayPublish = true
  · have hannounce {m : Handler Unit} (hm : Emits Announces m) : Emits Disciplined m :=
      hm.mono fun _ => Announces.disciplined
    cases input with
    | compact => exact hannounce (onCompact_announces _)
    | snapshotChunkStaged => exact hannounce (onSnapshotChunkStaged_announces ..)
    | _ => cases hpub
  · exact (handle_campaigns h (Bool.not_eq_true _ ▸ hpub)).mono fun _ => Or.inl

/-! ## Envelopes -/

/-- An envelope changes what is inside a message, not what kind of effect it is. -/
theorem wrapEffect_kind (known : MembershipState) (e : Effect) :
    (wrapEffect known e).isOutward = e.isOutward ∧ (wrapEffect known e).isPersist = e.isPersist ∧
      (wrapEffect known e).solicits = e.solicits ∧
      (wrapEffect known e).isPersistHard = e.isPersistHard ∧
      (wrapEffect known e).isPublish = e.isPublish := by
  cases e with
  | send dest msg => cases msg <;> exact ⟨rfl, rfl, rfl, rfl, rfl⟩
  | _ => exact ⟨rfl, rfl, rfl, rfl, rfl⟩

theorem wrapEffect_eq_proposeAccepted {known : MembershipState} {i : Nat} :
    wrapEffect known e = .proposeAccepted i ↔ e = .proposeAccepted i := by
  cases e with
  | send dest msg => cases msg <;> simp [wrapEffect, RaftMessage.isGroupMessage]
  | _ => exact Iff.rfl

theorem persistsFirst_wrapEffect {known : MembershipState} :
    PersistsFirst (es.map (wrapEffect known)) ↔ PersistsFirst es := by
  unfold PersistsFirst
  rw [List.pairwise_map]
  refine List.Pairwise.iff fun {e e'} => ?_
  rw [(wrapEffect_kind known e).1, (wrapEffect_kind known e').2.1]

theorem Campaigns.map_wrapEffect (known : MembershipState) (h : Campaigns es) :
    Campaigns (es.map (wrapEffect known)) := by
  obtain ⟨first, second, rfl, hf, hs, hsol⟩ := h
  refine ⟨first.map (wrapEffect known), second.map (wrapEffect known), List.map_append,
    Only.map fun e he => ?_, Only.map fun e he => ?_, ?_⟩
  · obtain ⟨hout, -, -, -, hpub⟩ := wrapEffect_kind known e
    rw [Effect.Inner, hout, hpub]
    exact hf e he
  · obtain ⟨-, hpersist, -, -, hpub⟩ := wrapEffect_kind known e
    rw [Effect.Light, hpersist, hpub]
    exact hs e he
  · rintro ⟨e', he', hsol'⟩
    obtain ⟨e, he, rfl⟩ := List.mem_map.1 he'
    rw [(wrapEffect_kind known e).2.2.1] at hsol'
    obtain ⟨x, hx, hhard⟩ := hsol ⟨e, he, hsol'⟩
    exact ⟨_, List.mem_map_of_mem hx, by rw [(wrapEffect_kind known x).2.2.2.1]; exact hhard⟩

/-! ## Steps -/

/-- What a step does, before its effects are put into envelopes. -/
theorem RaftNode.step_cases (h : n.step input = some (n', es)) :
    (n' = n ∧ es = []) ∨ ∃ raw, handle input n = some ((), n', raw) ∧
      (es = raw ∨ ∃ known, es = raw.map (wrapEffect known)) := by
  unfold step at h
  split at h
  · cases h
    exact Or.inl ⟨rfl, rfl⟩
  obtain ⟨⟨u, m, raw⟩, hraw, heq⟩ := Option.map_eq_some_iff.1 h
  cases heq
  refine Or.inr ⟨raw, hraw, ?_⟩
  unfold wrapGroupEffects
  dsimp only
  split
  · exact Or.inl rfl
  · exact Or.inr ⟨_, rfl⟩

/-- The order of the batch of a step. -/
theorem RaftNode.step_persistsFirst (hc : n.Contiguous) (h : n.step input = some (n', es)) :
    PersistsFirst es ↔ ¬ (n.Exposed input ∧ ∃ i, .proposeAccepted i ∈ es) := by
  rcases step_cases h with ⟨-, rfl⟩ | ⟨raw, hraw, hes⟩
  · exact iff_of_true List.Pairwise.nil (by simp)
  have hiff : PersistsFirst raw ↔ ¬ (n.Exposed input ∧ ∃ i, .proposeAccepted i ∈ raw) := by
    by_cases hp : input.proposals = []
    · exact iff_of_true (handle_disciplined hp hraw).persistsFirst fun hex => hex.1.1 hp
    · refine onClientProposeBatch_persistsFirst hc (?_ : _ = some ((), n', raw))
      cases input with
      | clientPropose | clientProposeBatch => exact hraw
      | _ => exact absurd rfl hp
  rcases hes with rfl | ⟨known, rfl⟩
  · exact hiff
  · simp only [persistsFirst_wrapEffect, List.mem_map, wrapEffect_eq_proposeAccepted,
      exists_eq_right]
    exact hiff

/-! ## The audit of the driver -/

def Effect.isPersistLog : Effect → Bool
  | .persistLogEntries .. => true
  | _ => false

def requirePrior (persistAt : Option Nat) (sendAt : Nat) (message : String) : Except String Unit :=
  match persistAt with
  | some at_ => if at_ < sendAt then .ok () else .error message
  | none => .error message

/-- What the audit requires of one effect. -/
def auditEffect (firstHard firstLog : Option Nat) (effect : Effect) (sendAt : Nat) :
    Except String Unit :=
  match effect with
  | .send _ msg =>
      let msg := match msg with
        | .groupMessage _ _ message => message
        | other => other
      match msg with
      | .requestVote .. => requirePrior firstHard sendAt "RequestVote must follow PersistHardState"
      | .requestVoteReply _ true =>
          if firstHard.isSome then
            requirePrior firstHard sendAt "granted RequestVoteReply precedes PersistHardState"
          else .ok ()
      | .appendEntriesReply _ true .. =>
          if firstLog.isSome then
            requirePrior firstLog sendAt "successful AppendEntriesReply precedes PersistLogEntries"
          else .ok ()
      | _ => .ok ()
  | _ => .ok ()

/-- `audit_persist_before_send`: the ordering that can be checked on one batch alone. -/
def auditPersistBeforeSend (batch : List Effect) : Except String Unit :=
  let firstHard := batch.findIdx? isPersistHard
  let firstLog := batch.findIdx? isPersistLog
  batch.zipIdx.forM fun p => auditEffect firstHard firstLog p.1 p.2

theorem requirePrior_eq_ok {i sendAt : Nat} {message : String} (h : i < sendAt) :
    requirePrior (some i) sendAt message = .ok () := if_pos h

/-- A message stands in the second phase, so what the first phase persists is before it. -/
theorem findIdx?_lt_of_phases (hf : Only Inner first)
    {q : Effect → Bool} {i k : Nat} (he : (first ++ second)[k]? = some e)
    (hout : e.isOutward = true) (hq : ∀ e ∈ second, q e = false)
    (hi : (first ++ second).findIdx? q = some i) : i < k := by
  have hk : first.length ≤ k := by
    by_contra hlt
    rw [List.getElem?_append_left (by omega)] at he
    rw [Inner.isOutward (hf e (List.mem_of_getElem? he))] at hout
    cases hout
  obtain ⟨hlen, hqi, -⟩ := List.findIdx?_eq_some_iff_getElem.1 hi
  by_contra hcon
  rw [List.getElem_append_right (by omega)] at hqi
  rw [hq _ (List.getElem_mem _)] at hqi
  cases hqi

theorem isPersist_of_isPersistHard (h : e.isPersistHard = true) : e.isPersist = true := by
  cases e with
  | persistHardState => rfl
  | _ => cases h

theorem isPersist_of_isPersistLog (h : e.isPersistLog = true) : e.isPersist = true := by
  cases e with
  | persistLogEntries => rfl
  | _ => cases h

/-- If there is a first write of some kind, a message comes after it. -/
theorem requirePrior_of_phases (hf : Only Inner first) (hs : Only Light second) {q : Effect → Bool}
    (hq : ∀ e, q e = true → e.isPersist = true) {k : Nat}
    (he : (first ++ second)[k]? = some e) (hout : e.isOutward = true) {message : String}
    (hsome : ((first ++ second).findIdx? q).isSome = true) :
    requirePrior ((first ++ second).findIdx? q) k message = .ok () := by
  obtain ⟨i, hi⟩ := Option.isSome_iff_exists.1 hsome
  rw [hi]
  refine requirePrior_eq_ok (findIdx?_lt_of_phases hf he hout (fun e' he' => ?_) hi)
  by_contra hcon
  rw [Bool.not_eq_false] at hcon
  have hnot : e'.isPersist = false := Light.isPersist (hs e' he')
  rw [hq e' hcon] at hnot
  cases hnot

theorem Campaigns.audit (h : Campaigns es) : auditPersistBeforeSend es = .ok () := by
  obtain ⟨first, second, rfl, hf, hs, hsol⟩ := h
  refine forM_eq_ok fun ⟨e, k⟩ he => ?_
  have hget : (first ++ second)[k]? = some e := List.mem_zipIdx_iff_getElem?.1 he
  -- a request for a vote is in the second phase, so the first one made a vote durable
  have hvote (hsolicits : e.solicits = true) (hout : e.isOutward = true) :
      ((first ++ second).findIdx? isPersistHard).isSome = true := by
    have hmem : e ∈ second := by
      refine (List.mem_append.1 (List.mem_of_getElem? hget)).resolve_left fun hfirst => ?_
      rw [Inner.isOutward (hf e hfirst)] at hout
      cases hout
    obtain ⟨x, hx, hhard⟩ := hsol ⟨e, hmem, hsolicits⟩
    rw [List.findIdx?_isSome, List.any_eq_true]
    exact ⟨x, List.mem_append_left _ hx, hhard⟩
  dsimp only
  unfold auditEffect
  split
  · next dest msg =>
      dsimp only
      split
      · next heq =>
          refine requirePrior_of_phases hf hs (fun _ => isPersist_of_isPersistHard) hget rfl
            (hvote ?_ rfl)
          split at heq
          · cases heq; rfl
          · cases heq; rfl
      · split
        · next hsome =>
            exact requirePrior_of_phases hf hs (fun _ => isPersist_of_isPersistHard) hget rfl hsome
        · rfl
      · split
        · next hsome =>
            exact requirePrior_of_phases hf hs (fun _ => isPersist_of_isPersistLog) hget rfl hsome
        · rfl
      · rfl
  · rfl

/-- A batch that sends nothing passes the audit. -/
theorem audit_of_noSend (h : ∀ dest msg, .send dest msg ∉ es) :
    auditPersistBeforeSend es = .ok () := by
  refine forM_eq_ok fun ⟨e, k⟩ he => ?_
  have hmem : e ∈ es := List.mem_of_getElem? (List.mem_zipIdx_iff_getElem?.1 he)
  cases e with
  | send dest msg => exact absurd hmem (h dest msg)
  | _ => rfl

/-! ## Batches of proposals -/

/-- Neither a message nor a publication. -/
abbrev Effect.Silent (e : Effect) : Prop := e.isSend = false ∧ e.isPublish = false

/-- What a commit lets out: reports, applied entries and the memberships it makes durable. -/
theorem advanceCommit_only (hp : Effect.Reports p)
    (happly : ∀ entry, p (.apply entry)) (hhard : ∀ hard, p (.persistHardState hard))
    (hchanged : ∀ committed, p (.membershipChanged committed)) (index : Nat) :
    Emits (Only p) (advanceCommit index) := by
  refine Emits.peek fun n => Emits.ite (Emits.pure Only.nil) (Emits.expect fun next => ?_)
  refine Emits.seq (Emits.when (Emits.update (Emits.emit (Only.single (hhard _)))) Only.nil)
    fun _ => Emits.update (Emits.seq ?_ fun _ => Emits.seq ?_ fun _ => ?_)
  · exact refreshEffectiveMembership_reports hp
  · exact applyCommitted_only happly
  · exact Emits.when (Emits.emit (Only.single (hchanged _))) Only.nil

theorem advanceCommit_silent (index : Nat) : Emits (Only Silent) (advanceCommit index) :=
  advanceCommit_only ⟨⟨rfl, rfl⟩, ⟨rfl, rfl⟩⟩ (fun _ => ⟨rfl, rfl⟩) (fun _ => ⟨rfl, rfl⟩)
    (fun _ => ⟨rfl, rfl⟩) index

theorem onClientProposeBatch_silent (commands : List Command) :
    Emits (Only Silent) (onClientProposeBatch commands) := by
  refine Emits.peek fun n => Emits.ite (Emits.pure Only.nil) ?_
  split
  · refine Emits.ite (Emits.emits (Only.map fun _ _ => ⟨rfl, rfl⟩)) (Emits.update ?_)
    refine Emits.seq (Emits.emit (Only.single ⟨rfl, rfl⟩)) fun _ => Emits.seq
      (Emits.emits (Only.map fun _ _ => ⟨rfl, rfl⟩)) fun _ => Emits.peek fun _ => ?_
    exact Emits.ite (advanceCommit_silent _) (Emits.pure Only.nil)
  · exact Emits.emits (Only.map fun _ _ => ⟨rfl, rfl⟩)

/-! ## Results about steps -/

theorem Campaigns.noPublish (h : Campaigns es) : Only (fun e => e.isPublish = false) es := by
  obtain ⟨first, second, rfl, hf, hs, -⟩ := h
  refine Only.append (fun e he => ?_) fun e he => ?_
  · exact (Bool.or_eq_false_iff.1 (hf e he)).2
  · exact (Bool.or_eq_false_iff.1 (hs e he)).2

theorem Disciplined.audit (h : Disciplined es) : auditPersistBeforeSend es = .ok () := by
  rcases h with h | ⟨transfer, descriptor, retained, rfl⟩
  · exact h.audit
  · exact audit_of_noSend (by simp)

theorem Disciplined.map_wrapEffect (known : MembershipState)
    (h : Disciplined es) : Disciplined (es.map (wrapEffect known)) := by
  rcases h with h | ⟨transfer, descriptor, retained, rfl⟩
  · exact Or.inl (h.map_wrapEffect known)
  · exact Or.inr ⟨transfer, descriptor, retained, rfl⟩

theorem wrapEffect_isSend (known : MembershipState) (e : Effect) :
    (wrapEffect known e).isSend = e.isSend := by
  cases e with
  | send dest msg => cases msg <;> rfl
  | _ => rfl

theorem Only.map_wrapEffect_silent (known : MembershipState)
    (h : Only Silent es) : Only Silent (es.map (wrapEffect known)) := by
  refine Only.map fun e he => ?_
  obtain ⟨-, -, -, -, hpub⟩ := wrapEffect_kind known e
  rw [Effect.Silent, wrapEffect_isSend, hpub]
  exact h e he

/-- A batch is in order or a publication, or it answers a proposal and stays at home. -/
theorem RaftNode.step_kind
    (h : n.step input = some (n', es)) : Disciplined es ∨ Only Silent es := by
  rcases step_cases h with ⟨-, rfl⟩ | ⟨raw, hraw, hes⟩
  · exact Or.inr Only.nil
  have hkind : Disciplined raw ∨ Only Silent raw := by
    cases input with
    | clientPropose => exact Or.inr (onClientProposeBatch_silent _ hraw)
    | clientProposeBatch => exact Or.inr (onClientProposeBatch_silent _ hraw)
    | _ => exact Or.inl (handle_disciplined rfl hraw)
  rcases hes with rfl | ⟨known, rfl⟩
  · exact hkind
  · exact hkind.imp (Disciplined.map_wrapEffect known) (Only.map_wrapEffect_silent known)

/-- **The driver's audit accepts every batch.** -/
theorem RaftNode.step_audit
    (h : n.step input = some (n', es)) : auditPersistBeforeSend es = .ok () := by
  rcases step_kind h with hd | hs
  · exact hd.audit
  · refine audit_of_noSend fun dest msg he => ?_
    cases (hs _ he).1

/-- A publication is alone in its batch. -/
theorem RaftNode.step_publish
    (h : n.step input = some (n', es)) {transfer : Option SnapshotTransferId}
    {retained : List Entry} (he : .publishSnapshot transfer descriptor retained ∈ es) :
    es = [.publishSnapshot transfer descriptor retained] := by
  rcases step_kind h with (hc | ⟨transfer', descriptor', retained', rfl⟩) | hs
  · cases hc.noPublish _ he
  · rw [List.mem_singleton.1 he]
  · cases (hs _ he).2

theorem onCompact_recoveryPending (h : onCompact descriptor n = some (u, n', es)) :
    n'.recoveryPending = n.recoveryPending := by
  unfold onCompact at h
  rw [peek_bind] at h
  split at h
  · cases h; rfl
  · split at h
    · cases h; rfl
    · cases h; rfl

theorem cancelIncomingSnapshot_recoveryPending (h : cancelIncomingSnapshot n = some (u, n', es)) :
    n'.recoveryPending = n.recoveryPending := by
  unfold cancelIncomingSnapshot at h
  rw [peek_bind] at h
  cases hin : n.incomingSnapshot with
  | none =>
    simp only [hin] at h
    cases h; rfl
  | some active =>
    simp only [hin] at h
    cases h; rfl

theorem cancelAndRefuse_recoveryPending {offset : Nat}
    (h : (do cancelIncomingSnapshot; snapshotRefuse transfer offset : Handler Unit) n =
      some (u, n', es)) : n'.recoveryPending = n.recoveryPending := by
  obtain ⟨u₁, n₁, e₁, e₂, h₁, h₂, rfl⟩ := bind_eq_some h
  cases h₂
  exact cancelIncomingSnapshot_recoveryPending h₁

theorem completeStage_recoveryPending {nextOffset contactRound : Nat}
    (h : completeStage transfer descriptor nextOffset contactRound n =
      some (u, n', es)) : n'.recoveryPending = n.recoveryPending := by
  unfold completeStage at h
  rw [peek_bind] at h
  split at h
  · cases h; rfl
  · split at h
    · exact cancelAndRefuse_recoveryPending h
    · cases h; rfl

theorem onSnapshotChunkStaged_recoveryPending {offset : Nat} {result : SnapshotStageResult}
    (h : onSnapshotChunkStaged transfer descriptor offset result n = some (u, n', es)) :
    n'.recoveryPending = n.recoveryPending := by
  unfold onSnapshotChunkStaged at h
  rw [peek_bind] at h
  cases hin : n.incomingSnapshot with
  | none =>
    simp only [hin] at h
    cases h; rfl
  | some active =>
  simp only [hin] at h
  split at h
  · cases h; rfl
  cases hpend : active.pending with
  | none =>
    simp only [hpend] at h
    cases h; rfl
  | some pending =>
  simp only [hpend] at h
  split at h
  · cases h; rfl
  obtain ⟨n₁, rfl, h⟩ := update_bind_inv h
  cases result with
  | rejected => cases h; rfl
  | accepted nextOffset complete =>
    dsimp only at h
    split at h
    · exact (cancelAndRefuse_recoveryPending h).trans rfl
    obtain ⟨n₂, rfl, h⟩ := update_bind_inv h
    split at h
    · cases h; rfl
    · exact (completeStage_recoveryPending h).trans rfl

theorem handle_noPublish (h : input.mayPublish = false) :
    Emits (Only fun e => e.isPublish = false) (handle input) := by
  have hsilent (commands : List Command) :
      Emits (Only fun e => e.isPublish = false) (onClientProposeBatch commands) :=
    (onClientProposeBatch_silent commands).mono fun _ ho e he => (ho e he).2
  cases input with
  | clientPropose => exact hsilent _
  | clientProposeBatch => exact hsilent _
  | _ => exact (handle_campaigns rfl h).mono fun _ => Campaigns.noPublish

/-- Only some inputs start a publication. -/
theorem RaftNode.step_noPublish
    (h : n.step input = some (n', es)) (hin : input.mayPublish = false) :
    Only (fun e => e.isPublish = false) es := by
  rcases step_cases h with ⟨-, rfl⟩ | ⟨raw, hraw, rfl | ⟨known, rfl⟩⟩
  · exact Only.nil
  · exact handle_noPublish hin hraw
  · refine Only.map fun e he => ?_
    rw [(wrapEffect_kind known e).2.2.2.2]
    exact handle_noPublish hin hraw e he

/-- The callback of a publication is not ignored. -/
theorem RaftNode.step_publish_ready
    (h : n.step input = some (n', es)) (he : e ∈ es) (hpub : e.isPublish = true) :
    n'.recoveryPending = false := by
  have hinput : input.mayPublish = true := by
    by_contra hno
    rw [Bool.not_eq_true] at hno
    rw [step_noPublish h hno e he] at hpub
    cases hpub
  unfold step at h
  split at h
  · cases h
    cases he
  next hready =>
  obtain ⟨⟨u, m, raw⟩, hraw, heq⟩ := Option.map_eq_some_iff.1 h
  cases heq
  have hnot : n.recoveryPending = false := by
    by_contra hcon
    refine hready ⟨Bool.not_eq_false _ ▸ hcon, ?_⟩
    rintro rfl
    cases hinput
  rw [← hnot]
  cases input with
  | compact => exact onCompact_recoveryPending hraw
  | snapshotChunkStaged => exact onSnapshotChunkStaged_recoveryPending hraw
  | _ => cases hinput

end MicroRaft
