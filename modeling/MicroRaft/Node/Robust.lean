import MicroRaft.Node.Campaign
import MicroRaft.Node.Step

/-!
# A node does not panic

The rest of the handlers, and `step` itself: from a node that satisfies the
representation invariant, no input that its driver may deliver makes the node
panic, and the node it leaves satisfies the invariant again.
-/

namespace MicroRaft

open EffectM

variable {change : ConfigurationEntry} {sender : NodeId} {msg : RaftMessage}

namespace RaftNode

variable {n : RaftNode} {calm : Prop}

/-! ## Changing the membership -/

/-- A configuration entry that may come next in the log of a leader. -/
structure Proposes (n : RaftNode) (change : ConfigurationEntry) : Prop where
  lead : n.isLeader = true
  clear : n.uncommittedConfiguration = false
  applies : n.lastLogIndex + 1 < u64Max → ∃ m, n.committedMembership.advanced (n.lastLogIndex + 1)
    n.hard.currentTerm change = .ok m

theorem Proposes.congr {n' : RaftNode} (h : n.Proposes change)
    (hf : n'.facade = n.facade) : n'.Proposes change := by
  rw [eq_wearing hf]
  exact { h with }

/-- Without a configuration entry above it, the committed membership is that of the log. -/
theorem Rep.committed_of_clear (h : n.Rep calm) (hclear : n.uncommittedConfiguration = false) :
    membershipAfter n.baseMembership n.log = .ok n.committedMembership := by
  have hfloor := h.ordered.floor.trans h.ordered.applied
  obtain ⟨m, hm, hrest⟩ := h.membershipAt_ok hfloor
  rw [h.configured.committed] at hm
  cases hm
  rw [← hrest]
  refine membershipAfter_of_not_conf fun e he => ?_
  have hlt := ((h.ordered.contiguous.drop (n.commitIndex - n.snapshotIndex)).mem_bounds he).1
  have hmem := List.any_eq_false.1 hclear e (List.mem_of_mem_drop he)
  rw [Bool.and_eq_true, decide_eq_true_eq] at hmem
  exact eq_false_of_ne_true fun hconf => hmem ⟨by omega, hconf⟩

/-- The configuration entry a leader appends next. -/
def nextConfiguration (n : RaftNode) (change : ConfigurationEntry) : Entry where
  index := n.lastLogIndex + 1
  term := n.hard.currentTerm
  command := .configuration change

/-- With the entry in its log the node still satisfies the invariant, and the entry forgets
nobody. -/
theorem Proposes.appended (hproposes : n.Proposes change)
    (h : n.Ready calm) (hmax : n.lastLogIndex + 1 < u64Max) :
    Rep calm { n with log := n.log ++ [n.nextConfiguration change] } ∧
      Widens { n with log := n.log ++ [n.nextConfiguration change] } := by
  obtain ⟨m, hm⟩ := hproposes.applies hmax
  have hbase := h.toRep.committed_of_clear hproposes.clear
  have hreplay : membershipAfter n.baseMembership (n.log ++ [n.nextConfiguration change]) =
      .ok m := by
    rw [membershipAfter_concat, hbase]
    exact hm
  refine ⟨h.toRep.extend (Numbered.cons_iff.2 ⟨rfl, .nil⟩)
    (List.forall_mem_singleton.2 hmax.le) (List.forall_mem_singleton.2 rfl) ⟨m, hreplay⟩, ?_⟩
  intro _ m' hm' p hp
  obtain rfl : m = m' := Except.ok.inj (hreplay.symm.trans hm')
  obtain ⟨m₀, hm₀, heff⟩ := h.fresh
  obtain rfl : _ = m₀ := Except.ok.inj (hbase.symm.trans hm₀)
  have hknown : p ∈ n.effectiveMembership.known := hp
  rw [heff] at hknown
  exact CommittedMembership.advanced_known hm hknown

theorem appendConfiguration_safe (h : n.Ready calm)
    (hproposes : n.Proposes change) : n.Safe calm (appendConfiguration change) := by
  refine ends_peek_bind.2 ?_
  split
  · exact Safe.pure h
  next index hindex =>
  obtain ⟨rfl, hmax⟩ := nextIndex_eq_some hindex
  obtain ⟨hrep, hwide⟩ := hproposes.appended h hmax
  refine ends_update_bind.2 (ends_emit_bind.2 (Safe.after ?_ (.of_role rfl rfl)))
  refine Safe.bind (refreshEffectiveMembership_safe hrep h.idle hwide) fun _ _ h₁ _ => ?_
  exact Safe.bind (commitQuorum_safe h₁) fun _ _ h₂ _ => Safe.pure h₂

/-- Room for an entry after everything that is committed. -/
theorem Rep.committed_lt (h : n.Rep calm) : n.committedMembership.index < n.lastLogIndex + 1 :=
  Nat.lt_succ_of_le (h.committed_position.1.trans h.ordered.commit)

/-- A pending joint change may be finished. -/
theorem Ready.proposes_final (h : n.Ready calm) (hlead : n.isLeader = true)
    (hclear : n.uncommittedConfiguration = false) {id : String} {record : AdminRecord}
    (hpending : n.committedMembership.state.pending = some (id, record)) :
    n.Proposes { requestId := id, operation := record.operation, phase := .final } := by
  refine ⟨hlead, hclear, fun hmax => ?_⟩
  have hpos := h.elected (Or.inl hlead)
  exact h.committed_grown.orderly.finish hpending h.toRep.committed_lt h.committed_position.2
    hmax.ne hpos.ne'

theorem maybeFinalizeMembership_safe (h : n.Ready calm) : n.Safe calm maybeFinalizeMembership := by
  refine ends_peek_bind.2 ?_
  split
  · exact Safe.pure h
  next hok =>
  rw [not_or, Bool.not_eq_false, Bool.not_eq_true] at hok
  split
  · exact Safe.pure h
  next id record hpending =>
  exact Safe.bind (appendConfiguration_safe h (h.proposes_final hok.1 hok.2 hpending))
    fun _ _ h₁ _ => Safe.pure h₁

/-! ## Administration -/

/-- The catch-up proof changes no field of the invariant. -/
theorem fenceFor_ends (requestId : String) (operation : AdminOperation) :
    Ends (fun _ n' => n'.facade = n.facade) (fenceFor requestId operation) n := by
  refine ends_peek_bind.2 ?_
  split
  · exact ends_pure.2 rfl
  · exact ends_update_bind.2 (ends_pure.2 rfl)

theorem promotionRefusal_ends (requestId : String) (operation : AdminOperation) :
    Ends (fun _ n' => n'.facade = n.facade) (promotionRefusal requestId operation) n := by
  cases operation with
  | setVoters voters =>
    refine ends_peek_bind.2 (ends_bind.2 ((fenceFor_ends ..).mono fun fence n' hn' => ?_))
    split
    · exact ends_pure.2 hn'
    split
    · split
      · exact ends_pure.2 hn'
      · exact ends_pure.2 hn'
    · exact ends_pure.2 hn'
  | addLearner id endpoints => exact ends_pure.2 rfl
  | remove id => exact ends_pure.2 rfl

theorem admitChange_safe (h : n.Ready calm) {requestId : String} {operation : AdminOperation}
    {phase : ConfigurationPhase} (hproposes : n.Proposes { requestId, operation, phase }) :
    n.Safe calm (admitChange requestId operation phase) := by
  refine ends_peek_bind.2 (ends_bind.2 ((promotionRefusal_ends ..).mono fun refusal n' hn' => ?_))
  refine Safe.after ?_ (.congr hn')
  have h₁ : n'.Ready calm := h.congr hn'
  split
  · exact Safe.pure h₁
  refine Safe.bind (appendConfiguration_safe h₁ (hproposes.congr hn')) fun _ _ h₂ _ => ?_
  split
  · exact Safe.update_bind h₂ rfl Safe.pure
  · exact ends_peek_bind.2 (Safe.pure h₂)

theorem admitMembership_safe (h : n.Ready calm) (requestId : String) (operation : AdminOperation) :
    n.Safe calm (admitMembership requestId operation) := by
  refine ends_peek_bind.2 ?_
  split
  · exact Safe.pure h
  next hlead =>
  rw [Bool.not_eq_true', Bool.not_eq_false] at hlead
  split
  · exact Safe.pure h
  split
  · exact Safe.pure h
  split
  · exact Safe.pure h
  next hclear =>
  split
  · exact Safe.pure h
  split
  · exact Safe.pure h
  next phase hphase =>
  refine admitChange_safe h ⟨hlead, eq_false_of_ne_true hclear, fun hmax => ?_⟩
  have hpos := h.elected (Or.inl hlead)
  exact CommittedMembership.begin_advanced hphase h.toRep.committed_lt h.committed_position.2
    hmax.ne hpos.ne'

theorem onMembershipChange_safe (h : n.Ready calm) (requestId : String)
    (operation : AdminOperation) : n.Safe calm (onMembershipChange requestId operation) :=
  Safe.bind (admitMembership_safe h requestId operation) fun _ _ h₁ _ => Safe.emit h₁

theorem onMembershipAdvertisement_safe (h : n.Ready calm) {term : Nat}
    {configuration : CommittedMembership} :
    n.Safe calm (onMembershipAdvertisement sender term configuration) := by
  refine ends_peek_bind.2 ?_
  split
  · exact Safe.pure h
  · exact Safe.bind (Safe.emits h) fun _ _ h₁ _ => Safe.update h₁ rfl

/-! ## The clock -/

theorem leaderTick_safe (h : n.Ready calm) (nowMs : Nat) : n.Safe calm (leaderTick nowMs) := by
  refine Safe.bind (maybeFinalizeMembership_safe h) fun _ _ h₁ _ => ends_peek_bind.2 ?_
  split
  · exact Safe.pure h₁
  split
  · exact Safe.bind (sendAppendEntries_safe h₁) fun _ _ h₂ _ => Safe.update h₂ rfl
  · exact Safe.pure h₁

/-- Giving up the leadership at the end of a quorum window. -/
theorem resign_safe (h : n.Ready calm) : n.Safe calm (do
    becomeFollower
    update fun n => { n with leaderHint := none }
    resetElectionDeadline) :=
  Safe.bind (becomeFollower_safe h) fun _ _ h₁ _ =>
    Safe.update_bind h₁ rfl resetElectionDeadline_safe

theorem quorumWindow_safe (h : n.Ready calm) (nowMs : Nat) : n.Safe calm (quorumWindow nowMs) := by
  refine ends_peek_bind.2 ?_
  split
  · dsimp only
    split
    · split
      · exact resign_safe h
      · exact Safe.update_bind h rfl fun h₁ => leaderTick_safe h₁ nowMs
    · exact resign_safe h
  · exact leaderTick_safe h nowMs

theorem onTick_safe (h : n.Ready calm) (nowMs : Nat) : n.Safe calm (onTick nowMs) := by
  refine ends_peek_bind.2 ?_
  split
  · exact Safe.pure h
  refine Safe.update_bind h rfl fun h₁ => ?_
  split
  · refine Safe.update_bind h₁ rfl fun h₂ => Safe.bind (becomeFollower_safe h₂) fun _ _ h₃ _ => ?_
    exact Safe.update h₃ rfl
  refine Safe.bind (Safe.when h₁ fun _ => resetElectionDeadline_safe h₁) fun _ _ h₂ _ => ?_
  refine ends_peek_bind.2 ?_
  split
  · exact quorumWindow_safe h₂ nowMs
  split
  · exact startPreVote_safe h₂
  · exact Safe.pure h₂

/-! ## Messages -/

/-- Adopting a term: the node is a follower of a newer term, or nothing happened. -/
theorem adoptTerm_ends (h : n.Ready calm) (term : Nat) :
    Ends (fun _ n' => n'.Ready calm ∧ n.Grows n' ∧ term ≤ n'.hard.currentTerm ∧
      n'.peers = n.peers ∧ n'.genesisMembership = n.genesisMembership ∧
      (n' = n ∨ n'.role = .follower)) (adoptTerm term) n := by
  refine ends_peek_bind.2 ?_
  split
  · next hgt =>
      refine ends_update_bind.2 (ends_emit_bind.2 (ends_becomeFollower_bind.2 ?_))
      refine ends_update_bind.2 (ends_cancelIncomingSnapshot.2 ?_)
      have hrep : Rep calm { n with
        hard := { n.hard with currentTerm := term, votedFor := none } } :=
        h.toRep.raise hgt.le rfl
      refine ⟨⟨?_, h.fresh, h.idle⟩, .of_lt hgt, le_rfl, rfl, rfl, Or.inr rfl⟩
      exact hrep.steppedDown.clearIncoming.congr rfl
  · next hle => exact ends_pure.2 ⟨h, .refl n, not_lt.1 hle, rfl, rfl, Or.inl rfl⟩

/-- The message is a refusal that would put a retry cursor behind what is confirmed. -/
def Refuses (n : RaftNode) (sender : NodeId) (msg : RaftMessage) : Prop :=
  ∃ transfer nextOffset matchIndex installed round,
    msg = .installSnapshotReply n.hard.currentTerm transfer nextOffset matchIndex false installed
      round ∧ n.Regresses sender transfer matchIndex

/-- What a message has to be, for its handler, after its term has been adopted. -/
structure Admissible (n : RaftNode) (sender : NodeId) (msg : RaftMessage) : Prop where
  term : n.messageTerm msg ≤ n.hard.currentTerm
  tracked : ∀ {term transfer nextOffset matchIndex accepted installed round},
    msg = .installSnapshotReply term transfer nextOffset matchIndex accepted installed round →
      sender ∈ n.peers
  receivable : ∀ {transfer descriptor offset data done round},
    msg = .installSnapshot transfer descriptor offset data done round →
      n.Receivable descriptor ∧ offset + data.length ≤ u64Max

theorem dispatch_safe (h : n.Ready calm)
    (hadm : n.Admissible sender msg) (hcalm : calm → ¬ n.Refuses sender msg) :
    n.Safe calm (dispatch sender msg) := by
  cases msg with
  | groupMessage groupId genesisVoters message => exact Safe.pure h
  | membershipAdvertisement term configuration => exact Safe.pure h
  | requestVote term candidateId lastLogIndex lastLogTerm => exact onRequestVote_safe h
  | requestVoteReply term voteGranted => exact onRequestVoteReply_safe h
  | appendEntries term leaderId prev prevTerm entries leaderCommit round =>
    rw [dispatch]
    split
    · next hframe =>
        exact onAppendEntries_safe h hframe hadm.term leaderId leaderCommit round
    · exact Safe.pure h
  | appendEntriesReply term success matchIndex round conflict =>
    exact onAppendEntriesReply_safe h term success matchIndex round conflict
  | preVote prospectiveTerm campaignId candidateId lastLogIndex lastLogTerm =>
    exact ends_peek_bind.2 (Safe.emit h)
  | preVoteReply term prospectiveTerm campaignId voteGranted => exact onPreVoteReply_safe h
  | readProbe term leaderId context => exact onReadProbe_safe h
  | readProbeReply term context accepted => exact onReadProbeReply_safe h
  | compactedPrefix term lastIncludedIndex lastIncludedTerm round =>
    refine ends_peek_bind.2 ?_
    split
    · exact onAppendEntriesReply_safe h term true lastIncludedIndex round none
    · exact Safe.pure h
  | installSnapshot transfer descriptor offset data done round =>
    obtain ⟨hreceive, hend⟩ := hadm.receivable rfl
    exact onInstallSnapshot_safe h hreceive hend
  | installSnapshotReply term transfer nextOffset matchIndex accepted installed round =>
    refine onInstallSnapshotReply_safe h (hadm.tracked rfl) (fun hc hrefused hterm hreg => ?_)
      nextOffset installed round
    subst hrefused hterm
    exact hcalm hc ⟨_, _, _, _, _, rfl, hreg⟩

/-- An image whose membership the node accepts is of the node's group. -/
theorem Rep.accepted_grown (h : n.Rep calm) {d : SnapshotDescriptor}
    (hd : n.validSnapshotMembership d = true) :
    Grown n.genesisMembership (d.metadata.membership.getD n.genesisMembership) := by
  unfold validSnapshotMembership at hd
  split at hd
  · next hsame =>
      have hbase := h.configured.base
      rw [baseMembership, hsame] at hbase
      exact hbase
  · split at hd
    · next incoming hm =>
        rw [hm]
        exact h.committed_grown.of_extension hd
    · next hm =>
        rw [hm]
        exact h.configured.base.genesis.grown

/-- The checks made before the term of a message is looked at. -/
theorem Rep.admissible (h : n.Rep calm) {n₁ : RaftNode}
    (heligible : n.eligible sender msg = true) (hformed : n.malformed sender msg = false)
    (hterm : n.messageTerm msg ≤ n₁.hard.currentTerm) (hpeers : n₁.peers = n.peers)
    (hgenesis : n₁.genesisMembership = n.genesisMembership) : n₁.Admissible sender msg where
  term := by
    cases msg with
    | groupMessage => exact le_rfl
    | membershipAdvertisement => exact le_rfl
    | preVote => exact le_rfl
    | _ => exact hterm
  tracked := by
    rintro term transfer nextOffset matchIndex accepted installed round rfl
    rw [hpeers]
    exact List.contains_iff_mem.1 heligible
  receivable := by
    rintro transfer descriptor offset data done round rfl
    simp only [malformed, Bool.or_eq_false_iff, decide_eq_false_iff_not, not_lt,
      Bool.not_eq_false'] at hformed
    obtain ⟨⟨⟨-, hincluded⟩, hmembership⟩, hchunk⟩ := hformed
    obtain ⟨hvalid, hend⟩ := validChunk_end hchunk
    exact ⟨⟨hvalid, hincluded.trans hterm, hgenesis ▸ h.accepted_grown hmembership⟩, hend⟩

theorem onProtocolMessage_safe (h : n.Ready calm)
    (hcalm : calm → ¬ n.Refuses sender msg) : n.Safe calm (onProtocolMessage sender msg) := by
  refine ends_peek_bind.2 ?_
  split
  · exact Safe.pure h
  next hok =>
  rw [not_or, not_or, Bool.not_eq_false, Bool.not_eq_true] at hok
  split
  · exact appendReject_safe h
  refine ends_bind.2 ((adoptTerm_ends h _).mono fun _ n₁ hn₁ => ?_)
  obtain ⟨h₁, hgrows, hterm, hpeers, hgenesis, hsame⟩ := hn₁
  refine Safe.after (dispatch_safe h₁ ?_ fun hc => ?_) hgrows
  · exact h.toRep.admissible hok.2.1 hok.2.2 hterm hpeers hgenesis
  · rcases hsame with rfl | hfollower
    · exact hcalm hc
    · rintro ⟨_, _, _, _, _, -, _, _, _, _, -, -, -, -, -, hrole, -, -⟩
      rw [hfollower] at hrole
      cases hrole

theorem onMessage_safe (h : n.Ready calm)
    (hcalm : calm → ∀ m, n.unwrapGroupMessage msg = some m → ¬ n.Refuses sender m) :
    n.Safe calm (onMessage sender msg) := by
  refine ends_peek_bind.2 ?_
  split
  · exact Safe.pure h
  · exact onMembershipAdvertisement_safe h
  · next m _ hm => exact onProtocolMessage_safe h fun hc => hcalm hc m hm

/-! ## One step -/

theorem onRecover_safe (h : n.Ready calm) : n.Safe calm onRecover := by
  refine ends_peek_bind.2 ?_
  split
  · exact Safe.pure h
  refine Safe.update_bind h rfl fun h₁ => ?_
  refine Safe.bind (Safe.when h₁ fun _ => ?_) fun _ _ h₂ _ => applyCommitted_safe h₂
  exact Safe.bind (Safe.emit h₁) fun _ _ h₂ _ => Safe.update h₂ rfl

/-- The input is a refusal that would put a retry cursor behind what is confirmed. -/
def Retreats (n : RaftNode) (input : Input) : Prop :=
  ∃ sender msg m, input = .message sender msg ∧ n.unwrapGroupMessage msg = some m ∧
    n.Refuses sender m

theorem handle_settles (h : n.Steady calm) {input : Input} (htakes : n.Takes input)
    (hlands : ∀ {p : PublishingSnapshot}, n.publishingSnapshot = some p → p.transfer ≠ none →
      n.Lands p.descriptor)
    (hcalm : calm → ¬ n.Retreats input) : n.Settles calm (handle input) := by
  unfold Takes at htakes
  cases hpub : n.publishingSnapshot with
  | some p =>
    rw [hpub] at htakes
    subst htakes
    exact onSnapshotPublished_settles h hlands _ _
  | none =>
    have hready := h.ready hpub
    cases input with
    | recover => exact (onRecover_safe hready).settles
    | membershipChange requestId operation =>
      exact (onMembershipChange_safe hready requestId operation).settles
    | message sender msg =>
      refine (onMessage_safe hready fun hc m hm hrefuses => ?_).settles
      exact hcalm hc ⟨sender, msg, m, rfl, hm, hrefuses⟩
    | tick nowMs => exact (onTick_safe hready nowMs).settles
    | clientPropose command => exact (onClientProposeBatch_safe hready [command]).settles
    | clientProposeBatch commands => exact (onClientProposeBatch_safe hready commands).settles
    | readIndex requestId => exact (onReadIndex_safe hready requestId).settles
    | cancelRead requestId => exact (cancelRead_safe hready requestId).settles
    | compact descriptor => exact onCompact_settles hready descriptor
    | snapshotChunkRead dest transfer descriptor offset data =>
      exact (onSnapshotChunkRead_safe hready).settles
    | snapshotChunkStaged transfer descriptor offset result =>
      exact onSnapshotChunkStaged_settles hready
    | snapshotPublished transfer descriptor =>
      exact onSnapshotPublished_settles h hlands transfer descriptor

/-- **A step does not panic**, and keeps the representation invariant. -/
theorem step_settles (h : n.Steady calm) {input : Input} (htakes : n.Takes input)
    (hlands : ∀ {p : PublishingSnapshot}, n.publishingSnapshot = some p → p.transfer ≠ none →
      n.Lands p.descriptor)
    (hcalm : calm → ¬ n.Retreats input) :
    ∃ n' es, n.step input = some (n', es) ∧ n'.Steady calm ∧ n.Grows n' := by
  unfold step
  split
  · exact ⟨n, [], rfl, h, .refl n⟩
  · obtain ⟨u, n', raw, hrun, hsteady, hgrows⟩ := handle_settles h htakes hlands hcalm
    exact ⟨n', n'.wrapGroupEffects raw, by rw [hrun]; rfl, hsteady, hgrows⟩

end RaftNode

end MicroRaft
