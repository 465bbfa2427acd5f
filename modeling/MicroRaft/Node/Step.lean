import MicroRaft.Node.Election

/-!
# Every step is a run of moves

Membership administration, the clock, message dispatch and recovery; then the
result the rest of the development rests on: whatever the input, a step of the
node is a run of elementary moves.
-/

namespace MicroRaft

open EffectM

variable {c : Cause} {n n' : RaftNode} {es : List Effect} {u : Unit}

/-- A run that ends without a publication pending. -/
def RaftNode.Runs (c : Cause) (n : RaftNode) (es : List Effect) (n' : RaftNode) : Prop :=
  Steps c n es n' ∧ n'.publishingSnapshot = none

namespace RaftNode.Runs

theorem refl (hidle : n.publishingSnapshot = none) : n.Runs c [] n := ⟨Run.nil n, hidle⟩

theorem trans {n'' : RaftNode} {es' : List Effect} (h : n.Runs c es n') (h' : n'.Runs c es' n'') :
    n.Runs c (es ++ es') n'' :=
  ⟨h.1.trans h'.1, h'.2⟩

theorem contiguous (h : n.Runs c es n') (hidle : n.publishingSnapshot = none)
    (hc : n.Contiguous) : n'.Contiguous :=
  (h.1.sound (.of_idle hc hidle)).contiguous

/-- A change of bookkeeping. -/
theorem of_core (h : n'.core = n.core) (hidle : n.publishingSnapshot = none) : n.Runs c [] n' :=
  ⟨Steps.weaken (RaftNode.Weakens.of_eq h) hidle, (congrArg Core.publishingSnapshot h).trans hidle⟩

theorem of_stepDown (h : n'.core = n.steppedDown.core) (hidle : n.publishingSnapshot = none) :
    n.Runs c n.stepDownNotes n' := by
  refine ⟨Steps.trans_silent (steppedDown_steps hidle) (Steps.weaken (n := n.steppedDown)
    (RaftNode.Weakens.of_eq h) hidle), (congrArg Core.publishingSnapshot h).trans hidle⟩

end RaftNode.Runs

/-! ## Membership administration -/

theorem appendConfiguration_spec {change : ConfigurationEntry} {r : Option Nat}
    (h : appendConfiguration change n = some (r, n', es)) (hidle : n.publishingSnapshot = none)
    (hc : n.Contiguous) (hlead : n.isLeader = true) (hclear : n.uncommittedConfiguration = false) :
    n.Runs c es n' := by
  unfold appendConfiguration at h
  rw [peek_bind] at h
  cases hindex : nextIndex n.lastLogIndex 1 with
  | none =>
    simp only [hindex] at h
    cases h
    exact .refl hidle
  | some index =>
  simp only [hindex] at h
  obtain ⟨n₁, hn₁, h⟩ := update_bind_inv h
  obtain ⟨e₁, h₁, rfl⟩ := emit_bind_inv h
  obtain ⟨u₂, n₂, e₂, e₃, h₂, h₃, rfl⟩ := bind_eq_some h₁
  have hidle₁ : n₁.publishingSnapshot = none := by rw [hn₁]; exact hidle
  obtain ⟨next, hnext, hq⟩ := refreshEffectiveMembership_spec (c := c) h₂ hidle₁
  have hidle₂ := hq.idle hidle₁
  rw [hn₁] at hnext hq
  have hextend := Steps.move (c := c) (Move.extendConf hlead hclear hindex hnext) hidle
  have hs₂ : Steps c n _ n₂ := Run.trans hextend
    (Steps.silent_trans hq.steps (Steps.notes hq.notes hidle₂))
  obtain ⟨u₄, n₄, e₄, e₅, h₄, h₅, rfl⟩ := bind_eq_some h₃
  have hcommits := commitQuorum_spec (c := c) h₄ hidle₂ (hs₂.sound (.of_idle hc hidle)).contiguous
  cases h₅
  rw [List.append_nil]
  refine ⟨?_, hcommits.idle hidle₂⟩
  have hall := hs₂.trans (hcommits.steps hidle₂)
  rwa [List.append_assoc] at hall

theorem maybeFinalizeMembership_spec (h : maybeFinalizeMembership n = some (u, n', es))
    (hidle : n.publishingSnapshot = none) (hc : n.Contiguous) : n.Runs c es n' := by
  unfold maybeFinalizeMembership at h
  rw [peek_bind] at h
  split at h
  · cases h
    exact .refl hidle
  next hok =>
  rw [not_or, Bool.not_eq_false, Bool.not_eq_true] at hok
  cases hpending : n.committedMembership.state.pending with
  | none =>
    simp only [hpending] at h
    cases h
    exact .refl hidle
  | some p =>
    simp only [hpending] at h
    obtain ⟨r, n₁, e₁, e₂, h₁, h₂, rfl⟩ := bind_eq_some h
    cases h₂
    rw [List.append_nil]
    exact appendConfiguration_spec h₁ hidle hc hok.1 hok.2

variable {operation : AdminOperation} {requestId : String} {sender : NodeId} {msg : RaftMessage}

theorem fenceFor_spec {r : Option Nat}
    (h : fenceFor requestId operation n = some (r, n', es)) : n'.core = n.core ∧ es = [] := by
  unfold fenceFor at h
  rw [peek_bind] at h
  cases hfence : n.promotionFence.filter fun fence => fence.1 = requestId with
  | some fence =>
    simp only [hfence] at h
    cases h
    exact ⟨rfl, rfl⟩
  | none =>
    simp only [hfence, update_bind] at h
    cases h
    exact ⟨rfl, rfl⟩

theorem promotionCheck_spec {voters : List NodeId} {r : Option String}
    (h : promotionCheck requestId operation voters n = some (r, n', es)) :
    n'.core = n.core ∧ es = [] := by
  unfold promotionCheck at h
  rw [peek_bind] at h
  obtain ⟨fence, n₁, e₁, e₂, h₁, h₂, rfl⟩ := bind_eq_some h
  obtain ⟨hcore, rfl⟩ := fenceFor_spec h₁
  cases fence with
  | none =>
    cases h₂
    exact ⟨hcore, rfl⟩
  | some fence =>
    cases hrole : n.role with
    | leader next matched =>
      simp only [hrole] at h₂
      split at h₂ <;>
      · cases h₂
        exact ⟨hcore, rfl⟩
    | _ =>
      simp only [hrole] at h₂
      cases h₂
      exact ⟨hcore, rfl⟩

theorem promotionRefusal_spec
    {r : Option String} (h : promotionRefusal requestId operation n = some (r, n', es)) :
    n'.core = n.core ∧ es = [] := by
  cases operation with
  | setVoters voters => exact promotionCheck_spec h
  | _ =>
    cases h
    exact ⟨rfl, rfl⟩

theorem admitChange_spec {phase : ConfigurationPhase} {r : MembershipOutcome}
    (h : admitChange requestId operation phase n = some (r, n', es))
    (hidle : n.publishingSnapshot = none) (hc : n.Contiguous) (hlead : n.isLeader = true)
    (hclear : n.uncommittedConfiguration = false) : n.Runs c es n' := by
  unfold admitChange at h
  rw [peek_bind] at h
  obtain ⟨refusal, n₁, e₁, e₂, h₁, h₂, rfl⟩ := bind_eq_some h
  obtain ⟨hcore, rfl⟩ := promotionRefusal_spec h₁
  have hrun₁ : n.Runs c [] n₁ := .of_core hcore hidle
  cases refusal with
  | some reason =>
    cases h₂
    exact hrun₁
  | none =>
  obtain ⟨appended, n₂, e₃, e₄, h₃, h₄, rfl⟩ := bind_eq_some h₂
  have hlead₁ : n₁.isLeader = true := by
    unfold RaftNode.isLeader at hlead ⊢
    rw [show n₁.role = n.role from congrArg Core.role hcore]
    exact hlead
  have hclear₁ : n₁.uncommittedConfiguration = false := by
    unfold RaftNode.uncommittedConfiguration at hclear ⊢
    rw [show n₁.log = n.log from congrArg Core.log hcore,
      show n₁.commitIndex = n.commitIndex from congrArg Core.commitIndex hcore]
    exact hclear
  have hrun₂ := appendConfiguration_spec (c := c) h₃ hrun₁.2 (hrun₁.contiguous hidle hc) hlead₁
    hclear₁
  refine hrun₁.trans (hrun₂.trans ?_)
  cases appended with
  | some index =>
    simp only [update_bind] at h₄
    cases h₄
    exact .of_core rfl hrun₂.2
  | none =>
    simp only [peek_bind] at h₄
    cases h₄
    exact .refl hrun₂.2

theorem admitMembership_spec
    {r : MembershipOutcome} (h : admitMembership requestId operation n = some (r, n', es))
    (hidle : n.publishingSnapshot = none) (hc : n.Contiguous) : n.Runs c es n' := by
  unfold admitMembership at h
  rw [peek_bind] at h
  split at h
  · cases h
    exact .refl hidle
  next hlead =>
  cases hrecord : n.committedMembership.state.records[requestId]? with
  | some record =>
    simp only [hrecord] at h
    cases h
    exact .refl hidle
  | none =>
  simp only [hrecord] at h
  cases hlogged : n.loggedRequest requestId with
  | some p =>
    simp only [hlogged] at h
    cases h
    exact .refl hidle
  | none =>
  simp only [hlogged] at h
  split at h
  · cases h
    exact .refl hidle
  next hclear =>
  split at h
  · cases h
    exact .refl hidle
  cases hphase : n.committedMembership.state.firstPhase requestId operation with
  | error reason =>
    simp only [hphase] at h
    cases h
    exact .refl hidle
  | ok phase =>
    simp only [hphase] at h
    exact admitChange_spec h hidle hc (by simpa using hlead) (by simpa using hclear)

theorem onMembershipChange_spec (h : onMembershipChange requestId operation n = some (u, n', es))
    (hidle : n.publishingSnapshot = none) (hc : n.Contiguous) : n.Runs c es n' := by
  unfold onMembershipChange at h
  obtain ⟨outcome, n₁, e₁, e₂, h₁, h₂, rfl⟩ := bind_eq_some h
  have hrun := admitMembership_spec (c := c) h₁ hidle hc
  cases h₂
  exact hrun.trans ⟨Steps.note rfl hrun.2, hrun.2⟩

theorem onMembershipAdvertisement_spec {term : Nat} {configuration : CommittedMembership}
    (h : onMembershipAdvertisement sender term configuration n = some (u, n', es))
    (hidle : n.publishingSnapshot = none) : n.Runs c es n' := by
  unfold onMembershipAdvertisement at h
  rw [peek_bind] at h
  split at h
  · cases h
    exact .refl hidle
  · obtain ⟨e₂, h₂, rfl⟩ := emits_bind_inv h
    cases h₂
    refine RaftNode.Runs.trans ⟨Steps.notes ?_ hidle, hidle⟩ (.of_core rfl hidle)
    intro e he
    obtain ⟨x, -, rfl⟩ := List.mem_map.1 he
    rfl

/-! ## The clock -/

theorem leaderTick_spec {now : Nat} (h : leaderTick now n = some (u, n', es))
    (hidle : n.publishingSnapshot = none) (hc : n.Contiguous) : n.Runs c es n' := by
  unfold leaderTick at h
  obtain ⟨u₁, n₁, e₁, e₂, h₁, h₂, rfl⟩ := bind_eq_some h
  have hrun := maybeFinalizeMembership_spec (c := c) h₁ hidle hc
  refine hrun.trans ?_
  rw [peek_bind] at h₂
  split at h₂
  · cases h₂
    exact .refl hrun.2
  split at h₂
  · obtain ⟨u₃, n₃, e₃, e₄, h₃, h₄, rfl⟩ := bind_eq_some h₂
    obtain ⟨hsend, honly⟩ := sendAppendEntries_spec (c := c) h₃ hrun.2
    have hidle₃ := honly.idle hrun.2
    cases h₄
    exact RaftNode.Runs.trans ⟨hsend, hidle₃⟩ (.of_core rfl hidle₃)
  · cases h₂
    exact .refl hrun.2

/-- Stepping down and drawing a new deadline. -/
theorem stepDownReset_spec
    (h : (do
      becomeFollower
      update fun n => { n with leaderHint := none }
      resetElectionDeadline : Handler Unit) n = some (u, n', es))
    (hidle : n.publishingSnapshot = none) : n.Runs c es n' := by
  obtain ⟨e₁, h₁, rfl⟩ := becomeFollower_bind_inv h
  rw [update_bind] at h₁
  cases h₁
  rw [List.append_nil]
  exact .of_stepDown rfl hidle

theorem quorumWindow_spec {now : Nat} (h : quorumWindow now n = some (u, n', es))
    (hidle : n.publishingSnapshot = none) (hc : n.Contiguous) : n.Runs c es n' := by
  unfold quorumWindow at h
  rw [peek_bind] at h
  split at h
  · cases hround : checkedAdd n.contactRound 1 with
    | none =>
      simp only [hround] at h
      exact stepDownReset_spec h hidle
    | some round =>
      simp only [hround] at h
      split at h
      · exact stepDownReset_spec h hidle
      · obtain ⟨n₁, hn₁, h⟩ := update_bind_inv h
        have hrun : n.Runs c [] n₁ := .of_core (by rw [hn₁]; rfl) hidle
        exact hrun.trans (leaderTick_spec h hrun.2 (hrun.contiguous hidle hc))
  · exact leaderTick_spec h hidle hc

theorem onTick_spec {now : Nat} (h : onTick now n = some (u, n', es))
    (hidle : n.publishingSnapshot = none) (hc : n.Contiguous) : Steps c n es n' := by
  unfold onTick at h
  rw [peek_bind] at h
  split at h
  · cases h
    exact Run.nil n
  obtain ⟨n₁, hn₁, h⟩ := update_bind_inv h
  have hcore₁ : n₁.core = n.core := by rw [hn₁]; rfl
  split at h
  · obtain ⟨n₂, hn₂, h⟩ := update_bind_inv h
    have hrun₂ : n.Runs c [] n₂ := .of_core (by rw [hn₂]; exact hcore₁) hidle
    obtain ⟨e₁, h₁, rfl⟩ := becomeFollower_bind_inv h
    cases h₁
    rw [List.append_nil]
    have hdown : n₂.Runs c n₂.stepDownNotes { n₂.steppedDown with leaderHint := none } :=
      .of_stepDown rfl hrun₂.2
    exact Steps.silent_trans hrun₂.1 hdown.1
  obtain ⟨u₂, n₂, e₂, e₃, h₂, h₃, rfl⟩ := bind_eq_some h
  have hcore₂ : n₂.core = n₁.core ∧ e₂ = [] := by
    rcases when_inv h₂ with ⟨-, h₂⟩ | ⟨-, rfl, rfl⟩
    · exact resetElectionDeadline_spec h₂
    · exact ⟨rfl, rfl⟩
  obtain ⟨hcore₂, rfl⟩ := hcore₂
  have hrun : n.Runs c [] n₂ := .of_core (hcore₂.trans hcore₁) hidle
  have hc₂ := hrun.contiguous hidle hc
  refine Steps.silent_trans hrun.1 ?_
  rw [peek_bind] at h₃
  split at h₃
  · exact (quorumWindow_spec h₃ hrun.2 hc₂).1
  split at h₃
  · exact startPreVote_spec h₃ hrun.2 hc₂
  · cases h₃
    exact Run.nil _

/-! ## Messages -/

theorem adoptTerm_spec {term : Nat} (h : adoptTerm term n = some (u, n', es))
    (hidle : n.publishingSnapshot = none) :
    n.Runs c es n' ∧ term ≤ n'.hard.currentTerm := by
  unfold adoptTerm at h
  rw [peek_bind] at h
  split at h
  · next hgt =>
      obtain ⟨n₁, hn₁, h⟩ := update_bind_inv h
      obtain ⟨e₁, h₁, rfl⟩ := emit_bind_inv h
      obtain ⟨e₂, h₂, rfl⟩ := becomeFollower_bind_inv h₁
      obtain ⟨n₃, hn₃, h₃⟩ := update_bind_inv h₂
      have hcore : n₃.core = n₁.steppedDown.core := by rw [hn₃]; rfl
      have hidle₁ : n₁.publishingSnapshot = none := by rw [hn₁]; exact hidle
      have hidle₃ : n₃.publishingSnapshot = none :=
        (congrArg Core.publishingSnapshot hcore).trans hidle₁
      obtain ⟨hs₃, -, hw₃⟩ := cancelIncomingSnapshot_spec (c := c) h₃ hidle₃
      -- the durable term and the step down are one move; the reports follow
      have hadopt := Steps.move (c := c) (Move.adopt hgt) hidle
      have hcore' : n₃.core = { RaftNode.core { n with
            hard := { n.hard with currentTerm := term, votedFor := none }, role := .follower } with
          outgoingSnapshots := ∅, pendingReads := ∅ } := by
        rw [hcore, hn₁]
        rfl
      have hweaken : RaftNode.Weakens { n with
          hard := { n.hard with currentTerm := term, votedFor := none }, role := .follower } n₃ :=
        RaftNode.Weakens.of_core hcore' (Or.inl rfl) (Or.inr rfl) (Or.inl rfl) (Or.inr rfl)
      refine ⟨⟨?_, hw₃.publishing.trans hidle₃⟩, ?_⟩
      · exact Run.trans hadopt (Steps.silent_trans (Steps.weaken hweaken hidle)
          (Run.trans (Steps.notes n₁.stepDownNotes_isNote hidle₃) hs₃))
      · rw [hw₃.hard, show n₃.hard = n₁.hard from congrArg Core.hard hcore, hn₁]
  · cases h
    exact ⟨.refl hidle, by omega⟩

theorem dispatch_spec {m : RaftNode}
    (h : dispatch sender msg n = some (u, n', es)) (hheard : c = .heard sender msg)
    (hidle : n.publishingSnapshot = none) (hc : n.Contiguous)
    (hterm : m.messageTerm msg ≤ n.hard.currentTerm) (hform : m.malformed sender msg = false) :
    Steps c n es n' := by
  cases msg with
  | groupMessage groupId genesis inner =>
    cases h
    exact Run.nil n
  | membershipAdvertisement term configuration =>
    cases h
    exact Run.nil n
  | requestVote term candidate lastIndex lastTerm =>
    have hid : candidate = sender := by
      by_contra hne
      simp [RaftNode.malformed, hne] at hform
    subst hid
    exact onRequestVote_spec h hheard hterm hidle
  | requestVoteReply term granted => exact onRequestVoteReply_spec h hheard hidle hc
  | appendEntries term leaderId prev prevTerm entries leaderCommit round =>
    have hid : leaderId = sender := by
      by_contra hne
      simp [RaftNode.malformed, hne] at hform
    subst hid
    unfold dispatch at h
    cases hframe : validateAppendEntries term prev prevTerm entries with
    | none =>
      simp only [hframe] at h
      cases h
      exact Run.nil n
    | some last =>
      simp only [hframe] at h
      exact onAppendEntries_spec h hheard hframe hterm hidle hc
  | appendEntriesReply term success index round conflict =>
    refine (onAppendEntriesReply_spec h hidle hc fun hsuccess => ?_).1
    subst hsuccess
    exact Or.inl ⟨round, conflict, hheard⟩
  | preVote prospective campaign candidate lastIndex lastTerm => exact onPreVote_spec h hidle
  | preVoteReply term prospective campaign granted => exact onPreVoteReply_spec h hidle hc
  | readProbe term leaderId context =>
    have hid : leaderId = sender := by
      by_contra hne
      simp [RaftNode.malformed, hne] at hform
    subst hid
    exact onReadProbe_spec h hheard hidle
  | readProbeReply term context accepted => exact onReadProbeReply_spec h hheard hidle
  | compactedPrefix term index boundaryTerm round =>
    simp only [dispatch, peek_bind] at h
    split at h
    · exact (onAppendEntriesReply_spec h hidle hc fun _ =>
        Or.inr (Or.inl ⟨boundaryTerm, round, hheard⟩)).1
    · cases h
      exact Run.nil n
  | installSnapshot transfer descriptor offset data done round =>
    exact onInstallSnapshot_spec h hheard hidle hterm
  | installSnapshotReply term transfer offset index accepted installed round =>
    exact onInstallSnapshotReply_spec h hheard hidle hc

theorem onProtocolMessage_spec
    (h : onProtocolMessage sender msg n = some (u, n', es)) (hheard : c = .heard sender msg)
    (hidle : n.publishingSnapshot = none) (hc : n.Contiguous) : Steps c n es n' := by
  unfold onProtocolMessage at h
  rw [peek_bind] at h
  split at h
  · cases h
    exact Run.nil n
  next hok =>
  rw [not_or, not_or, Bool.not_eq_true] at hok
  split at h
  · exact (appendReject_spec h hidle).1
  · obtain ⟨u₁, n₁, e₁, e₂, h₁, h₂, rfl⟩ := bind_eq_some h
    obtain ⟨hrun, hterm⟩ := adoptTerm_spec (c := c) h₁ hidle
    exact hrun.1.trans
      (dispatch_spec h₂ hheard hrun.2 (hrun.contiguous hidle hc) hterm hok.2.2)

theorem onMessage_spec (h : onMessage sender msg n = some (u, n', es))
    (hheard : ∀ m, n.unwrapGroupMessage msg = some m → c = .heard sender m)
    (hidle : n.publishingSnapshot = none) (hc : n.Contiguous) : Steps c n es n' := by
  unfold onMessage at h
  rw [peek_bind] at h
  cases hunwrap : n.unwrapGroupMessage msg with
  | none =>
    simp only [hunwrap] at h
    cases h
    exact Run.nil n
  | some m =>
    have hc' := hheard m hunwrap
    cases m with
    | membershipAdvertisement term configuration =>
      simp only [hunwrap] at h
      exact (onMembershipAdvertisement_spec h hidle).1
    | _ =>
      simp only [hunwrap] at h
      exact onProtocolMessage_spec h hc' hidle hc

/-! ## Recovery and the step function -/

theorem onRecover_spec (h : onRecover n = some (u, n', es)) (hidle : n.publishingSnapshot = none) :
    Steps c n es n' := by
  unfold onRecover at h
  rw [peek_bind] at h
  split at h
  · cases h
    exact Run.nil n
  obtain ⟨n₁, hn₁, h⟩ := update_bind_inv h
  have hrun₁ : n.Runs c [] n₁ := .of_core (by rw [hn₁]; rfl) hidle
  obtain ⟨u₂, n₂, e₂, e₃, h₂, h₃, rfl⟩ := bind_eq_some h
  have hrun₂ : n₁.Runs c e₂ n₂ := by
    rcases when_inv h₂ with ⟨-, h₂⟩ | ⟨-, rfl, rfl⟩
    · obtain ⟨e₄, h₄, rfl⟩ := emit_bind_inv h₂
      cases h₄
      have hrewrite : n₁.Runs c [.persistHardState n₁.hard] n₁ :=
        ⟨Steps.move Move.rewriteHard hrun₁.2, hrun₁.2⟩
      rw [show n₁.hard = n.hard by rw [hn₁]] at hrewrite
      exact hrewrite.trans (.of_core rfl hrun₁.2)
    · exact .refl hrun₁.2
  obtain ⟨hs₃, heq, hreports⟩ := applyCommitted_spec (c := c) h₃ hrun₂.2
  have hidle₃ : n'.publishingSnapshot = none := by rw [heq]; exact hrun₂.2
  refine (hrun₁.trans hrun₂).1.trans
    (Steps.silent_trans hs₃ (Steps.reports (fun e he => ?_) hidle₃))
  rw [heq]
  exact (hreports e he).of_core rfl rfl rfl

/-- What the moves of a step react to. -/
def RaftNode.causeOf (n : RaftNode) : Input → Cause
  | .message sender msg => (n.unwrapGroupMessage msg).elim .other (.heard sender)
  | .readIndex requestId => .asked requestId
  | _ => .other

/-- The node takes this input next: anything while nothing is being published, and otherwise
the callback of the publication, which follows it in the same batch. -/
def RaftNode.Takes (n : RaftNode) (input : Input) : Prop :=
  match n.publishingSnapshot with
  | none => True
  | some p => input = .snapshotPublished p.transfer p.descriptor

theorem handle_spec {input : Input} (h : handle input n = some (u, n', es)) (hsound : n.Sound)
    (htakes : n.Takes input) : Steps (n.causeOf input) n es n' := by
  unfold RaftNode.Takes at htakes
  cases hpub : n.publishingSnapshot with
  | some p =>
    simp only [hpub] at htakes
    subst htakes
    exact (onSnapshotPublished_spec h hpub ⟨rfl, rfl⟩ hsound).1
  | none =>
  have hc := hsound.contiguous
  cases input with
  | recover => exact onRecover_spec h hpub
  | membershipChange requestId operation => exact (onMembershipChange_spec h hpub hc).1
  | message sender msg =>
    refine onMessage_spec h (fun m hm => ?_) hpub hc
    simp [RaftNode.causeOf, hm]
  | tick now => exact onTick_spec h hpub hc
  | clientPropose command => exact onClientProposeBatch_spec h hpub hc
  | clientProposeBatch commands => exact onClientProposeBatch_spec h hpub hc
  | readIndex requestId => exact onReadIndex_spec h rfl hpub
  | cancelRead requestId => exact cancelRead_spec h hpub
  | compact descriptor => exact onCompact_spec h hpub
  | snapshotChunkRead dest transfer descriptor offset data =>
    exact onSnapshotChunkRead_spec h hpub
  | snapshotChunkStaged transfer descriptor offset result =>
    exact onSnapshotChunkStaged_spec h hpub
  | snapshotPublished transfer descriptor =>
    obtain ⟨rfl, rfl⟩ := onSnapshotPublished_idle h hpub
    exact Run.nil _

/-- **Every step is a run of moves**, whatever the input; the batch is what the moves emit,
inside the envelope of the group. -/
theorem RaftNode.step_steps {input : Input} (h : n.step input = some (n', es)) (hsound : n.Sound)
    (htakes : n.Takes input) :
    ∃ raw, Steps (n.causeOf input) n raw n' ∧ es = n'.wrapGroupEffects raw := by
  unfold RaftNode.step at h
  split at h
  · cases h
    exact ⟨[], Run.nil _, by simp [RaftNode.wrapGroupEffects]⟩
  · obtain ⟨⟨u, m, raw⟩, hhandle, heq⟩ := Option.map_eq_some_iff.1 h
    cases heq
    exact ⟨raw, handle_spec hhandle hsound htakes, rfl⟩

end MicroRaft
