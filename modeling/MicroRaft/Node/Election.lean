import MicroRaft.Node.Replication

/-!
# Elections and reads as runs of moves

Campaigns, votes, the transition to leadership, and the quorum challenge of a
read.
-/

namespace MicroRaft

open EffectM

variable {c : Cause} {n n' : RaftNode} {es : List Effect} {u : Unit}

/-! ## The transition to leadership -/

theorem collect_bind_inv {β : Type} {m : Handler Unit} {f : List Effect → Handler β} {b : β}
    (h : (collect m >>= f) n = some (b, n', es)) :
    ∃ n₁ e₁, m n = some ((), n₁, e₁) ∧ f e₁ n₁ = some (b, n', es) := by
  obtain ⟨a, n₁, e₁, e₂, h₁, h₂, rfl⟩ := bind_eq_some h
  obtain ⟨⟨u, n₂, e₃⟩, hm, heq⟩ := Option.map_eq_some_iff.1 h₁
  cases heq
  exact ⟨_, _, hm, h₂⟩

theorem RaftNode.Reports.not_persistHard {e : Effect} (h : n.Reports e) :
    e.isPersistHard = false := by
  rcases h with hnote | ⟨index, entry, rfl, -, -⟩
  · cases e <;> simp_all [Effect.isNote, Effect.isPersistHard]
  · rfl

/-- Separating the persists of a commit from its reports recovers the two halves. -/
theorem RaftNode.Commits.filter (h : n.Commits c es n') :
    Steps c n (es.filter Effect.isPersistHard) n' ∧
      ∀ e ∈ es.filter (fun e => !e.isPersistHard), n'.Reports e := by
  obtain ⟨persists, reports, rfl, hpersist, hsteps, hreports⟩ := h.split
  have hnone : reports.filter Effect.isPersistHard = [] :=
    List.filter_eq_nil_iff.2 fun e he => by simp [(hreports e he).not_persistHard]
  rw [List.filter_append, List.filter_append, List.filter_eq_self.2 hpersist, hnone,
    List.append_nil]
  refine ⟨hsteps, fun e he => ?_⟩
  rcases List.mem_append.1 he with he | he
  · obtain ⟨hmem, hnot⟩ := List.mem_filter.1 he
    rw [hpersist e hmem] at hnot
    cases hnot
  · exact hreports e (List.mem_filter.1 he).1

/-- A leader that is a quorum by itself may commit its log once it ends in its own term. -/
theorem commitAlone_spec {l : List Entry} {e : Entry}
    (h : commitAlone n = some (u, n', es)) (hidle : n.publishingSnapshot = none)
    (hc : n.Contiguous) (hlead : n.isLeader = true) (hlog : n.log = l ++ [e])
    (hterm : e.term = n.hard.currentTerm) : n.Commits c es n' := by
  unfold commitAlone at h
  rw [peek_bind] at h
  rcases when_inv h with ⟨hself, h⟩ | ⟨-, rfl, rfl⟩
  · have hlast : n.lastLogIndex = e.index := by
      rw [RaftNode.lastLogIndex, hlog, List.getLast?_concat]
      rfl
    rw [hlast] at h
    exact advanceCommit_spec h hidle fun _ => Or.inl
      (RaftNode.QuorumHas.of_self hc hlead hself (by simp [hlog]) hterm)
  · exact RaftNode.Commits.refl _

/-- Giving up a campaign. -/
theorem giveUp_steps {n₁ : RaftNode} (hidle : n.publishingSnapshot = none)
    (hcore : n₁.core = n.core) (hcore' : n'.core = n₁.steppedDown.core) :
    Steps c n n₁.stepDownNotes n' := by
  have hidle₁ : n₁.publishingSnapshot = none := (congrArg Core.publishingSnapshot hcore).trans hidle
  exact Steps.silent_trans (Steps.weaken (RaftNode.Weakens.of_eq hcore) hidle)
    (Steps.trans_silent (steppedDown_steps hidle₁)
      (Steps.weaken (n := n₁.steppedDown) (RaftNode.Weakens.of_eq hcore') hidle₁))

theorem becomeLeader_spec {votes : BTreeSet NodeId} (h : becomeLeader n = some (u, n', es))
    (hidle : n.publishingSnapshot = none) (hc : n.Contiguous) (hrole : n.role = .candidate votes)
    (hquorum : n.voterConfig.hasQuorum votes = true) : Steps c n es n' := by
  unfold becomeLeader at h
  rw [peek_bind] at h
  cases hindex : nextIndex n.lastLogIndex 1 with
  | none =>
    simp only [hindex] at h
    obtain ⟨n₁, hn₁, h⟩ := update_bind_inv h
    obtain ⟨e₁, h₁, rfl⟩ := becomeFollower_bind_inv h
    cases h₁
    rw [List.append_nil]
    exact giveUp_steps hidle (by rw [hn₁]; rfl) rfl
  | some index =>
  simp only [hindex] at h
  obtain ⟨n₁, hn₁, h⟩ := update_bind_inv h
  obtain ⟨e₁, h₁, rfl⟩ := emit_bind_inv h
  have hwin : Steps c n
      [.persistLogEntries none [{ index, term := n.hard.currentTerm, command := .noOp }]] n₁ :=
    Steps.trans_silent (Steps.move (Move.win hrole hquorum hindex) hidle)
      (Steps.weaken (RaftNode.Weakens.of_eq (by rw [hn₁]; rfl)) hidle)
  have hidle₁ : n₁.publishingSnapshot = none := by rw [hn₁]; exact hidle
  have hc₁ : n₁.Contiguous := (hwin.sound (.of_idle hc hidle)).contiguous
  obtain ⟨n₂, committed, h₂, h₃⟩ := collect_bind_inv h₁
  have hcommits := commitAlone_spec (c := c) h₂ hidle₁ hc₁ (by rw [hn₁]; rfl) (by rw [hn₁])
    (by rw [hn₁])
  obtain ⟨hpersists, hreports⟩ := hcommits.filter
  have hidle₂ := hcommits.idle hidle₁
  obtain ⟨e₂, h₄, rfl⟩ := emits_bind_inv h₃
  rw [peek_bind] at h₄
  obtain ⟨e₃, h₅, rfl⟩ := emit_bind_inv h₄
  obtain ⟨u₆, n₆, e₆, e₇, h₆, h₇, rfl⟩ := bind_eq_some h₅
  obtain ⟨hsend, honly⟩ := sendAppendEntries_spec (c := c) h₆ hidle₂
  have hidle₆ := honly.idle hidle₂
  rw [update_bind] at h₇
  cases h₇
  refine Run.trans hwin (Run.trans hpersists (Run.trans (Steps.note rfl hidle₂)
    (Run.trans hsend (Steps.trans_silent (Steps.reports (fun e he => ?_) hidle₆)
      (Steps.weaken (RaftNode.Weakens.of_eq rfl) hidle₆)))))
  exact (hreports e he).of_core (congrArg Core.commitIndex honly) (congrArg Core.snapshot honly)
    (congrArg Core.log honly)

/-! ## Campaigning -/

theorem solicit_spec {msg : RaftMessage} {peer : NodeId}
    (h : solicit msg peer n = some (u, n', es)) (hidle : n.publishingSnapshot = none)
    (hsend : n.MaySend c peer msg) : Steps c n es n' ∧ n' = n := by
  unfold solicit at h
  rw [peek_bind] at h
  split at h
  · cases h
    exact ⟨Run.nil n, rfl⟩
  · obtain ⟨u₁, n₁, e₁, e₂, h₁, h₂, rfl⟩ := bind_eq_some h
    obtain ⟨hs₁, rfl⟩ := advertiseMembership_spec (c := c) h₁ hidle
    cases h₂
    exact ⟨hs₁.trans (Steps.move (Move.send hsend) hidle), rfl⟩

theorem solicitAll_spec {msg : RaftMessage} {peers : List NodeId}
    (h : peers.forM (solicit msg) n = some (u, n', es)) (hidle : n.publishingSnapshot = none)
    (hsend : ∀ peer, n.MaySend c peer msg) : Steps c n es n' := by
  have hloop : Triple (Step c) (· = n) (peers.forM (solicit msg)) fun _ => (· = n) := by
    refine Triple.forM fun peer _ m u' m' es' hm hrun => ?_
    subst hm
    exact solicit_spec hrun hidle (hsend peer)
  exact (hloop rfl h).1

theorem startElection_spec (h : startElection n = some (u, n', es))
    (hidle : n.publishingSnapshot = none) (hc : n.Contiguous) (hrole : n.role.Probing) :
    Steps c n es n' := by
  unfold startElection at h
  rw [peek_bind] at h
  split at h
  · cases h
    exact Run.nil n
  cases hterm : checkedAdd n.hard.currentTerm 1 with
  | none =>
    simp only [hterm] at h
    obtain ⟨n₁, hn₁, h⟩ := update_bind_inv h
    rw [becomeFollower_apply] at h
    cases h
    exact giveUp_steps hidle (by rw [hn₁]; rfl) rfl
  | some term =>
  simp only [hterm] at h
  obtain ⟨n₁, hn₁, h⟩ := update_bind_inv h
  obtain ⟨n₂, hn₂, h₂⟩ := resetElectionDeadline_bind_inv h
  obtain ⟨e₃, h₃, rfl⟩ := emit_bind_inv h₂
  rw [hn₁] at hn₂
  have hcampaign : Steps c n
      [.persistHardState { n.hard with currentTerm := term, votedFor := some n.id }] n₂ :=
    Steps.trans_silent (Steps.move (Move.campaign (checkedAdd_eq_some hterm).1 hrole) hidle)
      (Steps.weaken (RaftNode.Weakens.of_eq hn₂) hidle)
  have hidle₂ : n₂.publishingSnapshot = none := (congrArg Core.publishingSnapshot hn₂).trans hidle
  have hrole₂ : n₂.role = .candidate {n.id} := congrArg Core.role hn₂
  refine Run.trans hcampaign ?_
  rw [peek_bind] at h₃
  split at h₃
  · next hself =>
      have hid : n₂.id = n.id := congrArg Core.id hn₂
      refine becomeLeader_spec h₃ hidle₂ (hcampaign.sound (.of_idle hc hidle)).contiguous hrole₂ ?_
      rw [← hid]
      exact hself
  · obtain ⟨e₄, h₄, rfl⟩ := emit_bind_inv h₃
    exact Run.trans (Steps.note rfl hidle₂)
      (solicitAll_spec h₄ hidle₂ fun _ => ⟨rfl, rfl, rfl, rfl, _, hrole₂⟩)

theorem startPreVote_spec (h : startPreVote n = some (u, n', es))
    (hidle : n.publishingSnapshot = none) (hc : n.Contiguous) : Steps c n es n' := by
  unfold startPreVote at h
  rw [peek_bind] at h
  split at h
  · cases h
    exact Run.nil n
  obtain ⟨u₁, n₁, e₁, e₂, h₁, h₂, rfl⟩ := bind_eq_some h
  obtain ⟨hs₁, hcore, hw⟩ := cancelIncomingSnapshot_spec (c := c) h₁ hidle
  have hidle₁ : n₁.publishingSnapshot = none := hw.publishing.trans hidle
  have hc₁ : n₁.Contiguous := (hs₁.sound (.of_idle hc hidle)).contiguous
  refine hs₁.trans ?_
  have hexhausted : ∀ {m : RaftNode} {es : List Effect},
      (do
        update fun n => { n with campaignExhausted := true }
        becomeFollower : Handler Unit) n₁ = some (u, m, es) → Steps c n₁ es m := by
    intro m es h
    obtain ⟨n₂, hn₂, h⟩ := update_bind_inv h
    rw [becomeFollower_apply] at h
    cases h
    exact giveUp_steps hidle₁ (by rw [hn₂]; rfl) rfl
  cases hterm : checkedAdd n.hard.currentTerm 1 with
  | none =>
    simp only [hterm] at h₂
    exact hexhausted h₂
  | some prospective =>
  cases hseq : checkedAdd n.campaignSequence 1 with
  | none =>
    simp only [hterm, hseq] at h₂
    exact hexhausted h₂
  | some sequence =>
  simp only [hterm, hseq] at h₂
  obtain ⟨n₂, hn₂, h₂⟩ := update_bind_inv h₂
  obtain ⟨n₃, hn₃, h₃⟩ := resetElectionDeadline_bind_inv h₂
  have hprobe : n₃.role.Probing := ⟨_, _, _, (congrArg Core.role hn₃).trans (by rw [hn₂]; rfl)⟩
  have hincoming : n₁.incomingSnapshot = none := congrArg Core.incomingSnapshot hcore
  have hcore₃ : n₃.core = { n₁.core with role := n₃.role } := by
    rw [show n₃.role = n₂.role from congrArg Core.role hn₃, hn₃, hn₂]
    rfl
  have hweaken : n₁.Weakens n₃ := RaftNode.Weakens.of_core hcore₃
    (Or.inr (Or.inr ⟨Or.inl hincoming, hprobe⟩)) (Or.inl rfl) (Or.inl rfl) (Or.inl rfl)
  have hs₃ : Steps c n₁ [] n₃ := Steps.weaken hweaken hidle₁
  have hidle₃ : n₃.publishingSnapshot = none := hweaken.publishing.trans hidle₁
  refine Steps.silent_trans hs₃ ?_
  rw [peek_bind] at h₃
  split at h₃
  · exact startElection_spec h₃ hidle₃ (hs₃.sound (.of_idle hc₁ hidle₁)).contiguous hprobe
  · obtain ⟨e₄, h₄, rfl⟩ := emit_bind_inv h₃
    exact Run.trans (Steps.note rfl hidle₃) (solicitAll_spec h₄ hidle₃ fun _ => trivial)

theorem onPreVote_spec {prospective : Nat} {campaignId : CampaignId} {candidateId : NodeId}
    {lastIndex lastTerm : Nat}
    (h : onPreVote prospective campaignId candidateId lastIndex lastTerm n = some (u, n', es))
    (hidle : n.publishingSnapshot = none) : Steps c n es n' := by
  unfold onPreVote at h
  rw [peek_bind] at h
  cases h
  exact Steps.move (Move.send trivial) hidle

theorem onPreVoteReply_spec {sender : NodeId} {term prospective : Nat} {campaignId : CampaignId}
    {granted : Bool}
    (h : onPreVoteReply sender term prospective campaignId granted n = some (u, n', es))
    (hidle : n.publishingSnapshot = none) (hc : n.Contiguous) : Steps c n es n' := by
  unfold onPreVoteReply at h
  rw [peek_bind] at h
  split at h
  · cases h
    exact Run.nil n
  cases hrole : n.role with
  | preCandidate expectedTerm expectedId votes =>
    simp only [hrole] at h
    split at h
    · cases h
      exact Run.nil n
    obtain ⟨n₁, hn₁, h⟩ := update_bind_inv h
    have hprobe : n₁.role.Probing := ⟨_, _, _, by rw [hn₁]⟩
    have hcore : n₁.core = { n.core with role := n₁.role } := by rw [hn₁]; rfl
    have hweaken : n.Weakens n₁ := RaftNode.Weakens.of_core hcore
      (Or.inr (Or.inr ⟨Or.inr ⟨_, _, _, hrole⟩, hprobe⟩)) (Or.inl rfl) (Or.inl rfl) (Or.inl rfl)
    have hs₁ : Steps c n [] n₁ := Steps.weaken hweaken hidle
    refine Steps.silent_trans hs₁ ?_
    split at h
    · exact startElection_spec h (hweaken.publishing.trans hidle)
        (hs₁.sound (.of_idle hc hidle)).contiguous hprobe
    · cases h
      exact Run.nil _
  | _ =>
    simp only [hrole] at h
    cases h
    exact Run.nil n

/-! ## Real votes -/

theorem onRequestVote_spec {term : Nat} {candidate : NodeId} {lastIndex lastTerm : Nat}
    (h : onRequestVote term candidate lastIndex lastTerm n = some (u, n', es))
    (hheard : c = .heard candidate (.requestVote term candidate lastIndex lastTerm))
    (hle : term ≤ n.hard.currentTerm) (hidle : n.publishingSnapshot = none) : Steps c n es n' := by
  unfold onRequestVote at h
  rw [peek_bind] at h
  split at h
  · cases h
    exact Steps.move (Move.send ⟨rfl, by simp⟩) hidle
  have hterm : term = n.hard.currentTerm := by omega
  subst hterm
  obtain ⟨u₁, n₁, e₁, e₂, h₁, h₂, rfl⟩ := bind_eq_some h
  cases h₂
  rcases when_inv h₁ with ⟨hgrant, h₁⟩ | ⟨hdeny, rfl, rfl⟩
  · obtain ⟨n₂, hn₂, h₁⟩ := update_bind_inv h₁
    obtain ⟨n₃, hn₃, h₃⟩ := resetElectionDeadline_bind_inv h₁
    cases h₃
    rw [hn₂] at hn₃
    rw [Bool.and_eq_true] at hgrant
    have hhard : n'.hard = { n.hard with votedFor := some candidate } := congrArg Core.hard hn₃
    have hidle₁ : n'.publishingSnapshot = none := (congrArg Core.publishingSnapshot hn₃).trans hidle
    refine Run.trans (Steps.trans_silent (Steps.move (Move.grant hheard hgrant.2) hidle)
      (Steps.weaken (RaftNode.Weakens.of_eq hn₃) hidle)) (Steps.move (Move.send ⟨?_, ?_⟩) hidle₁)
    · rw [hhard]
    · rw [hhard]
      exact fun _ => rfl
  · exact Steps.move (Move.send ⟨rfl, fun hcon => absurd hcon hdeny⟩) hidle

theorem onRequestVoteReply_spec {sender : NodeId} {term : Nat} {granted : Bool}
    (h : onRequestVoteReply sender term granted n = some (u, n', es))
    (hheard : c = .heard sender (.requestVoteReply term granted))
    (hidle : n.publishingSnapshot = none) (hc : n.Contiguous) : Steps c n es n' := by
  unfold onRequestVoteReply at h
  rw [peek_bind] at h
  split at h
  · cases h
    exact Run.nil n
  next hok =>
  simp only [not_or, ne_eq, not_not, Bool.not_eq_false] at hok
  obtain ⟨rfl, rfl, -⟩ := hok
  cases hrole : n.role with
  | candidate votes =>
    simp only [hrole] at h
    obtain ⟨n₁, hn₁, h⟩ := update_bind_inv h
    have hcount : Steps c n [] n₁ := by
      rw [hn₁]
      exact Steps.move (Move.countVote hrole hheard) hidle
    have hidle₁ : n₁.publishingSnapshot = none := by rw [hn₁]; exact hidle
    refine Steps.silent_trans hcount ?_
    split at h
    · next hquorum =>
        have hrole₁ : n₁.role = .candidate (votes.insert sender) := by rw [hn₁]
        refine becomeLeader_spec h hidle₁ (hcount.sound (.of_idle hc hidle)).contiguous hrole₁ ?_
        rw [hn₁]
        exact hquorum
    · cases h
      exact Run.nil _
  | _ =>
    simp only [hrole] at h
    cases h
    exact Run.nil n

/-! ## Quorum reads -/

theorem RaftNode.isLeader_of_readRejection (h : n.readRejection = none) : n.isLeader = true := by
  unfold readRejection at h
  split at h
  · cases h
  · next hok =>
      rw [not_or] at hok
      simpa using hok.1

/-- A list of sends, each of them allowed. -/
theorem Steps.sends {es : List Effect}
    (h : ∀ e ∈ es, ∃ dest msg, e = .send dest msg ∧ n.MaySend c dest msg)
    (hidle : n.publishingSnapshot = none) : Steps c n es n := by
  induction es with
  | nil => exact Run.nil n
  | cons e es ih =>
    obtain ⟨dest, msg, rfl, hsend⟩ := h e (List.mem_cons_self ..)
    exact Run.trans (Steps.move (Move.send hsend) hidle)
      (ih fun e' he' => h e' (List.mem_cons_of_mem _ he'))

theorem onReadIndex_spec {requestId : Nat} (h : onReadIndex requestId n = some (u, n', es))
    (hasked : c = .asked requestId) (hidle : n.publishingSnapshot = none) : Steps c n es n' := by
  unfold onReadIndex at h
  rw [peek_bind] at h
  split at h
  · cases h
    exact Run.nil n
  next hfresh =>
  cases hready : n.readRejection with
  | some reason =>
    simp only [hready] at h
    cases h
    exact Steps.note rfl hidle
  | none =>
  simp only [hready] at h
  obtain ⟨context, hcontext, h⟩ := expect_bind_inv h
  obtain ⟨rfl, -⟩ := checkedAdd_eq_some hcontext
  obtain ⟨n₁, hn₁, h⟩ := update_bind_inv h
  split at h
  · next hself =>
      cases h
      rw [hn₁]
      exact Steps.move (Move.readSelf hasked hready hself) hidle
  · rw [update_bind] at h
    cases h
    rw [hn₁]
    have hlead := n.isLeader_of_readRejection hready
    have hnot : requestId ∉ n.pendingReads := by
      rw [← Std.ExtTreeMap.contains_iff_mem]
      exact hfresh
    refine Steps.silent_trans (Steps.move (Move.readStart hasked hnot hready) hidle)
      (Steps.sends (fun e he => ?_) hidle)
    obtain ⟨peer, -, rfl⟩ := List.mem_map.1 he
    exact ⟨peer, _, rfl, rfl, rfl, hlead, rfl⟩

theorem onReadProbe_spec {sender : NodeId} {term context : Nat}
    (h : onReadProbe term sender context n = some (u, n', es))
    (hheard : c = .heard sender (.readProbe term sender context))
    (hidle : n.publishingSnapshot = none) : Steps c n es n' := by
  unfold onReadProbe at h
  rw [peek_bind] at h
  obtain ⟨u₁, n₁, e₁, e₂, h₁, h₂, rfl⟩ := bind_eq_some h
  have hfollow : Steps c n e₁ n₁ ∧ n₁.hard = n.hard ∧ n₁.publishingSnapshot = none := by
    rcases when_inv h₁ with ⟨-, h₁⟩ | ⟨-, rfl, rfl⟩
    · obtain ⟨e₃, h₃, rfl⟩ := becomeFollower_bind_inv h₁
      obtain ⟨n₂, hn₂, h₄⟩ := resetElectionDeadline_bind_inv h₃
      obtain ⟨hcore, rfl⟩ : n₁.core = n.steppedDown.core ∧ e₃ = [] := by
        cases h₄
        exact ⟨hn₂, rfl⟩
      rw [List.append_nil]
      exact ⟨Steps.trans_silent (steppedDown_steps hidle)
        (Steps.weaken (n := n.steppedDown) (RaftNode.Weakens.of_eq hcore) hidle),
        congrArg Core.hard hcore, (congrArg Core.publishingSnapshot hcore).trans hidle⟩
    · exact ⟨Run.nil _, rfl, hidle⟩
  obtain ⟨hs₁, hhard, hidle₁⟩ := hfollow
  cases h₂
  refine Run.trans hs₁ (Steps.move (Move.send ⟨by rw [hhard], fun haccepted => ?_⟩) hidle₁)
  simp only [Bool.and_eq_true, decide_eq_true_eq] at haccepted
  rw [← haccepted.1.1]
  exact hheard

theorem onReadProbeReply_spec {sender : NodeId} {term context : Nat} {accepted : Bool}
    (h : onReadProbeReply sender term context accepted n = some (u, n', es))
    (hheard : c = .heard sender (.readProbeReply term context accepted))
    (hidle : n.publishingSnapshot = none) : Steps c n es n' := by
  unfold onReadProbeReply at h
  rw [peek_bind] at h
  split at h
  · cases h
    exact Run.nil n
  next hok =>
  simp only [not_or, ne_eq, not_not, Bool.not_eq_false] at hok
  obtain ⟨hlead, rfl, rfl, -⟩ := hok
  cases hfind : n.pendingReads.toList.find? fun p =>
      p.2.context = context && p.2.term = n.hard.currentTerm with
  | none =>
    simp only [hfind] at h
    cases h
    exact Run.nil n
  | some p =>
  obtain ⟨requestId, read⟩ := p
  simp only [hfind] at h
  have hread : n.pendingReads[requestId]? = some read :=
    Std.ExtTreeMap.mem_toList_iff_getElem?_eq_some.1 (List.mem_of_find?_eq_some hfind)
  have hmatch := List.find?_some hfind
  simp only [Bool.and_eq_true, decide_eq_true_eq] at hmatch
  obtain ⟨rfl, hterm⟩ := hmatch
  split at h
  · next hquorum =>
      rw [update_bind] at h
      cases h
      have hmove := Steps.move (Move.readReady hlead hread hheard hterm hquorum) hidle
      rw [hterm] at hmove
      exact hmove
  · cases h
    exact Steps.move (Move.readCount hlead hread hheard hterm) hidle

theorem cancelRead_spec {requestId : Nat} (h : cancelRead requestId n = some (u, n', es))
    (hidle : n.publishingSnapshot = none) : Steps c n es n' := by
  unfold cancelRead at h
  rw [peek_bind] at h
  split at h
  · rw [update_bind] at h
    cases h
    exact Steps.silent_trans (Steps.weaken (RaftNode.Weakens.of_eraseRead rfl) hidle)
      (Steps.note rfl hidle)
  · cases h
    exact Run.nil n

end MicroRaft
