import MicroRaft.Node.Repair
import MicroRaft.Node.Snapshot

/-!
# Replication as runs of moves

The leader's batches and proposals, the follower's answer to an append request,
and the leader's bookkeeping of the replies.
-/

namespace MicroRaft

open EffectM

variable {c : Cause} {n n' : RaftNode} {es : List Effect} {u : Unit}

/-! ## The leader's side -/

/-- Only outgoing transfers and bookkeeping differ. -/
def RaftNode.OnlySends (n n' : RaftNode) : Prop :=
  n'.core = { n.core with outgoingSnapshots := n'.outgoingSnapshots }

theorem RaftNode.OnlySends.refl (n : RaftNode) : n.OnlySends n := rfl

theorem RaftNode.OnlySends.trans {n'' : RaftNode} (h : n.OnlySends n') (h' : n'.OnlySends n'') :
    n.OnlySends n'' := by
  unfold OnlySends at h h' ⊢
  rw [h', h]

theorem RaftNode.OnlySends.of_core (h : n'.core = n.core) : n.OnlySends n' := by
  unfold OnlySends
  have hout : n'.outgoingSnapshots = n.outgoingSnapshots := congrArg Core.outgoingSnapshots h
  rw [h, hout]
  rfl

theorem RaftNode.OnlySends.role (h : n.OnlySends n') : n'.role = n.role := congrArg Core.role h

theorem RaftNode.OnlySends.idle (h : n.OnlySends n') (hidle : n.publishingSnapshot = none) :
    n'.publishingSnapshot = none :=
  (congrArg Core.publishingSnapshot h).trans hidle

theorem appendReject_spec {leaderId : NodeId} {round : Nat} {conflict : Option AppendConflictHint}
    (h : appendReject leaderId round conflict n = some (u, n', es))
    (hidle : n.publishingSnapshot = none) : Steps c n es n' ∧ n' = n := by
  unfold appendReject at h
  rw [peek_bind] at h
  cases h
  exact ⟨Steps.move (Move.send ⟨rfl, by simp⟩) hidle, rfl⟩

theorem advertiseMembership_spec {dest : NodeId}
    (h : advertiseMembership dest n = some (u, n', es)) (hidle : n.publishingSnapshot = none) :
    Steps c n es n' ∧ n' = n := by
  unfold advertiseMembership at h
  rw [peek_bind] at h
  obtain ⟨configuration, -, h⟩ := expect_bind_inv h
  split at h
  · cases h
    exact ⟨Steps.move (Move.send trivial) hidle, rfl⟩
  · cases h
    exact ⟨Run.nil n, rfl⟩

theorem advertiseReplicationMembership_spec {dest : NodeId}
    (h : advertiseReplicationMembership dest n = some (u, n', es))
    (hidle : n.publishingSnapshot = none) : Steps c n es n' ∧ n.OnlySends n' := by
  unfold advertiseReplicationMembership at h
  rw [peek_bind] at h
  split at h
  · cases h
    exact ⟨Run.nil n, .refl n⟩
  obtain ⟨configuration, -, h⟩ := expect_bind_inv h
  cases hrole : n.role with
  | leader next matched =>
    simp only [hrole] at h
    split at h
    · cases h
      exact ⟨Run.nil n, .refl n⟩
    split at h
    · cases h
      exact ⟨Run.nil n, .refl n⟩
    obtain ⟨n₁, hn₁, h⟩ := update_bind_inv h
    have hcore : n₁.core = n.core := by rw [hn₁]; rfl
    have hidle₁ : n₁.publishingSnapshot = none := (RaftNode.OnlySends.of_core hcore).idle hidle
    obtain ⟨hs, rfl⟩ := advertiseMembership_spec (c := c) h hidle₁
    exact ⟨Steps.silent_trans (Steps.weaken (RaftNode.Weakens.of_eq hcore) hidle) hs,
      .of_core hcore⟩
  | _ =>
    simp only [hrole] at h
    cases h
    exact ⟨Run.nil n, .refl n⟩

theorem sendAppendTo_spec {next matched : BTreeMap NodeId Nat} {peer : NodeId}
    (h : sendAppendTo next peer n = some (u, n', es)) (hidle : n.publishingSnapshot = none)
    (hrole : n.role = .leader next matched) : Steps c n es n' ∧ n.OnlySends n' := by
  unfold sendAppendTo at h
  obtain ⟨u₁, n₁, e₁, e₂, h₁, h₂, rfl⟩ := bind_eq_some h
  obtain ⟨hs₁, ho₁⟩ := advertiseReplicationMembership_spec (c := c) h₁ hidle
  have hidle₁ := ho₁.idle hidle
  rw [peek_bind] at h₂
  split at h₂
  · obtain ⟨hs₂, hcore⟩ := sendSnapshotChunk_spec (c := c) h₂ hidle₁
    exact ⟨hs₁.trans hs₂, ho₁.trans hcore⟩
  next hnext =>
  rw [update_bind] at h₂
  cases h₂
  refine ⟨hs₁.trans (Steps.silent_trans
    (Steps.weaken (RaftNode.Weakens.of_eraseOutgoing rfl) hidle₁)
    (Steps.move (Move.send ?_) hidle₁)), ho₁.trans rfl⟩
  refine ⟨_, next, matched, ho₁.role.trans hrole, not_le.1 hnext, ?_, rfl⟩
  cases hp : next[peer]? with
  | none => exact Or.inr rfl
  | some k => exact Or.inl rfl

theorem sendAppendEntries_spec (h : sendAppendEntries n = some (u, n', es))
    (hidle : n.publishingSnapshot = none) : Steps c n es n' ∧ n.OnlySends n' := by
  unfold sendAppendEntries at h
  rw [peek_bind] at h
  cases hrole : n.role with
  | leader next matched =>
    simp only [hrole] at h
    have hloop : Triple (Step c) n.OnlySends (n.peers.forM (sendAppendTo next))
        fun _ => n.OnlySends := by
      refine Triple.forM fun peer _ m u' m' es' hm hsend => ?_
      obtain ⟨hs, ho⟩ := sendAppendTo_spec (c := c) hsend (hm.idle hidle) (hm.role.trans hrole)
      exact ⟨hs, hm.trans ho⟩
    exact hloop (.refl n) h
  | _ =>
    simp only [hrole] at h
    cases h
    exact ⟨Run.nil n, .refl n⟩

/-! ## Proposals -/

/-- A leader that is a quorum by itself has a quorum for every entry of its term. -/
theorem RaftNode.QuorumHas.of_self {e : Entry} (hc : n.Contiguous) (hlead : n.isLeader = true)
    (hself : n.selfQuorum = true) (he : e ∈ n.log) (hterm : e.term = n.hard.currentTerm) :
    n.QuorumHas e.index := by
  have hb := hc.mem_bounds he
  refine ⟨hterm ▸ hc.logTerm_of_mem he, by rw [hc.lastLogIndex]; exact hb.2, by omega, ?_⟩
  cases hrole : n.role with
  | leader next matched =>
    refine ⟨next, matched, {n.id}, rfl, hself, fun v hv => Or.inl ?_⟩
    exact (by simpa using hv : n.id = v).symm
  | _ => simp [isLeader, hrole] at hlead

theorem proposedEntries_last (last term : Nat) {commands : List Command} (h : commands ≠ []) :
    ∃ e ∈ proposedEntries last term commands, e.index = last + commands.length := by
  have hlen := proposedEntries_length last term commands
  have hpos : 0 < commands.length := List.length_pos_iff.2 h
  have hget : (proposedEntries last term commands)[commands.length - 1]? =
      some (proposedEntries last term commands)[commands.length - 1] :=
    List.getElem?_eq_getElem (by omega)
  have hidx := proposedEntries_numbered last term commands _ _ hget
  exact ⟨_, List.mem_of_getElem? hget, by omega⟩

theorem onClientProposeBatch_spec {commands : List Command}
    (h : onClientProposeBatch commands n = some (u, n', es))
    (hidle : n.publishingSnapshot = none) (hc : n.Contiguous) : Steps c n es n' := by
  have hrejected : ∀ e ∈ commands.map fun _ => Effect.proposeRejected n.leaderHint,
      e.isNote = true := by
    intro e he
    obtain ⟨x, -, rfl⟩ := List.mem_map.1 he
    rfl
  unfold onClientProposeBatch at h
  rw [peek_bind] at h
  split at h
  · cases h
    exact Run.nil n
  next hne =>
  cases hfinal : nextIndex n.lastLogIndex commands.length with
  | none =>
    simp only [hfinal] at h
    cases h
    exact Steps.notes hrejected hidle
  | some finalIndex =>
  simp only [hfinal] at h
  split at h
  · cases h
    exact Steps.notes hrejected hidle
  next hok =>
  simp only [not_or, Bool.not_eq_false, Bool.not_eq_true, not_lt] at hok
  obtain ⟨hlead, -, hconf, -⟩ := hok
  obtain ⟨hindex, hlt⟩ := nextIndex_eq_some hfinal
  obtain ⟨n₁, hn₁, h⟩ := update_bind_inv h
  obtain ⟨e₁, h₁, rfl⟩ := emit_bind_inv h
  obtain ⟨e₂, h₂, rfl⟩ := emits_bind_inv h₁
  have hextend : Steps c n
      [.persistLogEntries none
        (proposedEntries n.lastLogIndex n.hard.currentTerm commands)] n₁ := by
    rw [hn₁]
    exact Steps.move (Move.extend hlead (by simpa using hconf) (by omega)) hidle
  have hidle₁ : n₁.publishingSnapshot = none := by rw [hn₁]; exact hidle
  refine Run.trans hextend (Run.trans (Steps.notes ?_ hidle₁) ?_)
  · intro e he
    obtain ⟨x, -, rfl⟩ := List.mem_map.1 he
    rfl
  rw [peek_bind] at h₂
  split at h₂
  · next hself =>
      have hc₁ : n₁.Contiguous := by
        rw [hn₁]
        exact hc.append (proposedEntries_numbered _ _ _)
      obtain ⟨e, he, hidx⟩ := proposedEntries_last n.lastLogIndex n.hard.currentTerm hne
      have hquorum : n₁.QuorumHas e.index := by
        refine RaftNode.QuorumHas.of_self hc₁ ?_ hself ?_ ?_
        · rw [hn₁]; exact hlead
        · rw [hn₁]; exact List.mem_append_right _ he
        · rw [hn₁]; exact (proposedEntries_mem he).1
      rw [hidx, ← hindex] at hquorum
      exact (advanceCommit_spec h₂ hidle₁ fun _ => Or.inl hquorum).steps hidle₁
  · cases h₂
    exact Run.nil _

/-! ## The follower's side -/

theorem RaftNode.logTerm_congr (hlog : n'.log = n.log) (hsnapshot : n'.snapshot = n.snapshot)
    (index : Nat) : n'.logTerm index = n.logTerm index := by
  unfold logTerm entryAt snapshotTerm
  rw [snapshotIndex_congr hsnapshot, hlog, hsnapshot]

variable {sender : NodeId} {entries : List Entry}

/-- The anchor survives as long as the log below it does. -/
theorem RaftNode.Anchors.of_eq {prev leaderCommit payloadLast : Nat}
    (h : n.Anchors c sender prev entries leaderCommit payloadLast)
    (hterm : n'.hard.currentTerm = n.hard.currentTerm) (hsnapshot : n'.snapshot = n.snapshot)
    (hprev : n'.logTerm prev = n.logTerm prev) :
    n'.Anchors c sender prev entries leaderCommit payloadLast := by
  obtain ⟨prevTerm, round, hheard, hvalid, hlog⟩ := h.heard
  refine ⟨⟨prevTerm, round, ?_, ?_, hprev.trans hlog⟩, ?_⟩
  · rw [hterm]
    exact hheard
  · rw [hterm]
    exact hvalid
  · rw [snapshotIndex_congr hsnapshot]
    exact h.retained

/-- The anchor itself is below everything the merge touches. -/
theorem RaftNode.merged_logTerm {prev : Nat}
    (hret : n.snapshotIndex ≤ prev) (hfit : prev ≤ n.snapshotIndex + n.log.length)
    (hlog : n'.log = n.merged prev entries) (hsnapshot : n'.snapshot = n.snapshot) :
    n'.logTerm prev = n.logTerm prev := by
  by_cases hb : prev = n.snapshotIndex
  · rw [logTerm, logTerm, snapshotIndex_congr hsnapshot, if_pos hb, if_pos hb]
    unfold snapshotTerm
    rw [hsnapshot]
  · have hget : n'.log[prev - n.snapshotIndex - 1]? = n.log[prev - n.snapshotIndex - 1]? := by
      rw [hlog, merged]
      split
      · rfl
      · rw [List.getElem?_append_left (by rw [List.length_take]; omega), List.getElem?_take,
          if_pos (by omega)]
    unfold logTerm entryAt
    rw [snapshotIndex_congr hsnapshot, if_neg hb, if_neg hb, hget]

/-- A commit on behalf of the leader; the effective membership is recomputed either way. -/
theorem followCommit_spec {newCommit : Nat} {effective : MembershipState}
    (h : followCommit newCommit n = some (u, n', es)) (hidle : n.publishingSnapshot = none)
    (hsaid : { n with effectiveMembership := effective }.LeaderSays c newCommit) :
    { n with effectiveMembership := effective }.Commits c es n' := by
  unfold followCommit at h
  rw [peek_bind] at h
  split at h
  · next hgt => exact advanceCommit_stale h hidle hgt (Or.inr hsaid)
  · obtain ⟨next, hnext, hq⟩ := refreshEffectiveMembership_spec (c := c) h hidle
    have hrefresh := Steps.move (c := c)
      (Move.refresh (n := { n with effectiveMembership := effective }) hnext) hidle
    refine ⟨⟨[], es, rfl, by simp, Steps.silent_trans hrefresh hq.steps,
      fun e he => Or.inl (hq.notes e he)⟩, ?_⟩
    have hk : { n with effectiveMembership := effective }.Stays
        { n with effectiveMembership := next } := ⟨rfl, rfl, rfl, rfl, rfl, rfl, rfl, rfl, id⟩
    exact hk.trans hq.keeps.stays

/-- The repair of the log as one move; the membership it makes effective is the one the
request was checked for. -/
theorem repair_steps {prev leaderCommit payloadLast : Nat} {n₁ : RaftNode}
    (h : when ((repairLog n entries).appended ≠ []) (do
      update fun m => { m with log := (repairLog n entries).log ++ (repairLog n entries).appended }
      emit (.persistLogEntries (repairLog n entries).truncateFrom
        (repairLog n entries).appended)) n = some (u, n₁, es))
    (hidle : n.publishingSnapshot = none) (hc : n.Contiguous) (hrole : n.role = .follower)
    (hanchor : n.Anchors c sender prev entries leaderCommit payloadLast)
    (hcommitted : n.conflictsCommitted entries = false)
    (hvalid : n.validConfigurationSuffix (candidateLog n.snapshotIndex n.log entries) = true) :
    ∃ effective, Steps c n es { n₁ with effectiveMembership := effective } ∧
      n₁ = { n with log := n.merged prev entries } := by
  obtain ⟨prevTerm, round, -, hframe, hprev⟩ := hanchor.heard
  have hnum := (validateAppendEntries_eq_some hframe).2.2
  have hret := hanchor.retained
  have hfit : prev ≤ n.snapshotIndex + n.log.length := by
    rw [← hc.lastLogIndex]
    exact (hc.logTerm_bounds hprev).2
  have hmerged := repairLog_merged hc hret hfit hnum
  have hrepair := repairLog_eq hc hret hfit hnum
  have happended : (repairLog n entries).appended = entries.drop (n.held entries) := by
    rw [hrepair]
  rcases when_inv h with ⟨hne, h⟩ | ⟨hnil, rfl, rfl⟩
  · rw [update_bind] at h
    cases h
    rw [happended, Ne, List.drop_eq_nil_iff, not_le] at hne
    have hneq : ¬ n.held entries = entries.length := by omega
    -- the log that was checked is the log that results
    obtain ⟨membership, hmembership⟩ : ∃ membership,
        replay n.baseMembership (n.merged prev entries) u64Max = .ok membership := by
      rw [candidateLog_eq hret hfit hnum, RaftNode.validConfigurationSuffix] at hvalid
      cases hreplay : replay n.baseMembership (n.merged prev entries) u64Max with
      | error e => rw [hreplay] at hvalid; cases hvalid
      | ok membership => exact ⟨membership, rfl⟩
    have htruncate : (repairLog n entries).truncateFrom =
        if prev - n.snapshotIndex + n.held entries < n.log.length then
          some (prev + n.held entries + 1) else none := by
      rw [hrepair]
      simp only [hne, true_and]
    rw [RaftNode.merged, if_neg hneq] at hmembership
    have hmove := Steps.move (Move.merge hrole hanchor hcommitted
      (fun i hi e he => RaftNode.holds_of_lt_held hi he) hne
      (fun e he => RaftNode.not_holds_held he) hmembership) hidle
    refine ⟨membership.state, ?_, by rw [hmerged]⟩
    rw [hmerged, htruncate, happended, RaftNode.merged, if_neg hneq]
    exact hmove
  · rw [not_not, happended, List.drop_eq_nil_iff] at hnil
    have hall : n₁.held entries = entries.length := le_antisymm RaftNode.held_le hnil
    refine ⟨n₁.effectiveMembership, Run.nil _, ?_⟩
    rw [RaftNode.merged, if_pos hall]

theorem acceptEntries_spec {prev leaderCommit payloadLast round : Nat}
    (h : acceptEntries sender entries payloadLast leaderCommit round n = some (u, n', es))
    (hidle : n.publishingSnapshot = none) (hc : n.Contiguous) (hrole : n.role = .follower)
    (hanchor : n.Anchors c sender prev entries leaderCommit payloadLast)
    (hcommitted : n.conflictsCommitted entries = false)
    (hvalid : n.validConfigurationSuffix (candidateLog n.snapshotIndex n.log entries) = true) :
    Steps c n es n' := by
  unfold acceptEntries at h
  rw [peek_bind] at h
  obtain ⟨u₁, n₁, e₁, e₂, h₁, h₂, rfl⟩ := bind_eq_some h
  obtain ⟨effective, hs₁, hn₁⟩ := repair_steps h₁ hidle hc hrole hanchor hcommitted hvalid
  have hlog : n₁.log = n.merged prev entries := by rw [hn₁]
  have hsnapshot : n₁.snapshot = n.snapshot := by rw [hn₁]
  have hterm : n₁.hard.currentTerm = n.hard.currentTerm := by rw [hn₁]
  have hidle₁ : n₁.publishingSnapshot = none := by rw [hn₁]; exact hidle
  -- the repaired log fits the anchor and has the whole payload
  obtain ⟨prevTerm, round', -, hframe, hprev⟩ := hanchor.heard
  have hnum := (validateAppendEntries_eq_some hframe).2.2
  have hret := hanchor.retained
  have hfit : prev ≤ n.snapshotIndex + n.log.length := by
    rw [← hc.lastLogIndex]
    exact (hc.logTerm_bounds hprev).2
  have hkept := hanchor.kept_le hc RaftNode.held_le
    fun i hi e he => RaftNode.holds_of_lt_held hi he
  have hanchor₁ := hanchor.of_eq hterm hsnapshot
    (RaftNode.merged_logTerm hret hfit hlog hsnapshot)
  have hholds : ∀ e ∈ entries, n₁.logTerm e.index = some e.term := fun e he =>
    RaftNode.merged_holds hret hnum hkept hlog hsnapshot he
  obtain ⟨u₂, n₂, e₃, e₄, h₃, h₄, rfl⟩ := bind_eq_some h₂
  have hsaid : { n₁ with effectiveMembership := effective }.LeaderSays c
      (min leaderCommit payloadLast) :=
    ⟨by rw [hn₁]; exact hrole, sender, prev, entries, leaderCommit, payloadLast,
      hanchor₁.of_eq rfl rfl rfl, hholds, rfl⟩
  have hcommits := followCommit_spec h₃ hidle₁ hsaid
  have hstays := hcommits.stays
  rw [peek_bind] at h₄
  cases h₄
  refine hs₁.trans ((hcommits.steps hidle₁).trans (Steps.move (Move.send ⟨rfl, fun _ => ?_⟩)
    (hcommits.idle hidle₁)))
  have hsame := RaftNode.logTerm_congr (n := n₁) hstays.log hstays.snapshot
  exact ⟨prev, entries, leaderCommit, hanchor₁.of_eq hstays.term hstays.snapshot (hsame prev),
    fun e he => (hsame e.index).trans (hholds e he)⟩

theorem onAppendEntries_spec {term prev prevTerm leaderCommit payloadLast round : Nat}
    (h : onAppendEntries term sender prev prevTerm entries payloadLast leaderCommit round n =
      some (u, n', es))
    (hheard : c = .heard sender (.appendEntries term sender prev prevTerm entries leaderCommit
      round)) (hframe : validateAppendEntries term prev prevTerm entries = some payloadLast)
    (hle : term ≤ n.hard.currentTerm) (hidle : n.publishingSnapshot = none)
    (hc : n.Contiguous) : Steps c n es n' := by
  unfold onAppendEntries at h
  rw [peek_bind] at h
  split at h
  · exact (appendReject_spec h hidle).1
  have hterm : term = n.hard.currentTerm := by omega
  obtain ⟨e₁, h₁, rfl⟩ := becomeFollower_bind_inv h
  obtain ⟨n₁, hn₁, h₂⟩ := resetElectionDeadline_bind_inv h₁
  obtain ⟨n₂, hn₂, h₃⟩ := update_bind_inv h₂
  have hcore : n₂.core = n.steppedDown.core := by rw [hn₂]; exact hn₁
  have hidle₂ : n₂.publishingSnapshot = none := (congrArg Core.publishingSnapshot hcore).trans hidle
  have hhard : n₂.hard = n.hard := congrArg Core.hard hcore
  have hlog : n₂.log = n.log := congrArg Core.log hcore
  have hsnapshot : n₂.snapshot = n.snapshot := congrArg Core.snapshot hcore
  have hc₂ : n₂.Contiguous := by
    unfold RaftNode.Contiguous
    rw [RaftNode.snapshotIndex_congr hsnapshot, hlog]
    exact hc
  refine (steppedDown_steps hidle).trans (Steps.silent_trans
    (Steps.weaken (RaftNode.Weakens.of_eq hcore) hidle) ?_)
  rw [peek_bind] at h₃
  split at h₃
  · cases h₃
    refine Steps.move (Move.send ⟨rfl, rfl, rfl, prev, prevTerm, entries, leaderCommit, round, ?_⟩)
      hidle₂
    rw [hhard, ← hterm]
    exact hheard
  next hret =>
  split at h₃
  · obtain ⟨conflict, -, h₄⟩ := expect_bind_inv h₃
    exact (appendReject_spec h₄ hidle₂).1
  next hprev =>
  split at h₃
  · exact (appendReject_spec h₃ hidle₂).1
  next hcommitted =>
  obtain ⟨-, h₃⟩ := require_bind_inv h₃
  split at h₃
  · exact (appendReject_spec h₃ hidle₂).1
  next hvalid =>
  rw [not_not] at hprev
  have hanchor : n₂.Anchors c sender prev entries leaderCommit payloadLast := by
    refine ⟨⟨prevTerm, round, ?_, ?_, hprev⟩, not_lt.1 hret⟩
    · rw [hhard, ← hterm]
      exact hheard
    · rw [hhard, ← hterm]
      exact hframe
  exact acceptEntries_spec h₃ hidle₂ hc₂ (congrArg Core.role hcore) hanchor
    (by simpa using hcommitted) (by simpa using hvalid)

/-! ## Progress tracking -/

/-- Recording a reply: an acknowledgement counts for what it covers, a refusal only sets the
retry position back. -/
theorem recordReply_steps {success : Bool} {matchIndex round : Nat}
    {hinted : Option Nat} {next matched : BTreeMap NodeId Nat} {peerNext peerMatch : Nat}
    (hidle : n.publishingSnapshot = none) (hrole : n.role = .leader next matched)
    (hnext : next[sender]? = some peerNext) (hmatched : matched[sender]? = some peerMatch)
    (hack : success = true → c.Acks sender n.hard.currentTerm matchIndex ∧
      matchIndex ≤ n.lastLogIndex) :
    Steps c n [] (recordReply sender success matchIndex round hinted next matched peerNext
      peerMatch n) := by
  unfold recordReply
  dsimp only
  split
  · next hsuccess =>
      obtain ⟨hacks, hle⟩ := hack hsuccess
      refine Steps.silent_trans (Steps.move (Move.peerAck hrole hmatched hacks hle) hidle)
        (Steps.weaken (RaftNode.Weakens.of_eq rfl) hidle)
  · refine Steps.silent_trans (Steps.move (Move.progress hrole ?_ fun hk => Or.inl hk) hidle)
      (Steps.weaken (RaftNode.Weakens.of_eq rfl) hidle)
    intro p k hk
    rw [Std.ExtTreeMap.getElem?_insert] at hk
    split at hk
    · next heq =>
        have hp : p = sender := (compare_eq_iff_eq.1 heq).symm
        subst hp
        cases hk
        have hsat : saturatingAdd peerMatch 1 ≤ peerMatch + 1 := min_le_left _ _
        rcases le_total peerNext (peerMatch + 1) with hcase | hcase
        · exact Or.inr (Or.inr ⟨peerMatch, hmatched, by omega⟩)
        · exact Or.inr (Or.inl ⟨peerNext, hnext, by omega⟩)
    · exact Or.inr (Or.inl ⟨k, hk, le_rfl⟩)

theorem onAppendEntriesReply_spec {term matchIndex round : Nat} {success : Bool}
    {conflict : Option AppendConflictHint}
    (h : onAppendEntriesReply sender term success matchIndex round conflict n = some (u, n', es))
    (hidle : n.publishingSnapshot = none) (hc : n.Contiguous)
    (hack : success = true → c.Acks sender term matchIndex) :
    Steps c n es n' ∧ n'.publishingSnapshot = none := by
  unfold onAppendEntriesReply at h
  rw [peek_bind] at h
  split at h
  · cases h
    exact ⟨Run.nil n, hidle⟩
  next hterm =>
  split at h
  · cases h
    exact ⟨Run.nil n, hidle⟩
  next hbound =>
  split at h
  · cases h
    exact ⟨Run.nil n, hidle⟩
  rw [not_not] at hterm
  cases hrole : n.role with
  | leader next matched =>
    simp only [hrole] at h
    cases hnext : next[sender]? with
    | none =>
      simp only [hnext] at h
      cases h
      exact ⟨Run.nil n, hidle⟩
    | some peerNext =>
    cases hmatched : matched[sender]? with
    | none =>
      simp only [hnext, hmatched] at h
      cases h
      exact ⟨Run.nil n, hidle⟩
    | some peerMatch =>
    simp only [hnext, hmatched] at h
    split at h
    · cases h
      exact ⟨Run.nil n, hidle⟩
    obtain ⟨n₁, hn₁, h⟩ := update_bind_inv h
    have hrecord : Steps c n [] n₁ := by
      rw [hn₁]
      refine recordReply_steps hidle hrole hnext hmatched fun hsuccess => ⟨?_, ?_⟩
      · rw [← hterm]
        exact hack hsuccess
      · by_contra hgt
        exact hbound ⟨hsuccess, not_le.1 hgt⟩
    have hidle₁ : n₁.publishingSnapshot = none := by
      rw [hn₁]
      unfold recordReply
      dsimp only
      split <;> exact hidle
    have hc₁ : n₁.Contiguous := (hrecord.sound (.of_idle hc hidle)).contiguous
    split at h
    · have hcommits := commitQuorum_spec (c := c) h hidle₁ hc₁
      exact ⟨Steps.silent_trans hrecord (hcommits.steps hidle₁), hcommits.idle hidle₁⟩
    · cases h
      exact ⟨hrecord, hidle₁⟩
  | _ =>
    simp only [hrole] at h
    cases h
    exact ⟨Run.nil n, hidle⟩

/-! ## Replies to snapshot chunks -/

theorem onTransferRefused_spec {matchIndex : Nat} {active : OutgoingSnapshot}
    (h : onTransferRefused sender matchIndex active n = some (u, n', es))
    (hidle : n.publishingSnapshot = none) : Steps c n es n' := by
  obtain ⟨n₁, hn₁, h⟩ : ∃ n₁, n₁ = _ ∧ some ((), n₁, []) = some (u, n', es) := ⟨_, rfl, h⟩
  cases h
  have herase : ∀ {m : RaftNode}, m.publishingSnapshot = none →
      Steps c m [] { m with outgoingSnapshots := m.outgoingSnapshots.erase sender } := fun hm =>
    Steps.weaken (RaftNode.Weakens.of_eraseOutgoing rfl) hm
  cases hrole : n.role with
  | leader next matched =>
    by_cases hbound : active.descriptor.metadata.lastIncludedIndex ≤ matchIndex ∧
        matchIndex ≤ n.lastLogIndex
    · simp only [hrole, if_pos hbound] at hn₁
      rw [hn₁]
      have hmove : Move c n [] { n with
          role := .leader (next.insert sender (saturatingAdd matchIndex 1)) matched } := by
        refine Move.progress hrole (fun {p k} hk => ?_) fun hk => Or.inl hk
        rw [Std.ExtTreeMap.getElem?_insert] at hk
        split at hk
        · cases hk
          have hsat : saturatingAdd matchIndex 1 ≤ matchIndex + 1 := min_le_left _ _
          exact Or.inl (by omega)
        · exact Or.inr (Or.inl ⟨k, hk, le_rfl⟩)
      exact Steps.silent_trans (Steps.move hmove hidle) (herase hidle)
    · simp only [hrole, if_neg hbound] at hn₁
      rw [hn₁, ← hrole]
      exact herase hidle
  | _ =>
    simp only [hrole] at hn₁
    rw [hn₁, ← hrole]
    exact herase hidle

theorem onInstallSnapshotReply_spec {term : Nat} {transfer : SnapshotTransferId}
    {nextOffset matchIndex round : Nat} {accepted installed : Bool}
    (h : onInstallSnapshotReply sender term transfer nextOffset matchIndex accepted installed round
      n = some (u, n', es))
    (hheard : c = .heard sender (.installSnapshotReply term transfer nextOffset matchIndex accepted
      installed round))
    (hidle : n.publishingSnapshot = none) (hc : n.Contiguous) : Steps c n es n' := by
  unfold onInstallSnapshotReply at h
  rw [peek_bind] at h
  split at h
  · cases h
    exact Run.nil n
  cases hout : n.outgoingSnapshots[sender]? with
  | none =>
    simp only [hout] at h
    cases h
    exact Run.nil n
  | some active =>
  simp only [hout] at h
  split at h
  · cases h
    exact Run.nil n
  split at h
  · exact onTransferRefused_spec h hidle
  next haccepted =>
  split at h
  · cases h
    exact Run.nil n
  obtain ⟨u₁, n₁, e₁, e₂, h₁, h₂, rfl⟩ := bind_eq_some h
  have hcontact : n₁.core = n.core ∧ e₁ = [] := by
    rcases when_inv h₁ with ⟨-, h₁⟩ | ⟨-, rfl, rfl⟩
    · cases h₁
      exact ⟨rfl, rfl⟩
    · exact ⟨rfl, rfl⟩
  obtain ⟨hcore, rfl⟩ := hcontact
  have hidle₁ : n₁.publishingSnapshot = none := (RaftNode.OnlySends.of_core hcore).idle hidle
  have hs₁ : Steps c n [] n₁ := Steps.weaken (RaftNode.Weakens.of_eq hcore) hidle
  have hc₁ : n₁.Contiguous := (hs₁.sound (.of_idle hc hidle)).contiguous
  refine Steps.silent_trans hs₁ ?_
  split at h₂
  · next hinstalled =>
      obtain ⟨n₂, hn₂, h₂⟩ := update_bind_inv h₂
      have hs₂ : Steps c n₁ [] n₂ := by
        rw [hn₂]
        exact Steps.weaken (RaftNode.Weakens.of_eraseOutgoing rfl) hidle₁
      have hidle₂ : n₂.publishingSnapshot = none := by rw [hn₂]; exact hidle₁
      obtain ⟨u₃, n₃, e₃, e₄, h₃, h₄, rfl⟩ := bind_eq_some h₂
      have hacks : c.Acks sender term matchIndex := by
        refine Or.inr (Or.inr ⟨transfer, nextOffset, round, ?_⟩)
        rw [hheard, hinstalled, (by simpa using haccepted : accepted = true)]
      obtain ⟨hs₃, hidle₃⟩ := onAppendEntriesReply_spec (c := c) h₃ hidle₂
        (hs₂.sound (.of_idle hc₁ hidle₁)).contiguous fun _ => hacks
      exact Steps.silent_trans hs₂ (hs₃.trans (sendAppendEntries_spec h₄ hidle₃).1)
  · obtain ⟨n₂, hn₂, h₂⟩ := update_bind_inv h₂
    have hactive : n₁.outgoingSnapshots[sender]? = some active := by
      rw [show n₁.outgoingSnapshots = n.outgoingSnapshots from
        congrArg Core.outgoingSnapshots hcore]
      exact hout
    have hs₂ : Steps c n₁ [] n₂ := by
      rw [hn₂]
      exact Steps.weaken (RaftNode.Weakens.of_setOutgoing rfl (Or.inr ⟨active, hactive, rfl⟩))
        hidle₁
    have hidle₂ : n₂.publishingSnapshot = none := by rw [hn₂]; exact hidle₁
    exact Steps.silent_trans hs₂ (sendSnapshotChunk_spec h₂ hidle₂).1

end MicroRaft
