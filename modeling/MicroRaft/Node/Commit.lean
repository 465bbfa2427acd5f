import MicroRaft.Node.Log
import MicroRaft.Group.Quorum

/-!
# Commitment as a run of moves

Recomputing the effective membership, moving the commit index and applying what
is committed.
-/

namespace MicroRaft

open EffectM

variable {c : Cause} {n n' : RaftNode} {es : List Effect} {u : Unit}

/-! ## Small handlers -/

theorem resetElectionDeadline_spec (h : resetElectionDeadline n = some (u, n', es)) :
    n'.core = n.core ∧ es = [] := by
  cases h
  exact ⟨rfl, rfl⟩

theorem cancelIncomingSnapshot_spec (h : cancelIncomingSnapshot n = some (u, n', es))
    (hidle : n.publishingSnapshot = none) :
    Steps c n es n' ∧ n'.core = { n.core with incomingSnapshot := none } ∧ n.Weakens n' := by
  unfold cancelIncomingSnapshot at h
  rw [peek_bind] at h
  cases hin : n.incomingSnapshot with
  | none =>
    simp only [hin] at h
    cases h
    refine ⟨Run.nil n, ?_, RaftNode.Weakens.refl n⟩
    simp [RaftNode.core, hin]
  | some active =>
    simp only [hin, update_bind] at h
    cases h
    have hw : n.Weakens { n with incomingSnapshot := none } :=
      RaftNode.Weakens.of_core rfl (Or.inl rfl) (Or.inl rfl) (Or.inr rfl) (Or.inl rfl)
    exact ⟨Steps.silent_trans (Steps.weaken hw hidle) (Steps.note rfl hidle), rfl, hw⟩

/-! ## Application -/

theorem RaftNode.Reports.of_core {e : Effect} (h : n.Reports e)
    (hcommit : n'.commitIndex = n.commitIndex) (hsnapshot : n'.snapshot = n.snapshot)
    (hlog : n'.log = n.log) : n'.Reports e := by
  rcases h with hnote | ⟨index, entry, rfl, hle, hentry⟩
  · exact Or.inl hnote
  refine Or.inr ⟨index, entry, rfl, hcommit ▸ hle, ?_⟩
  unfold RaftNode.entryAt RaftNode.snapshotIndex at hentry ⊢
  rwa [hsnapshot, hlog]

/-- The loop moves the applied position and reports every entry it passes. -/
theorem applyLoop_spec :
    ∀ {rounds : Nat} {n n' : RaftNode} {es : List Effect},
      applyLoop rounds n = some (u, n', es) → n.publishingSnapshot = none →
      Steps c n [] n' ∧ n' = { n with lastApplied := n'.lastApplied } ∧ ∀ e ∈ es, n.Reports e := by
  intro rounds
  induction rounds with
  | zero =>
    intro n n' es h hidle
    cases h
    exact ⟨Run.nil n, rfl, by simp⟩
  | succ rounds ih =>
    intro n n' es h hidle
    unfold applyLoop at h
    rw [peek_bind] at h
    split at h
    · next hlt =>
        obtain ⟨n₁, rfl, h⟩ := update_bind_inv h
        obtain ⟨entry, hentry, h⟩ := expect_bind_inv h
        obtain ⟨e₂, hloop, rfl⟩ := emit_bind_inv h
        obtain ⟨hsteps, heq, hreports⟩ := ih hloop hidle
        refine ⟨Steps.silent_trans (Steps.move (Move.applied (Nat.le_succ _) hlt) hidle) hsteps,
          heq, ?_⟩
        intro e he
        rcases List.mem_cons.1 he with rfl | he
        · exact Or.inr ⟨_, entry, rfl, hlt, hentry⟩
        · exact (hreports e he).of_core rfl rfl rfl
    · cases h
      exact ⟨Run.nil n, rfl, by simp⟩

theorem applyCommitted_spec (h : applyCommitted n = some (u, n', es))
    (hidle : n.publishingSnapshot = none) :
    Steps c n [] n' ∧ n' = { n with lastApplied := n'.lastApplied } ∧ ∀ e ∈ es, n.Reports e := by
  unfold applyCommitted at h
  rw [peek_bind] at h
  exact applyLoop_spec h hidle

/-! ## The effective membership -/

theorem retainProgress_getElem? {peers : List NodeId} {start : Nat}
    {progress : BTreeMap NodeId Nat} {p : NodeId} {k : Nat}
    (h : (retainProgress peers start progress)[p]? = some k) :
    progress[p]? = some k ∨ k = start := by
  unfold retainProgress at h
  have hfold : ∀ (l : List NodeId) (m : BTreeMap NodeId Nat),
      (l.foldl (fun m peer => m.insertIfNew peer start) m)[p]? = some k →
      m[p]? = some k ∨ k = start := by
    intro l
    induction l with
    | nil => exact fun m hm => Or.inl hm
    | cons q l ih =>
      intro m hm
      rcases ih _ hm with hm | hm
      · rw [Std.ExtTreeMap.getElem?_insertIfNew] at hm
        split at hm
        · exact Or.inr (Option.some.inj hm).symm
        · exact Or.inl hm
      · exact Or.inr hm
  rcases hfold _ _ h with hm | hm
  · rw [Std.ExtTreeMap.getElem?_filter', Option.filter_eq_some_iff] at hm
    exact Or.inl hm.1
  · exact Or.inr hm

/-- Recomputing the replication peers forgets or restarts progress. -/
theorem updateReplicationPeers_steps (hidle : n.publishingSnapshot = none) :
    Steps c n [] n.updateReplicationPeers := by
  cases hrole : n.role with
  | leader next matched =>
    unfold RaftNode.updateReplicationPeers
    simp only [hrole]
    refine Steps.silent_trans (Steps.move (Move.progress hrole ?_ ?_) hidle)
      (Steps.weaken (RaftNode.Weakens.of_eq rfl) hidle)
    · intro p k hk
      rcases retainProgress_getElem? hk with h | rfl
      · exact Or.inr (Or.inl ⟨k, h, le_rfl⟩)
      · exact Or.inl (min_le_left _ _)
    · exact retainProgress_getElem?
  | _ =>
    unfold RaftNode.updateReplicationPeers
    simp only [hrole]
    exact Steps.weaken (RaftNode.Weakens.of_eq (by simp [RaftNode.core, hrole])) hidle

theorem updateReplicationPeers_keeps (n : RaftNode) : n.Keeps n.updateReplicationPeers := by
  refine ⟨rfl, rfl, rfl, rfl, rfl, rfl, rfl, rfl, rfl, fun h => ?_⟩
  unfold RaftNode.updateReplicationPeers
  simp only [h]

/-- A change of bookkeeping and claims, reported by notes alone. -/
structure RaftNode.Quiet (c : Cause) (n : RaftNode) (es : List Effect) (n' : RaftNode) : Prop where
  steps : Steps c n [] n'
  notes : ∀ e ∈ es, e.isNote = true
  keeps : n.Keeps n'

theorem RaftNode.Quiet.trans {n'' : RaftNode} {es' : List Effect} (h : n.Quiet c es n')
    (h' : n'.Quiet c es' n'') : n.Quiet c (es ++ es') n'' where
  steps := Steps.silent_trans h.steps h'.steps
  notes e he := (List.mem_append.1 he).elim (h.notes e) (h'.notes e)
  keeps := h.keeps.trans h'.keeps

theorem RaftNode.Quiet.refl (n : RaftNode) : n.Quiet c [] n :=
  ⟨Run.nil n, by simp, RaftNode.Keeps.refl n⟩

theorem RaftNode.Quiet.idle (h : n.Quiet c es n') (hidle : n.publishingSnapshot = none) :
    n'.publishingSnapshot = none :=
  h.keeps.publishing.trans hidle

theorem rejectPendingReads_spec {reason : ReadRejectReason}
    (h : rejectPendingReads reason n = some (u, n', es)) (hidle : n.publishingSnapshot = none) :
    n.Quiet c es n' := by
  rw [rejectPendingReads_apply] at h
  cases h
  have hw : n.Weakens { n with pendingReads := ∅ } :=
    RaftNode.Weakens.of_core rfl (Or.inl rfl) (Or.inl rfl) (Or.inl rfl) (Or.inr rfl)
  refine ⟨Steps.weaken hw hidle, ?_, ⟨rfl, rfl, rfl, rfl, rfl, rfl, rfl, rfl, rfl, id⟩⟩
  intro e he
  obtain ⟨r, -, rfl⟩ := List.mem_map.1 he
  rfl

theorem becomeFollower_spec (h : becomeFollower n = some (u, n', es))
    (hidle : n.publishingSnapshot = none) :
    n.Quiet c es n' ∧ n' = n.steppedDown ∧ es = n.stepDownNotes := by
  rw [becomeFollower_apply] at h
  cases h
  exact ⟨⟨Steps.weaken n.steppedDown_weakens hidle, n.stepDownNotes_isNote, n.steppedDown_keeps⟩,
    rfl, rfl⟩

theorem restartWindow_spec (h : restartWindow n = some (u, n', es))
    (hidle : n.publishingSnapshot = none) : n.Quiet c es n' := by
  unfold restartWindow at h
  rw [peek_bind] at h
  split at h
  · exact (becomeFollower_spec h hidle).1
  · cases hround : checkedAdd n.contactRound 1 with
    | none =>
      simp only [hround] at h
      exact (becomeFollower_spec h hidle).1
    | some round =>
      simp only [hround] at h
      cases h
      exact ⟨Steps.weaken (RaftNode.Weakens.of_eq rfl) hidle, by simp,
        ⟨rfl, rfl, rfl, rfl, rfl, rfl, rfl, rfl, rfl, id⟩⟩

theorem resetElectionDeadline_quiet (h : resetElectionDeadline n = some (u, n', es))
    (hidle : n.publishingSnapshot = none) : n.Quiet c es n' := by
  cases h
  exact ⟨Steps.weaken (RaftNode.Weakens.of_eq rfl) hidle, by simp,
    ⟨rfl, rfl, rfl, rfl, rfl, rfl, rfl, rfl, rfl, id⟩⟩

theorem onVotersChanged_spec (h : onVotersChanged n = some (u, n', es))
    (hidle : n.publishingSnapshot = none) : n.Quiet c es n' := by
  unfold onVotersChanged at h
  obtain ⟨u₁, n₁, e₁, e₂, h₁, h₂, rfl⟩ := bind_eq_some h
  have hq₁ := rejectPendingReads_spec (c := c) h₁ hidle
  obtain ⟨u₂, n₂, e₃, e₄, h₃, h₄, rfl⟩ := bind_eq_some h₂
  have hq₂ := restartWindow_spec (c := c) h₃ (hq₁.idle hidle)
  exact hq₁.trans (hq₂.trans (resetElectionDeadline_quiet h₄ (hq₂.idle (hq₁.idle hidle))))

/-- The refresh computes the effective membership; what follows are consequences for the
leader's bookkeeping. -/
theorem refreshEffectiveMembership_spec (h : refreshEffectiveMembership n = some (u, n', es))
    (hidle : n.publishingSnapshot = none) :
    ∃ next, effectiveAfter n.committedMembership n.log n.commitIndex = .ok next ∧
      { n with effectiveMembership := next }.Quiet c es n' := by
  unfold refreshEffectiveMembership at h
  rw [peek_bind] at h
  obtain ⟨next, hnext, h⟩ := expect_bind_inv h
  refine ⟨next, toOption_eq_some hnext, ?_⟩
  obtain ⟨u₁, n₁, e₁, e₂, h₁, h₂, rfl⟩ := bind_eq_some h
  -- a removed leader steps down, before or after the membership is recorded
  have hstep : { n with effectiveMembership := next }.Quiet c e₁
      { n₁ with effectiveMembership := next } ∧
      n₁.effectiveMembership = n.effectiveMembership := by
    rcases when_inv h₁ with ⟨-, h₁⟩ | ⟨-, rfl, rfl⟩
    · rw [becomeFollower_apply] at h₁
      cases h₁
      exact ⟨(becomeFollower_spec (n := { n with effectiveMembership := next })
        (becomeFollower_apply _) hidle).1, rfl⟩
    · exact ⟨RaftNode.Quiet.refl _, rfl⟩
  obtain ⟨hq₁, heff⟩ := hstep
  have hidle₁ : n₁.publishingSnapshot = none := hq₁.idle hidle
  rcases when_inv h₂ with ⟨-, h₂⟩ | ⟨hsame, rfl, rfl⟩
  · obtain ⟨n₂, rfl, h₂⟩ := update_bind_inv h₂
    have hq₂ : { n₁ with effectiveMembership := next }.Quiet c []
        { n₁ with effectiveMembership := next }.updateReplicationPeers :=
      ⟨updateReplicationPeers_steps hidle₁, by simp, updateReplicationPeers_keeps _⟩
    rcases when_inv h₂ with ⟨-, h₂⟩ | ⟨-, rfl, rfl⟩
    · exact hq₁.trans (hq₂.trans (onVotersChanged_spec h₂ hidle₁))
    · exact hq₁.trans hq₂
  · rw [not_not, ← heff] at hsame
    have hsame' : { n' with effectiveMembership := next } = n' := by rw [hsame]
    rw [hsame'] at hq₁
    simpa using hq₁

/-! ## Commitment -/

/-- The persist effect of a commit and the state it leaves, as one move. -/
theorem commit_step {index : Nat} {membership : CommittedMembership} {n₁ : RaftNode}
    {effective : MembershipState} (hgt : n.commitIndex < index)
    (hsafe : { n with effectiveMembership := effective }.QuorumHas index ∨
      { n with effectiveMembership := effective }.LeaderSays c index)
    (hmembership : n.membershipAt index = .ok membership) (hidle : n.publishingSnapshot = none)
    (h : when (membership ≠ n.committedMembership) (do
      update fun n => { n with hard := { n.hard with membership := some membership } }
      emit (.persistHardState { n.hard with membership := some membership })) n =
        some (u, n₁, es)) :
    Steps c { n with effectiveMembership := effective } es
        { n₁ with commitIndex := index, effectiveMembership := effective } ∧ n.Stays n₁ ∧
      ∀ e ∈ es, e.isPersistHard = true := by
  have hcommit := Steps.move
    (Move.commit (n := { n with effectiveMembership := effective }) hgt hsafe hmembership) hidle
  rcases when_inv h with ⟨hne, h⟩ | ⟨heq, rfl, rfl⟩
  · rw [update_bind] at h
    cases h
    have hne' : membership ≠
        { n with effectiveMembership := effective }.committedMembership := hne
    rw [if_neg hne', RaftNode.hardWith, if_neg hne'] at hcommit
    exact ⟨hcommit, ⟨rfl, rfl, rfl, rfl, rfl, rfl, rfl, rfl, id⟩, by simp [Effect.isPersistHard]⟩
  · rw [not_not] at heq
    have heq' : membership =
        { n₁ with effectiveMembership := effective }.committedMembership := heq
    rw [if_pos heq', RaftNode.hardWith, if_pos heq'] at hcommit
    exact ⟨hcommit, RaftNode.Stays.refl _, by simp⟩

/-- A batch whose state changes come with its persists, before everything it reports. -/
structure RaftNode.Commits (c : Cause) (n : RaftNode) (es : List Effect) (n' : RaftNode) :
    Prop where
  split : ∃ persists reports, es = persists ++ reports ∧
    (∀ e ∈ persists, e.isPersistHard = true) ∧ Steps c n persists n' ∧
    ∀ e ∈ reports, n'.Reports e
  stays : n.Stays n'

theorem RaftNode.Commits.refl (n : RaftNode) : n.Commits c [] n :=
  ⟨⟨[], [], rfl, by simp, Run.nil n, by simp⟩, RaftNode.Stays.refl n⟩

theorem RaftNode.Commits.idle (h : n.Commits c es n') (hidle : n.publishingSnapshot = none) :
    n'.publishingSnapshot = none :=
  h.stays.publishing.trans hidle

theorem RaftNode.Commits.steps (h : n.Commits c es n') (hidle : n.publishingSnapshot = none) :
    Steps c n es n' := by
  obtain ⟨persists, reports, rfl, -, hsteps, hreports⟩ := h.split
  exact hsteps.trans (Steps.reports hreports (h.idle hidle))

/-- A commit replaces the effective membership, so what it was before does not matter. -/
theorem advanceCommit_stale {index : Nat} {effective : MembershipState}
    (h : advanceCommit index n = some (u, n', es)) (hidle : n.publishingSnapshot = none)
    (hgt : n.commitIndex < index)
    (hsafe : { n with effectiveMembership := effective }.QuorumHas index ∨
      { n with effectiveMembership := effective }.LeaderSays c index) :
    { n with effectiveMembership := effective }.Commits c es n' := by
  unfold advanceCommit at h
  rw [peek_bind, if_neg (by omega)] at h
  obtain ⟨membership, hm, h⟩ := expect_bind_inv h
  obtain ⟨u₁, n₁, e₁, e₂, h₁, h₂, rfl⟩ := bind_eq_some h
  obtain ⟨hs₁, hk₁, hpersist⟩ := commit_step hgt hsafe (toOption_eq_some hm) hidle h₁
  have hidle₁ : n₁.publishingSnapshot = none := hk₁.publishing.trans hidle
  obtain ⟨n₂, rfl, h₂⟩ := update_bind_inv h₂
  obtain ⟨u₃, n₃, e₃, e₄, h₃, h₄, rfl⟩ := bind_eq_some h₂
  obtain ⟨next, hnext, hq₃⟩ := refreshEffectiveMembership_spec (c := c) h₃ hidle₁
  have hidle₃ : n₃.publishingSnapshot = none := hq₃.idle hidle₁
  obtain ⟨u₅, n₅, e₅, e₆, h₅, h₆, rfl⟩ := bind_eq_some h₄
  obtain ⟨hs₅, heq₅, hr₅⟩ := applyCommitted_spec (c := c) h₅ hidle₃
  have hk₅ : n₃.Stays n₅ := by
    rw [heq₅]
    exact ⟨rfl, rfl, rfl, rfl, rfl, rfl, rfl, rfl, id⟩
  have hlast : n' = n₅ ∧ ∀ e ∈ e₆, e.isNote = true := by
    rcases when_inv h₆ with ⟨-, h₆⟩ | ⟨-, rfl, rfl⟩
    · cases h₆
      exact ⟨rfl, by simp [Effect.isNote]⟩
    · exact ⟨rfl, by simp⟩
  obtain ⟨rfl, hnote⟩ := hlast
  have hrefresh := Steps.move (c := c) (Move.refresh
    (n := { n₁ with commitIndex := index, effectiveMembership := effective }) hnext) hidle₁
  refine ⟨⟨e₁, e₃ ++ (e₅ ++ e₆), rfl, hpersist, ?_, ?_⟩, ?_⟩
  · exact Steps.trans_silent hs₁
      (Steps.silent_trans hrefresh (Steps.silent_trans hq₃.steps hs₅))
  · intro e he
    rw [List.mem_append, List.mem_append] at he
    rcases he with he | he | he
    · exact Or.inl (hq₃.notes e he)
    · rw [heq₅]
      exact (hr₅ e he).of_core rfl rfl rfl
    · exact Or.inl (hnote e he)
  · have hk₂ : n₁.Stays { n₁ with commitIndex := index, effectiveMembership := next } :=
      ⟨rfl, rfl, rfl, rfl, rfl, rfl, rfl, rfl, id⟩
    have hk₀ : { n with effectiveMembership := effective }.Stays n :=
      ⟨rfl, rfl, rfl, rfl, rfl, rfl, rfl, rfl, id⟩
    exact hk₀.trans (hk₁.trans (hk₂.trans (hq₃.keeps.stays.trans hk₅)))

theorem advanceCommit_spec {index : Nat} (h : advanceCommit index n = some (u, n', es))
    (hidle : n.publishingSnapshot = none)
    (hsafe : n.commitIndex < index → n.QuorumHas index ∨ n.LeaderSays c index) :
    n.Commits c es n' := by
  by_cases hgt : n.commitIndex < index
  · exact advanceCommit_stale h hidle hgt (hsafe hgt)
  · unfold advanceCommit at h
    rw [peek_bind, if_pos (by omega)] at h
    cases h
    exact RaftNode.Commits.refl n

theorem RaftNode.QuorumHas.of_candidate {index : Nat} (hc : n.Contiguous)
    (h : n.quorumCommitCandidate = some index) : n.QuorumHas index := by
  unfold RaftNode.quorumCommitCandidate at h
  cases hrole : n.role with
  | leader next matched =>
    simp only [hrole] at h
    obtain ⟨e, hfind, rfl⟩ := Option.map_eq_some_iff.1 h
    have hmem : e ∈ n.log := List.mem_reverse.1 (List.mem_of_find?_eq_some hfind)
    have hp := List.find?_some hfind
    simp only [Bool.and_eq_true, decide_eq_true_eq] at hp
    obtain ⟨⟨-, hle⟩, hterm⟩ := hp
    have hb := hc.mem_bounds hmem
    obtain ⟨votes, hq, hvotes⟩ := VoterConfig.hasQuorum_of_replicatedIndex (by omega) hle
    refine ⟨hterm ▸ hc.logTerm_of_mem hmem, ?_, by omega, next, matched, votes, hrole, hq, ?_⟩
    · rw [hc.lastLogIndex]
      exact hb.2
    · intro v hv
      have hidx := hvotes v hv
      rw [RaftNode.watermarks, Std.ExtTreeMap.getElem?_insert] at hidx
      split at hidx
      · next heq => exact Or.inl (compare_eq_iff_eq.1 heq).symm
      · exact Or.inr hidx
  | _ => simp [hrole] at h

theorem commitQuorum_spec (h : commitQuorum n = some (u, n', es))
    (hidle : n.publishingSnapshot = none) (hc : n.Contiguous) : n.Commits c es n' := by
  unfold commitQuorum at h
  rw [peek_bind] at h
  cases hcand : n.quorumCommitCandidate with
  | none =>
    simp only [hcand] at h
    cases h
    exact RaftNode.Commits.refl n
  | some index =>
    simp only [hcand] at h
    exact advanceCommit_spec h hidle fun _ => Or.inl (RaftNode.QuorumHas.of_candidate hc hcand)

end MicroRaft
