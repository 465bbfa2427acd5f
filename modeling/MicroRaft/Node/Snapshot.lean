import MicroRaft.Node.Commit

/-!
# Snapshot handling as runs of moves
-/

namespace MicroRaft

open EffectM

variable {c : Cause} {n n' : RaftNode} {es : List Effect} {u : Unit}

/-! ## Compaction and publication -/

variable {descriptor : SnapshotDescriptor} {transfer : SnapshotTransferId} {offset round : Nat}
  {active : IncomingSnapshot} {sender dest : NodeId} {done : Bool}

theorem onCompact_spec
    (h : onCompact descriptor n = some (u, n', es)) (hidle : n.publishingSnapshot = none) :
    Steps c n es n' := by
  unfold onCompact at h
  rw [peek_bind] at h
  dsimp only at h
  split at h
  · cases h
    exact Steps.note rfl hidle
  next hbusy =>
  split at h
  · cases h
    exact Steps.note rfl hidle
  next hok =>
  rw [update_bind] at h
  cases h
  refine Steps.move (Move.publish ?_) hidle
  simp only [not_or, Bool.not_eq_false, not_le, not_lt, ne_eq, not_not] at hok
  obtain ⟨hvalid, hmembers, hb, happlied, hcommit, hterm⟩ := hok
  refine ⟨?_, hmembers, ?_, hb, happlied, hcommit, hterm⟩
  · cases hd : descriptor.validate with
    | error e => rw [hd] at hvalid; cases hvalid
    | ok u => rfl
  · simp only [hidle, Option.isSome_none, Bool.false_or, Bool.not_eq_true] at hbusy
    simpa using hbusy

theorem snapshotReply_spec {offset matchIndex round : Nat}
    {accepted installed : Bool}
    (h : snapshotReply transfer offset accepted installed matchIndex round n = some (u, n', es))
    (hidle : n.publishingSnapshot = none) (hack : accepted = true → installed = true →
      ∃ i, n.incomingSnapshot = some i ∧ i.transfer.term = n.hard.currentTerm ∧
        n.snapshot = some i.descriptor ∧ matchIndex = n.snapshotIndex) :
    Steps c n es n' ∧ n' = n := by
  unfold snapshotReply at h
  rw [peek_bind] at h
  cases h
  exact ⟨Steps.move (Move.send ⟨rfl, hack⟩) hidle, rfl⟩

theorem snapshotRefuse_spec (h : snapshotRefuse transfer offset n = some (u, n', es))
    (hidle : n.publishingSnapshot = none) : Steps c n es n' ∧ n' = n := by
  unfold snapshotRefuse at h
  rw [peek_bind] at h
  exact snapshotReply_spec h hidle (by simp)

theorem adoptMembership_spec (h : adoptMembership descriptor n = some (u, n', es)) :
    let hard := { n.hard with
      membership := (descriptor.metadata.membership).or n.hard.membership }
    n' = { n with hard } ∧ es = if hard = n.hard then [] else [.persistHardState hard] := by
  unfold adoptMembership at h
  rw [peek_bind] at h
  cases hm : descriptor.metadata.membership with
  | none =>
    simp only [hm] at h
    cases h
    simp
  | some membership =>
    simp only [hm] at h
    rcases when_inv h with ⟨hne, h⟩ | ⟨heq, rfl, rfl⟩
    · rw [update_bind] at h
      cases h
      refine ⟨rfl, ?_⟩
      rw [if_neg]
      · rfl
      · intro hcon
        exact hne (congrArg HardState.membership hcon).symm
    · rw [not_not] at heq
      have hhard : { n'.hard with membership := some membership } = n'.hard := by rw [← heq]
      simp [hhard]

/-- Publication of an installed image: the image's boundary and membership become the
node's, then the image is applied and acknowledged. -/
theorem installPublished_spec {p : PublishingSnapshot}
    (h : installPublished transfer p.descriptor round
      { n with publishingSnapshot := none, log := p.retained, snapshot := some p.descriptor,
               outgoingSnapshots := ∅ } = some (u, n', es))
    (hp : n.publishingSnapshot = some p) (htransfer : p.transfer = some transfer)
    (hsound : n.Sound) : Steps c n es n' ∧ n'.publishingSnapshot = none := by
  obtain ⟨hterm, i, hi, hit, hid⟩ := hsound.pending hp htransfer
  unfold installPublished at h
  obtain ⟨u₁, n₁, e₁, e₂, h₁, h₂, rfl⟩ := bind_eq_some h
  obtain ⟨rfl, rfl⟩ := adoptMembership_spec h₁
  obtain ⟨n₂, rfl, h₂⟩ := update_bind_inv h₂
  obtain ⟨u₃, n₃, e₃, e₄, h₃, h₄, rfl⟩ := bind_eq_some h₂
  obtain ⟨next, hnext, hq₃⟩ := refreshEffectiveMembership_spec (c := c) h₃ rfl
  have hk₃ := hq₃.keeps
  have hidle : n₃.publishingSnapshot = none := hq₃.idle rfl
  obtain ⟨n₄, rfl, h₄⟩ := update_bind_inv h₄
  obtain ⟨e₅, h₅, rfl⟩ := emit_bind_inv h₄
  unfold snapshotReply at h₅
  rw [peek_bind] at h₅
  cases h₅
  have hland := Land.installed hp htransfer rfl hnext
  have hsnap : n₃.snapshotIndex = p.descriptor.metadata.lastIncludedIndex := by
    rw [RaftNode.snapshotIndex, hk₃.snapshot]
    rfl
  refine ⟨(Run.single (Step.land hland)).trans
    (Run.trans (Steps.silent_trans hq₃.steps (Steps.notes hq₃.notes hidle)) ?_), hidle⟩
  -- the image is applied and acknowledged before the transfer is forgotten
  have happly : Steps c n₃ [.applySnapshot p.descriptor] n₃ :=
    Steps.move (Move.applySnapshot hk₃.snapshot hk₃.commitIndex) hidle
  refine happly.trans (Steps.trans_silent (Steps.move (Move.send ?_) hidle)
    (Steps.move (Move.syncApplied (hk₃.commitIndex.trans hsnap.symm)) hidle))
  refine ⟨rfl, fun _ _ => ⟨i, ?_, ?_, ?_, hsnap.symm⟩⟩
  · exact hk₃.incoming.trans hi
  · rw [hit, hterm, hk₃.hard]
  · rw [hid]
    exact hk₃.snapshot

theorem onSnapshotPublished_spec {transfer : Option SnapshotTransferId} {p : PublishingSnapshot}
    (h : onSnapshotPublished transfer descriptor n = some (u, n', es))
    (hp : n.publishingSnapshot = some p)
    (hmatch : p.transfer = transfer ∧ p.descriptor = descriptor) (hsound : n.Sound) :
    Steps c n es n' ∧ n'.publishingSnapshot = none := by
  unfold onSnapshotPublished at h
  rw [peek_bind] at h
  obtain ⟨rfl, rfl⟩ := hmatch
  simp only [hp] at h
  rw [if_neg (by simp)] at h
  obtain ⟨n₁, rfl, h⟩ := update_bind_inv h
  cases htr : p.transfer with
  | none =>
    simp only [htr] at h
    cases h
    exact ⟨Run.single (Step.land (Land.compacted hp htr)), rfl⟩
  | some tr =>
    simp only [htr] at h
    exact installPublished_spec h hp htr hsound

/-- Without a publication to wait for, the callback is ignored. -/
theorem onSnapshotPublished_idle {transfer : Option SnapshotTransferId}
    (h : onSnapshotPublished transfer descriptor n = some (u, n', es))
    (hidle : n.publishingSnapshot = none) : n' = n ∧ es = [] := by
  unfold onSnapshotPublished at h
  rw [peek_bind] at h
  simp only [hidle] at h
  cases h
  exact ⟨rfl, rfl⟩

/-! ## The sending side -/

theorem readChunk_spec {active : OutgoingSnapshot}
    (h : readChunk dest active n = some (u, n', es)) (hidle : n.publishingSnapshot = none)
    (hactive : ∃ o, n.outgoingSnapshots[dest]? = some o ∧ o.descriptor = active.descriptor) :
    Steps c n es n' ∧ n'.core = { n.core with outgoingSnapshots := n'.outgoingSnapshots } := by
  unfold readChunk at h
  split at h
  · cases h
    exact ⟨Run.nil n, rfl⟩
  · rw [update_bind] at h
    cases h
    refine ⟨Steps.silent_trans (Steps.weaken ?_ hidle) (Steps.note rfl hidle), rfl⟩
    exact RaftNode.Weakens.of_setOutgoing rfl (Or.inr hactive)

theorem sendSnapshotChunk_spec (h : sendSnapshotChunk dest n = some (u, n', es))
    (hidle : n.publishingSnapshot = none) :
    Steps c n es n' ∧ n'.core = { n.core with outgoingSnapshots := n'.outgoingSnapshots } := by
  unfold sendSnapshotChunk at h
  rw [peek_bind] at h
  split at h
  · cases h
    exact ⟨Run.nil n, rfl⟩
  cases hsnap : n.snapshot with
  | none =>
    simp only [hsnap] at h
    cases h
    exact ⟨Run.nil n, rfl⟩
  | some descriptor =>
    simp only [hsnap] at h
    cases hout : n.outgoingSnapshots[dest]? with
    | some active =>
      simp only [hout] at h
      exact readChunk_spec h hidle ⟨active, hout, rfl⟩
    | none =>
      simp only [hout] at h
      cases hseq : checkedAdd n.snapshotSequence 1 with
      | none =>
        simp only [hseq] at h
        cases h
        exact ⟨Steps.note rfl hidle, rfl⟩
      | some sequence =>
        simp only [hseq] at h
        obtain ⟨n₁, rfl, h⟩ := update_bind_inv h
        obtain ⟨hs, hcore⟩ := readChunk_spec (c := c) h hidle
          ⟨_, Std.ExtTreeMap.getElem?_insert_self, rfl⟩
        refine ⟨Steps.silent_trans (Steps.weaken ?_ hidle) hs, hcore.trans rfl⟩
        exact RaftNode.Weakens.of_setOutgoing rfl (Or.inl hsnap)

theorem onSnapshotChunkRead_spec {data : List UInt8}
    (h : onSnapshotChunkRead dest transfer descriptor offset data n = some (u, n', es))
    (hidle : n.publishingSnapshot = none) : Steps c n es n' := by
  unfold onSnapshotChunkRead at h
  rw [peek_bind] at h
  split at h
  · cases h
    exact Run.nil n
  next hguard =>
  simp only [Bool.or_eq_true, not_or, Bool.not_eq_true, Bool.not_eq_false', decide_eq_true_eq,
    ne_eq, not_not] at hguard
  cases hout : n.outgoingSnapshots[dest]? with
  | none =>
    simp only [hout] at h
    cases h
    exact Run.nil n
  | some active =>
    simp only [hout] at h
    split at h
    · cases h
      exact Run.nil n
    next hmatch =>
    simp only [not_or, ne_eq, not_not] at hmatch
    have hset : ∀ {active' : OutgoingSnapshot} {e : Effect},
        active'.descriptor = active.descriptor →
        Steps c (n.setOutgoing dest active') [e] (n.setOutgoing dest active') →
        Steps c n [e] (n.setOutgoing dest active') := fun hd hs =>
      Steps.silent_trans (Steps.weaken
        (RaftNode.Weakens.of_setOutgoing rfl (Or.inr ⟨active, hout, hd.symm⟩)) hidle) hs
    split at h
    · rw [update_bind] at h
      cases h
      exact hset rfl (Steps.note rfl hidle)
    · obtain ⟨-, h⟩ := require_bind_inv h
      rw [update_bind] at h
      cases h
      refine hset rfl (Steps.move (Move.send ?_) hidle)
      exact ⟨hguard.2, hguard.1, _, Std.ExtTreeMap.getElem?_insert_self, hmatch.2.1.symm⟩

/-! ## The receiving side -/

/-- A chunk that is staged: the node follows the sender of the image. -/
theorem staged_steps {data : List UInt8} {notes : List Effect}
    (hcore : n'.core = { n.steppedDown.core with incomingSnapshot := some active })
    (hheard : c = .heard sender (.installSnapshot transfer descriptor offset data done round))
    (hidle : n.publishingSnapshot = none) (hterm : transfer.term = n.hard.currentTerm)
    (htransfer : active.transfer = transfer) (hdescriptor : active.descriptor = descriptor)
    (hnotes : ∀ e ∈ notes, e.isNote = true) : Steps c n (n.stepDownNotes ++ notes) n' := by
  refine (steppedDown_steps hidle).trans ?_
  refine Steps.silent_trans (Steps.move (Move.receive rfl hheard hterm htransfer hdescriptor) hidle)
    ?_
  have hidle' : n'.publishingSnapshot = none := (congrArg Core.publishingSnapshot hcore).trans hidle
  refine Steps.silent_trans (Steps.weaken (RaftNode.Weakens.of_eq hcore) hidle) ?_
  exact Steps.notes hnotes hidle'

/-- Staging a chunk of a transfer that was already active. -/
theorem stageChunk_active {data : List UInt8} {sameImage : Bool}
    (h : stageChunk transfer descriptor offset data done round sameImage n = some (u, n', es))
    (hheard : c = .heard sender (.installSnapshot transfer descriptor offset data done round))
    (hidle : n.publishingSnapshot = none) (hterm : transfer.term = n.hard.currentTerm)
    (hactive : n.incomingSnapshot = some active) (htransfer : active.transfer = transfer)
    (hdescriptor : active.descriptor = descriptor) : Steps c n es n' := by
  unfold stageChunk at h
  rw [peek_bind] at h
  obtain ⟨active', ha, h⟩ := expect_bind_inv h
  rw [hactive] at ha
  cases ha
  split at h
  · exact (snapshotRefuse_spec h hidle).1
  · obtain ⟨-, h⟩ := require_bind_inv h
    obtain ⟨n₁, hn₁, h⟩ := update_bind_inv h
    obtain ⟨e₂, h₂, rfl⟩ := becomeFollower_bind_inv h
    obtain ⟨n₂, hn₂, h₂⟩ := resetElectionDeadline_bind_inv h₂
    rw [update_bind] at h₂
    cases h₂
    subst hn₁
    have hcore : n₂.core = { n.steppedDown.core with
        incomingSnapshot := some { active with
          pending := some (offset, offset + data.length, round) } } := hn₂
    exact staged_steps hcore hheard hidle hterm htransfer hdescriptor (by simp [Effect.isNote])

/-- Staging the first chunk of a transfer, from the node before the transfer was recorded. -/
theorem stageChunk_fresh {data : List UInt8} {sameImage : Bool}
    (h : stageChunk transfer descriptor offset data done round sameImage
      { n with lastSnapshotTransfer := some (transfer, descriptor),
               incomingSnapshot :=
                 some { transfer, descriptor, nextOffset := 0, pending := none } } =
      some (u, n', es))
    (hheard : c = .heard sender (.installSnapshot transfer descriptor offset data done round))
    (hidle : n.publishingSnapshot = none) (hterm : transfer.term = n.hard.currentTerm)
    (hoffset : offset = 0 ∨ sameImage = true) : Steps c n es n' := by
  unfold stageChunk at h
  rw [peek_bind] at h
  obtain ⟨active, ha, h⟩ := expect_bind_inv h
  cases ha
  rw [if_neg] at h
  · obtain ⟨-, h⟩ := require_bind_inv h
    obtain ⟨n₁, hn₁, h⟩ := update_bind_inv h
    obtain ⟨e₂, h₂, rfl⟩ := becomeFollower_bind_inv h
    obtain ⟨n₂, hn₂, h₂⟩ := resetElectionDeadline_bind_inv h₂
    rw [update_bind] at h₂
    cases h₂
    subst hn₁
    have hcore : n₂.core = { n.steppedDown.core with
        incomingSnapshot := some { transfer, descriptor, nextOffset := 0,
                                   pending := some (offset, offset + data.length, round) } } := hn₂
    exact staged_steps hcore hheard hidle hterm rfl rfl (by simp [Effect.isNote])
  · rcases hoffset with rfl | rfl <;> simp

theorem onInstallSnapshot_spec {data : List UInt8}
    (h : onInstallSnapshot transfer descriptor offset data done round n = some (u, n', es))
    (hheard : c = .heard sender (.installSnapshot transfer descriptor offset data done round))
    (hidle : n.publishingSnapshot = none) (hle : transfer.term ≤ n.hard.currentTerm) :
    Steps c n es n' := by
  unfold onInstallSnapshot at h
  rw [peek_bind] at h
  dsimp only at h
  split at h
  · exact (snapshotRefuse_spec h hidle).1
  next hterm =>
  have hterm : transfer.term = n.hard.currentTerm := by omega
  split at h
  · exact (snapshotRefuse_spec h hidle).1
  split at h
  · exact (snapshotRefuse_spec h hidle).1
  split at h
  · exact (snapshotRefuse_spec h hidle).1
  next hfresh =>
  obtain ⟨u₁, n₁, e₁, e₂, h₁, h₂, rfl⟩ := bind_eq_some h
  rcases when_inv h₁ with ⟨hsame, h₁⟩ | ⟨hsame, rfl, rfl⟩
  · obtain ⟨u₃, n₃, e₃, e₄, h₃, h₄, rfl⟩ := bind_eq_some h₁
    obtain ⟨hs₃, -, hw⟩ := cancelIncomingSnapshot_spec (c := c) h₃ hidle
    cases h₄
    rw [List.append_nil]
    refine hs₃.trans (stageChunk_fresh h₂ hheard (hw.publishing.trans hidle)
      (by rw [hw.hard]; exact hterm) ?_)
    rw [hsame] at hfresh
    by_cases hoff : offset = 0
    · exact Or.inl hoff
    · exact Or.inr (by simpa [hoff] using hfresh)
  · rw [Bool.not_eq_false, Option.any_eq_true] at hsame
    obtain ⟨active, hactive, hmatch⟩ := hsame
    simp only [Bool.and_eq_true, decide_eq_true_eq] at hmatch
    rw [List.nil_append]
    exact stageChunk_active h₂ hheard hidle hterm hactive hmatch.1 hmatch.2

/-! ## Staging results -/

/-- Changing the position of the active transfer. -/
theorem RaftNode.Weakens.of_incoming {active active' : IncomingSnapshot}
    (h : n'.core = { n.core with incomingSnapshot := some active' })
    (hactive : n.incomingSnapshot = some active) (htransfer : active.transfer = active'.transfer)
    (hdescriptor : active.descriptor = active'.descriptor) : n.Weakens n' := by
  simp only [core, Core.mk.injEq] at h
  obtain ⟨h₁, h₂, h₃, h₄, h₅, h₆, h₇, h₈, h₉, h₁₀, h₁₁, h₁₂, h₁₃, h₁₄⟩ := h
  refine ⟨h₁, h₂, h₃, h₄, h₅, h₈, h₁₁, h₁₃, h₁₄, h₇, Or.inl h₆, ?_, ?_, fun hx => h₁₂ ▸ hx⟩
  · intro p o ho
    exact Or.inr ⟨o, h₉ ▸ ho, rfl⟩
  · intro i hi
    rw [h₁₀] at hi
    cases hi
    exact ⟨active, hactive, htransfer, hdescriptor⟩

theorem completeStage_spec {nextOffset round : Nat}
    (h : completeStage transfer descriptor nextOffset round n = some (u, n', es))
    (hidle : n.publishingSnapshot = none) (hactive : n.incomingSnapshot = some active)
    (htransfer : active.transfer = transfer) (hdescriptor : active.descriptor = descriptor)
    (hterm : transfer.term = n.hard.currentTerm) : Steps c n es n' := by
  unfold completeStage at h
  rw [peek_bind] at h
  dsimp only at h
  split at h
  · next himage =>
      rw [update_bind] at h
      unfold snapshotReply at h
      rw [peek_bind] at h
      cases h
      have hw : n.Weakens { n with incomingSnapshot := none } :=
        RaftNode.Weakens.of_core rfl (Or.inl rfl) (Or.inl rfl) (Or.inr rfl) (Or.inl rfl)
      -- the acknowledgement is for the transfer that is then forgotten
      refine Steps.trans_silent (Steps.move (Move.send ⟨rfl, fun _ _ => ?_⟩) hidle)
        (Steps.weaken hw hidle)
      refine ⟨active, hactive, by rw [htransfer, hterm], by rw [hdescriptor, himage], ?_⟩
      rw [RaftNode.snapshotIndex, himage]
      rfl
  next himage =>
  split at h
  · obtain ⟨u₁, n₁, e₁, e₂, h₁, h₂, rfl⟩ := bind_eq_some h
    obtain ⟨hs₁, -, hw⟩ := cancelIncomingSnapshot_spec (c := c) h₁ hidle
    exact hs₁.trans (snapshotRefuse_spec h₂ (hw.publishing.trans hidle)).1
  next hbehind =>
  rw [update_bind] at h
  cases h
  rw [not_or, not_le, not_lt] at hbehind
  exact Steps.move (Move.publish ⟨hterm, himage, hbehind.1, hbehind.2, active, hactive, htransfer,
    hdescriptor⟩) hidle

theorem onSnapshotChunkStaged_spec {result : SnapshotStageResult}
    (h : onSnapshotChunkStaged transfer descriptor offset result n = some (u, n', es))
    (hidle : n.publishingSnapshot = none) : Steps c n es n' := by
  unfold onSnapshotChunkStaged at h
  rw [peek_bind] at h
  cases hactive : n.incomingSnapshot with
  | none =>
    simp only [hactive] at h
    cases h
    exact Run.nil n
  | some active =>
  simp only [hactive] at h
  split at h
  · cases h
    exact Run.nil n
  next hmatch =>
  simp only [not_or, ne_eq, not_not] at hmatch
  obtain ⟨htransfer, hdescriptor, hterm⟩ := hmatch
  cases hpending : active.pending with
  | none =>
    simp only [hpending] at h
    cases h
    exact Run.nil n
  | some p =>
  obtain ⟨expectedOffset, expectedEnd, round⟩ := p
  simp only [hpending] at h
  split at h
  · cases h
    exact Run.nil n
  obtain ⟨n₁, hn₁, h⟩ := update_bind_inv h
  have hidle₁ : n₁.publishingSnapshot = none := by rw [hn₁]; exact hidle
  have hs₁ : Steps c n [] n₁ := by
    rw [hn₁]
    exact Steps.weaken (RaftNode.Weakens.of_incoming rfl hactive rfl rfl) hidle
  refine Steps.silent_trans hs₁ ?_
  cases result with
  | rejected => exact (snapshotRefuse_spec h hidle₁).1
  | accepted nextOffset complete =>
  simp only at h
  split at h
  · obtain ⟨u₂, n₂, e₂, e₃, h₂, h₃, rfl⟩ := bind_eq_some h
    obtain ⟨hs₂, -, hw⟩ := cancelIncomingSnapshot_spec (c := c) h₂ hidle₁
    exact hs₂.trans (snapshotRefuse_spec h₃ (hw.publishing.trans hidle₁)).1
  · obtain ⟨n₂, rfl, h⟩ := update_bind_inv h
    have hactive₁ : n₁.incomingSnapshot = some { active with pending := none } := by rw [hn₁]
    have hw : n₁.Weakens { n₁ with
        incomingSnapshot := some { active with nextOffset, pending := none } } :=
      RaftNode.Weakens.of_incoming rfl hactive₁ rfl rfl
    refine Steps.silent_trans (Steps.weaken hw hidle₁) ?_
    split at h
    · exact (snapshotReply_spec h hidle₁ (by simp)).1
    · refine completeStage_spec h hidle₁ rfl htransfer hdescriptor ?_
      rw [hterm, hn₁]

end MicroRaft
