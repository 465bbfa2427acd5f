import MicroRaft.Node.Landing
import MicroRaft.Node.Restore

/-!
# Nodes start ready

A fresh node, a node of an explicit group, and a node rebuilt from durable state
satisfy the representation invariant.  For the last one nothing is assumed about
where the durable state comes from: what `restore_with_snapshot` accepts is
enough.
-/

namespace MicroRaft

variable {g : CommittedMembership} {r : MembershipRecovery} {voters : List NodeId}

namespace RaftNode

variable {calm : Prop} {id : NodeId} {peers : List NodeId} {seed : Nat} {n : RaftNode}

/-- A follower with nothing under way. -/
theorem Rep.of_follower (hordered : n.Ordered) (hconfigured : n.Configured)
    (hnodup : n.peers.Nodup)
    (hpeers : ∀ p, p ∈ n.peers ↔ p ∈ n.effectiveMembership.known ∧ p ≠ n.id)
    (hrole : n.role = .follower) (hincoming : n.incomingSnapshot = none)
    (hreads : n.readContext = 0) : n.Rep calm where
  ordered := hordered
  configured := hconfigured
  tracking := by
    refine ⟨hnodup, hpeers, fun {_ _} hr => ?_, fun _ {_ _} hr => ?_⟩ <;>
    · rw [hrole] at hr
      cases hr
  incoming {_} hx := by
    rw [hincoming] at hx
    cases hx
  elected := by
    rintro (hl | ⟨votes, hv⟩)
    · rw [isLeader, hrole] at hl
      cases hl
    · rw [hrole] at hv
      cases hv
  readContext := hreads ▸ Nat.zero_le _

/-! ## Fresh nodes -/

theorem Fresh.ordered (h : n.Fresh id g) (happlied : n.lastApplied = 0) : n.Ordered := by
  have hindex : n.snapshotIndex = 0 := by rw [snapshotIndex, h.snapshot]; rfl
  have hterm : n.snapshotTerm = 0 := by rw [snapshotTerm, h.snapshot]; rfl
  have hnil : ∀ {P : Entry → Prop}, ∀ e ∈ n.log, P e := by
    rw [h.log]
    simp
  refine ⟨?_, hnil, ?_, hnil, hnil, hterm ▸ Nat.zero_le _, hindex ▸ Nat.zero_le _, ?_,
    h.commitIndex ▸ Nat.zero_le _⟩
  · rw [Contiguous, h.log]
    exact .nil
  · rw [h.log]
    exact .nil
  · rw [happlied]
    exact Nat.zero_le _

theorem Fresh.configured (h : n.Fresh id g) (hg : Genesis g)
    (hcommitted : n.committedMembership = g) (hordered : n.Ordered) : n.Configured := by
  have hbase : n.baseMembership = g := by rw [baseMembership, h.snapshot, h.genesis]; rfl
  obtain ⟨hindex, hterm⟩ := hg.position
  refine ⟨?_, by rw [hbase, hindex]; exact Nat.zero_le _, by rw [hbase, hterm]; exact Nat.zero_le _,
    ⟨g, ?_⟩, ?_⟩
  · rw [hbase, h.genesis]
    exact hg.grown
  · rw [hbase, h.log]
    rfl
  · rw [membershipAt, if_neg (by rw [snapshotIndex, h.snapshot, h.commitIndex]; decide), hbase,
      hcommitted, replay_eq hordered.contiguous, h.log, List.take_nil]
    rfl

theorem Fresh.ready (h : n.Fresh id g) (hg : Genesis g)
    (hcommitted : n.committedMembership = g) (happlied : n.lastApplied = 0)
    (hreads : n.readContext = 0) (hnodup : n.peers.Nodup)
    (hpeers : ∀ p, p ∈ n.peers ↔ p ∈ g.state.known ∧ p ≠ n.id) : n.Ready calm := by
  have hordered := h.ordered happlied
  refine ⟨.of_follower hordered (h.configured hg hcommitted hordered) hnodup ?_ h.role h.incoming
    hreads, ⟨g, ?_, h.effective⟩, h.publishing⟩
  · rw [h.effective]
    exact hpeers
  · rw [baseMembership, h.snapshot, h.genesis, h.log]
    rfl

/-- A first membership knows its voters. -/
theorem mem_known_of_bootstrap {groupId : String}
    (h : CommittedMembership.bootstrapWithGroup groupId voters = .ok g) {p : NodeId} :
    p ∈ g.state.known ↔ p ∈ voters := by
  obtain ⟨-, -, rfl⟩ := CommittedMembership.bootstrapWithGroup_eq_ok h
  rw [MembershipState.mem_known, VoterConfig.mem_voters]
  simp

/-- **A fresh node is ready.** -/
theorem new_ready (h : RaftNode.new id peers seed = some n) : n.Ready calm := by
  have hdistinct : id ∉ peers ∧ peers.Nodup := by
    unfold RaftNode.new at h
    split at h
    · cases h
    · next hok =>
        rw [not_or, not_not, List.contains_iff_mem] at hok
        exact hok
  obtain ⟨g, hg, rfl⟩ := RaftNode.new_eq_some h
  refine (freshNode_fresh id peers seed g).ready ⟨_, _, hg⟩ rfl rfl rfl hdistinct.2 fun p => ?_
  rw [mem_known_of_bootstrap hg, List.mem_insertionSort, List.mem_append, List.mem_singleton]
  constructor
  · refine fun hp => ⟨Or.inl hp, fun heq => hdistinct.1 ?_⟩
    rwa [show p = id from heq] at hp
  · exact fun hp => hp.1.resolve_right hp.2

/-- **So is a fresh node of an explicit group.** -/
theorem newForGroup_ready {groupId : String} {es : List Effect}
    (h : RaftNode.newForGroup id voters seed groupId = some (.ok (n, es))) : n.Ready calm := by
  obtain ⟨g, -, hg, hfresh, hmembership, -⟩ := RaftNode.newForGroup_eq_ok h
  obtain ⟨g₀, g', -, hg', rfl, -⟩ := RaftNode.newForGroup_node h
  obtain rfl : g = g' := Except.ok.inj (hg.symm.trans hg')
  refine hfresh.ready ⟨_, _, hg⟩ rfl rfl rfl (nodup_replicationPeers g.state id) fun p => ?_
  exact mem_replicationPeers

/-! ## Rebuilt nodes -/

section Rebuilt

variable {hard : HardState} {snapshot : Option SnapshotDescriptor} {log : List Entry}

/-- The image a node is rebuilt from was checked. -/
theorem checkRestoredSnapshot_eq_ok {term : Nat} (h : checkRestoredSnapshot term snapshot = .ok ())
    {d : SnapshotDescriptor} (hd : snapshot = some d) :
    d.validate = .ok () ∧ d.metadata.lastIncludedTerm ≤ term := by
  subst hd
  unfold checkRestoredSnapshot at h
  dsimp only at h
  split at h
  · cases h
  · next hvalid =>
      split at h
      · cases h
      · next hle => exact ⟨hvalid, not_lt.1 hle⟩

theorem recoveredGenesis_genesis
    (h : recoveredGenesis hard snapshot voters = .ok g) : Genesis g := by
  unfold recoveredGenesis at h
  split at h <;> exact ⟨_, _, h⟩

/-- The membership the recovered log starts from is one of the recovered group. -/
theorem recoveryBase_grown (h : recoverMembership hard snapshot log voters = .ok r)
    (hg : recoveredGenesis hard snapshot voters = .ok g) : Grown g (recoveryBase snapshot g) := by
  have hgenesis := recoveredGenesis_genesis hg
  unfold recoveryBase
  cases hm : imageMembership snapshot with
  | none => exact hgenesis.grown
  | some m =>
    refine CommittedMembership.validate_grown hgenesis
      (recoverMembership_authority h (Or.inr hm)) ?_
    unfold recoveredGenesis at hg
    rw [hm, Option.some_or] at hg
    obtain ⟨-, -, rfl⟩ := CommittedMembership.bootstrapWithGroup_eq_ok hg
    exact ⟨rfl, rfl⟩

theorem recoveryBase_position {term : Nat} (h : checkRestoredSnapshot term snapshot = .ok ())
    (hg : Genesis g) :
    (recoveryBase snapshot g).index ≤ snapshot.elim 0 (fun s => s.metadata.lastIncludedIndex) ∧
      (recoveryBase snapshot g).term ≤ snapshot.elim 0 (fun s => s.metadata.lastIncludedTerm) := by
  cases snapshot with
  | none =>
    obtain ⟨hindex, hterm⟩ := hg.position
    exact ⟨hindex.le, hterm.le⟩
  | some d => exact base_position (checkRestoredSnapshot_eq_ok h rfl).1 hg

/-- Recovery commits no further than the log reaches. -/
theorem recovered_commit {base : CommittedMembership} {start : Nat}
    (hnum : Numbered start log) (hbase : base.index ≤ start)
    (hselect : selectMembership base hard.membership start log = .ok r.committed)
    (hcommit : r.commitIndex = max start r.committed.index) :
    start ≤ r.commitIndex ∧ r.commitIndex ≤ start + log.length := by
  rw [hcommit]
  refine ⟨le_max_left _ _, max_le (Nat.le_add_right _ _) ?_⟩
  rcases selectMembership_eq_ok hselect with ⟨heq, -⟩ | ⟨-, hreached⟩
  · rw [heq]
    exact hbase.trans (Nat.le_add_right _ _)
  · cases hlast : log.getLast? with
    | none =>
      rw [hlast] at hreached
      exact Nat.le_add_right_of_le hreached
    | some e =>
      rw [hlast] at hreached
      exact hreached.trans (hnum.mem_bounds (List.mem_of_getLast? hlast)).2

/-- The membership made durable is the one recovered, also where it is not written again. -/
theorem recovered_hard {start : Nat}
    (hbase : Grown g (recoveryBase snapshot g)) (hcommitted : Grown g r.committed)
    (hselect : selectMembership (recoveryBase snapshot g) hard.membership start log =
      .ok r.committed) (hrefresh : r.refreshHard = true ↔ hard.membership ≠ some r.committed ∧
      (r.committed.state.groupId ≠ legacyGroupId ∨ r.committed.index ≠ 0)) :
    (if r.refreshHard then { hard with membership := some r.committed }
      else hard : HardState).membership.getD g = r.committed := by
  split
  · rfl
  next hkeep =>
    rw [hrefresh, not_and_or, not_not, not_or, not_not, not_not] at hkeep
    rcases hkeep with hsame | ⟨hlegacy, -⟩
    · rw [hsame]
      rfl
    · -- in a fixed group there is only the genesis
      have hid : g.state.groupId = legacyGroupId := hcommitted.within.1.symm.trans hlegacy
      rw [hcommitted.legacy hid]
      cases hm : hard.membership with
      | none => rfl
      | some m =>
        rcases selectMembership_eq_ok hselect with ⟨-, hext⟩ | ⟨hsome, -⟩
        · exact (hbase.of_extended (hext m hm)).legacy hid
        · rw [hm] at hsome
          cases hsome
          exact hcommitted.legacy hid

theorem restored_ordered {node : RaftNode} {genesis : CommittedMembership}
    (hsnapshot : checkRestoredSnapshot hard.currentTerm snapshot = .ok ())
    (hlog : Chained hard.currentTerm (snapshot.elim 0 fun s => s.metadata.lastIncludedIndex)
      (snapshot.elim 0 fun s => s.metadata.lastIncludedTerm) log)
    (hfloor : (snapshot.elim 0 fun s => s.metadata.lastIncludedIndex) ≤ r.commitIndex)
    (hcommit : r.commitIndex ≤
      (snapshot.elim 0 fun s => s.metadata.lastIncludedIndex) + log.length) :
    (restoredNode node hard snapshot log genesis r).Ordered := by
  have hterm : (restoredNode node hard snapshot log genesis r).hard.currentTerm =
      hard.currentTerm := by
    show (if r.refreshHard then _ else hard : HardState).currentTerm = _
    split <;> rfl
  have hcont : (restoredNode node hard snapshot log genesis r).Contiguous := hlog.numbered
  refine ⟨hcont, hlog.bounded, hlog.ascending, hlog.above, ?_, ?_, le_rfl, hfloor, ?_⟩
  · rw [hterm]
    exact hlog.current
  · rw [hterm]
    cases snapshot with
    | none => exact Nat.zero_le _
    | some d => exact (checkRestoredSnapshot_eq_ok hsnapshot rfl).2
  · rw [hcont.lastLogIndex]
    exact hcommit

/-- **A node rebuilt from durable state is ready**, wherever the state comes from. -/
theorem restoreWithSnapshot_ready
    (h : restoreWithSnapshot id peers seed hard snapshot log = some (.ok n)) : n.Ready calm := by
  obtain ⟨hsnapshot, hlog⟩ := restoreWithSnapshot_checks h
  have hlog := checkRestoredLog_eq_ok hlog
  obtain ⟨g₀, r, genesis, hrecover, hrebuild, rfl⟩ := restoreWithSnapshot_eq_ok h
  obtain ⟨g, hg, hselect, hindex, hverified, heffective, hrefresh⟩ :=
    recoverMembership_eq_ok hrecover
  have hbase := recoveryBase_grown hrecover hg
  obtain ⟨hposition, hpositionTerm⟩ := recoveryBase_position hsnapshot hbase.genesis
  obtain ⟨hfloor, hcommit⟩ := recovered_commit hlog.numbered hposition hselect hindex
  have hreplayed := hverified
  rw [replay_eq hlog.numbered] at hverified
  have hcommitted := hbase.append hverified
  obtain rfl : genesis = g := by
    rw [hcommitted.within.1, hcommitted.within.2, hbase.genesis.rebuild] at hrebuild
    exact (Except.ok.inj hrebuild).symm
  have hordered : (restoredNode (freshNode id peers seed g₀) hard snapshot log genesis r).Ordered :=
    restored_ordered hsnapshot hlog hfloor hcommit
  rw [effectiveAfter_eq hlog.numbered hfloor hlog.bounded] at heffective
  obtain ⟨m, hm, heq⟩ := bind_eq_ok.1 heffective
  have heff : r.effective = m.state := (Except.ok.inj heq).symm
  have hwhole : membershipAfter (recoveryBase snapshot genesis) log = .ok m := by
    rw [← List.take_append_drop (r.commitIndex - _) log, membershipAfter_append, hverified]
    exact hm
  refine ⟨.of_follower hordered ⟨hbase, hposition, hpositionTerm, ⟨m, hwhole⟩, ?_⟩
    (nodup_replicationPeers _ id) (fun p => mem_replicationPeers) rfl rfl rfl,
    ⟨m, hwhole, heff⟩, rfl⟩
  have hhard : RaftNode.committedMembership
      (restoredNode (freshNode id peers seed g₀) hard snapshot log genesis r) = r.committed :=
    recovered_hard hbase hcommitted hselect hrefresh
  rw [hhard]
  exact (if_neg (not_lt.2 hfloor)).trans hreplayed

/-- An application watermark found before service commits at most up to it. -/
theorem Ready.restoreAppliedWatermark (h : n.Ready calm) {index term : Nat} {n' : RaftNode}
    (hn' : n.restoreAppliedWatermark index term = .ok n') : n'.Ready calm := by
  obtain ⟨-, happlied, hlast, hmembership, rfl⟩ := RaftNode.restoreAppliedWatermark_eq_ok hn'
  have hcommit : n.membershipAt (max n.commitIndex index) = .ok n.committedMembership := by
    rcases le_or_gt index n.commitIndex with hle | hgt
    · rw [max_eq_left hle]
      exact h.configured.committed
    · rw [max_eq_right hgt.le]
      exact hmembership hgt
  have hrep : Rep calm { n with commitIndex := max n.commitIndex index } :=
    h.toRep.commitTo hcommit (le_max_left _ _) (max_le h.ordered.commit hlast) rfl rfl
  have happly : Rep calm { n with commitIndex := max n.commitIndex index, lastApplied := index } :=
    hrep.applyTo happlied (le_max_right _ _)
  exact ⟨happly.congr rfl, h.fresh, h.idle⟩

end Rebuilt

end RaftNode

end MicroRaft
