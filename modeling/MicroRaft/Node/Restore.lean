import MicroRaft.Node.Commit
import MicroRaft.Group.History

/-!
# How a node comes to be

What the constructors and the recovery return, field by field where the other
modules look.
-/

namespace MicroRaft

variable {id : NodeId} {peers : List NodeId} {seed : Nat} {n : RaftNode}

theorem RaftNode.new_eq_some (h : RaftNode.new id peers seed = some n) :
    ∃ g, CommittedMembership.bootstrap ((peers ++ [id]).insertionSort (· ≤ ·)) = .ok g ∧
      n = freshNode id peers seed g := by
  unfold RaftNode.new at h
  split at h
  · cases h
  · obtain ⟨g, hg, rfl⟩ := Option.map_eq_some_iff.1 h
    refine ⟨g, ?_, rfl⟩
    cases hb : CommittedMembership.bootstrap ((peers ++ [id]).insertionSort (· ≤ ·)) with
    | error e =>
      rw [hb] at hg
      cases hg
    | ok g' =>
      rw [hb] at hg
      cases hg
      rfl

/-- A node at its first start in a group with genesis `g`. -/
structure RaftNode.Fresh (n : RaftNode) (id : NodeId) (g : CommittedMembership) : Prop where
  id : n.id = id
  genesis : n.genesisMembership = g
  term : n.hard.currentTerm = 0
  vote : n.hard.votedFor = none
  log : n.log = []
  snapshot : n.snapshot = none
  commitIndex : n.commitIndex = 0
  role : n.role = .follower
  incoming : n.incomingSnapshot = none
  outgoing : n.outgoingSnapshots = ∅
  publishing : n.publishingSnapshot = none
  reads : n.pendingReads = ∅
  effective : n.effectiveMembership = g.state

theorem freshNode_fresh (id : NodeId) (peers : List NodeId) (seed : Nat) (g : CommittedMembership) :
    (freshNode id peers seed g).Fresh id g :=
  ⟨rfl, rfl, rfl, rfl, rfl, rfl, rfl, rfl, rfl, rfl, rfl, rfl, rfl⟩

/-- The first node of an explicit group. -/
def joinedNode (id : NodeId) (voters : List NodeId) (seed : Nat) (g₀ g : CommittedMembership) :
    RaftNode :=
  { freshNode id (voters.filter (· ≠ id)) seed g₀ with
    genesisMembership := g
    hard := { ({} : HardState) with membership := some g }
    effectiveMembership := g.state }.updateReplicationPeers

variable {log : List Entry} {voters : List NodeId} {hard : HardState}

theorem RaftNode.newForGroup_node {groupId : String} {es : List Effect}
    (h : RaftNode.newForGroup id voters seed groupId = some (.ok (n, es))) :
    ∃ g₀ g, groupId ≠ legacyGroupId ∧
      CommittedMembership.bootstrapWithGroup groupId voters = .ok g ∧
      n = joinedNode id voters seed g₀ g ∧ es = [.persistHardState n.hard] := by
  unfold RaftNode.newForGroup at h
  cases hb : CommittedMembership.bootstrapWithGroup groupId voters with
  | error e =>
    rw [hb] at h
    cases h
  | ok g =>
    simp only [hb] at h
    obtain ⟨node, hnode, hinit⟩ := Option.map_eq_some_iff.1 h
    obtain ⟨g₀, -, rfl⟩ := RaftNode.new_eq_some hnode
    obtain ⟨-, -, hg⟩ := CommittedMembership.bootstrapWithGroup_eq_ok hb
    unfold RaftNode.initializeGroup at hinit
    rw [hb] at hinit
    dsimp only [bind, Except.bind] at hinit
    split at hinit
    · cases hinit
    next hid =>
      have hgroup : g.state.groupId = groupId := by rw [hg]
      rw [hgroup] at hid
      rw [show (freshNode id (voters.filter (· ≠ id)) seed g₀).hard.membership = none from rfl]
        at hinit
      dsimp only at hinit
      rw [if_neg (by simp [freshNode])] at hinit
      cases hinit
      exact ⟨g₀, g, hid, rfl, rfl, rfl⟩

/-- A node of an explicit group makes the membership of the group durable first. -/
theorem RaftNode.newForGroup_eq_ok {groupId : String} {es : List Effect}
    (h : RaftNode.newForGroup id voters seed groupId = some (.ok (n, es))) :
    ∃ g, groupId ≠ legacyGroupId ∧ CommittedMembership.bootstrapWithGroup groupId voters = .ok g ∧
      n.Fresh id g ∧ n.hard.membership = some g ∧ es = [.persistHardState n.hard] := by
  obtain ⟨g₀, g, hid, hg, rfl, hes⟩ := RaftNode.newForGroup_node h
  exact ⟨g, hid, hg, ⟨rfl, rfl, rfl, rfl, rfl, rfl, rfl, rfl, rfl, rfl, rfl, rfl, rfl⟩, rfl, hes⟩

/-! ## Recovery -/

theorem mapError_eq_ok {ε ε' α : Type} {x : Except ε α} {f : ε → ε'} {v : α} :
    x.mapError f = .ok v ↔ x = .ok v := by
  cases x <;> simp [Except.mapError]

/-- What is selected is one of the two durable authorities: the image's if it is not behind,
or a watermark the log reaches. -/
theorem selectMembership_eq_ok {base selected : CommittedMembership}
    {hard : Option CommittedMembership} {snapshotIndex : Nat}
    (h : selectMembership base hard snapshotIndex log = .ok selected) :
    (selected = base ∧ ∀ m, hard = some m → base.isConsistentExtensionOf m = true) ∨
      (hard = some selected ∧ selected.index ≤ log.getLast?.elim snapshotIndex Entry.index) := by
  unfold selectMembership at h
  split at h
  · cases h
    exact Or.inl ⟨rfl, nofun⟩
  · split at h
    · next hext =>
        cases h
        refine Or.inl ⟨rfl, fun m hm => ?_⟩
        cases hm
        exact hext
    · split at h
      · split at h
        · cases h
        · next hreached =>
            obtain ⟨m, -, h⟩ := bind_eq_ok.1 h
            split at h
            · cases h
            · cases h
              exact Or.inr ⟨rfl, not_lt.1 hreached⟩
      · cases h

/-- The membership the recovered log starts from. -/
def recoveryBase (image : Option SnapshotDescriptor) (genesis : CommittedMembership) :
    CommittedMembership :=
  (imageMembership image).getD genesis

theorem recoverMembership_eq_ok {image : Option SnapshotDescriptor} {r : MembershipRecovery}
    (h : recoverMembership hard image log voters = .ok r) :
    ∃ genesis, recoveredGenesis hard image voters = .ok genesis ∧
      selectMembership (recoveryBase image genesis) hard.membership
        (image.elim 0 fun d => d.metadata.lastIncludedIndex) log = .ok r.committed ∧ r.commitIndex =
        max (image.elim 0 fun d => d.metadata.lastIncludedIndex) r.committed.index ∧
      replay (recoveryBase image genesis) log r.commitIndex = .ok r.committed ∧
      effectiveAfter r.committed log r.commitIndex = .ok r.effective ∧
      (r.refreshHard = true ↔ hard.membership ≠ some r.committed ∧
        (r.committed.state.groupId ≠ legacyGroupId ∨ r.committed.index ≠ 0)) := by
  unfold recoverMembership at h
  obtain ⟨-, -, h⟩ := bind_eq_ok.1 h
  obtain ⟨genesis, hgenesis, h⟩ := bind_eq_ok.1 h
  obtain ⟨-, -, h⟩ := bind_eq_ok.1 h
  obtain ⟨selected, hselected, h⟩ := bind_eq_ok.1 h
  obtain ⟨verified, hverified, h⟩ := bind_eq_ok.1 h
  split at h
  · cases h
  next hne =>
    obtain rfl := not_not.1 hne
    obtain ⟨effective, heffective, h⟩ := bind_eq_ok.1 h
    cases h
    exact ⟨genesis, hgenesis, hselected, rfl, hverified, heffective, by simp⟩

/-- Both durable authorities were validated. -/
theorem recoverMembership_authority {image : Option SnapshotDescriptor} {r : MembershipRecovery}
    (h : recoverMembership hard image log voters = .ok r) {m : CommittedMembership}
    (hm : hard.membership = some m ∨ imageMembership image = some m) : m.validate = .ok () := by
  unfold recoverMembership at h
  obtain ⟨⟨⟩, hall, -⟩ := bind_eq_ok.1 h
  have hmem : m ∈ hard.membership.toList ++ (imageMembership image).toList := by
    rw [List.mem_append, Option.mem_toList, Option.mem_toList]
    exact hm
  generalize hard.membership.toList ++ (imageMembership image).toList = l at hall hmem
  induction l with
  | nil => cases hmem
  | cons x l ih =>
    obtain ⟨⟨⟩, hx, hrest⟩ := bind_eq_ok.1 hall
    rcases List.mem_cons.1 hmem with rfl | hmem
    · obtain ⟨⟨⟩, hvalid, -⟩ := bind_eq_ok.1 hx
      exact hvalid
    · exact ih hrest hmem

/-- What the structural checks make of a log. -/
structure Chained (currentTerm start prevTerm : Nat) (log : List Entry) : Prop where
  numbered : Numbered start log
  bounded : ∀ e ∈ log, e.index ≤ u64Max
  ascending : log.Pairwise fun e e' => e.term ≤ e'.term
  above : ∀ e ∈ log, prevTerm ≤ e.term
  current : ∀ e ∈ log, e.term ≤ currentTerm

theorem checkRestoredLog_eq_ok {term : Nat} : ∀ {start prevTerm : Nat} {log : List Entry},
    checkRestoredLog term start prevTerm log = .ok () → Chained term start prevTerm log
  | _, _, [], _ => ⟨Numbered.nil, by simp, .nil, by simp, by simp⟩
  | start, _, e :: log, h => by
      unfold checkRestoredLog at h
      split at h
      · cases h
      next expected hadd =>
      obtain ⟨hexpected, hmax⟩ := checkedAdd_eq_some hadd
      split at h
      · cases h
      next hindex =>
      split at h
      · cases h
      next hprev =>
      split at h
      · cases h
      next hcurrent =>
      have hindex : e.index = start + 1 := (not_not.1 hindex).trans hexpected
      obtain ⟨hnum, hbound, hasc, habove, hcur⟩ := checkRestoredLog_eq_ok h
      refine ⟨Numbered.cons_iff.2 ⟨hindex, hindex ▸ hnum⟩, ?_, List.pairwise_cons.2 ⟨habove, hasc⟩,
        ?_, ?_⟩
      · exact List.forall_mem_cons.2 ⟨by omega, hbound⟩
      · exact List.forall_mem_cons.2 ⟨not_lt.1 hprev, fun e' he' =>
          (not_lt.1 hprev).trans (habove e' he')⟩
      · exact List.forall_mem_cons.2 ⟨not_lt.1 hcurrent, hcur⟩

theorem restoreWithSnapshot_checks {snapshot : Option SnapshotDescriptor}
    (h : restoreWithSnapshot id peers seed hard snapshot log = some (.ok n)) :
    checkRestoredSnapshot hard.currentTerm snapshot = .ok () ∧
      checkRestoredLog hard.currentTerm (snapshot.elim 0 fun s => s.metadata.lastIncludedIndex)
        (snapshot.elim 0 fun s => s.metadata.lastIncludedTerm) log = .ok () := by
  obtain ⟨node, -, h⟩ := Option.map_eq_some_iff.1 h
  obtain ⟨⟨⟩, hsnapshot, h⟩ := bind_eq_ok.1 h
  obtain ⟨⟨⟩, hlog, -⟩ := bind_eq_ok.1 h
  exact ⟨hsnapshot, hlog⟩

theorem restoreWithSnapshot_eq_ok {snapshot : Option SnapshotDescriptor}
    (h : restoreWithSnapshot id peers seed hard snapshot log = some (.ok n)) : ∃ g₀ r genesis,
      recoverMembership hard snapshot log ((peers ++ [id]).insertionSort (· ≤ ·)) = .ok r ∧
      CommittedMembership.bootstrapWithGroup r.committed.state.groupId
        r.committed.state.genesisVoters = .ok genesis ∧
      n = restoredNode (freshNode id peers seed g₀) hard snapshot log genesis r := by
  unfold restoreWithSnapshot at h
  obtain ⟨node, hnode, h⟩ := Option.map_eq_some_iff.1 h
  obtain ⟨g₀, hg₀, rfl⟩ := RaftNode.new_eq_some hnode
  obtain ⟨-, -, h⟩ := bind_eq_ok.1 h
  obtain ⟨-, -, h⟩ := bind_eq_ok.1 h
  obtain ⟨r, hr, h⟩ := bind_eq_ok.1 h
  obtain ⟨genesis, hgenesis, h⟩ := bind_eq_ok.1 h
  rw [mapError_eq_ok] at hr hgenesis
  cases h
  refine ⟨g₀, r, genesis, ?_, hgenesis, rfl⟩
  have hvoters : (freshNode id peers seed g₀).genesisMembership.state.genesisVoters =
      (peers ++ [id]).insertionSort (· ≤ ·) := by
    obtain ⟨-, -, heq⟩ := CommittedMembership.bootstrapWithGroup_eq_ok hg₀
    show g₀.state.genesisVoters = _
    rw [heq]
  rwa [hvoters] at hr

/-- The watermark a rebuilt node takes over names no other membership. -/
theorem RaftNode.restoreAppliedWatermark_eq_ok {n' : RaftNode} {index term : Nat}
    (h : n.restoreAppliedWatermark index term = .ok n') :
    n.role = .follower ∧ n.lastApplied ≤ index ∧ index ≤ n.lastLogIndex ∧
      (n.commitIndex < index → n.membershipAt index = .ok n.committedMembership) ∧
      n' = { n with
        commitIndex := max n.commitIndex index, lastApplied := index
        recoveryPending := n.recoveryRefreshHard || decide (index < max n.commitIndex index) } := by
  unfold restoreAppliedWatermark at h
  split at h
  · cases h
  next hok =>
    simp only [not_or, not_not, not_lt, not_and] at hok
    obtain ⟨-, -, hrole, -, happlied, hlast, -, hmembership⟩ := hok
    cases h
    refine ⟨hrole, happlied, hlast, fun hgt => ?_, rfl⟩
    have hsome := hmembership hgt
    cases hm : n.membershipAt index with
    | error e =>
      rw [hm] at hsome
      cases hsome
    | ok m =>
      rw [hm] at hsome
      cases hsome
      rfl

end MicroRaft
