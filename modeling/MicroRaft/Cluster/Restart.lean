import MicroRaft.Cluster.Simulation
import MicroRaft.Node.Restore

/-!
# Starting and restarting nodes

A node that is started for the first time is in the state the abstract protocol
begins with.  A node that comes back from its disk is in the state the abstract
protocol left it in: all that it forgets is how much it knew to be committed.
-/

namespace MicroRaft

open Consensus Function

variable {G : Group} {g : CommittedMembership} {a : Abstract} {σ : Cluster} {id : NodeId}
  {n : RaftNode} {d : Disk} {es : List Effect} {peers : List NodeId} {seed : Nat}

theorem Group.genesis_genesis (hG : G.genesis = .ok g) : Genesis g := by
  cases G with
  | fixed voters => exact ⟨_, _, hG⟩
  | explicit groupId voters =>
    simp only [genesis] at hG
    split at hG
    · cases hG
    · exact ⟨_, _, hG⟩

/-! ## First starts -/

/-- A node starts fresh, with the membership of its group durable if it has an identity. -/
theorem Group.Starts.fresh (hs : G.Starts id n es) :
    ∃ g, G.genesis = .ok g ∧ n.Fresh id g ∧
      ((n.hard = {} ∧ es = [] ∧ g.state.groupId = legacyGroupId) ∨
        (n.hard.membership = some g ∧ es = [.persistHardState n.hard])) := by
  cases hs with
  | fixed hvoters hnew =>
    obtain ⟨g, hg, rfl⟩ := RaftNode.new_eq_some hnew
    rw [hvoters] at hg
    obtain ⟨-, -, heq⟩ := CommittedMembership.bootstrapWithGroup_eq_ok hg
    exact ⟨g, hg, freshNode_fresh _ _ _ _, Or.inl ⟨rfl, rfl, by rw [heq]⟩⟩
  | explicit hnew =>
    obtain ⟨g, hid, hg, hfresh, hmembership, rfl⟩ := RaftNode.newForGroup_eq_ok hnew
    refine ⟨g, ?_, hfresh, Or.inr ⟨hmembership, rfl⟩⟩
    rw [genesis, if_neg hid]
    exact hg

/-- Nobody votes before the first term. -/
theorem Related.vote_none (h : Related g a σ) (v : NodeId) : a.vote v 0 = none := by
  cases hv : a.vote v 0 with
  | none => rfl
  | some m =>
    obtain ⟨c, hc, -⟩ := h.world.inv.vote_camp hv
    exact absurd (h.world.inv.camp_le hc).1 (lt_irrefl 0)

theorem RaftNode.Fresh.nodeOK {images : List (SnapshotDescriptor × List Entry)}
    (hf : n.Fresh id g) (hlog : a.log id = [])
    (hmembership : n.hard.membership = none ∧ g.state.groupId = legacyGroupId ∨
      n.hard.membership = some g) :
    NodeOK g a images id [] n where
  self := hf.id
  sound := .of_idle (by rw [RaftNode.Contiguous, hf.log]; exact Numbered.nil) hf.publishing
  genesis := hf.genesis
  known := by rw [hf.commitIndex]; exact State.Knows.zero id
  floor := by rw [RaftNode.snapshotIndex, hf.snapshot]; exact Nat.zero_le _
  committed := by
    rw [hlog, List.take_nil, membershipAfter_nil, RaftNode.committedMembership, hf.genesis]
    rcases hmembership with ⟨hm, -⟩ | hm
    · rw [hm]
      rfl
    · rw [hm]
      rfl
  legacy hm := by
    rcases hmembership with ⟨-, hl⟩ | hm'
    · exact hl
    · rw [hm] at hm'
      cases hm'
  effective _ := ⟨g, by rw [hlog]; rfl, hf.effective⟩
  role := by rw [hf.role]; trivial
  incoming hx := by
    rw [hf.incoming] at hx
    cases hx
  outgoing ho := by
    rw [hf.outgoing, Std.ExtTreeMap.getElem?_empty] at ho
    cases ho
  boundary hp := by
    rw [hf.publishing] at hp
    cases hp
  memory := by
    simp only [RaftNode.snapshotIndex, RaftNode.snapshotTerm, RaftNode.baseMembership, hf.log,
      hf.snapshot, hf.commitIndex, hf.genesis]
    exact ⟨rfl, rfl, rfl, fun p e hpe => by simp at hpe, rfl⟩
  whole _ := by rw [hlog, hf.log, List.take_nil, List.append_nil]

/-- **A first start.** -/
theorem Related.start (hG : G.genesis = .ok g) (h : Related g a σ) (hnew : σ.disk id = none)
    (hs : G.Starts id n es) :
    Related g a
      (({ σ with disk := update σ.disk id (some {}) }.executeAll id es).run id n) := by
  obtain ⟨g', hg', hf, hes⟩ := hs.fresh
  rw [hG] at hg'
  cases hg'
  obtain ⟨-, hterm, hlog, hcompacted⟩ := h.absent hnew
  have hvote := h.vote_none id
  have hmembership : n.hard.membership = none ∧ g.state.groupId = legacyGroupId ∨
      n.hard.membership = some g := by
    rcases hes with ⟨hh, -, hl⟩ | ⟨hm, -⟩
    · exact Or.inl ⟨by rw [hh], hl⟩
    · exact Or.inr hm
  have hnode : NodeOK g a σ.images id [] n := hf.nodeOK hlog hmembership
  have hquiet : ∀ e ∈ es, e.isPublish = false := by
    intro e he
    rcases hes with ⟨-, rfl, -⟩ | ⟨-, rfl⟩
    · cases he
    · rw [List.mem_singleton.1 he]
      rfl
  have hdisk : es.foldl Disk.execute ({} : Disk) = { hard := n.hard } := by
    rcases hes with ⟨hh, rfl, -⟩ | ⟨-, rfl⟩
    · rw [hh]
      rfl
    · rfl
  rw [Cluster.executeAll_quiet (d := {}) (update_self _ _ _) hquiet, hdisk]
  refine h.change { hard := n.hard } (State.By.refl id a) h.world (List.Subset.refl _)
    (fun v hv => update_of_ne hv _ _) (fun v hv => ?_) (fun _ _ => rfl) ?_ ?_
    (update_self _ _ _) ?_ ?_
  · show update (update σ.disk id (some {})) id _ v = σ.disk v
    rw [update_of_ne hv, update_of_ne hv]
  · intro s l hs
    obtain ⟨v, r, hv⟩ := h.published hs
    exact ⟨v, r, List.mem_append_left _ hv⟩
  · intro v e hv
    rcases List.mem_append.1 hv with hv | hv
    · exact Or.inl hv
    · obtain ⟨e', he', heq⟩ := List.mem_map.1 hv
      cases heq
      rcases hes with ⟨-, rfl, -⟩ | ⟨-, rfl⟩
      · cases he'
      · rw [List.mem_singleton.1 he']
        exact Or.inr ⟨rfl, .persistHardState n.hard, rfl, trivial⟩
  · show DiskOK g a σ.images id (σ.compacted id) _
    rw [hcompacted]
    exact
      { term := hf.term.trans hterm.symm
        vote := by rw [hterm, hvote]; exact hf.vote
        certified := hnode.certified
        log := hlog
        bare := fun _ => rfl
        image := fun hs => by cases hs
        known := State.Knows.zero id }
  · intro n' hn'
    rw [Cluster.run_up] at hn'
    cases hn'
    show NodeOK g a σ.images id (σ.compacted id) n ∧ _
    rw [hcompacted]
    exact ⟨hnode,
      { term := rfl
        vote := rfl
        idle := fun _ => ⟨hf.snapshot.symm, hf.log.symm⟩
        publishing := fun hp => by
          rw [hf.publishing] at hp
          cases hp }⟩

/-! ## Restarts -/

/-- The membership on a disk is one of the group. -/
theorem Certified.group {m : CommittedMembership} (h : Certified g a id (some m)) :
    m.state.groupId = g.state.groupId ∧ m.state.genesisVoters = g.state.genesisVoters := by
  obtain ⟨j, -, hm⟩ := h
  exact membershipAfter_group hm

/-- The recovery finds the genesis of the group. -/
theorem recoveredGenesis_eq {images : List (SnapshotDescriptor × List Entry)} {k : List Entry}
    (hG : G.genesis = .ok g) (w : World g a images) (hd : DiskOK g a images id k d)
    (hpeers : G.PeersFit id peers) :
    recoveredGenesis d.hard d.snapshot ((peers ++ [id]).insertionSort (· ≤ ·)) = .ok g := by
  -- an authority of the group rebuilds its genesis
  have hrebuild : ∀ {m : CommittedMembership}, m.state.groupId = g.state.groupId ∧
      m.state.genesisVoters = g.state.genesisVoters →
      CommittedMembership.bootstrapWithGroup m.state.groupId m.state.genesisVoters = .ok g := by
    rintro m ⟨hid, hvoters⟩
    rw [hid, hvoters, w.genesis.rebuild]
  unfold recoveredGenesis
  cases him : imageMembership d.snapshot with
  | some m =>
    simp only [Option.some_or]
    obtain ⟨s, hs, hm⟩ := Option.bind_eq_some_iff.1 him
    have himage := (w.images (hd.image hs)).membership
    rw [hm, Option.getD_some] at himage
    exact hrebuild (membershipAfter_group himage)
  | none =>
    simp only [Option.none_or]
    have hcert := hd.certified
    cases hm : d.hard.membership with
    | some m =>
      rw [hm] at hcert
      exact hrebuild hcert.group
    | none =>
      rw [hm] at hcert
      cases G with
      | fixed voters =>
        dsimp only
        rw [show (peers ++ [id]).insertionSort (· ≤ ·) = voters from hpeers]
        exact hG
      | explicit groupId voters =>
        simp only [Group.genesis] at hG
        split at hG
        · cases hG
        next hid =>
          obtain ⟨-, -, heq⟩ := CommittedMembership.bootstrapWithGroup_eq_ok hG
          rw [heq] at hcert
          exact absurd hcert hid

/-- The position of a membership lies within the log it belongs to. -/
theorem membershipAfter_index_le {m : CommittedMembership} (hg : Genesis g) {l : List Entry}
    (hnum : Numbered 0 l) (hm : membershipAfter g l = .ok m) : m.index ≤ l.length := by
  rcases membershipAfter_origin hm with rfl | ⟨e, he, -, hindex, -⟩
  · rw [hg.position.1]
    exact Nat.zero_le _
  · have := (hnum.mem_bounds he).2
    omega

theorem take_numbered (w : World g a σ.images) (v : NodeId) (j : Nat) :
    Numbered 0 ((a.log v).take j) :=
  (w.log v).numbered.take j

/-- Whichever authority the recovery selects, the node knows the prefix up to its position. -/
theorem DiskOK.knows_selected {k : List Entry} {m : CommittedMembership}
    (w : World g a σ.images) (hd : DiskOK g a σ.images id k d)
    (hsel : m = recoveryBase d.snapshot g ∨ d.hard.membership = some m) : a.Knows id m.index := by
  rcases hsel with rfl | hm
  · refine hd.known.of_le ?_
    have hk : Numbered 0 k := by
      have := take_numbered w id k.length
      rwa [hd.log, List.take_left] at this
    refine membershipAfter_index_le w.genesis hk ?_
    unfold recoveryBase imageMembership
    cases hs : d.snapshot with
    | none =>
      rw [hd.bare hs]
      rfl
    | some s => exact (w.images (hd.image hs)).membership
  · have hcert := hd.certified
    rw [hm] at hcert
    obtain ⟨j, hk, hj⟩ := hcert
    refine hk.of_le ((membershipAfter_index_le w.genesis (take_numbered w id j) hj).trans ?_)
    rw [List.length_take]
    exact min_le_left _ _

/-- In a group without an identity the membership on disk is the genesis, recorded or not. -/
theorem Certified.legacy (hg : Genesis g) (hlegacy : g.state.groupId = legacyGroupId)
    {m : Option CommittedMembership} (h : Certified g a id m) : m.getD g = g := by
  cases m with
  | none => rfl
  | some m =>
    obtain ⟨j, -, hm⟩ := h
    exact hg.membershipAfter_legacy hlegacy hm

/-- The membership in memory after a restart is the one the recovery selected. -/
theorem restored_committed {k : List Entry} {r : MembershipRecovery} (hg : Genesis g)
    (hd : DiskOK g a σ.images id k d) (hgroup : r.committed.state.groupId = g.state.groupId)
    (hlegacy : g.state.groupId = legacyGroupId → r.committed = g)
    (hrefresh : r.refreshHard = true ↔ d.hard.membership ≠ some r.committed ∧
      (r.committed.state.groupId ≠ legacyGroupId ∨ r.committed.index ≠ 0)) :
    (if r.refreshHard then { d.hard with membership := some r.committed }
      else d.hard).membership.getD
      g = r.committed := by
  by_cases hr : r.refreshHard = true
  · rw [if_pos hr]
    rfl
  · rw [if_neg hr]
    rw [hrefresh, not_and_or, not_not, not_or, not_not] at hr
    rcases hr with hm | ⟨hid, -⟩
    · rw [hm]
      rfl
    · rw [hgroup] at hid
      rw [hlegacy hid]
      exact hd.certified.legacy hg hid

theorem restored_views {k : List Entry} (node : RaftNode) (r : MembershipRecovery)
    (w : World g a σ.images) (hd : DiskOK g a σ.images id k d) :
    Views g k (a.log id) (restoredNode node d.hard d.snapshot d.log g r) := by
  have hwf := w.log id
  refine ⟨hd.log, ?_, ?_, ?_, hwf.numbered, hwf.bounded⟩
  · show k.length = d.snapshot.elim 0 fun s => s.metadata.lastIncludedIndex
    cases hs : d.snapshot with
    | none => rw [hd.bare hs]; rfl
    | some s => exact (w.images (hd.image hs)).length
  · show lastTerm k = d.snapshot.elim 0 fun s => s.metadata.lastIncludedTerm
    cases hs : d.snapshot with
    | none => rw [hd.bare hs]; rfl
    | some s => exact (w.images (hd.image hs)).term
  · show membershipAfter g k =
      .ok ((d.snapshot.bind fun image => image.metadata.membership).getD g)
    cases hs : d.snapshot with
    | none => rw [hd.bare hs]; rfl
    | some s => exact (w.images (hd.image hs)).membership

/-- **A restart from disk.** -/
theorem Related.restart (hG : G.genesis = .ok g) (h : Related g a σ)
    (hdisk : σ.disk id = some d) (hpeers : G.PeersFit id peers)
    (hrestore : restoreWithSnapshot id peers seed d.hard d.snapshot d.log = some (.ok n)) :
    Related g a (σ.run id n) := by
  have hd := h.disks hdisk
  obtain ⟨g₀, r, genesis, hrecover, hgenesis, rfl⟩ := restoreWithSnapshot_eq_ok hrestore
  obtain ⟨genesis', hgenesis', hsel, hindex, hverified, heffective, hrefresh⟩ :=
    recoverMembership_eq_ok hrecover
  obtain rfl : genesis' = g := by
    rw [recoveredGenesis_eq hG h.world hd hpeers] at hgenesis'
    exact (Except.ok.inj hgenesis').symm
  have hviews := fun node => restored_views node r h.world hd
  have hfloor : (d.snapshot.elim 0 fun s => s.metadata.lastIncludedIndex) ≤ r.commitIndex := by
    rw [hindex]
    exact le_max_left _ _
  -- the recovered watermark is what replaying the log up to it gives
  have hcommitted : membershipAfter genesis' ((a.log id).take r.commitIndex) = .ok r.committed := by
    rw [← (hviews (freshNode id peers seed g₀)).membershipAt hfloor]
    exact (if_neg (not_lt.2 hfloor)).trans hverified
  obtain ⟨hgroup, hvoters⟩ := membershipAfter_group hcommitted
  obtain rfl : genesis = genesis' := by
    rw [hgroup, hvoters, h.world.genesis.rebuild] at hgenesis
    cases hgenesis
    rfl
  have hhard := restored_committed h.world.genesis hd hgroup
    (fun hl => h.world.genesis.membershipAfter_legacy hl hcommitted) hrefresh
  set n : RaftNode := restoredNode (freshNode id peers seed g₀) d.hard d.snapshot d.log genesis r
  have hv : Views genesis (σ.compacted id) (a.log id) n := hviews _
  have hknown : a.Knows id r.commitIndex := by
    have hsnap : a.Knows id (d.snapshot.elim 0 fun s => s.metadata.lastIncludedIndex) := by
      have := hd.known
      rwa [hv.boundary] at this
    rw [hindex]
    rcases le_total (d.snapshot.elim 0 fun s => s.metadata.lastIncludedIndex) r.committed.index
      with hle | hle
    · rw [max_eq_right hle]
      exact hd.knows_selected h.world ((selectMembership_eq_ok hsel).imp And.left And.left)
    · rw [max_eq_left hle]
      exact hsnap
  have hterm : n.hard.currentTerm = d.hard.currentTerm := by
    show (if r.refreshHard then _ else d.hard : HardState).currentTerm = _
    split <;> rfl
  have hvote : n.hard.votedFor = d.hard.votedFor := by
    show (if r.refreshHard then _ else d.hard : HardState).votedFor = _
    split <;> rfl
  refine h.change d (State.By.refl id a) h.world (List.Subset.refl _)
    (fun v hv => update_of_ne hv _ _) (fun _ _ => rfl) (fun _ _ => rfl) h.published
    (fun hv => Or.inl hv) hdisk hd ?_
  intro n' hn'
  rw [Cluster.run_up] at hn'
  cases hn'
  refine ⟨?_, ⟨hterm.symm, hvote.symm, fun _ => ⟨rfl, rfl⟩, fun hp => by cases hp⟩⟩
  exact
    { self := rfl
      sound := .of_idle hv.contiguous rfl
      genesis := rfl
      known := hknown
      floor := hfloor
      committed := by
        rw [show n.committedMembership = r.committed from hhard]
        exact hcommitted
      legacy := fun hm => by
        have hcert := hd.certified
        by_cases hr : r.refreshHard = true
        · rw [show n.hard = { d.hard with membership := some r.committed } from if_pos hr] at hm
          cases hm
        · rw [show n.hard = d.hard from if_neg hr] at hm
          rw [hm] at hcert
          exact hcert
      effective := fun _ => by
        obtain ⟨m, hm, hstate⟩ := (hv.effectiveAfter hcommitted hfloor).1 heffective
        exact ⟨m, hm, hstate.symm⟩
      role := trivial
      incoming := fun hx => by cases hx
      outgoing := fun ho => by
        rw [show n.outgoingSnapshots = ∅ from rfl, Std.ExtTreeMap.getElem?_empty] at ho
        cases ho
      boundary := fun hp => by cases hp
      memory := hv.memoryOK (h.world.inv.log_rooted id) _
      whole := fun _ => hv.whole }

/-! ## The application watermark -/

/-- What a node's state machine was given is something the node knows to be committed. -/
theorem Related.knows_applied (h : Related g a σ) {index : Nat} (happlied : σ.Applied id index) :
    a.Knows id index := by
  rcases happlied with ⟨e, he, rfl⟩ | ⟨s, hs, rfl⟩
  · obtain ⟨e', heq, hok⟩ := h.trace he
    cases e' with
    | apply => cases heq; exact hok.2.1
    | _ => cases heq
  · obtain ⟨e', heq, hok⟩ := h.trace hs
    cases e' with
    | applySnapshot =>
      cases heq
      obtain ⟨-, -, hk⟩ := hok
      exact hk
    | _ => cases heq

theorem Related.resume (h : Related g a σ) {n n' : RaftNode} (hup : σ.up id = some n)
    (hidle : n.publishingSnapshot = none) {index term : Nat} (happlied : σ.Applied id index)
    (hwatermark : n.restoreAppliedWatermark index term = .ok n') : Related g a (σ.run id n') := by
  obtain ⟨hrole, -, -, hmembership, rfl⟩ := RaftNode.restoreAppliedWatermark_eq_ok hwatermark
  obtain ⟨d, hdisk, hat⟩ := h.at hup
  have hv := hat.views h.world hidle
  have hnode := hat.node
  refine h.change d (State.By.refl id a) h.world (List.Subset.refl _)
    (fun v hv => update_of_ne hv _ _) (fun _ _ => rfl) (fun _ _ => rfl) h.published
    (fun hv => Or.inl hv) hdisk hat.disk ?_
  intro m hm
  rw [Cluster.run_up] at hm
  cases hm
  refine ⟨{ hnode with
    sound := .of_idle hv.contiguous hidle
    known := ?_
    floor := hnode.floor.trans (le_max_left _ _)
    committed := ?_
    role := by simp only [hrole]; trivial
    boundary := fun hp => by rw [show n.publishingSnapshot = some _ from hp] at hidle; cases hidle
    memory := hv.memoryOK (h.world.inv.log_rooted id) _ }, { hat.agrees with }⟩
  · show a.Knows id (max n.commitIndex index)
    rcases max_choice n.commitIndex index with heq | heq <;> rw [heq]
    · exact hnode.known
    · exact h.knows_applied happlied
  · show membershipAfter g ((a.log id).take (max n.commitIndex index)) = .ok n.committedMembership
    rcases le_or_gt index n.commitIndex with hle | hgt
    · rw [max_eq_left hle]
      exact hnode.committed
    · rw [max_eq_right hgt.le, ← hv.membershipAt (hnode.floor.trans hgt.le)]
      exact hmembership hgt

end MicroRaft
