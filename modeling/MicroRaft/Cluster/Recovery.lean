import MicroRaft.Cluster.Run
import MicroRaft.Cluster.Durable
import MicroRaft.Cluster.Schedule
import MicroRaft.Group.Records

/-!
# Recovery never refuses an honest disk

The hard state, the snapshot and the log are written at different moments, so a
crash can leave any of them ahead of the others.  Whatever a run of the group
leaves on a disk, the checks of the recovery accept it, and the node that comes
back has lost none of the authority it had.
-/

namespace MicroRaft

open EffectM Consensus

variable {G : Group} {g : CommittedMembership} {a : Abstract} {σ : Cluster} {id : NodeId}
  {peers : List NodeId} {seed : Nat} {d : Disk} {n : RaftNode} {k : List Entry}

/-! ## Memberships along a log -/

/-- A membership is already reached at its own position. -/
theorem membershipAfter_take_index (hg : Genesis g) {l : List Entry} {m : CommittedMembership}
    (hnum : Numbered 0 l) (hm : membershipAfter g l = .ok m) :
    membershipAfter g (l.take m.index) = .ok m := by
  induction l using List.reverseRecOn generalizing m with
  | nil =>
    rw [List.take_nil]
    exact hm
  | append_singleton l e ih =>
    have hnum' : Numbered 0 l := by
      have := hnum.take l.length
      rwa [List.take_left] at this
    have hindex : e.index = l.length + 1 := by
      have := hnum l.length e (by simp)
      omega
    rw [membershipAfter_concat, bind_eq_ok] at hm
    obtain ⟨m₁, hm₁, he⟩ := hm
    cases hc : e.command.isConfiguration with
    | false =>
      rw [replayEntry_of_not_conf hc] at he
      cases he
      have hle := membershipAfter_index_le hg hnum' hm₁
      rw [List.take_append_of_le_length hle]
      exact ih hnum' hm₁
    | true =>
      obtain ⟨change, heq⟩ := replayEntry_of_conf (m := m₁) hc
      have hm : membershipAfter g (l ++ [e]) = .ok m := by
        rw [membershipAfter_concat, hm₁]
        exact he
      rw [heq] at he
      obtain ⟨-, -, hpos, -, -⟩ := CommittedMembership.advanced_eq_ok he
      rw [List.take_of_length_le (by simp [hpos, hindex])]
      exact hm

/-- A membership bears a term of the log. -/
theorem membershipAfter_term_le {l : List Entry} {m : CommittedMembership} {T : Nat}
    (hg : Genesis g) (hle : ∀ e ∈ l, e.term ≤ T) (hm : membershipAfter g l = .ok m) :
    m.term ≤ T := by
  rcases membershipAfter_origin hm with rfl | ⟨e, he, -, -, hterm⟩
  · rw [hg.position.2]
    exact Nat.zero_le _
  · rw [hterm]
    exact hle e he

/-! ## The checks -/

/-- The terms of a node's log are at most its own. -/
theorem World.log_term_le {images : List (SnapshotDescriptor × List Entry)} (w : World g a images)
    (v : NodeId) : ∀ e ∈ a.log v, e.term ≤ a.term v := fun e he => w.inv.log_le e he

theorem World.lastTerm_le {images : List (SnapshotDescriptor × List Entry)} (w : World g a images)
    {v : NodeId} {l : List Entry} (hpre : l <+: a.log v) : lastTerm l ≤ a.term v := by
  rcases List.eq_nil_or_concat' l with rfl | ⟨p, e, rfl⟩
  · exact Nat.zero_le _
  · rw [lastTerm_concat]
    exact w.log_term_le v e (hpre.mem (by simp))

theorem DiskOK.checkRestoredSnapshot (w : World g a σ.images) (hd : DiskOK g a σ.images id k d) :
    checkRestoredSnapshot d.hard.currentTerm d.snapshot = .ok () := by
  unfold MicroRaft.checkRestoredSnapshot
  cases hs : d.snapshot with
  | none => rfl
  | some s =>
    have himage := w.images (hd.image hs)
    have hterm : s.metadata.lastIncludedTerm ≤ d.hard.currentTerm := by
      rw [← himage.term, hd.term]
      exact w.lastTerm_le (hd.log ▸ List.prefix_append k d.log)
    simp only [himage.valid]
    exact if_neg (not_lt.2 hterm)

/-- The structural checks accept every numbered log whose terms do not decrease. -/
theorem checkRestoredLog_ok {term : Nat} : ∀ {start prevTerm : Nat} {log : List Entry},
    Numbered start log → start + log.length ≤ u64Max → (∀ e ∈ log, e.term ≤ term) →
    (∀ e ∈ log, prevTerm ≤ e.term) → log.Pairwise (fun e e' => e.term ≤ e'.term) →
    checkRestoredLog term start prevTerm log = .ok ()
  | _, _, [], _, _, _, _, _ => rfl
  | start, prevTerm, e :: log, hnum, hlen, hle, hge, hsorted => by
      obtain ⟨hindex, hrest⟩ := Numbered.cons_iff.1 hnum
      obtain ⟨hhead, hsorted⟩ := List.pairwise_cons.1 hsorted
      rw [List.length_cons] at hlen
      have hadd : checkedAdd start 1 = some (start + 1) := if_pos (by omega)
      unfold checkRestoredLog
      rw [hadd]
      dsimp only
      rw [if_neg (not_not.2 hindex), if_neg (not_lt.2 (hge e List.mem_cons_self)),
        if_neg (not_lt.2 (hle e List.mem_cons_self)), hindex]
      exact checkRestoredLog_ok hrest (by omega)
        (fun e' he' => hle e' (List.mem_cons_of_mem _ he')) hhead hsorted

/-- Terms do not decrease along the log of a node. -/
theorem World.log_sorted {images : List (SnapshotDescriptor × List Entry)} (w : World g a images)
    (v : NodeId) : (a.log v).Pairwise fun e e' => e.term ≤ e'.term := by
  refine List.pairwise_iff_getElem.2 fun i j hi hj hij => ?_
  have hr : a.Rooted (scheme g) ((a.log v).take (j + 1)) :=
    (w.inv.log_rooted v).of_isPrefix (List.take_prefix _ _)
  have hmem : (a.log v)[i] ∈ (a.log v).take (j + 1) :=
    List.mem_take_iff_getElem.2 ⟨i, by omega, rfl⟩
  have hle := w.inv.le_lastTerm hr _ hmem
  rw [scheme_lastTerm, lastTerm_take (List.getElem?_eq_getElem hj)] at hle
  exact hle

/-- A node that stands for the disk: it has its boundary, its base membership and its log. -/
def Disk.node (d : Disk) (g : CommittedMembership) : RaftNode :=
  restoredNode (freshNode 0 [] 0 g) d.hard d.snapshot d.log g ⟨g, g.state, 0, false⟩

theorem DiskOK.views (w : World g a σ.images) (hd : DiskOK g a σ.images id k d) :
    Views g k (a.log id) (d.node g) :=
  restored_views _ _ w hd

theorem DiskOK.checkRestoredLog (w : World g a σ.images) (hd : DiskOK g a σ.images id k d) :
    checkRestoredLog d.hard.currentTerm
      (d.snapshot.elim 0 fun s => s.metadata.lastIncludedIndex)
      (d.snapshot.elim 0 fun s => s.metadata.lastIncludedTerm) d.log = .ok () := by
  have hv := hd.views w
  have hlen := hv.length_eq
  have hbound := hv.bounded
  have hsorted := w.log_sorted id
  rw [hd.log, List.pairwise_append] at hsorted
  have hmem : ∀ e ∈ d.log, e ∈ a.log id := fun e he => hd.log ▸ List.mem_append_right _ he
  refine checkRestoredLog_ok hv.contiguous ?_ ?_ ?_ hsorted.2.1
  · show (d.node g).snapshotIndex + (d.node g).log.length ≤ u64Max
    omega
  · intro e he
    rw [hd.term]
    exact w.log_term_le id e (hmem e he)
  · intro e he
    show (d.node g).snapshotTerm ≤ e.term
    rw [← hv.boundaryTerm]
    rcases List.eq_nil_or_concat' k with rfl | ⟨p, x, rfl⟩
    · exact Nat.zero_le _
    · rw [lastTerm_concat]
      exact hsorted.2.2 x (by simp) e he

theorem DiskOK.checkAuthorities (w : World g a σ.images) (hd : DiskOK g a σ.images id k d) :
    (d.hard.membership.toList ++ (imageMembership d.snapshot).toList).forM
      (checkAuthority d.hard.currentTerm) = .ok () := by
  -- every authority is what some prefix of the log leads to
  have hprefix : ∀ {l : List Entry} {m : CommittedMembership}, l <+: a.log id →
      membershipAfter g l = .ok m → checkAuthority d.hard.currentTerm m = .ok () := by
    intro l m hpre hm
    have hterm : m.term ≤ d.hard.currentTerm := by
      rw [hd.term]
      exact membershipAfter_term_le w.genesis (fun e he => w.log_term_le id e (hpre.mem he)) hm
    exact bind_eq_ok.2 ⟨(), membershipAfter_validate w.genesis hm, if_neg (not_lt.2 hterm)⟩
  refine forM_eq_ok fun m hm => ?_
  rcases List.mem_append.1 hm with hm | hm
  · have hcert := hd.certified
    rw [Option.mem_toList.1 hm] at hcert
    obtain ⟨j, -, hj⟩ := hcert
    exact hprefix (List.take_prefix _ _) hj
  · obtain ⟨s, hs, hsm⟩ := Option.bind_eq_some_iff.1 (Option.mem_toList.1 hm)
    have himage := (w.images (hd.image hs)).membership
    rw [hsm, Option.getD_some] at himage
    exact hprefix (hd.log ▸ List.prefix_append k d.log) himage

theorem DiskOK.checkLegacyImage (w : World g a σ.images) (hd : DiskOK g a σ.images id k d) :
    checkLegacyImage d.snapshot g = .ok () := by
  unfold MicroRaft.checkLegacyImage
  cases hs : d.snapshot with
  | none => rfl
  | some s =>
    refine if_neg ?_
    rintro ⟨hnone, hne⟩
    exact hne ((w.images (hd.image hs)).legacy hnone).2

/-! ## The selected authority -/

theorem DiskOK.replay_eq (w : World g a σ.images) (hd : DiskOK g a σ.images id k d) {i : Nat}
    (hi : k.length ≤ i) :
    replay (recoveryBase d.snapshot g) d.log i = membershipAfter g ((a.log id).take i) := by
  have hv := hd.views w
  have hfloor : (d.node g).snapshotIndex ≤ i := hv.boundary ▸ hi
  rw [← hv.membershipAt hfloor]
  exact (if_neg (not_lt.2 hfloor)).symm

/-- What the recovery makes of the two durable authorities: it selects one of them, and that
one belongs to its position in the log and extends the persisted one. -/
structure Selects (g : CommittedMembership) (d : Disk) (l : List Entry) (boundary : Nat)
    (m : CommittedMembership) : Prop where
  reached : membershipAfter g (l.take (max boundary m.index)) = .ok m
  within : m.index ≤ l.length
  ahead : ∀ {hard : CommittedMembership}, d.hard.membership = some hard →
    m.isConsistentExtensionOf hard = true ∧ hard.index ≤ m.index

theorem CommittedMembership.index_le_of_extension {m older : CommittedMembership}
    (h : m.isConsistentExtensionOf older = true) : older.index ≤ m.index := by
  unfold isConsistentExtensionOf at h
  split at h
  · cases h
  · next hok =>
      simp only [not_or, not_lt] at hok
      exact hok.2.2.2.2.1

theorem DiskOK.selectMembership (w : World g a σ.images) (hd : DiskOK g a σ.images id k d) :
    ∃ m, selectMembership (recoveryBase d.snapshot g) d.hard.membership
        (d.snapshot.elim 0 fun s => s.metadata.lastIncludedIndex) d.log = .ok m ∧
      Selects g d (a.log id) k.length m := by
  have hv := hd.views w
  have hwhole := w.log id
  have hk : (a.log id).take k.length = k := by rw [hd.log, List.take_left]
  have hbase : membershipAfter g ((a.log id).take k.length) = .ok (recoveryBase d.snapshot g) := by
    rw [hk]
    exact hv.base
  have hbaseIndex : (recoveryBase d.snapshot g).index ≤ k.length := by
    have hle := membershipAfter_index_le w.genesis (hwhole.numbered.take _) hbase
    rwa [hk] at hle
  have hkLength : k.length ≤ (a.log id).length := by
    rw [hd.log, List.length_append]
    omega
  have hbaseReached : membershipAfter g ((a.log id).take
      (max k.length (recoveryBase d.snapshot g).index)) = .ok (recoveryBase d.snapshot g) := by
    rw [max_eq_left hbaseIndex]
    exact hbase
  unfold MicroRaft.selectMembership
  cases hhard : d.hard.membership with
  | none =>
    refine ⟨_, rfl, hbaseReached, hbaseIndex.trans hkLength, fun h => ?_⟩
    rw [hhard] at h
    cases h
  | some m =>
    dsimp only
    by_cases hext : (recoveryBase d.snapshot g).isConsistentExtensionOf m = true
    · rw [if_pos hext]
      refine ⟨_, rfl, hbaseReached, hbaseIndex.trans hkLength, fun h => ?_⟩
      rw [hhard] at h
      cases h
      exact ⟨hext, CommittedMembership.index_le_of_extension hext⟩
    -- the hard state is ahead of the snapshot
    have hcert := hd.certified
    rw [hhard] at hcert
    obtain ⟨j, -, hj⟩ := hcert
    have hnum : Numbered 0 ((a.log id).take j) := hwhole.numbered.take j
    have hbehind {i : Nat} (hi : membershipAfter g ((a.log id).take i) = .ok m) :
        k.length < i := by
      by_contra hle
      exact hext (membershipAfter_consistent w.genesis
        (List.take_prefix_take_left (not_lt.1 hle)) hi hbase)
    have hat : membershipAfter g ((a.log id).take m.index) = .ok m := by
      have := membershipAfter_take_index w.genesis hnum hj
      rwa [List.take_take, min_eq_left] at this
      exact (membershipAfter_index_le w.genesis hnum hj).trans (by
        rw [List.length_take]
        exact min_le_left _ _)
    have hpast : k.length < m.index := hbehind hat
    have hwithin : m.index ≤ (a.log id).length :=
      (membershipAfter_index_le w.genesis hnum hj).trans (by
        rw [List.length_take]
        exact min_le_right _ _)
    have hlast : d.log.getLast?.elim (d.snapshot.elim 0 fun s => s.metadata.lastIncludedIndex)
        Entry.index = (a.log id).length := hv.lastLogIndex
    rw [if_neg hext, if_pos (membershipAfter_consistent w.genesis
      (List.take_prefix_take_left (hbehind hj).le) hbase hj), if_neg (by omega)]
    refine ⟨m, ?_, ?_, hwithin, fun h => ?_⟩
    · rw [hd.replay_eq w hpast.le, hat]
      exact if_neg (not_not.2 rfl)
    · rw [max_eq_right hpast.le]
      exact hat
    · rw [hhard] at h
      cases h
      exact ⟨membershipAfter_consistent w.genesis (List.prefix_refl _) hj hj, le_rfl⟩

/-- The recovery of the membership succeeds. -/
theorem DiskOK.recoverMembership (hG : G.genesis = .ok g) (w : World g a σ.images)
    (hd : DiskOK g a σ.images id k d) (hpeers : G.PeersFit id peers) :
    ∃ r M, recoverMembership d.hard d.snapshot d.log ((peers ++ [id]).insertionSort (· ≤ ·)) =
      .ok r ∧
      Selects g d (a.log id) k.length r.committed ∧
      r.commitIndex = max k.length r.committed.index ∧
      membershipAfter g (a.log id) = .ok M ∧ r.effective = M.state := by
  have hv := hd.views w
  obtain ⟨M, hM⟩ := (w.log id).replayable
  obtain ⟨m, hselect, hm⟩ := hd.selectMembership w
  have hboundary : (d.snapshot.elim 0 fun s => s.metadata.lastIncludedIndex) = k.length :=
    hv.boundary.symm
  have heffective : effectiveAfter m d.log (max k.length m.index) = .ok M.state :=
    (hv.effectiveAfter hm.reached (hv.boundary ▸ le_max_left _ _)).2 ⟨M, hM, rfl⟩
  refine ⟨_, M, bind_eq_ok.2 ⟨(), hd.checkAuthorities w, bind_eq_ok.2 ⟨g,
    recoveredGenesis_eq hG w hd hpeers, bind_eq_ok.2 ⟨(), hd.checkLegacyImage w, bind_eq_ok.2
      ⟨m, hselect, bind_eq_ok.2 ⟨m, ?_, (if_neg (not_not.2 rfl)).trans (bind_eq_ok.2
        ⟨M.state, ?_, rfl⟩)⟩⟩⟩⟩⟩, hm, ?_, hM, rfl⟩
  · rw [hboundary]
    exact (hd.replay_eq w (le_max_left _ _)).trans hm.reached
  · rw [hboundary]
    exact heffective
  · rw [hboundary]

/-! ## The first input after a restart -/

/-- The loop finds every entry it applies. -/
theorem applyLoop_total : ∀ (rounds : Nat) (n : RaftNode),
    (∀ i, n.lastApplied < i → i ≤ n.commitIndex → ∃ e, n.entryAt i = some e) →
    ∃ n' es, applyLoop rounds n = some ((), n', es)
  | 0, n, _ => ⟨n, [], rfl⟩
  | rounds + 1, n, h => by
      unfold applyLoop
      rw [peek_bind]
      split
      · next hlt =>
          obtain ⟨e, he⟩ := h (n.lastApplied + 1) (by omega) (by omega)
          obtain ⟨n', es, hrest⟩ := applyLoop_total rounds
            { n with lastApplied := n.lastApplied + 1 } fun i hi hle =>
              h i (Nat.lt_of_succ_lt hi) hle
          refine ⟨n', [] ++ ([.apply e] ++ es), ?_⟩
          rw [update_bind, he]
          exact bind_some rfl (bind_some rfl hrest)
      · exact ⟨n, [], rfl⟩

theorem applyCommitted_total (hidle : n.publishingSnapshot = none)
    (hentries : ∀ i, n.lastApplied < i → i ≤ n.commitIndex → ∃ e, n.entryAt i = some e) :
    ∃ n' es, applyCommitted n = some ((), n', es) ∧ n'.image = n.image ∧
      Only (fun e => ∃ entry, e = .apply entry) es := by
  obtain ⟨n', es, hrun⟩ := applyLoop_total (n.commitIndex - n.lastApplied) n hentries
  have happly : applyCommitted n = some ((), n', es) := by
    unfold applyCommitted
    rw [peek_bind]
    exact hrun
  refine ⟨n', es, happly, ?_, applyCommitted_only (fun entry => ⟨entry, rfl⟩) happly⟩
  rw [(applyCommitted_spec (c := .other) happly hidle).2.1]
  rfl

/-- Recovery completes if every committed entry is there; it writes the hard state if the
restart changed it, and nothing else. -/
theorem onRecover_total (hpending : n.recoveryPending = true)
    (hidle : n.publishingSnapshot = none)
    (hentries : ∀ i, n.lastApplied < i → i ≤ n.commitIndex → ∃ e, n.entryAt i = some e) :
    ∃ n' es, onRecover n =
        some ((), n', (if n.recoveryRefreshHard then [.persistHardState n.hard] else []) ++ es) ∧
      n'.image = n.image ∧ Only (fun e => ∃ entry, e = .apply entry) es := by
  unfold onRecover
  rw [peek_bind, if_neg (by simp [hpending]), update_bind]
  cases hrefresh : n.recoveryRefreshHard with
  | true =>
    obtain ⟨n', es, happly, himage, hes⟩ := applyCommitted_total
      (n := { n with recoveryPending := false, recoveryRefreshHard := false }) hidle hentries
    refine ⟨n', es, bind_some (a := ()) ?_ happly, himage, hes⟩
    unfold EffectM.when
    rw [if_pos rfl]
    rfl
  | false =>
    obtain ⟨n', es, happly, himage, hes⟩ := applyCommitted_total
      (n := { n with recoveryPending := false, recoveryRefreshHard := false }) hidle hentries
    refine ⟨n', es, bind_some (a := ()) ?_ happly, himage, hes⟩
    unfold EffectM.when
    rw [if_neg (by simp)]
    show some _ = _
    simp

/-! ## The restored node -/

/-- In a fixed group the peers that name the voters pass the assertions of the constructor. -/
theorem Group.new_isSome {voters : List NodeId} (hG : (Group.fixed voters).genesis = .ok g)
    (hpeers : (Group.fixed voters).PeersFit id peers) :
    (RaftNode.new id peers seed).isSome = true := by
  have hsort : (peers ++ [id]).insertionSort (· ≤ ·) = voters := hpeers
  have hboot : CommittedMembership.bootstrap voters = .ok g := hG
  obtain ⟨-, hset, -⟩ := CommittedMembership.bootstrapWithGroup_eq_ok hboot
  have hchain : voters.IsChain (· < ·) := by
    unfold validateSet at hset
    split at hset
    · cases hset
    · next hok =>
        simp only [not_or, not_not] at hok
        exact hok.2.2
  have hnodup : (peers ++ [id]).Nodup := by
    rw [← (List.perm_insertionSort (· ≤ ·) (peers ++ [id])).nodup_iff, hsort]
    exact hchain.pairwise.imp fun hlt => hlt.ne
  obtain ⟨hpeersNodup, -, hdisj⟩ := List.nodup_append.1 hnodup
  unfold RaftNode.new
  rw [if_neg, hsort, hboot]
  · rfl
  · rw [not_or, not_not]
    refine ⟨fun hmem => ?_, hpeersNodup⟩
    exact hdisj id (List.contains_iff_mem.1 hmem) id (List.mem_singleton_self id) rfl

/-- What a recovered node owes to the disk it comes from. -/
structure Recovers (d : Disk) (n : RaftNode) : Prop where
  term : n.hard.currentTerm = d.hard.currentTerm
  vote : n.hard.votedFor = d.hard.votedFor
  boundary : d.snapshotIndex ≤ n.commitIndex
  watermark : ∀ m, d.hard.membership = some m →
    m.index ≤ n.commitIndex ∧ n.committedMembership.isConsistentExtensionOf m = true
  image : ∀ m, imageMembership d.snapshot = some m →
    n.committedMembership.isConsistentExtensionOf m = true
  effective : ∃ m, replay n.baseMembership n.log u64Max = .ok m ∧ n.effectiveMembership = m.state
  recovers : ∃ n' es, n.step .recover = some (n', es) ∧ es.foldl Disk.execute d = n'.image

theorem DiskOK.restores (hG : G.genesis = .ok g) (w : World g a σ.images)
    (hd : DiskOK g a σ.images id k d) (hpeers : G.PeersFit id peers)
    (hnew : (RaftNode.new id peers seed).isSome = true) :
    ∃ g₀ r M, restoreWithSnapshot id peers seed d.hard d.snapshot d.log =
        some (.ok (restoredNode (freshNode id peers seed g₀) d.hard d.snapshot d.log g r)) ∧
      MicroRaft.recoverMembership d.hard d.snapshot d.log
        ((peers ++ [id]).insertionSort (· ≤ ·)) = .ok r ∧
      Selects g d (a.log id) k.length r.committed ∧
      r.commitIndex = max k.length r.committed.index ∧
      membershipAfter g (a.log id) = .ok M ∧ r.effective = M.state := by
  obtain ⟨node, hnode⟩ := Option.isSome_iff_exists.1 hnew
  obtain ⟨g₀, hg₀, rfl⟩ := RaftNode.new_eq_some hnode
  obtain ⟨r, M, hrecover, hselects, hrest⟩ := hd.recoverMembership hG w hpeers
  refine ⟨g₀, r, M, ?_, hrecover, hselects, hrest⟩
  obtain ⟨hgroup, hvoters⟩ := membershipAfter_group hselects.reached
  have hgenesis : CommittedMembership.bootstrapWithGroup r.committed.state.groupId
      r.committed.state.genesisVoters = .ok g := by
    rw [hgroup, hvoters, w.genesis.rebuild]
  have hlegacy : (freshNode id peers seed g₀).genesisMembership.state.genesisVoters =
      (peers ++ [id]).insertionSort (· ≤ ·) := by
    obtain ⟨-, -, heq⟩ := CommittedMembership.bootstrapWithGroup_eq_ok hg₀
    show g₀.state.genesisVoters = _
    rw [heq]
  unfold restoreWithSnapshot
  rw [hnode, Option.map_some, hd.checkRestoredSnapshot w, hlegacy, hrecover]
  refine congrArg some ?_
  refine bind_eq_ok.2 ⟨(), rfl, bind_eq_ok.2 ⟨(), hd.checkRestoredLog w, bind_eq_ok.2
    ⟨r, rfl, bind_eq_ok.2 ⟨g, ?_, rfl⟩⟩⟩⟩
  rw [hgenesis]
  rfl

theorem Disk.foldl_applied {es : List Effect} (h : Only (fun e => ∃ entry, e = .apply entry) es)
    (d : Disk) : es.foldl Disk.execute d = d := by
  induction es generalizing d with
  | nil => rfl
  | cons e es ih =>
    obtain ⟨entry, rfl⟩ := h e List.mem_cons_self
    exact ih (fun e he => h e (List.mem_cons_of_mem _ he)) d

/-- The first input after a restart brings the disk up to memory: the two differ in the hard
state at most, and then the node has remembered to write it. -/
theorem RaftNode.step_recover (hidle : n.publishingSnapshot = none)
    (hsame : d.snapshot = n.snapshot ∧ d.log = n.log)
    (hhard : n.recoveryRefreshHard = false → n.hard = d.hard)
    (hpending : n.recoveryPending = false → n.recoveryRefreshHard = false)
    (hentries : ∀ i, n.lastApplied < i → i ≤ n.commitIndex → ∃ e, n.entryAt i = some e) :
    ∃ n' es, n.step .recover = some (n', es) ∧ es.foldl Disk.execute d = n'.image := by
  have hstep {n' : RaftNode} {es : List Effect} (h : onRecover n = some ((), n', es)) :
      n.step .recover = some (n', n'.wrapGroupEffects es) := by
    unfold step
    rw [if_neg (by simp)]
    exact congrArg (Option.map _) h
  have hclean (h : n.recoveryRefreshHard = false) : d = n.image := by
    rw [image, hhard h, ← hsame.1, ← hsame.2]
  cases hp : n.recoveryPending with
  | false =>
    have hnone : onRecover n = some ((), n, []) := by
      unfold onRecover
      rw [peek_bind, if_pos (by simp [hp])]
      rfl
    refine ⟨n, _, hstep hnone, ?_⟩
    rw [Disk.foldl_wrapGroupEffects]
    exact hclean (hpending hp)
  | true =>
    obtain ⟨n', es, hrun, himage, hes⟩ := onRecover_total hp hidle hentries
    refine ⟨n', _, hstep hrun, ?_⟩
    rw [Disk.foldl_wrapGroupEffects, List.foldl_append, Disk.foldl_applied hes, himage]
    cases hr : n.recoveryRefreshHard with
    | false => exact hclean hr
    | true =>
      show ({ d with hard := n.hard } : Disk) = _
      rw [hsame.1, hsame.2]
      rfl

theorem DiskOK.recovers (hG : G.genesis = .ok g) (w : World g a σ.images)
    (hd : DiskOK g a σ.images id k d) (hpeers : G.PeersFit id peers)
    (hnew : (RaftNode.new id peers seed).isSome = true) :
    ∃ n, restoreWithSnapshot id peers seed d.hard d.snapshot d.log = some (.ok n) ∧
      Recovers d n := by
  obtain ⟨g₀, r, M, hrestore, hrecover, hsel, hcommit, hM, heff⟩ :=
    hd.restores hG w hpeers hnew
  refine ⟨_, hrestore, ?_⟩
  obtain ⟨genesis', -, -, -, -, -, hrefresh⟩ := recoverMembership_eq_ok hrecover
  obtain ⟨hgroup, -⟩ := membershipAfter_group hsel.reached
  have hcommitted := restored_committed w.genesis hd hgroup
    (fun hl => w.genesis.membershipAfter_legacy hl hsel.reached) hrefresh
  set n : RaftNode := restoredNode (freshNode id peers seed g₀) d.hard d.snapshot d.log g r with hn
  have hv : Views g k (a.log id) n := restored_views _ _ w hd
  have hlen := hv.length_eq
  have hle : k.length ≤ n.commitIndex := by
    rw [show n.commitIndex = max k.length r.committed.index from hcommit]
    exact le_max_left _ _
  have hmembership : n.committedMembership = r.committed := hcommitted
  have hhard : n.hard = if r.refreshHard then { d.hard with membership := some r.committed }
    else d.hard := rfl
  refine ⟨?_, ?_, ?_, ?_, ?_, ⟨M, ?_, heff⟩, ?_⟩
  · rw [hhard]
    split <;> rfl
  · rw [hhard]
    split <;> rfl
  · show n.snapshotIndex ≤ n.commitIndex
    rw [← hv.boundary]
    exact hle
  · intro m hm
    obtain ⟨hext, hindex⟩ := hsel.ahead hm
    rw [hmembership]
    refine ⟨?_, hext⟩
    rw [show n.commitIndex = max k.length r.committed.index from hcommit]
    exact hindex.trans (le_max_right _ _)
  · intro m hm
    have hbase : membershipAfter g ((a.log id).take k.length) = .ok m := by
      have := hv.base
      rw [show n.baseMembership = m from congrArg (Option.getD · g) hm] at this
      rwa [hd.log, List.take_left]
    rw [hmembership]
    exact membershipAfter_consistent w.genesis (List.take_prefix_take_left (le_max_left _ _))
      hbase hsel.reached
  · rw [hv.replay_all]
    exact hM
  · refine n.step_recover rfl ⟨rfl, rfl⟩ ?_ ?_ ?_
    · intro hr
      exact if_neg (by rw [show r.refreshHard = false from hr]; exact Bool.false_ne_true)
    · intro hp
      exact (Bool.or_eq_false_iff.1 hp).1
    · intro i hlt hi
      have hwithin : n.commitIndex ≤ (a.log id).length := by
        rw [show n.commitIndex = max k.length r.committed.index from hcommit]
        refine max_le ?_ hsel.within
        rw [hd.log, List.length_append]
        omega
      have hlow : n.snapshotIndex < i := hlt
      refine ⟨(a.log id)[i - 1], RaftNode.entryAt_eq_some.2 ⟨hlow, ?_⟩⟩
      rw [hv.getElem? hlow, List.getElem?_eq_getElem]

/-- **Recovery succeeds on every disk a run of the group can leave**, after a crash at any
effect, and the node that comes back has lost no authority.  The peers name the voters of a
fixed group; those of an explicit group only have to pass the assertions of the constructor. -/
theorem recovery_succeeds (hr : Cluster.Reachable G σ) (hdisk : σ.disk id = some d)
    (peers : List NodeId) (seed : Nat) (hpeers : G.PeersFit id peers)
    (hnew : (∃ voters, G = .fixed voters) ∨ (RaftNode.new id peers seed).isSome = true) :
    ∃ n, restoreWithSnapshot id peers seed d.hard d.snapshot d.log = some (.ok n) ∧
      Recovers d n := by
  cases hG : G.genesis with
  | error msg =>
      rw [(hr.silent hG).2.1] at hdisk
      cases hdisk
  | ok g =>
      obtain ⟨a, ha⟩ := (Related.empty hG).runs hG hr
      have hrel := ha.related (Related.empty hG)
      refine (hrel.disks hdisk).recovers hG hrel.world hpeers ?_
      rcases hnew with ⟨voters, rfl⟩ | hnew
      · exact Group.new_isSome hG hpeers
      · exact hnew

/-! ## A crash in the middle of a publication

The only voter of a group compacts its log and crashes before it hears that the image is
published. -/

def cutImage : SnapshotDescriptor where
  metadata := { lastIncludedIndex := 1, lastIncludedTerm := 1, members := [1],
                membership := (CommittedMembership.bootstrapWithGroup "g" [1]).toOption }
  totalLen := minSnapshotBytes
  sha256 := []

def cutPublication : List Event :=
  [.start 1 0, .take 1 (.tick 0), .take 1 (.tick 1000), .crash 1 (.compact cutImage) 1]

theorem cutPublication_disk :
    ((Cluster.after (.explicit "g" [1]) cutPublication).disk 1).isSome = true := by
  decide +kernel

theorem recovery_succeeds_cutPublication :
    ∃ d n, (Cluster.after (.explicit "g" [1]) cutPublication).disk 1 = some d ∧
      d.snapshot = some cutImage ∧
      restoreWithSnapshot 1 [] 7 d.hard d.snapshot d.log = some (.ok n) ∧ Recovers d n := by
  have hdisk := (Option.some_get cutPublication_disk).symm
  obtain ⟨n, hn⟩ := recovery_succeeds (Cluster.after_reachable (by decide +kernel)) hdisk
    [] 7 trivial
    (Or.inr (by decide +kernel))
  exact ⟨_, n, hdisk, by decide +kernel, hn⟩

end MicroRaft
