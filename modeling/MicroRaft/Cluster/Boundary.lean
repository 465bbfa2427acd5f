import MicroRaft.Cluster.Moves

/-!
# Commitment and snapshot boundaries

How a node learns that entries are committed, from a quorum as a leader or from
the leader as a follower, and how it replaces a committed prefix by an image:
one it made itself, or one the leader offered.
-/

namespace MicroRaft

open Consensus Function

variable {g : CommittedMembership} {a a' : Abstract}
  {images : List (SnapshotDescriptor × List Entry)} {id : NodeId} {k : List Entry}
  {n n' : RaftNode} {d : Disk} {c : Cause}

/-! ## Commitment -/

theorem RaftNode.committed_hardWith (n : RaftNode) (m : CommittedMembership) :
    (n.hardWith m).membership.getD n.genesisMembership = m := by
  unfold hardWith
  split
  · next heq =>
      rw [heq]
      rfl
  · rfl

theorem RaftNode.hardWith_eq (n : RaftNode) (m : CommittedMembership) :
    (n.hardWith m).currentTerm = n.hard.currentTerm ∧ (n.hardWith m).votedFor = n.hard.votedFor ∧
      ((n.hardWith m).membership = none → n.hard.membership = none) := by
  unfold hardWith
  split <;> simp

variable {descriptor : SnapshotDescriptor} {p : PublishingSnapshot}
  {membership : CommittedMembership}

namespace At

variable (w : World g a images) (h : At g a images id k n d)

include w h

/-- The commit index moves to what the node has come to know. -/
theorem commitTo {index : Nat}
    (hidle : n.publishingSnapshot = none) (hby : State.By (scheme g) id a a')
    (w' : World g a' images) (hterm : a'.term id = a.term id)
    (hvote : ∀ T, a'.vote id T = a.vote id T) (hlog : a'.log id = a.log id)
    (hgt : n.commitIndex < index) (hk : a'.Knows id index) (hrole : RoleOK a' id n.role index)
    (hmembership : n.membershipAt index = .ok membership)
    (hsound : RaftNode.Sound { n with hard := n.hardWith membership, commitIndex := index }) :
    Goes g a images id k d (if membership = n.committedMembership then []
        else [.persistHardState (n.hardWith membership)])
      { n with hard := n.hardWith membership, commitIndex := index } := by
  have hv := h.views w hidle
  have hfloor := h.node.floor
  obtain ⟨hhardTerm, hhardVote, hhardNone⟩ := n.hardWith_eq membership
  have hnode : NodeOK g a' images id k
      { n with hard := n.hardWith membership, commitIndex := index } :=
    { self := h.node.self
      sound := hsound
      genesis := h.node.genesis
      known := hk
      floor := hfloor.trans hgt.le
      committed := by
        show _ = Except.ok ((n.hardWith membership).membership.getD n.genesisMembership)
        rw [hlog, ← hv.membershipAt (hfloor.trans hgt.le), n.committed_hardWith]
        exact hmembership
      legacy := fun hm => h.node.legacy (hhardNone hm)
      effective := fun hni => by
        rw [hlog]
        exact h.node.effective hni
      role := hrole
      incoming := fun hx => by
        rw [hterm]
        exact ⟨(h.node.incoming hx).1, (h.node.incoming hx).2.1,
          fun ht => ((h.node.incoming hx).2.2 ht).mono hby.le (List.Subset.refl _)⟩
      outgoing := h.node.outgoing
      boundary := fun hp => by
        rw [show n.publishingSnapshot = some _ from hp] at hidle
        cases hidle
      memory := ((hv.memoryOK (w.inv.log_rooted id) index).mono hby.le (by rw [hlog]))
      whole := fun hni => by
        rw [hlog]
        exact h.node.whole hni }
  refine ⟨a', hby, w', ?_, ?_⟩
  · split
    · exact
        { node := hnode
          disk := h.disk.frame hterm hlog hvote (hby.knows w.inv) (List.Subset.refl _)
          agrees := { h.agrees with
            term := h.agrees.term.trans hhardTerm.symm
            vote := h.agrees.vote.trans hhardVote.symm } }
    · refine h.writeHard w _ hby hnode ?_ ?_ hlog rfl rfl rfl
      · exact hhardTerm.trans (h.term.trans hterm.symm)
      · rw [hterm, hvote]
        exact hhardVote.trans h.vote
  · intro e he
    split at he
    · cases he
    · rw [List.mem_singleton.1 he]
      trivial

/-- A leader commits an entry of its term that a quorum holds. -/
theorem commitQuorum {index : Nat}
    (hidle : n.publishingSnapshot = none) (hgt : n.commitIndex < index)
    (hquorum : n.QuorumHas index)
    (hmembership : n.membershipAt index = .ok membership)
    (hsound : RaftNode.Sound { n with hard := n.hardWith membership, commitIndex := index }) :
    Goes g a images id k d (if membership = n.committedMembership then []
        else [.persistHardState (n.hardWith membership)])
      { n with hard := n.hardWith membership, commitIndex := index } := by
  obtain ⟨hown, -, hpos, next, matched, votes, hrole, hq, hvotes⟩ := hquorum
  have hv := h.views w hidle
  have hr := h.node.role
  rw [hrole] at hr
  have hllog := hr.own w
  obtain ⟨-, hlen, hlast⟩ := hv.logTerm_iff.1 hown
  rw [h.term] at hlast
  -- the leader counts itself: it acknowledges its whole log
  obtain ⟨a₁, hby₁, w₁, h₁, hack, hlead₁, hllog₁, hterm₁, hlog₁, hcommit₁⟩ :=
    h.acknowledge w (m := (a.log id).length) (by simp [hr.1]) (by rw [hllog])
      (by rw [hllog, List.take_length])
  have hlen₁ : a₁.llog (a.term id) = a.log id := by rw [hllog₁, hllog]
  have hchosen : a₁.Chosen (scheme g) (a.term id) index (a.log id).length :=
    { led := by simp [hlead₁, hr.1]
      le := hlen
      le_length := by rw [hlen₁]
      own := by rw [hlen₁]; exact hlast
      quorum := by
        refine ⟨{v | v ∈ votes}, ?_, fun v hmem => ?_⟩
        · rw [hlen₁, List.take_length]
          exact h.quorum hidle hq
        · rcases hvotes v hmem with rfl | hle
          · rw [h.node.self]
            exact hack index hlen
          · cases hm : matched[v]? with
            | none =>
              rw [hm] at hle
              simp at hle
              omega
            | some i =>
              rw [hm] at hle
              rcases hr.2.2.2 hm with rfl | hacked
              · simp at hle
                omega
              · exact hby₁.le.ack (hacked index hle) }
  have hsettled : a₁.Settled (scheme g) (a.term id) ((a₁.llog (a.term id)).take index) :=
    Or.inr ⟨a.term id, index, _, hchosen, le_rfl, List.prefix_rfl⟩
  have hby₂ := w₁.inv.by_settle (n := id) (T := a.term id) (i := index) (by rw [hlead₁]; exact hr.1)
    (by rw [hcommit₁, ← hr.2.1]; exact hgt.le) (by rw [hlen₁]; exact hlen) hsettled
  have hself : update a₁.lcommit (a.term id) index (a.term id) = index := update_self ..
  refine Goes.after hby₁ ⟨hlead₁, hllog₁⟩
    (h₁.commitTo w₁ hidle hby₂ (w₁.step hby₂ w₁.logs) rfl (fun _ => rfl) rfl hgt
    ⟨by rw [hlog₁]; exact hlen, Or.inr ⟨a.term id, by rw [hterm₁], hchosen.led, hself.ge, ?_⟩⟩ ?_
    hmembership hsound)
  · rw [hlen₁, hlog₁]
    exact List.take_prefix _ _
  · rw [hrole]
    simp only [RoleOK, hterm₁, hlead₁, hlog₁]
    refine ⟨hr.1, hself.symm, hr.2.2.1, fun hp => (hr.2.2.2 hp).imp_right fun hacked =>
      hacked.mono (hby₁.le.trans hby₂.le)⟩

/-- A follower commits what the leader says is committed and its log agrees with. -/
theorem commitLeader {index : Nat}
    (hidle : n.publishingSnapshot = none) (hc : CauseOK a images id c)
    (hgt : n.commitIndex < index) (hsaid : n.LeaderSays c index)
    (hmembership : n.membershipAt index = .ok membership)
    (hsound : RaftNode.Sound { n with hard := n.hardWith membership, commitIndex := index }) :
    Goes g a images id k d (if membership = n.committedMembership then []
        else [.persistHardState (n.hardWith membership)])
      { n with hard := n.hardWith membership, commitIndex := index } := by
  obtain ⟨hrole, sender, prev, entries, leaderCommit, payloadLast, ha, hall, rfl⟩ := hsaid
  obtain ⟨hlead, -, hlen, -, hcommit, -, -⟩ := h.anchored w hidle hc ha
  obtain ⟨hshared, hfit⟩ := h.holds_payload w hidle hc ha hall
  refine h.commitTo w hidle (State.By.refl id a) w rfl (fun _ => rfl) rfl hgt ⟨by omega, Or.inr
    ⟨a.term id, le_rfl, by simp [hlead], by omega, ?_⟩⟩ ?_ hmembership hsound
  · have htake : (a.log id).take (min leaderCommit payloadLast) <+: (a.log id).take payloadLast :=
      List.take_prefix_take_left (min_le_right _ _)
    rw [hshared] at htake
    exact htake.trans (List.take_prefix _ _)
  · rw [hrole]
    trivial

/-! ## Compaction -/

omit w in
theorem snapshotIndex_disk (hidle : n.publishingSnapshot = none) :
    d.snapshotIndex = n.snapshotIndex := by
  rw [Disk.snapshotIndex, (h.agrees.idle hidle).1]
  rfl

/-- What a compaction removes, all that was removed before included. -/
theorem compactedTo (hidle : n.publishingSnapshot = none) {boundary : Nat}
    (hlow : n.snapshotIndex ≤ boundary) :
    k ++ d.log.take (boundary - d.snapshotIndex) = (a.log id).take boundary := by
  have hv := h.views w hidle
  rw [h.snapshotIndex_disk hidle, (h.agrees.idle hidle).2, hv.log, List.take_append, hv.boundary,
    List.take_of_length_le (l := k) (by rw [hv.boundary]; exact hlow)]

/-- The image of a compaction stands for the committed prefix at its boundary. -/
theorem imageOK (hidle : n.publishingSnapshot = none) (hpub : n.MayPublish none descriptor) :
    ImageOK g a descriptor ((a.log id).take descriptor.metadata.lastIncludedIndex) := by
  have hv := h.views w hidle
  obtain ⟨hvalid, hmatch, -, hlow, -, hcommit, hterm⟩ := hpub
  obtain ⟨-, hlen, hlast⟩ := hv.logTerm_iff.1 hterm
  unfold RaftNode.compactionMembershipMatches at hmatch
  rw [hv.membershipAt hlow.le] at hmatch
  cases hm : membershipAfter g ((a.log id).take descriptor.metadata.lastIncludedIndex) with
  | error e =>
    rw [hm] at hmatch
    cases hmatch
  | ok expected =>
    simp only [hm] at hmatch
    refine ⟨by rw [List.length_take, min_eq_left hlen], hlast, ?_, ?_, hvalid,
      a.term id, w.inv.knows_settled (h.node.known.of_le hcommit)⟩
    · rw [hm]
      cases hd : descriptor.metadata.membership with
      | some actual =>
        simp only [hd, decide_eq_true_eq] at hmatch
        rw [hmatch]
        rfl
      | none =>
        simp only [hd, Bool.and_eq_true, decide_eq_true_eq] at hmatch
        have hgroup := membershipAfter_group hm
        rw [w.genesis.membershipAfter_legacy (hgroup.1.symm.trans hmatch.1) hm]
        rfl
    · intro hd
      simp only [hd, Bool.and_eq_true, decide_eq_true_eq] at hmatch
      have hgroup := membershipAfter_group hm
      exact ⟨hgroup.1.symm.trans hmatch.1, hmatch.2.trans hgroup.2⟩

/-! ## Publication -/

/-- An image replaces the prefix on disk; memory follows when the publication is confirmed. -/
theorem publishing {images' : List (SnapshotDescriptor × List Entry)} {k' : List Entry}
    {transfer : Option SnapshotTransferId} {round : Nat}
    (hidle : n.publishingSnapshot = none) (hby : State.By (scheme g) id a a')
    (hsub : images ⊆ images') (hterm : a'.term id = a.term id)
    (hvote : ∀ T, a'.vote id T = a.vote id T) (hmem : (descriptor, k') ∈ images')
    (hlog : a'.log id = k' ++ n.retainedSuffix descriptor) (hknown : a'.Knows id k'.length)
    (hold : k'.take n.snapshotIndex = k) (hrole : RoleOK a' id n.role n.commitIndex)
    (hown : transfer = none →
      a'.log id = a.log id ∧ descriptor.metadata.lastIncludedIndex ≤ n.commitIndex)
    (hsound : RaftNode.Sound { n with
      publishingSnapshot := some ⟨transfer, descriptor, n.retainedSuffix descriptor, round⟩ }) :
    At g a' images' id k'
      { n with
        publishingSnapshot := some ⟨transfer, descriptor, n.retainedSuffix descriptor, round⟩ }
      (d.execute (.publishSnapshot transfer descriptor (n.retainedSuffix descriptor))) where
  node :=
    { self := h.node.self
      sound := hsound
      genesis := h.node.genesis
      known := hby.knows w.inv h.node.known
      floor := h.node.floor
      committed := by
        rw [hby.take_known w.inv h.node.known]
        exact h.node.committed
      legacy := h.node.legacy
      effective := fun hni => by
        cases transfer with
        | none =>
          rw [(hown rfl).1]
          exact h.effective hidle
        | some t => exact absurd ⟨_, t, rfl, rfl⟩ hni
      role := hrole
      incoming := fun hx => by
        rw [hterm]
        exact ⟨(h.node.incoming hx).1, (h.node.incoming hx).2.1,
          fun ht => ((h.node.incoming hx).2.2 ht).mono hby.le hsub⟩
      outgoing := h.node.outgoing
      boundary := fun hp ht => by
        cases hp
        exact (hown ht).2
      memory := by
        have hmem := ((h.views w hidle).memoryOK (w.inv.log_rooted id) n.commitIndex).mono hby.le
          (hby.take_known w.inv h.node.known)
        have hk : k.take n.snapshotIndex = k'.take n.snapshotIndex := by
          rw [hold, ← (h.views w hidle).boundary, List.take_length]
        exact ⟨hk ▸ hmem.length, hk ▸ hmem.term, hk ▸ hmem.base, hk ▸ hmem.rooted, hk ▸ hmem.shared⟩
      whole := fun hni => by
        cases transfer with
        | none =>
          show k'.take n.snapshotIndex ++ n.log = a'.log id
          rw [(hown rfl).1, hold, ← (h.views w hidle).log]
        | some t => exact absurd ⟨_, t, rfl, rfl⟩ hni }
  disk :=
    { term := h.disk.term.trans hterm.symm
      vote := by rw [hterm, hvote]; exact h.disk.vote
      certified := h.disk.certified.by w hby
      log := hlog
      bare := fun hs => by cases hs
      image := fun hs => by
        cases hs
        exact hmem
      known := hknown }
  agrees :=
    { term := h.agrees.term
      vote := h.agrees.vote
      idle := fun hp => by cases hp
      publishing := fun hp => by
        cases hp
        exact ⟨rfl, rfl⟩ }

/-- A node publishes an image of its own committed prefix. -/
theorem publishOwn {images' : List (SnapshotDescriptor × List Entry)}
    {round : Nat} (hidle : n.publishingSnapshot = none)
    (hpub : n.MayPublish none descriptor) (hsub : images ⊆ images')
    (hmem : (descriptor, (a.log id).take descriptor.metadata.lastIncludedIndex) ∈ images')
    (hsound : RaftNode.Sound { n with
      publishingSnapshot := some ⟨none, descriptor, n.retainedSuffix descriptor, round⟩ }) :
    At g a images' id ((a.log id).take descriptor.metadata.lastIncludedIndex)
      { n with
        publishingSnapshot := some ⟨none, descriptor, n.retainedSuffix descriptor, round⟩ }
      (d.execute (.publishSnapshot none descriptor (n.retainedSuffix descriptor))) := by
  have hv := h.views w hidle
  have himage := h.imageOK w hidle hpub
  obtain ⟨-, -, -, hlow, -, hcommit, hterm⟩ := hpub
  refine h.publishing w hidle (State.By.refl id a) hsub rfl (fun _ => rfl) hmem ?_ ?_ ?_
    h.node.role (fun _ => ⟨rfl, hcommit⟩) hsound
  · rw [hv.contiguous.retainedSuffix_eq hterm, ← hv.drop_boundary, List.drop_drop,
      show n.snapshotIndex + (descriptor.metadata.lastIncludedIndex - n.snapshotIndex) =
        descriptor.metadata.lastIncludedIndex by omega, List.take_append_drop]
  · rw [himage.length]
    exact h.node.known.of_le hcommit
  · rw [List.take_take, min_eq_left hlow.le, hv.take_boundary]

end At

/-- An image stands for one list of entries. -/
theorem World.image_unique (w : World g a images) {s : SnapshotDescriptor} {l l' : List Entry}
    (h : (s, l) ∈ images) (h' : (s, l') ∈ images) : l = l' := by
  have himage := w.images h
  have himage' := w.images h'
  obtain ⟨T, hs⟩ := himage.settled
  obtain ⟨T', hs'⟩ := himage'.settled
  exact w.inv.settled_eq hs hs' (himage.length.trans himage'.length.symm)

theorem ImageOK.rooted (w : World g a images) {s : SnapshotDescriptor} {l : List Entry}
    (h : ImageOK g a s l) : a.Rooted (scheme g) l := by
  obtain ⟨T, rfl | ⟨T', i, j, hc, -, hpre⟩⟩ := h.settled
  · intro p e hpe
    simp at hpe
  · exact (w.inv.chosen_rooted hc).of_isPrefix hpre

namespace At

variable (w : World g a images) (h : At g a images id k n d)

include w h

/-- A node publishes an image the leader of its term offered. -/
theorem publishOffered {transfer : SnapshotTransferId}
    {round : Nat} (hidle : n.publishingSnapshot = none)
    (hpub : n.MayPublish (some transfer) descriptor) (hsound : RaftNode.Sound { n with
      publishingSnapshot :=
        some ⟨some transfer, descriptor, n.retainedSuffix descriptor, round⟩ }) :
    ∃ a' k', State.By (scheme g) id a a' ∧ World g a' images ∧ (descriptor, k') ∈ images ∧
      At g a' images id k'
        { n with
          publishingSnapshot :=
            some ⟨some transfer, descriptor, n.retainedSuffix descriptor, round⟩ }
        (d.execute (.publishSnapshot (some transfer) descriptor
          (n.retainedSuffix descriptor))) := by
  have hv := h.views w hidle
  obtain ⟨hterm, -, -, hcommit, x, hx, rfl, rfl⟩ := hpub
  obtain ⟨hrole, -, hoffered⟩ := h.node.incoming hx
  obtain ⟨entries, hmem, hlead, hpre, hlen⟩ := hoffered (hterm.trans h.term)
  have himage := w.images hmem
  have hfloor := h.node.floor
  have hcut : (a.llog (a.term id)).take entries.length = entries :=
    (List.prefix_iff_eq_take.1 hpre).symm
  by_cases hb : n.logTerm x.descriptor.metadata.lastIncludedIndex =
      some x.descriptor.metadata.lastIncludedTerm
  · -- the log already contains the image
    obtain ⟨-, hle, hlast⟩ := hv.logTerm_iff.1 hb
    have htake : (a.log id).take x.descriptor.metadata.lastIncludedIndex = entries := by
      refine State.Rooted.eq_of_lastTerm
        ((w.inv.log_rooted id).of_isPrefix (List.take_prefix _ _)) (himage.rooted w) ?_ ?_
      · rw [scheme_lastTerm, scheme_lastTerm, hlast, himage.term]
      · rw [List.length_take, himage.length, min_eq_left hle]
    refine ⟨a, entries, State.By.refl id a, w, hmem, h.publishing w hidle (State.By.refl id a)
      (List.Subset.refl _) rfl (fun _ => rfl) hmem ?_ ?_ ?_ ?_ (fun ht => by cases ht) hsound⟩
    · rw [hv.contiguous.retainedSuffix_eq hb, ← hv.drop_boundary, List.drop_drop,
        show n.snapshotIndex + (x.descriptor.metadata.lastIncludedIndex - n.snapshotIndex) =
          x.descriptor.metadata.lastIncludedIndex by omega, ← htake, List.take_append_drop]
    · refine ⟨by rw [himage.length]; exact hle, Or.inr ⟨a.term id, le_rfl, hlead, hlen, ?_⟩⟩
      rw [himage.length, htake]
      exact hpre
    · rw [← htake, List.take_take, min_eq_left (by omega), hv.take_boundary]
    · rw [hrole]
      trivial
  · -- the log is replaced by the image
    have hnot : ¬ (a.llog (a.term id)).take entries.length <+: a.log id := by
      rw [hcut]
      intro hin
      refine hb (hv.logTerm_iff.2 ⟨by omega, ?_, ?_⟩)
      · rw [← himage.length]
        exact hin.length_le
      · rw [← himage.length, take_eq_of_isPrefix hin le_rfl, List.take_length]
        exact himage.term
    have hby := w.inv.by_accept hlead hnot
    have hself : update a.log id ((a.llog (a.term id)).take entries.length) id = entries := by
      rw [update_self, hcut]
    have hretained : n.retainedSuffix x.descriptor = [] := if_neg hb
    refine ⟨_, entries, hby, w.step hby w.logs, hmem, h.publishing w hidle hby
      (List.Subset.refl _) rfl (fun _ => rfl) hmem ?_ ?_ ?_ ?_ (fun ht => by cases ht) hsound⟩
    · rw [hretained, List.append_nil]
      exact hself
    · refine ⟨by dsimp only; rw [hself], Or.inr ⟨a.term id, le_rfl, hlead, hlen, ?_⟩⟩
      dsimp only
      rw [hself, List.take_length]
      exact hpre
    · have hkept := hby.take_known w.inv (h.node.known.of_le hfloor)
      dsimp only at hkept
      rw [hself, hv.take_boundary] at hkept
      exact hkept
    · rw [hrole]
      trivial

/-! ## The end of a publication -/

/-- On disk the image already is the prefix of the log. -/
theorem published (hp : n.publishingSnapshot = some p) :
    ImageOK g a p.descriptor k ∧ a.log id = k ++ p.retained := by
  obtain ⟨hs, hl⟩ := h.agrees.publishing hp
  exact ⟨w.images (h.disk.image hs), hl ▸ h.disk.log⟩

/-- The node with the image in memory. -/
theorem landed_views (hp : n.publishingSnapshot = some p)
    (hlog : n'.log = p.retained) (hsnapshot : n'.snapshot = some p.descriptor)
    (hgenesis : n'.genesisMembership = n.genesisMembership) : Views g k (a.log id) n' := by
  obtain ⟨himage, halog⟩ := h.published w hp
  have hwf := w.log id
  refine ⟨by rw [hlog, halog], ?_, ?_, ?_, hwf.numbered, hwf.bounded⟩
  · rw [RaftNode.snapshotIndex, hsnapshot]
    exact himage.length
  · rw [RaftNode.snapshotTerm, hsnapshot]
    exact himage.term
  · rw [RaftNode.baseMembership, hsnapshot, hgenesis, h.node.genesis]
    exact himage.membership

theorem landCompacted (hp : n.publishingSnapshot = some p) (htransfer : p.transfer = none)
    (hsound : RaftNode.Sound { n with
      publishingSnapshot := none, log := p.retained, snapshot := some p.descriptor
      outgoingSnapshots := ∅ }) :
    Goes g a images id k d [] { n with
      publishingSnapshot := none, log := p.retained, snapshot := some p.descriptor
      outgoingSnapshots := ∅ } := by
  have hviews : Views g k (a.log id) { n with
      publishingSnapshot := none, log := p.retained, snapshot := some p.descriptor
      outgoingSnapshots := ∅ } := h.landed_views w hp rfl rfl rfl
  refine Goes.still w ⟨?_, h.disk, ?_⟩ (by simp)
  · exact
      { h.node with
        sound := hsound
        floor := h.node.boundary hp htransfer
        effective := fun _ => h.node.effective fun ⟨p', t, hp', ht⟩ => by
          rw [hp] at hp'
          cases hp'
          rw [htransfer] at ht
          cases ht
        outgoing := fun ho => by
          rw [Std.ExtTreeMap.getElem?_empty] at ho
          cases ho
        boundary := fun hp' => by cases hp'
        memory := hviews.memoryOK (w.inv.log_rooted id) n.commitIndex
        whole := fun _ => hviews.whole }
  · exact
      { term := h.agrees.term
        vote := h.agrees.vote
        idle := fun _ => h.agrees.publishing hp
        publishing := fun hp' => by cases hp' }

/-- The membership an image brings along is that of its entries. -/
theorem landed_membership (hp : n.publishingSnapshot = some p) : membershipAfter g k =
      .ok (((p.descriptor.metadata.membership).or n.hard.membership).getD n.genesisMembership) := by
  have himage := (h.published w hp).1
  rw [himage.membership]
  cases hm : p.descriptor.metadata.membership with
  | some m => rfl
  | none =>
    -- without a recorded membership the group has none but its genesis
    have hlegacy := (himage.legacy hm).1
    rw [Option.none_or, Option.getD_none]
    exact congrArg _ (w.genesis.membershipAfter_legacy hlegacy h.node.committed).symm

theorem landInstalled {transfer : SnapshotTransferId} {hard : HardState}
    {next : MembershipState} (hp : n.publishingSnapshot = some p)
    (htransfer : p.transfer = some transfer) (hhard : hard = { n.hard with
      membership := (p.descriptor.metadata.membership).or n.hard.membership })
    (hnext : effectiveAfter (hard.membership.getD n.genesisMembership) p.retained
      p.descriptor.metadata.lastIncludedIndex = .ok next)
    (hsound : RaftNode.Sound { n with
      publishingSnapshot := none, log := p.retained, snapshot := some p.descriptor
      outgoingSnapshots := ∅, hard
      commitIndex := p.descriptor.metadata.lastIncludedIndex, effectiveMembership := next }) :
    Goes g a images id k d (if hard = n.hard then [] else [.persistHardState hard])
      { n with
        publishingSnapshot := none, log := p.retained, snapshot := some p.descriptor
        outgoingSnapshots := ∅, hard
        commitIndex := p.descriptor.metadata.lastIncludedIndex, effectiveMembership := next } := by
  obtain ⟨himage, hlog⟩ := h.published w hp
  have hmembership := h.landed_membership w hp
  have hterm : hard.currentTerm = n.hard.currentTerm := by rw [hhard]
  have hvote : hard.votedFor = n.hard.votedFor := by rw [hhard]
  have hcommitted : membershipAfter g
      ((a.log id).take p.descriptor.metadata.lastIncludedIndex) =
      .ok (hard.membership.getD n.genesisMembership) := by
    rw [hlog, ← himage.length, List.take_left, hhard]
    exact hmembership
  have hfollower : n.role = .follower := by
    obtain ⟨-, x, hx, -⟩ := h.node.sound.pending hp htransfer
    exact (h.node.incoming hx).1
  set n' : RaftNode := { n with
    publishingSnapshot := none, log := p.retained, snapshot := some p.descriptor
    outgoingSnapshots := ∅, hard
    commitIndex := p.descriptor.metadata.lastIncludedIndex, effectiveMembership := next }
  have hviews : Views g k (a.log id) n' := h.landed_views w hp rfl rfl rfl
  have hnode : NodeOK g a images id k n' :=
    { self := h.node.self
      sound := hsound
      genesis := h.node.genesis
      known := by
        show a.Knows id p.descriptor.metadata.lastIncludedIndex
        rw [← himage.length]
        exact h.disk.known
      floor := le_rfl
      committed := hcommitted
      legacy := fun hm => by
        rw [show n'.hard = hard from rfl, hhard] at hm
        exact h.node.legacy (Option.or_eq_none_iff.1 hm).2
      effective := fun _ => by
        obtain ⟨m, hm, hstate⟩ := (hviews.effectiveAfter hcommitted le_rfl).1 hnext
        exact ⟨m, hm, hstate.symm⟩
      role := by
        show RoleOK a id n.role _
        rw [hfollower]
        trivial
      incoming := h.node.incoming
      outgoing := fun ho => by
        rw [show n'.outgoingSnapshots = ∅ from rfl, Std.ExtTreeMap.getElem?_empty] at ho
        cases ho
      boundary := fun hp' => by cases hp'
      memory := hviews.memoryOK (w.inv.log_rooted id) _
      whole := fun _ => hviews.whole }
  have hland : At g a images id k n' d :=
    { node := hnode
      disk := h.disk
      agrees :=
        { term := h.agrees.term.trans hterm.symm
          vote := h.agrees.vote.trans hvote.symm
          idle := fun _ => h.agrees.publishing hp
          publishing := fun hp' => by cases hp' } }
  split
  · exact Goes.still w hland (by simp)
  · exact hland.rewriteHard w

end At

end MicroRaft
