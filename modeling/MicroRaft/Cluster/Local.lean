import MicroRaft.Cluster.Related

/-!
# One running node against the abstract protocol

What the handlers of a running node read, in terms of the abstract state, and
what a move has to establish for the node and its disk (`Goes`).  The moves that
the abstract protocol does not see are covered here.
-/

namespace MicroRaft

open Consensus

variable {g : CommittedMembership} {a a' : Abstract}
  {images : List (SnapshotDescriptor × List Entry)} {id : NodeId} {k : List Entry}
  {n n' : RaftNode} {d : Disk} {c : Cause}

/-! ## The group -/

namespace World

variable (w : World g a images)

include w

/-- A rooted log is a part of some leader's log. -/
theorem wellFormed {l : List Entry} (hr : a.Rooted (scheme g) l) : WellFormed g l := by
  rcases eq_or_ne l [] with rfl | hne
  · exact .nil g
  · obtain ⟨hl, hpre⟩ := hr.prefix_llog hne
    exact (w.logs hl).of_isPrefix hpre

theorem log (v : NodeId) : WellFormed g (a.log v) := w.wellFormed (w.inv.log_rooted v)

theorem step (hby : State.By (scheme g) id a a')
    (hlogs : ∀ {T : Nat}, a'.lead T ≠ none → WellFormed g (a'.llog T)) : World g a' images where
  genesis := w.genesis
  inv := hby.inv w.inv
  logs := hlogs
  images hd := (w.images hd).mono hby.le

end World

/-! ## What a running node reads -/

namespace At

variable (w : World g a images) (h : At g a images id k n d)

include h

theorem term : n.hard.currentTerm = a.term id := h.agrees.term.symm.trans h.disk.term

theorem vote : n.hard.votedFor = a.vote id (a.term id) := h.agrees.vote.symm.trans h.disk.vote

theorem effective (hidle : n.publishingSnapshot = none) :
    ∃ m, membershipAfter g (a.log id) = .ok m ∧ n.effectiveMembership = m.state := by
  refine h.node.effective ?_
  rintro ⟨p, t, hp, -⟩
  rw [hidle] at hp
  cases hp

/-- A quorum of the effective voters is a quorum of the whole log. -/
theorem quorum (hidle : n.publishingSnapshot = none) {votes : BTreeSet NodeId}
    (hq : n.voterConfig.hasQuorum votes = true) :
    (scheme g).Quorum ((scheme g).conf (a.log id)) {v | v ∈ votes} := by
  obtain ⟨m, hm, heff⟩ := h.effective hidle
  rw [RaftNode.voterConfig, heff] at hq
  exact ⟨m, votes, hm, hq, fun v hv => hv⟩

include w

/-- The node holds the suffix of its abstract log after the snapshot boundary. -/
theorem views (hidle : n.publishingSnapshot = none) : Views g k (a.log id) n := by
  obtain ⟨hsnap, hlog⟩ := h.agrees.idle hidle
  have hwf := w.log id
  refine ⟨hlog ▸ h.disk.log, ?_, ?_, ?_, hwf.numbered, hwf.bounded⟩ <;>
    cases hs : n.snapshot with
    | none =>
      have hk := h.disk.bare (hsnap.trans hs)
      simp [hk, RaftNode.snapshotIndex, RaftNode.snapshotTerm, RaftNode.baseMembership, hs,
        h.node.genesis]
    | some s =>
      have himage := w.images (h.disk.image (hsnap.trans hs))
      simp [RaftNode.snapshotIndex, RaftNode.snapshotTerm, RaftNode.baseMembership, hs,
        h.node.genesis, himage.length, himage.term, himage.membership]

end At

theorem NodeOK.certified (h : NodeOK g a images id k n) : Certified g a id n.hard.membership := by
  cases hm : n.hard.membership with
  | none => exact h.legacy hm
  | some m =>
    refine ⟨n.commitIndex, h.known, ?_⟩
    rw [h.committed, RaftNode.committedMembership, hm]
    rfl

/-! ## What a move has to establish -/

/-- Node `id` may execute `es` on disk `d` and go on as `n'`. -/
def Goes (g : CommittedMembership) (a : Abstract)
    (images : List (SnapshotDescriptor × List Entry)) (id : NodeId) (k : List Entry) (d : Disk)
    (es : List Effect) (n' : RaftNode) : Prop :=
  ∃ a', State.By (scheme g) id a a' ∧ World g a' images ∧
    At g a' images id k n' (es.foldl Disk.execute d) ∧ ∀ e ∈ es, EffectOK g a' images id e

/-- The abstract protocol does not see the move. -/
theorem Goes.still (w : World g a images) {es : List Effect}
    (h : At g a images id k n' (es.foldl Disk.execute d))
    (hes : ∀ e ∈ es, EffectOK g a images id e) : Goes g a images id k d es n' :=
  ⟨a, State.By.refl id a, w, h, hes⟩

/-- The abstract protocol moves first, and then the node. -/
theorem Goes.after {es : List Effect} (hby : State.By (scheme g) id a a')
    (hkeeps : a'.lead = a.lead ∧ a'.llog = a.llog) (h : Goes g a' images id k d es n') :
    Goes g a images id k d es n' := by
  obtain ⟨a'', hby', w, hat, hes⟩ := h
  exact ⟨a'', hby.trans hby' (.inr hkeeps), w, hat, hes⟩

/-- Only memory changes, and only what memory alone holds. -/
theorem At.memory (h : At g a images id k n d) (hn : NodeOK g a images id k n')
    (hterm : n'.hard.currentTerm = n.hard.currentTerm)
    (hvote : n'.hard.votedFor = n.hard.votedFor) (hsnapshot : n'.snapshot = n.snapshot)
    (hlog : n'.log = n.log) (hpub : n'.publishingSnapshot = n.publishingSnapshot) :
    At g a images id k n' d where
  node := hn
  disk := h.disk
  agrees :=
    { term := h.agrees.term.trans hterm.symm
      vote := h.agrees.vote.trans hvote.symm
      idle hp := by
        rw [hsnapshot, hlog]
        exact h.agrees.idle (hpub ▸ hp)
      publishing hp := h.agrees.publishing (hpub ▸ hp) }

/-- The hard state in memory is written to disk. -/
theorem At.persistHard (h : At g a images id k n d) :
    At g a images id k n (d.execute (.persistHardState n.hard)) where
  node := h.node
  disk := { h.disk with term := h.term, vote := h.vote, certified := h.node.certified }
  agrees := { h.agrees with term := rfl, vote := rfl }

/-- What a node may assume of what it reacts to. -/
def CauseOK (a : Abstract) (images : List (SnapshotDescriptor × List Entry)) (id : NodeId) :
    Cause → Prop
  | .heard sender msg => PacketOK a images sender id msg
  | _ => True

/-! ## Roles -/

variable {next matched : BTreeMap NodeId Nat} {sender : NodeId} {entries : List Entry}
  {commit : Nat}

/-- The log of a leader is the log of its term. -/
theorem RoleOK.own (w : World g a images)
    (h : RoleOK a id (.leader next matched) commit) : a.llog (a.term id) = a.log id :=
  (w.inv.own h.1).symm

/-- Nothing beyond the leader's log is ever acknowledged. -/
theorem RoleOK.acked_le (w : World g a images)
    (h : RoleOK a id (.leader next matched) commit) {p i : Nat} (hp : matched[p]? = some i) :
    i ≤ (a.log id).length := by
  rcases h.2.2.2 hp with rfl | hack
  · exact Nat.zero_le _
  · rw [← RoleOK.own w h]
    exact (w.inv.ack_le (hack i le_rfl)).2.2

theorem Cause.Acks.ackedTo {term index : Nat} (h : c.Acks sender term index)
    (hc : CauseOK a images id c) : AckedTo a sender term index := by
  rcases h with ⟨round, hint, rfl⟩ | ⟨boundaryTerm, round, rfl⟩ | ⟨transfer, offset, round, rfl⟩
  · exact hc rfl
  · exact hc
  · exact hc rfl rfl

theorem RoleOK.weaken (h : NodeOK g a images id k n) (hw : n.Weakens n') :
    RoleOK a id n'.role n'.commitIndex := by
  rw [hw.commitIndex]
  rcases hw.role with hr | hr | ⟨-, p, x, v, hr⟩
  · rw [hr]
    exact h.role
  · rw [hr]
    trivial
  · rw [hr]
    trivial

theorem RoleOK.progress (w : World g a images) {next matched next' matched' : BTreeMap NodeId Nat}
    {commit last : Nat} (h : RoleOK a id (.leader next matched) commit)
    (hlast : last = (a.log id).length)
    (hnext : ∀ {p : NodeId} {i : Nat}, next'[p]? = some i → i ≤ last + 1 ∨
      (∃ i', next[p]? = some i' ∧ i ≤ i') ∨ ∃ m, matched[p]? = some m ∧ i ≤ m + 1)
    (hmatched : ∀ {p : NodeId} {i : Nat}, matched'[p]? = some i → matched[p]? = some i ∨ i = 0) :
    RoleOK a id (.leader next' matched') commit := by
  refine ⟨h.1, h.2.1, fun hp => ?_, fun hp => ?_⟩
  · rcases hnext hp with hle | ⟨i', hp', hle⟩ | ⟨m, hp', hle⟩
    · exact hlast ▸ hle
    · exact hle.trans (h.2.2.1 hp')
    · exact hle.trans (Nat.succ_le_succ (h.acked_le w hp'))
  · rcases hmatched hp with hp' | rfl
    · exact h.2.2.2 hp'
    · exact Or.inl rfl

theorem RoleOK.peerAck (w : World g a images)
    {commit known index : Nat} (h : RoleOK a id (.leader next matched) commit)
    (hknown : matched[sender]? = some known) (hack : AckedTo a sender (a.term id) index) :
    RoleOK a id (.leader (next.insert sender (saturatingAdd (max known index) 1))
      (matched.insert sender (max known index))) commit := by
  have hboth : AckedTo a sender (a.term id) (max known index) := by
    intro j hj
    rcases h.2.2.2 hknown with rfl | hack'
    · exact hack j (by omega)
    · rcases le_max_iff.1 hj with hj | hj
      · exact hack' j hj
      · exact hack j hj
  have hle : max known index ≤ (a.log id).length := by
    rw [← h.own w]
    exact (w.inv.ack_le (hboth _ le_rfl)).2.2
  refine ⟨h.1, h.2.1, fun hp => ?_, fun hp => ?_⟩
  · rw [Std.ExtTreeMap.getElem?_insert] at hp
    split at hp
    · cases hp
      unfold saturatingAdd
      omega
    · exact h.2.2.1 hp
  · rw [Std.ExtTreeMap.getElem?_insert] at hp
    split at hp
    · next heq =>
        cases hp
        rw [← compare_eq_iff_eq.1 heq]
        exact Or.inr hboth
    · exact h.2.2.2 hp

theorem RoleOK.countVote {votes : BTreeSet NodeId} (h : RoleOK a id (.candidate votes) commit)
    (hvote : a.vote sender (a.term id) = some id) :
    RoleOK a id (.candidate (votes.insert sender)) commit := by
  refine ⟨h.1, h.2.1, fun v hv => ?_⟩
  rw [Std.ExtTreeSet.mem_insert] at hv
  rcases hv with heq | hv
  · rw [← compare_eq_iff_eq.1 heq]
    exact hvote
  · exact h.2.2 v hv

/-! ## Moves the abstract protocol does not see -/

theorem NodeOK.weaken (h : NodeOK g a images id k n) (hw : n.Weakens n') (hsound : n'.Sound) :
    NodeOK g a images id k n' where
  self := hw.id.trans h.self
  sound := hsound
  genesis := hw.genesis.trans h.genesis
  known := hw.commitIndex ▸ h.known
  floor := by
    rw [hw.commitIndex, RaftNode.snapshotIndex, hw.snapshot]
    exact h.floor
  committed := by
    rw [hw.commitIndex, RaftNode.committedMembership, hw.hard, hw.genesis]
    exact h.committed
  legacy hm := h.legacy (hw.hard ▸ hm)
  effective hni := by
    rw [hw.effective]
    refine h.effective ?_
    rintro ⟨p, t, hp, ht⟩
    refine hni ⟨p, t, ?_, ht⟩
    rw [hw.publishing, hp]
  role := RoleOK.weaken h hw
  incoming hx := by
    obtain ⟨x, hx', htransfer, hdescriptor⟩ := hw.incoming hx
    obtain ⟨hrole, hoffered⟩ := h.incoming hx'
    refine ⟨?_, by rw [← htransfer, ← hdescriptor]; exact hoffered⟩
    rcases hw.role with hr | hr | ⟨hnone | ⟨p, y, v, hprobe⟩, -⟩
    · exact hr.trans hrole
    · exact hr
    · rw [hnone] at hx
      cases hx
    · rw [hrole] at hprobe
      cases hprobe
  outgoing ho := by
    rw [hw.snapshot]
    rcases hw.outgoing ho with hs | ⟨o, ho', heq⟩
    · exact hs
    · exact heq ▸ h.outgoing ho'
  boundary hp := by
    rw [hw.commitIndex]
    exact h.boundary (hw.publishing ▸ hp)
  memory := by
    simp only [RaftNode.snapshotIndex, RaftNode.snapshotTerm, RaftNode.baseMembership, hw.log,
      hw.snapshot, hw.commitIndex, hw.genesis]
    exact h.memory
  whole hni := by
    rw [hw.log, RaftNode.snapshotIndex, hw.snapshot]
    refine h.whole ?_
    rintro ⟨p, t, hp, ht⟩
    refine hni ⟨p, t, ?_, ht⟩
    rw [hw.publishing, hp]

namespace At

variable (w : World g a images) (h : At g a images id k n d)

include w h

theorem weaken (hw : n.Weakens n') (hsound : n'.Sound) : Goes g a images id k d [] n' := by
  refine Goes.still w (h.memory (h.node.weaken hw hsound) ?_ ?_ hw.snapshot hw.log hw.publishing)
    (by simp)
  · rw [hw.hard]
  · rw [hw.hard]

/-- An effect that the disk does not notice and that makes no claim. -/
theorem emit {e : Effect} (hexec : d.execute e = d) (he : EffectOK g a images id e) :
    Goes g a images id k d [e] n := by
  refine Goes.still w ?_ (by simpa using he)
  show At g a images id k n (d.execute e)
  rwa [hexec]

theorem note {e : Effect} (he : e.isNote = true) : Goes g a images id k d [e] n := by
  cases e with
  | persistHardState | persistLogEntries | send | apply | readReady | publishSnapshot
  | applySnapshot => cases he
  | _ => exact h.emit w rfl trivial

/-- Only the role changes. -/
theorem setRole {role : Role} (hrole : RoleOK a id role n.commitIndex)
    (hincoming : n.incomingSnapshot = none ∨ role = .follower)
    (hsound : RaftNode.Sound { n with role }) :
    Goes g a images id k d [] { n with role } := by
  refine Goes.still w (h.memory { h.node with sound := hsound, role := hrole, incoming := ?_ }
    rfl rfl rfl rfl rfl) (by simp)
  intro x hx
  rcases hincoming with hnone | hr
  · rw [show n.incomingSnapshot = some x from hx] at hnone
    cases hnone
  · exact ⟨hr, (h.node.incoming hx).2⟩

omit w in
/-- Only a follower receives an image. -/
theorem incoming_none (hrole : n.role ≠ .follower) : n.incomingSnapshot = none := by
  cases hx : n.incomingSnapshot with
  | none => rfl
  | some x => exact absurd (h.node.incoming hx).1 hrole

theorem progress {next matched next' matched' : BTreeMap NodeId Nat}
    (hidle : n.publishingSnapshot = none) (hrole : n.role = .leader next matched)
    (hnext : ∀ {p : NodeId} {i : Nat}, next'[p]? = some i → i ≤ n.lastLogIndex + 1 ∨
      (∃ i', next[p]? = some i' ∧ i ≤ i') ∨ ∃ m, matched[p]? = some m ∧ i ≤ m + 1)
    (hmatched : ∀ {p : NodeId} {i : Nat}, matched'[p]? = some i → matched[p]? = some i ∨ i = 0)
    (hsound : RaftNode.Sound { n with role := .leader next' matched' }) :
    Goes g a images id k d [] { n with role := .leader next' matched' } := by
  have hr := h.node.role
  rw [hrole] at hr
  exact h.setRole w (hr.progress w (h.views w hidle).lastLogIndex hnext hmatched)
    (Or.inl (h.incoming_none (by simp [hrole]))) hsound

theorem refresh {next : MembershipState} (hidle : n.publishingSnapshot = none)
    (hnext : effectiveAfter n.committedMembership n.log n.commitIndex = .ok next)
    (hsound : RaftNode.Sound { n with effectiveMembership := next }) :
    Goes g a images id k d [] { n with effectiveMembership := next } := by
  obtain ⟨m, hm, rfl⟩ := ((h.views w hidle).effectiveAfter h.node.committed h.node.floor).1 hnext
  exact Goes.still w (h.memory { h.node with sound := hsound, effective := fun _ => ⟨m, hm, rfl⟩ }
    rfl rfl rfl rfl rfl) (by simp)

theorem receive {active : IncomingSnapshot} (hrole : n.role = .follower)
    (hterm : active.transfer.term = n.hard.currentTerm)
    (hoffered : Offered a images active.transfer.term active.descriptor)
    (hsound : RaftNode.Sound { n with incomingSnapshot := some active }) :
    Goes g a images id k d [] { n with incomingSnapshot := some active } := by
  refine Goes.still w (h.memory { h.node with sound := hsound, incoming := ?_ }
    rfl rfl rfl rfl rfl) (by simp)
  intro x hx
  cases hx
  rw [← h.term, ← hterm]
  exact ⟨hrole, le_rfl, fun _ => hoffered⟩

/-- Entries handed to the state machine are committed. -/
theorem apply {index : Nat} {entry : Entry} (hidle : n.publishingSnapshot = none)
    (hle : index ≤ n.commitIndex) (hentry : n.entryAt index = some entry) :
    Goes g a images id k d [.apply entry] n := by
  have hv := h.views w hidle
  obtain ⟨hlt, hget⟩ := hv.entryAt hentry
  have hindex : entry.index = index := (hv.contiguous.index_of_entryAt hentry).1
  refine h.emit w rfl ⟨by omega, h.node.known.of_le (hindex ▸ hle), a.term id,
    (a.log id).take n.commitIndex, w.inv.knows_settled h.node.known, ?_⟩
  rw [hindex, List.getElem?_take_of_lt (by omega)]
  exact hget

theorem applySnapshot {descriptor : SnapshotDescriptor} (hidle : n.publishingSnapshot = none)
    (hsnapshot : n.snapshot = some descriptor) :
    Goes g a images id k d [.applySnapshot descriptor] n := by
  refine h.emit w rfl ⟨k, h.disk.image ((h.agrees.idle hidle).1.trans hsnapshot), ?_⟩
  refine h.node.known.of_le ?_
  have hfloor := h.node.floor
  rwa [RaftNode.snapshotIndex, hsnapshot] at hfloor

theorem rewriteHard : Goes g a images id k d [.persistHardState n.hard] n :=
  Goes.still w h.persistHard (by simp [EffectOK])

/-! ## Messages -/

theorem frame {i : NodeId} (hby : State.By (scheme g) i a a') (hun : State.Untouched a a' id) :
    At g a' images id k n d where
  node := h.node.frame hby.le hun (hby.knows w.inv) (List.Subset.refl _)
  disk := h.disk.frame hun.term hun.log hun.vote (hby.knows w.inv) (List.Subset.refl _)
  agrees := h.agrees

/-- A node may acknowledge what it holds of the log of its term's leader. -/
theorem acknowledge {m : Nat} (hlead : a.lead (a.term id) ≠ none)
    (hm : m ≤ (a.llog (a.term id)).length)
    (hpre : (a.llog (a.term id)).take m <+: a.log id) :
    ∃ a', State.By (scheme g) id a a' ∧ World g a' images ∧ At g a' images id k n d ∧
      AckedTo a' id (a.term id) m ∧ a'.lead = a.lead ∧ a'.llog = a.llog ∧ a'.term = a.term ∧
      a'.log = a.log ∧ a'.lcommit = a.lcommit := by
  have hby := w.inv.by_acknowledge hlead hm hpre
  refine ⟨_, hby, w.step hby w.logs,
    h.frame w hby ⟨rfl, rfl, fun _ => rfl, fun hl => hl, fun _ => rfl⟩, fun j hj => ?_,
    rfl, rfl, rfl, rfl, rfl⟩
  show State.record a.ack id (a.term id) _ id (a.term id) j
  rw [State.record_self]
  exact Or.inr hj

/-- The compacted prefix of a node is part of the log of its term's leader. -/
theorem acknowledge_boundary (hidle : n.publishingSnapshot = none)
    (hlead : a.lead (a.term id) ≠ none) :
    (a.llog (a.term id)).take n.snapshotIndex <+: a.log id ∧
      n.snapshotIndex ≤ (a.llog (a.term id)).length := by
  have hv := h.views w hidle
  have hpre := w.inv.knows_prefix_llog h.disk.known le_rfl hlead
  have hlen := hv.length_eq
  rw [hv.boundary, hv.take_boundary] at hpre
  have hle := hpre.length_le
  rw [hv.boundary] at hle
  refine ⟨?_, hle⟩
  rw [take_eq_of_isPrefix hpre hv.boundary.ge, List.take_of_length_le hv.boundary.le, hv.log]
  exact List.prefix_append _ _

/-- Sending a message that acknowledges something. -/
theorem sendAck {m : Nat} {dest : NodeId} {msg : RaftMessage}
    (hlead : a.lead (a.term id) ≠ none) (hm : m ≤ (a.llog (a.term id)).length)
    (hpre : (a.llog (a.term id)).take m <+: a.log id)
    (hmsg : ∀ {a' : Abstract}, AckedTo a' id (a.term id) m → PacketOK a' images id dest msg) :
    Goes g a images id k d [.send dest msg] n := by
  obtain ⟨a', hby, w', h', hack, hlead', hllog', -⟩ := h.acknowledge w hlead hm hpre
  exact Goes.after hby ⟨hlead', hllog'⟩ (h'.emit w' rfl (hmsg hack))

/-- What the payload of a message agrees with, its anchor included, is what the log of the
leader holds. -/
theorem anchored (hidle : n.publishingSnapshot = none) (hc : CauseOK a images id c)
    {prev leaderCommit payloadLast : Nat}
    (ha : n.Anchors c sender prev entries leaderCommit payloadLast) :
    a.lead (a.term id) = some sender ∧ payloadLast = prev + entries.length ∧
      payloadLast ≤ (a.llog (a.term id)).length ∧
      entries = ((a.llog (a.term id)).drop prev).take entries.length ∧
      leaderCommit ≤ a.lcommit (a.term id) ∧
      (a.log id).take prev = (a.llog (a.term id)).take prev ∧ prev ≤ (a.log id).length := by
  obtain ⟨prevTerm, round, rfl, hvalid, hprev⟩ := ha.heard
  obtain ⟨-, hlead, hlen, hslice, hterm, hcommit⟩ := hc
  rw [h.term] at hlead hlen hslice hterm hcommit
  have hv := h.views w hidle
  have hlast := (validateAppendEntries_eq_some hvalid).1
  obtain ⟨-, hle, hprev⟩ := hv.logTerm_iff.1 hprev
  have hled : a.lead (a.term id) ≠ none := by simp [hlead]
  refine ⟨hlead, hlast, by omega, hslice, hcommit, ?_, hle⟩
  refine State.Rooted.eq_of_lastTerm
    ((w.inv.log_rooted id).of_isPrefix (List.take_prefix _ _))
    ((w.inv.lead_rooted hled).of_isPrefix (List.take_prefix _ _)) ?_ ?_
  · rw [scheme_lastTerm, scheme_lastTerm, hprev, hterm]
  · rw [List.length_take, List.length_take]
    omega

/-- The log holds as much of the leader's log as it shares terms with the payload. -/
theorem holds_kept (hidle : n.publishingSnapshot = none) (hc : CauseOK a images id c)
    {prev leaderCommit payloadLast kept : Nat}
    (ha : n.Anchors c sender prev entries leaderCommit payloadLast) (hle : kept ≤ entries.length)
    (hkept : ∀ i < kept, ∀ e, entries[i]? = some e → n.logTerm e.index = some e.term) :
    (a.log id).take (prev + kept) = (a.llog (a.term id)).take (prev + kept) ∧
      prev + kept ≤ (a.log id).length := by
  obtain ⟨hlead, hlast, hlen, hslice, -, hprev, hprevLe⟩ := h.anchored w hidle hc ha
  have hled : a.lead (a.term id) ≠ none := by simp [hlead]
  rcases Nat.eq_zero_or_pos kept with rfl | hpos
  · exact ⟨hprev, hprevLe⟩
  -- the last shared entry decides: equal terms at one position mean equal logs up to it
  obtain ⟨e, he⟩ : ∃ e, entries[kept - 1]? = some e := ⟨_, List.getElem?_eq_getElem (by omega)⟩
  have hindex : e.index = prev + kept := by
    obtain ⟨prevTerm, round, -, hvalid, -⟩ := ha.heard
    have := (validateAppendEntries_eq_some hvalid).2.2 _ _ he
    omega
  obtain ⟨-, hle', hterm⟩ := (h.views w hidle).logTerm_iff.1 (hkept (kept - 1) (by omega) e he)
  rw [hindex] at hle' hterm
  have hget : (a.llog (a.term id))[prev + kept - 1]? = some e := by
    rw [hslice, List.getElem?_take_of_lt (by omega), List.getElem?_drop] at he
    rwa [show prev + kept - 1 = prev + (kept - 1) by omega]
  have hterm' := lastTerm_take hget
  rw [show prev + kept - 1 + 1 = prev + kept by omega] at hterm'
  refine ⟨State.Rooted.eq_of_lastTerm
    ((w.inv.log_rooted id).of_isPrefix (List.take_prefix _ _))
    ((w.inv.lead_rooted hled).of_isPrefix (List.take_prefix _ _)) ?_ ?_, hle'⟩
  · rw [scheme_lastTerm, scheme_lastTerm, hterm, hterm']
  · rw [List.length_take, List.length_take]
    omega

theorem holds_payload (hidle : n.publishingSnapshot = none) (hc : CauseOK a images id c)
    {prev leaderCommit payloadLast : Nat}
    (ha : n.Anchors c sender prev entries leaderCommit payloadLast)
    (hall : ∀ e ∈ entries, n.logTerm e.index = some e.term) :
    (a.log id).take payloadLast = (a.llog (a.term id)).take payloadLast ∧
      payloadLast ≤ (a.log id).length := by
  have hlast := (h.anchored w hidle hc ha).2.1
  rw [hlast]
  exact h.holds_kept w hidle hc ha le_rfl fun i _ e he => hall e (List.mem_of_getElem? he)

/-- The meaning of every message a node may send. -/
theorem send (hidle : n.publishingSnapshot = none) (hc : CauseOK a images id c) {dest : NodeId}
    {msg : RaftMessage} (hsend : n.MaySend c dest msg) :
    Goes g a images id k d [.send dest msg] n := by
  have hv := h.views w hidle
  have hterm := h.term
  have hself := h.node.self
  have hrole := h.node.role
  cases msg with
  | groupMessage => exact hsend.elim
  | requestVote T candidate lastIndex lastTerm' =>
    obtain ⟨rfl, rfl, rfl, rfl, votes, hr⟩ := hsend
    rw [hr] at hrole
    refine h.emit w rfl ⟨hself, a.log id, ?_, hv.lastLogIndex.symm, hv.lastLogTerm.symm⟩
    rw [hterm]
    exact hrole.1
  | requestVoteReply T granted =>
    obtain ⟨rfl, hgrant⟩ := hsend
    refine h.emit w rfl fun hg => ?_
    rw [hterm, ← h.vote]
    exact hgrant hg
  | appendEntries T leader prev prevTerm entries leaderCommit round =>
    obtain ⟨next, nextIndex, matched, hr, hlow, hnext, heq⟩ := hsend
    rw [hr] at hrole
    have hhigh : next ≤ (a.log id).length + 1 := by
      rcases hnext with hp | rfl
      · exact hrole.2.2.1 hp
      · rw [hv.lastLogIndex]
        exact min_le_left _ _
    obtain ⟨payload, hbatch, hlen, hslice⟩ := hv.appendBatch hlow hhigh
    rw [hbatch] at heq
    cases heq
    have hown := hrole.own w
    rw [← hown] at hlen hslice
    refine h.emit w rfl ?_
    rw [hterm, ← hown]
    exact ⟨hself, hrole.1, hlen, hslice, rfl, hrole.2.1.le⟩
  | appendEntriesReply T success index round hint =>
    obtain ⟨rfl, hsuccess⟩ := hsend
    cases success with
    | false => exact h.emit w rfl fun hf => by cases hf
    | true =>
      obtain ⟨prev, entries, leaderCommit, ha, hall⟩ := hsuccess rfl
      obtain ⟨hlead, -, hlen, -⟩ := h.anchored w hidle hc ha
      have hhold := (h.holds_payload w hidle hc ha hall).1
      refine h.sendAck w (by simp [hlead]) hlen (hhold ▸ List.take_prefix _ _) ?_
      intro a' hack _
      rw [hterm]
      exact hack
  | compactedPrefix T index boundaryTerm round =>
    obtain ⟨rfl, rfl, -, prev, prevTerm, entries, leaderCommit, round', rfl⟩ := hsend
    have hlead : a.lead (a.term id) ≠ none := by
      rw [← hterm, hc.2.1]
      simp
    obtain ⟨hpre, hlen⟩ := h.acknowledge_boundary w hidle hlead
    refine h.sendAck w hlead hlen hpre ?_
    intro a' hack
    rw [hterm]
    exact hack
  | installSnapshot transfer descriptor offset data done round =>
    obtain ⟨ht, hl, o, ho, rfl⟩ := hsend
    obtain ⟨next, matched, hr⟩ := RaftNode.isLeader_iff.1 hl
    rw [hr] at hrole
    refine h.emit w rfl ?_
    show _ ∧ _
    rw [ht, hterm]
    refine ⟨hrole.1, k, h.disk.image ((h.agrees.idle hidle).1.trans (h.node.outgoing ho)),
      by simp [hrole.1], ?_, ?_⟩
    · rw [hrole.own w, hv.log]
      exact List.prefix_append _ _
    · rw [← hrole.2.1, hv.boundary]
      exact h.node.floor
  | installSnapshotReply T transfer offset index accepted installed round =>
    obtain ⟨rfl, hsuccess⟩ := hsend
    by_cases hboth : accepted = true ∧ installed = true
    · obtain ⟨rfl, rfl⟩ := hboth
      obtain ⟨x, hx, hxt, hxs, rfl⟩ := hsuccess rfl rfl
      obtain ⟨entries, -, hlead, -⟩ := (h.node.incoming hx).2.2 (hxt.trans hterm)
      obtain ⟨hpre, hlen⟩ := h.acknowledge_boundary w hidle hlead
      refine h.sendAck w hlead hlen hpre ?_
      intro a' hack _ _
      rw [hterm]
      exact hack
    · exact h.emit w rfl fun hacc hins => absurd ⟨hacc, hins⟩ hboth
  | readProbe T leader context =>
    obtain ⟨rfl, rfl, hl, rfl⟩ := hsend
    obtain ⟨next, matched, hr⟩ := RaftNode.isLeader_iff.1 hl
    rw [hr] at hrole
    refine h.emit w rfl ⟨hself, ?_⟩
    rw [hterm]
    exact hrole.1
  | _ => exact h.emit w rfl trivial

end At

end MicroRaft
