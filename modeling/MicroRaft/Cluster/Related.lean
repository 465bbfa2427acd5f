import MicroRaft.Cluster.View
import MicroRaft.Group.History
import MicroRaft.Lib.Consensus.Actor

/-!
# The cluster and the abstract protocol

`Related g a σ` ties a cluster `σ` of a group with genesis `g` to a state `a` of
the abstract protocol over the logs of the group: what every disk, every running
node, every executed effect and every published image means in terms of `a`.
What a message means only ever becomes easier to satisfy as the history of `a`
grows, so messages may arrive at any time and any number of times.
-/

namespace MicroRaft

open Consensus

/-- The abstract protocol of a group. -/
abbrev Abstract := State NodeId Entry

/-! ## Logs -/

/-- A log of the group: numbered from one, within range, and replayable. -/
structure WellFormed (g : CommittedMembership) (l : List Entry) : Prop where
  numbered : Numbered 0 l
  bounded : l.length < u64Max
  replayable : ∃ m, membershipAfter g l = .ok m

theorem WellFormed.nil (g : CommittedMembership) : WellFormed g [] :=
  ⟨Numbered.nil, by decide, g, rfl⟩

theorem WellFormed.of_isPrefix {g : CommittedMembership} {l l' : List Entry}
    (h : WellFormed g l') (hpre : l <+: l') : WellFormed g l := by
  obtain ⟨t, rfl⟩ := hpre
  refine ⟨?_, ?_, ?_⟩
  · have := h.numbered.take l.length
    rwa [List.take_left] at this
  · have := h.bounded
    rw [List.length_append] at this
    omega
  · obtain ⟨m, hm⟩ := h.replayable
    rw [membershipAfter_append, bind_eq_ok] at hm
    obtain ⟨m', hm', -⟩ := hm
    exact ⟨m', hm'⟩

/-! ## Images and messages -/

/-- What a published image stands for. -/
structure ImageOK (g : CommittedMembership) (a : Abstract) (d : SnapshotDescriptor)
    (entries : List Entry) : Prop where
  length : entries.length = d.metadata.lastIncludedIndex
  term : lastTerm entries = d.metadata.lastIncludedTerm
  membership : membershipAfter g entries = .ok (d.metadata.membership.getD g)
  legacy : d.metadata.membership = none →
    g.state.groupId = legacyGroupId ∧ d.metadata.members = g.state.genesisVoters
  valid : d.validate = .ok ()
  settled : ∃ T, a.Settled (scheme g) T entries

/-- The leader of term `T` may offer this image: it knows all of it to be committed. -/
def Offered (a : Abstract) (images : List (SnapshotDescriptor × List Entry)) (T : Nat)
    (d : SnapshotDescriptor) : Prop :=
  ∃ entries, (d, entries) ∈ images ∧ a.lead T ≠ none ∧ entries <+: a.llog T ∧
    entries.length ≤ a.lcommit T

/-- Node `v` has acknowledged everything up to `m` in term `T`. -/
def AckedTo (a : Abstract) (v : NodeId) (T m : Nat) : Prop := ∀ j ≤ m, a.ack v T j

/-- What a message on the wire means. -/
def PacketOK (a : Abstract) (images : List (SnapshotDescriptor × List Entry))
    (src dst : NodeId) : RaftMessage → Prop
  | .groupMessage .. => False
  | .requestVote T candidate lastIndex lastTerm' =>
      candidate = src ∧ ∃ c, a.camp src T = some c ∧ c.length = lastIndex ∧ lastTerm c = lastTerm'
  | .requestVoteReply T granted => granted = true → a.vote src T = some dst
  | .appendEntries T leader prev prevTerm entries leaderCommit _ =>
      leader = src ∧ a.lead T = some src ∧ prev + entries.length ≤ (a.llog T).length ∧
        entries = ((a.llog T).drop prev).take entries.length ∧
        prevTerm = lastTerm ((a.llog T).take prev) ∧ leaderCommit ≤ a.lcommit T
  | .appendEntriesReply T success index _ _ => success = true → AckedTo a src T index
  | .compactedPrefix T index _ _ => AckedTo a src T index
  | .installSnapshot transfer descriptor _ _ _ _ =>
      a.lead transfer.term = some src ∧ Offered a images transfer.term descriptor
  | .installSnapshotReply T _ _ index accepted installed _ =>
      accepted = true → installed = true → AckedTo a src T index
  | .readProbe T leader _ => leader = src ∧ a.lead T = some src
  | .membershipAdvertisement .. | .preVote .. | .preVoteReply .. | .readProbeReply .. => True

/-- The envelope a group puts around its messages. -/
def envelope (g : CommittedMembership) (msg : RaftMessage) : RaftMessage :=
  if g.state.groupId = legacyGroupId then msg
  else .groupMessage g.state.groupId g.state.genesisVoters msg

/-- An effect as the group puts it out. -/
def sealed (g : CommittedMembership) : Effect → Effect
  | .send dest msg => .send dest (envelope g msg)
  | e => e

/-- What an effect of a handler means. -/
def EffectOK (g : CommittedMembership) (a : Abstract)
    (images : List (SnapshotDescriptor × List Entry)) (id : NodeId) : Effect → Prop
  | .send dest msg => PacketOK a images id dest msg
  | .apply entry => 0 < entry.index ∧ a.Knows id entry.index ∧
      ∃ T l, a.Settled (scheme g) T l ∧ l[entry.index - 1]? = some entry
  | .applySnapshot descriptor => ∃ entries, (descriptor, entries) ∈ images ∧
      a.Knows id descriptor.metadata.lastIncludedIndex
  | _ => True

/-! ## Disks and nodes -/

/-- The membership on a disk is that of a prefix the node knows to be committed. -/
def Certified (g : CommittedMembership) (a : Abstract) (id : NodeId) :
    Option CommittedMembership → Prop
  | none => g.state.groupId = legacyGroupId
  | some m => ∃ j, a.Knows id j ∧ membershipAfter g ((a.log id).take j) = .ok m

/-- What the disk of a node means; `k` are the entries below its snapshot boundary. -/
structure DiskOK (g : CommittedMembership) (a : Abstract)
    (images : List (SnapshotDescriptor × List Entry)) (id : NodeId) (k : List Entry) (d : Disk) :
    Prop where
  term : d.hard.currentTerm = a.term id
  vote : d.hard.votedFor = a.vote id (a.term id)
  certified : Certified g a id d.hard.membership
  log : a.log id = k ++ d.log
  bare : d.snapshot = none → k = []
  image : ∀ {s : SnapshotDescriptor}, d.snapshot = some s → (s, k) ∈ images
  known : a.Knows id k.length

/-- A transferred image is durable but not yet taken over in memory. -/
def RaftNode.Installing (n : RaftNode) : Prop :=
  ∃ p t, n.publishingSnapshot = some p ∧ p.transfer = some t

/-- What the role of a running node means. -/
def RoleOK (a : Abstract) (id : NodeId) : Role → Nat → Prop
  | .candidate votes, _ =>
      a.camp id (a.term id) = some (a.log id) ∧ a.lead (a.term id) ≠ some id ∧
        ∀ v ∈ votes, a.vote v (a.term id) = some id
  | .leader next matched, commit =>
      a.lead (a.term id) = some id ∧ commit = a.lcommit (a.term id) ∧
        (∀ {p i : Nat}, next[p]? = some i → i ≤ (a.log id).length + 1) ∧
        ∀ {p i : Nat}, matched[p]? = some i → i = 0 ∨ AckedTo a p (a.term id) i
  | _, _ => True

/-- What the log in memory means.  Until a publication is confirmed it may still be the one
before; `k` are the entries below the boundary on disk. -/
structure MemoryOK (g : CommittedMembership) (a : Abstract) (id : NodeId) (k log : List Entry)
    (index term : Nat) (base : CommittedMembership) (commit : Nat) : Prop where
  length : (k.take index).length = index
  term : lastTerm (k.take index) = term
  base : membershipAfter g (k.take index) = .ok base
  rooted : a.Rooted (scheme g) (k.take index ++ log)
  shared : (k.take index ++ log).take commit = (a.log id).take commit

/-- What the memory of a running node means. -/
structure NodeOK (g : CommittedMembership) (a : Abstract)
    (images : List (SnapshotDescriptor × List Entry)) (id : NodeId) (k : List Entry)
    (n : RaftNode) : Prop where
  self : n.id = id
  sound : n.Sound
  genesis : n.genesisMembership = g
  known : a.Knows id n.commitIndex
  floor : n.snapshotIndex ≤ n.commitIndex
  committed : membershipAfter g ((a.log id).take n.commitIndex) = .ok n.committedMembership
  legacy : n.hard.membership = none → g.state.groupId = legacyGroupId
  effective : ¬ n.Installing →
    ∃ m, membershipAfter g (a.log id) = .ok m ∧ n.effectiveMembership = m.state
  role : RoleOK a id n.role n.commitIndex
  incoming : ∀ {x : IncomingSnapshot}, n.incomingSnapshot = some x → n.role = .follower ∧
    x.transfer.term ≤ a.term id ∧
    (x.transfer.term = a.term id → Offered a images (a.term id) x.descriptor)
  outgoing : ∀ {p : NodeId} {o : OutgoingSnapshot}, n.outgoingSnapshots[p]? = some o →
    n.snapshot = some o.descriptor
  boundary : ∀ {p : PublishingSnapshot}, n.publishingSnapshot = some p → p.transfer = none →
    p.descriptor.metadata.lastIncludedIndex ≤ n.commitIndex
  memory : MemoryOK g a id k n.log n.snapshotIndex n.snapshotTerm n.baseMembership n.commitIndex
  whole : ¬ n.Installing → k.take n.snapshotIndex ++ n.log = a.log id

/-- Memory and disk agree, up to a publication that memory has not seen yet. -/
structure Agrees (n : RaftNode) (d : Disk) : Prop where
  term : d.hard.currentTerm = n.hard.currentTerm
  vote : d.hard.votedFor = n.hard.votedFor
  idle : n.publishingSnapshot = none → d.snapshot = n.snapshot ∧ d.log = n.log
  publishing : ∀ {p : PublishingSnapshot}, n.publishingSnapshot = some p →
    d.snapshot = some p.descriptor ∧ d.log = p.retained

/-- A running node with its disk. -/
structure At (g : CommittedMembership) (a : Abstract)
    (images : List (SnapshotDescriptor × List Entry)) (id : NodeId) (k : List Entry)
    (n : RaftNode) (d : Disk) : Prop where
  node : NodeOK g a images id k n
  disk : DiskOK g a images id k d
  agrees : Agrees n d

/-! ## The relation -/

/-- What holds of the group as a whole. -/
structure World (g : CommittedMembership) (a : Abstract)
    (images : List (SnapshotDescriptor × List Entry)) : Prop where
  genesis : Genesis g
  inv : a.Inv (scheme g)
  logs : ∀ {T : Nat}, a.lead T ≠ none → WellFormed g (a.llog T)
  images : ∀ {d : SnapshotDescriptor} {l : List Entry}, (d, l) ∈ images → ImageOK g a d l

/-- The cluster is in a state the abstract protocol accounts for. -/
structure Related (g : CommittedMembership) (a : Abstract) (σ : Cluster) : Prop where
  world : World g a σ.images
  published : ∀ {d : SnapshotDescriptor} {l : List Entry}, (d, l) ∈ σ.images →
    ∃ id retained, (id, .publishSnapshot none d retained) ∈ σ.trace
  absent : ∀ {id : NodeId}, σ.disk id = none →
    σ.up id = none ∧ a.term id = 0 ∧ a.log id = [] ∧ σ.compacted id = []
  disks : ∀ {id : NodeId} {d : Disk}, σ.disk id = some d →
    DiskOK g a σ.images id (σ.compacted id) d
  nodes : ∀ {id : NodeId} {n : RaftNode}, σ.up id = some n →
    NodeOK g a σ.images id (σ.compacted id) n ∧ ∃ d, σ.disk id = some d ∧ Agrees n d
  trace : ∀ {id : NodeId} {e : Effect}, (id, e) ∈ σ.trace →
    ∃ e', e = sealed g e' ∧ EffectOK g a σ.images id e'

/-! ## Growth of the history -/

section Mono

variable {g : CommittedMembership} {a a' : Abstract}
  {images images' : List (SnapshotDescriptor × List Entry)} {src dst id : NodeId}

theorem ImageOK.mono (hle : State.Le a a') {d : SnapshotDescriptor} {l : List Entry}
    (h : ImageOK g a d l) : ImageOK g a' d l :=
  { h with settled := h.settled.imp fun _ hs => hs.mono hle le_rfl }

theorem Offered.mono (hle : State.Le a a') (hsub : images ⊆ images') {T : Nat}
    {d : SnapshotDescriptor} (h : Offered a images T d) : Offered a' images' T d := by
  obtain ⟨entries, hmem, hlead, hpre, hlen⟩ := h
  exact ⟨entries, hsub hmem, hle.led hlead, hpre.trans (hle.llog hlead), hlen.trans (hle.lcommit T)⟩

theorem AckedTo.mono (hle : State.Le a a') {v : NodeId} {T m : Nat} (h : AckedTo a v T m) :
    AckedTo a' v T m :=
  fun j hj => hle.ack (h j hj)

/-- **A message keeps its meaning**, however late it arrives. -/
theorem PacketOK.mono (hle : State.Le a a') (hsub : images ⊆ images') {msg : RaftMessage}
    (h : PacketOK a images src dst msg) : PacketOK a' images' src dst msg := by
  cases msg with
  | requestVote T candidate lastIndex lastTerm' =>
    obtain ⟨hid, c, hc, hrest⟩ := h
    exact ⟨hid, c, hle.camp hc, hrest⟩
  | requestVoteReply T granted => exact fun hg => (hle.vote (h hg)).1
  | appendEntries T leader prev prevTerm entries leaderCommit round =>
    obtain ⟨hid, hlead, hlen, hslice, hterm, hcommit⟩ := h
    obtain ⟨hlead', -, hgrow⟩ := hle.lead hlead
    refine ⟨hid, hlead', hlen.trans hgrow.length_le, ?_, ?_, hcommit.trans (hle.lcommit T)⟩
    · obtain ⟨t, ht⟩ := hgrow
      rw [← ht, List.drop_append_of_le_length (by omega),
        List.take_append_of_le_length (by rw [List.length_drop]; omega)]
      exact hslice
    · rw [take_eq_of_isPrefix hgrow (by omega)]
      exact hterm
  | appendEntriesReply T success index round conflict => exact fun hs => (h hs).mono hle
  | compactedPrefix T index term round => exact AckedTo.mono hle h
  | installSnapshot transfer descriptor offset data done round =>
    exact ⟨(hle.lead h.1).1, h.2.mono hle hsub⟩
  | installSnapshotReply T transfer offset index accepted installed round =>
    exact fun hacc hins => (h hacc hins).mono hle
  | readProbe T leader context => exact ⟨h.1, (hle.lead h.2).1⟩
  | _ => exact h

theorem EffectOK.mono (hle : State.Le a a')
    (hknows : ∀ {j : Nat}, a.Knows id j → a'.Knows id j) (hsub : images ⊆ images') {e : Effect}
    (h : EffectOK g a images id e) : EffectOK g a' images' id e := by
  cases e with
  | send dest msg => exact PacketOK.mono hle hsub h
  | apply entry =>
    obtain ⟨hpos, hk, T, l, hset, hget⟩ := h
    exact ⟨hpos, hknows hk, T, l, hset.mono hle le_rfl, hget⟩
  | applySnapshot d =>
    obtain ⟨entries, hmem, hk⟩ := h
    exact ⟨entries, hsub hmem, hknows hk⟩
  | _ => trivial

/-! ## What a node's move leaves to the others -/

variable {k : List Entry}

theorem Certified.frame (hlog : a'.log id = a.log id)
    (hknows : ∀ {j : Nat}, a.Knows id j → a'.Knows id j) {m : Option CommittedMembership}
    (h : Certified g a id m) : Certified g a' id m := by
  cases m with
  | none => exact h
  | some m =>
    obtain ⟨j, hk, hm⟩ := h
    exact ⟨j, hknows hk, by rw [hlog]; exact hm⟩

theorem DiskOK.frame (hterm : a'.term id = a.term id) (hlog : a'.log id = a.log id)
    (hvote : ∀ T, a'.vote id T = a.vote id T)
    (hknows : ∀ {j : Nat}, a.Knows id j → a'.Knows id j) (hsub : images ⊆ images') {d : Disk}
    (h : DiskOK g a images id k d) : DiskOK g a' images' id k d where
  term := h.term.trans hterm.symm
  vote := by rw [hterm, hvote]; exact h.vote
  certified := h.certified.frame hlog hknows
  log := hlog.trans h.log
  bare := h.bare
  image hs := hsub (h.image hs)
  known := hknows h.known

theorem RoleOK.frame (hle : State.Le a a') (hterm : a'.term id = a.term id)
    (hlog : a'.log id = a.log id)
    (hclaim : a'.lead (a.term id) = some id → a.lead (a.term id) = some id)
    (hlcommit : a.lead (a.term id) = some id → a'.lcommit (a.term id) = a.lcommit (a.term id))
    {role : Role} {commit : Nat} (h : RoleOK a id role commit) : RoleOK a' id role commit := by
  cases role with
  | candidate votes =>
    obtain ⟨hcamp, hlead, hvotes⟩ := h
    simp only [RoleOK, hterm, hlog]
    exact ⟨hle.camp hcamp, fun hl => hlead (hclaim hl), fun v hv => (hle.vote (hvotes v hv)).1⟩
  | leader next matched =>
    obtain ⟨hlead, hcommit, hnext, hmatched⟩ := h
    simp only [RoleOK, hterm, hlog, hlcommit hlead]
    exact ⟨(hle.lead hlead).1, hcommit, hnext, fun hp => (hmatched hp).imp_right (AckedTo.mono hle)⟩
  | _ => trivial

theorem MemoryOK.mono {log : List Entry} {index term commit : Nat} {base : CommittedMembership}
    (hle : State.Le a a') (hlog : (a'.log id).take commit = (a.log id).take commit)
    (h : MemoryOK g a id k log index term base commit) :
    MemoryOK g a' id k log index term base commit :=
  { h with rooted := h.rooted.mono hle, shared := h.shared.trans hlog.symm }

/-- A log in memory that is the abstract log. -/
theorem Views.memoryOK {k : List Entry} {n : RaftNode} (hv : Views g k (a.log id) n)
    (hr : a.Rooted (scheme g) (a.log id)) (commit : Nat) :
    MemoryOK g a id k n.log n.snapshotIndex n.snapshotTerm n.baseMembership commit := by
  have hk : k.take n.snapshotIndex = k := by rw [← hv.boundary, List.take_length]
  exact ⟨by rw [hk, hv.boundary], by rw [hk, hv.boundaryTerm], by rw [hk, hv.base],
    by rw [hk, ← hv.log]; exact hr, by rw [hk, ← hv.log]⟩

theorem Views.whole {k l : List Entry} {n : RaftNode} (hv : Views g k l n) :
    k.take n.snapshotIndex ++ n.log = l := by
  rw [← hv.boundary, List.take_length, ← hv.log]

theorem NodeOK.frame (hle : State.Le a a') (hun : State.Untouched a a' id)
    (hknows : ∀ {j : Nat}, a.Knows id j → a'.Knows id j) (hsub : images ⊆ images') {n : RaftNode}
    (h : NodeOK g a images id k n) : NodeOK g a' images' id k n where
  self := h.self
  sound := h.sound
  genesis := h.genesis
  known := hknows h.known
  floor := h.floor
  committed := by rw [hun.log]; exact h.committed
  legacy := h.legacy
  effective hni := by rw [hun.log]; exact h.effective hni
  role := h.role.frame hle hun.term hun.log hun.lead hun.lcommit
  incoming hx := by
    refine ⟨(h.incoming hx).1, hun.term ▸ (h.incoming hx).2.1, fun ht => ?_⟩
    rw [hun.term] at ht ⊢
    exact ((h.incoming hx).2.2 ht).mono hle hsub
  outgoing := h.outgoing
  boundary := h.boundary
  memory := h.memory.mono hle (by rw [hun.log])
  whole hni := by rw [hun.log]; exact h.whole hni

end Mono

end MicroRaft
