import MicroRaft.Node.Upkeep

/-!
# Snapshots do not panic

Between the request to publish an image and the report that it is durable, a
node waits in a state of its own (`Landing`).  A compaction is checked against
the node's own log, so it always lands.  An installed image replaces the
committed prefix; it lands if the entries retained above it can be replayed from
the membership it records (`Lands`).
-/

namespace MicroRaft

open EffectM

/-! ## Descriptors -/

theorem SnapshotMetadata.validate_eq_ok {m : SnapshotMetadata} (h : m.validate = .ok ()) :
    0 < m.lastIncludedIndex ∧ 0 < m.lastIncludedTerm ∧
      ∀ {x : CommittedMembership}, m.membership = some x →
        x.validate = .ok () ∧ x.index ≤ m.lastIncludedIndex ∧ x.term ≤ m.lastIncludedTerm := by
  have hpos : ∀ {x : Except String Unit}, (if m.lastIncludedIndex = 0 ∨ m.lastIncludedTerm = 0 then
      .error "snapshot boundary index and term must be positive" else x) = .ok () →
      0 < m.lastIncludedIndex ∧ 0 < m.lastIncludedTerm := by
    intro x hx
    split at hx
    · cases hx
    · omega
  unfold validate at h
  dsimp only at h
  split at h
  · next hnone =>
      obtain ⟨hindex, hterm⟩ := hpos h
      exact ⟨hindex, hterm, fun hx => by rw [hnone] at hx; cases hx⟩
  · next y hsome =>
      obtain ⟨⟨⟩, hvalid, h⟩ := bind_eq_ok.1 h
      split at h
      · cases h
      · next hfit =>
          rw [not_or, not_or] at hfit
          obtain ⟨hindex, hterm⟩ := hpos h
          refine ⟨hindex, hterm, fun {x} hx => ?_⟩
          rw [hsome] at hx
          cases hx
          exact ⟨hvalid, by omega, by omega⟩

variable {d : SnapshotDescriptor} {transfer : SnapshotTransferId} {p : PublishingSnapshot}
  {offset : Nat}

theorem SnapshotDescriptor.validate_eq_ok (h : d.validate = .ok ()) :
    d.metadata.validate = .ok () ∧ d.totalLen ≤ maxSnapshotBytes := by
  obtain ⟨⟨⟩, hm, h⟩ := bind_eq_ok.1 h
  refine ⟨hm, ?_⟩
  split at h
  · next hsize => exact hsize.2
  · cases h

/-- A chunk of an image ends within range. -/
theorem validChunk_end {offset len : Nat} {done : Bool} (h : validChunk d offset len done = true) :
    d.validate = .ok () ∧ offset + len ≤ u64Max := by
  simp only [validChunk, Bool.and_eq_true, decide_eq_true_eq] at h
  obtain ⟨⟨⟨⟨hvalid, hoffset⟩, -⟩, hlen⟩, -⟩ := h
  have hok : d.validate = .ok () := by
    cases hv : d.validate with
    | ok u => rfl
    | error e =>
      rw [hv] at hvalid
      cases hvalid
  have hsize := (SnapshotDescriptor.validate_eq_ok hok).2
  have hmax : maxSnapshotBytes ≤ u64Max := by decide
  exact ⟨hok, by omega⟩

namespace RaftNode

variable {calm : Prop} {n n' : RaftNode}

/-! ## Waiting for a publication -/

/-- What a node waiting for the publication of `p` knows about it. -/
structure Landing (n : RaftNode) (p : PublishingSnapshot) : Prop where
  retained : p.retained = n.retainedSuffix p.descriptor
  receivable : n.Receivable p.descriptor
  compaction : p.transfer = none →
    n.snapshotIndex < p.descriptor.metadata.lastIncludedIndex ∧
      p.descriptor.metadata.lastIncludedIndex ≤ n.lastApplied ∧
      n.logTerm p.descriptor.metadata.lastIncludedIndex =
        some p.descriptor.metadata.lastIncludedTerm ∧
      n.compactionMembershipMatches p.descriptor = true
  install : p.transfer ≠ none → n.role = .follower ∧
    n.lastApplied < p.descriptor.metadata.lastIncludedIndex ∧
    n.commitIndex ≤ p.descriptor.metadata.lastIncludedIndex

/-- A node between two inputs. -/
structure Steady (calm : Prop) (n : RaftNode) : Prop extends Rep calm n where
  fresh : n.Current
  landing : ∀ {p : PublishingSnapshot}, n.publishingSnapshot = some p → n.Landing p

theorem Ready.steady (h : n.Ready calm) : n.Steady calm :=
  ⟨h.toRep, h.fresh, fun {p} hp => by
    rw [h.idle] at hp
    cases hp⟩

theorem Steady.ready (h : n.Steady calm) (hidle : n.publishingSnapshot = none) : n.Ready calm :=
  ⟨h.toRep, h.fresh, hidle⟩

/-- The handler does not panic and leaves a node that can take the next input. -/
def Settles {α : Type} (calm : Prop) (m : Handler α) (n : RaftNode) : Prop :=
  Ends (fun _ n' => n'.Steady calm ∧ n.Grows n') m n

theorem Safe.settles {α : Type} {m : Handler α} (h : n.Safe calm m) : n.Settles calm m :=
  Ends.mono h fun _ _ hn => ⟨hn.1.steady, hn.2⟩

theorem Settles.after {α : Type} {m : Handler α} (h : n'.Settles calm m) (hg : n.Grows n') :
    Ends (fun _ n'' => n''.Steady calm ∧ n.Grows n'') m n' :=
  Ends.mono h fun _ _ hn => ⟨hn.1, hg.trans hn.2⟩

/-! ## The retained suffix -/

/-- Terms do not fall after a position whose term is known. -/
theorem Ordered.term_le_after (h : n.Ordered) {index term : Nat}
    (hterm : n.logTerm index = some term) {e : Entry} (he : e ∈ n.log) (hlt : index < e.index) :
    term ≤ e.term := by
  unfold logTerm at hterm
  split at hterm
  · cases hterm
    exact h.above e he
  · obtain ⟨x, hx, rfl⟩ := Option.map_eq_some_iff.1 hterm
    obtain ⟨hlow, hget⟩ := entryAt_eq_some.1 hx
    have hget' := Numbered.getElem?_of_mem h.contiguous he
    obtain ⟨hi, rfl⟩ := List.getElem?_eq_some_iff.1 hget
    obtain ⟨hj, heq⟩ := List.getElem?_eq_some_iff.1 hget'
    rw [← heq]
    exact List.pairwise_iff_getElem.1 h.ascending _ _ hi hj (by omega)

theorem mem_of_mem_retainedSuffix {e : Entry} (he : e ∈ n.retainedSuffix d) :
    e ∈ n.log ∧ n.logTerm d.metadata.lastIncludedIndex = some d.metadata.lastIncludedTerm ∧
      d.metadata.lastIncludedIndex < e.index := by
  unfold retainedSuffix at he
  dsimp only at he
  split at he
  · next hterm =>
      rw [List.mem_filter, decide_eq_true_eq] at he
      exact ⟨he.1, hterm, he.2⟩
  · cases he

/-- The log and the boundary after a publication are in order. -/
theorem Ordered.publish (h : n.Ordered)
    (hterm : d.metadata.lastIncludedTerm ≤ n.hard.currentTerm) {n' : RaftNode}
    (hlog : n'.log = n.retainedSuffix d) (hsnapshot : n'.snapshot = some d)
    (hcurrent : n'.hard.currentTerm = n.hard.currentTerm)
    (hfloor : d.metadata.lastIncludedIndex ≤ n'.lastApplied)
    (happlied : n'.lastApplied ≤ n'.commitIndex)
    (hcommit : n'.commitIndex ≤ d.metadata.lastIncludedIndex + (n.retainedSuffix d).length) :
    n'.Ordered := by
  have hindex : n'.snapshotIndex = d.metadata.lastIncludedIndex := by
    rw [snapshotIndex, hsnapshot]
    rfl
  have hboundary : n'.snapshotTerm = d.metadata.lastIncludedTerm := by
    rw [snapshotTerm, hsnapshot]
    rfl
  have hmem : ∀ e ∈ n.retainedSuffix d, e ∈ n.log ∧ d.metadata.lastIncludedTerm ≤ e.term := by
    intro e he
    obtain ⟨he, hknown, hlt⟩ := mem_of_mem_retainedSuffix he
    exact ⟨he, h.term_le_after hknown he hlt⟩
  have hcont : n'.Contiguous := by
    rw [Contiguous, hindex, hlog]
    exact h.contiguous.retainedSuffix_numbered d
  have hsub : (n.retainedSuffix d).Sublist n.log := by
    unfold retainedSuffix
    dsimp only
    split
    · exact List.filter_sublist
    · exact List.nil_sublist _
  refine ⟨hcont, ?_, ?_, ?_, ?_, ?_, ?_, happlied, ?_⟩
  · rw [hlog]
    exact fun e he => h.bounded e (hmem e he).1
  · rw [hlog]
    exact h.ascending.sublist hsub
  · rw [hlog, hboundary]
    exact fun e he => (hmem e he).2
  · rw [hlog, hcurrent]
    exact fun e he => h.current e (hmem e he).1
  · rw [hboundary, hcurrent]
    exact hterm
  · rw [hindex]
    exact hfloor
  · rw [hcont.lastLogIndex, hindex, hlog]
    exact hcommit

/-! ## Compaction -/

/-- The node once an image is durable; what an installed image does to the positions comes
after. -/
def published (n : RaftNode) (p : PublishingSnapshot) : RaftNode :=
  { n with publishingSnapshot := none, log := p.retained, snapshot := some p.descriptor,
           outgoingSnapshots := ∅ }

/-- The membership an image records is the one the log leads to at its boundary. -/
theorem Rep.compaction_base (h : n.Rep calm)
    (hmatch : n.compactionMembershipMatches d = true) :
    n.membershipAt d.metadata.lastIncludedIndex =
      .ok (d.metadata.membership.getD n.genesisMembership) := by
  unfold compactionMembershipMatches at hmatch
  split at hmatch
  · cases hmatch
  · next expected hexpected =>
      split at hmatch
      · next actual hsome =>
          rw [decide_eq_true_eq] at hmatch
          rw [hsome, Option.getD_some, hmatch, hexpected]
      · next hnone =>
          rw [Bool.and_eq_true, decide_eq_true_eq] at hmatch
          -- without a recorded membership the group has never had another one
          have hgrown := h.membershipAt_grown hexpected
          obtain ⟨l, hl⟩ := hgrown.replayed
          have hgroup := (membershipAfter_group hl).1
          rw [hnone, Option.getD_none, hexpected, hgrown.legacy (hgroup ▸ hmatch.1)]

/-- The membership an image records is no newer than the image. -/
theorem base_position (hd : d.validate = .ok ()) {g : CommittedMembership}
    (hg : Genesis g) : (d.metadata.membership.getD g).index ≤ d.metadata.lastIncludedIndex ∧
      (d.metadata.membership.getD g).term ≤ d.metadata.lastIncludedTerm := by
  obtain ⟨-, -, hm⟩ := SnapshotMetadata.validate_eq_ok (SnapshotDescriptor.validate_eq_ok hd).1
  cases hx : d.metadata.membership with
  | none =>
    obtain ⟨hindex, hterm⟩ := hg.position
    rw [Option.getD_none, hindex, hterm]
    exact ⟨Nat.zero_le _, Nat.zero_le _⟩
  | some x => exact (hm hx).2

theorem Steady.compact (h : n.Steady calm)
    (hp : n.publishingSnapshot = some p) (htransfer : p.transfer = none) :
    (n.published p).Ready calm := by
  have hl := h.landing hp
  obtain ⟨habove, hbelow, hknown, hmatch⟩ := hl.compaction htransfer
  have happlied := h.ordered.applied
  have hcommit := h.ordered.commit
  have hlast := h.ordered.contiguous.lastLogIndex
  have hretained : p.retained =
      n.log.drop (p.descriptor.metadata.lastIncludedIndex - n.snapshotIndex) :=
    hl.retained.trans (h.ordered.contiguous.retainedSuffix_eq hknown)
  have hbase := h.compaction_base hmatch
  obtain ⟨b, hb, hrest⟩ := h.membershipAt_ok habove.le
  rw [hbase] at hb
  cases hb
  have hposition := base_position hl.receivable.1 h.configured.base.genesis
  have hordered : (n.published p).Ordered := by
    refine h.ordered.publish hl.receivable.2.1 hl.retained rfl rfl hbelow happlied ?_
    show n.commitIndex ≤ _
    rw [← hl.retained, hretained, List.length_drop]
    omega
  have hreplay : membershipAfter (p.descriptor.metadata.membership.getD n.genesisMembership)
      p.retained = membershipAfter n.baseMembership n.log := by
    rw [hretained]
    exact hrest
  have hcommitted : (n.published p).membershipAt n.commitIndex = .ok n.committedMembership := by
    have hold := h.configured.committed
    rw [membershipAt, if_neg (by omega), replay_eq h.ordered.contiguous] at hold
    obtain ⟨m, hm, hcut⟩ := membershipAfter_cut hold
      (p.descriptor.metadata.lastIncludedIndex - n.snapshotIndex)
    rw [List.take_take, min_eq_left (by omega)] at hm
    rw [membershipAt, if_neg (by omega), replay_eq h.ordered.contiguous, hm] at hbase
    cases hbase
    rw [membershipAt, if_neg (by
      show ¬ n.commitIndex < p.descriptor.metadata.lastIncludedIndex
      omega), replay_eq hordered.contiguous]
    show membershipAfter _ (p.retained.take
      (n.commitIndex - p.descriptor.metadata.lastIncludedIndex)) = _
    rw [hretained, ← hcut, List.drop_take,
      show n.commitIndex - n.snapshotIndex - (p.descriptor.metadata.lastIncludedIndex -
        n.snapshotIndex) = n.commitIndex - p.descriptor.metadata.lastIncludedIndex by omega]
    rfl
  obtain ⟨m, hm, heff⟩ := h.fresh
  exact ⟨⟨hordered, ⟨hl.receivable.2.2, hposition.1, hposition.2, ⟨m, hreplay.trans hm⟩,
    hcommitted⟩, { h.tracking with }, h.incoming, h.elected, h.readContext⟩,
    ⟨m, hreplay.trans hm, heff⟩, rfl⟩

/-! ## Installation -/

/-- What an image has to meet to become the node's committed prefix. -/
structure Lands (n : RaftNode) (d : SnapshotDescriptor) : Prop where
  replayable : ∃ m, membershipAfter (d.metadata.membership.getD n.genesisMembership)
    (n.retainedSuffix d) = .ok m
  unrecorded : d.metadata.membership = none → n.committedMembership = n.genesisMembership

/-- The node once an installed image is its committed prefix. -/
def adopted (n : RaftNode) (p : PublishingSnapshot) : RaftNode :=
  { n.published p with
    hard := { n.hard with membership := p.descriptor.metadata.membership.or n.hard.membership }
    commitIndex := p.descriptor.metadata.lastIncludedIndex }

/-- The node once it is also its applied prefix. -/
def installed (n : RaftNode) (p : PublishingSnapshot) : RaftNode :=
  { n.adopted p with
    lastApplied := p.descriptor.metadata.lastIncludedIndex
    incomingSnapshot := none }

theorem installed_committed (h : n.Lands p.descriptor) : (n.installed p).committedMembership =
      p.descriptor.metadata.membership.getD n.genesisMembership := by
  show (p.descriptor.metadata.membership.or n.hard.membership).getD n.genesisMembership = _
  cases hm : p.descriptor.metadata.membership with
  | none => exact h.unrecorded hm
  | some m => rfl

theorem Steady.install (h : n.Steady calm)
    (hp : n.publishingSnapshot = some p) (hlands : n.Lands p.descriptor) :
    (n.installed p).Rep calm := by
  have hl := h.landing hp
  have hposition := base_position hl.receivable.1 h.configured.base.genesis
  have hordered : (n.installed p).Ordered :=
    h.ordered.publish hl.receivable.2.1 hl.retained rfl rfl le_rfl le_rfl (Nat.le_add_right _ _)
  refine ⟨hordered, ⟨hl.receivable.2.2, hposition.1, hposition.2, ?_, ?_⟩, { h.tracking with },
    (fun hx => by cases hx), h.elected, h.readContext⟩
  · show ∃ m, membershipAfter (p.descriptor.metadata.membership.getD n.genesisMembership)
      p.retained = .ok m
    rw [hl.retained]
    exact hlands.replayable
  · rw [installed_committed hlands, membershipAt, if_neg (by
      show ¬ p.descriptor.metadata.lastIncludedIndex < p.descriptor.metadata.lastIncludedIndex
      exact lt_irrefl _), replay_eq hordered.contiguous]
    show membershipAfter _ (p.retained.take (p.descriptor.metadata.lastIncludedIndex -
      p.descriptor.metadata.lastIncludedIndex)) = _
    rw [Nat.sub_self, List.take_zero]
    rfl

/-! ## The handlers of a boundary -/

theorem Ordered.logTerm_le (h : n.Ordered) {index term : Nat}
    (hterm : n.logTerm index = some term) : term ≤ n.hard.currentTerm := by
  unfold logTerm at hterm
  split at hterm
  · cases hterm
    exact h.boundary
  · obtain ⟨e, he, rfl⟩ := Option.map_eq_some_iff.1 hterm
    exact h.current e (h.contiguous.index_of_entryAt he).2

/-- Asking for a publication. -/
theorem Ready.publish (h : n.Ready calm) (hl : n.Landing p) :
    Steady calm { n with publishingSnapshot := some p } := by
  refine ⟨⟨{ h.ordered with }, { h.configured with }, { h.tracking with }, h.incoming, h.elected,
    h.readContext⟩, h.fresh, fun hp => ?_⟩
  cases hp
  exact ⟨hl.retained, hl.receivable, hl.compaction, hl.install⟩

theorem toBool_eq_true {ε α : Type} {x : Except ε α} (h : x.toBool = true) : ∃ a, x = .ok a := by
  cases x with
  | error e => cases h
  | ok a => exact ⟨a, rfl⟩

theorem onCompact_settles (h : n.Ready calm) (d : SnapshotDescriptor) :
    n.Settles calm (onCompact d) := by
  refine ends_peek_bind.2 ?_
  split
  · exact (Safe.emit h).settles
  dsimp only
  split
  · exact (Safe.emit h).settles
  · next hok =>
      simp only [not_or, Bool.not_eq_false, not_le, not_lt, not_not] at hok
      obtain ⟨hvalid, hmatch, habove, hbelow, -, hknown⟩ := hok
      obtain ⟨⟨⟩, hvalid⟩ := toBool_eq_true hvalid
      refine ends_update_bind.2 (ends_emit.2 ⟨h.publish ?_, .of_role rfl rfl⟩)
      exact ⟨rfl, ⟨hvalid, h.ordered.logTerm_le hknown,
          h.membershipAt_grown (h.compaction_base hmatch)⟩,
        fun _ => ⟨habove, hbelow, hknown, hmatch⟩, fun hne => absurd rfl hne⟩

theorem snapshotReply_safe (h : n.Ready calm) {nextOffset : Nat}
    {accepted installed : Bool} {matchIndex round : Nat} :
    n.Safe calm (snapshotReply transfer nextOffset accepted installed matchIndex round) :=
  ends_peek_bind.2 (Safe.emit h)

theorem snapshotRefuse_safe (h : n.Ready calm) {nextOffset : Nat} :
    n.Safe calm (snapshotRefuse transfer nextOffset) :=
  ends_peek_bind.2 (snapshotReply_safe h)

theorem ends_adoptMembership {Q : Unit → RaftNode → Prop} : Ends Q (adoptMembership d) n ↔
      Q () { n with
        hard := { n.hard with membership := d.metadata.membership.or n.hard.membership } } := by
  unfold adoptMembership
  rw [ends_peek_bind]
  cases hm : d.metadata.membership with
  | none => exact ends_pure
  | some m =>
    simp only [ends_when, ends_update_bind, ends_emit, Option.some_or]
    by_cases hsame : n.hard.membership = some m
    · rw [← hsame]
      exact ⟨fun h => h.2 (not_not.2 rfl), fun h => ⟨fun hne => absurd rfl hne, fun _ => h⟩⟩
    · exact ⟨fun h => h.1 hsame, fun h => ⟨fun _ => h, fun hne => absurd hsame hne⟩⟩

theorem Refreshes.facade_congr {m m' : RaftNode} {next : MembershipState} {f : Facade → Facade}
    (h : n.Refreshes next n') (hm' : m'.facade = f n'.facade)
    (heff : m.effectiveMembership = n.effectiveMembership) (hsame : m.facade = f n.facade)
    (hdown : m.steppedDown.facade = f n.steppedDown.facade)
    (hnew : (m.refreshed next).facade = f (n.refreshed next).facade)
    (hnewDown : (m.refreshed next).steppedDown.facade = f (n.refreshed next).steppedDown.facade) :
    m.Refreshes next m' := by
  cases h with
  | same hs hf => exact .same (heff ▸ hs) (by rw [hm', hf, hsame])
  | down hs hf => exact .down (heff ▸ hs) (by rw [hm', hf, hdown])
  | new hf => exact .new (by rw [hm', hf, hnew])
  | newDown hf => exact .newDown (by rw [hm', hf, hnewDown])

theorem installPublished_safe (h : n.Steady calm)
    (hp : n.publishingSnapshot = some p) (htransfer : p.transfer ≠ none)
    (hlands : n.Lands p.descriptor) (transfer : SnapshotTransferId) (round : Nat) :
    Ends (fun _ n' => n'.Ready calm ∧ n.Grows n') (installPublished transfer p.descriptor round)
      (n.published p) := by
  have hrep := h.install hp hlands
  obtain ⟨m, hm⟩ := hrep.configured.replayable
  have heffective : effectiveAfter (n.adopted p).committedMembership (n.adopted p).log
      (n.adopted p).commitIndex = .ok m.state := hrep.effectiveAfter_eq hm
  refine ends_bind.2 (ends_adoptMembership.2 (ends_update_bind.2 (ends_bind.2 ?_)))
  refine (refreshEffectiveMembership_ends heffective).mono fun _ n₁ hr => ?_
  -- the refresh does not look at the applied position, which moves only now
  have hr' : (n.installed p).Refreshes m.state
      { n₁ with lastApplied := n₁.commitIndex, incomingSnapshot := none } :=
    hr.facade_congr (f := fun x =>
      { x with lastApplied := x.commitIndex, incomingSnapshot := none })
      rfl rfl rfl rfl rfl rfl
  have hwide : (n.installed p).Widens := by
    refine .of_not_leader ?_
    show n.isLeader = false
    rw [isLeader, ((h.landing hp).install htransfer).1]
  obtain ⟨hready, hgrows⟩ := hr'.ready hrep rfl hwide hm
  refine ends_update_bind.2 (ends_emit_bind.2 ?_)
  have hstart : n.Grows (n.installed p) := .of_role rfl rfl
  exact (snapshotReply_safe hready).after (hstart.trans hgrows)

theorem onSnapshotPublished_settles (h : n.Steady calm)
    (hlands : ∀ {p : PublishingSnapshot}, n.publishingSnapshot = some p → p.transfer ≠ none →
      n.Lands p.descriptor) (transfer : Option SnapshotTransferId) (d : SnapshotDescriptor) :
    n.Settles calm (onSnapshotPublished transfer d) := by
  have hstay : n.Settles calm (pure ()) := ends_pure.2 ⟨h, .refl n⟩
  refine ends_peek_bind.2 ?_
  split
  · exact hstay
  · next p hp =>
      split
      · exact hstay
      · next hmatch =>
          rw [not_or, not_not, not_not] at hmatch
          obtain ⟨htransfer, rfl⟩ := hmatch
          refine ends_update_bind.2 ?_
          cases transfer with
          | none =>
            exact ends_pure.2 ⟨(h.compact hp htransfer).steady, .of_role rfl rfl⟩
          | some t =>
            have hne : p.transfer ≠ none := by
              rw [htransfer]
              exact nofun
            exact Ends.mono (installPublished_safe h hp hne (hlands hp hne) t p.contactRound)
              fun _ _ hn => ⟨hn.1.steady, hn.2⟩

/-! ## The sending side -/

theorem readChunk_safe (h : n.Ready calm) (dest : NodeId) (active : OutgoingSnapshot) :
    n.Safe calm (readChunk dest active) := by
  unfold readChunk
  split
  · exact Safe.pure h
  · exact Safe.update_bind h rfl Safe.emit

theorem sendSnapshotChunk_safe (h : n.Ready calm) (dest : NodeId) :
    n.Safe calm (sendSnapshotChunk dest) := by
  refine ends_peek_bind.2 ?_
  split
  · exact Safe.pure h
  split
  · exact Safe.pure h
  split
  · exact readChunk_safe h dest _
  split
  · exact Safe.emit h
  · exact Safe.update_bind h rfl fun h₁ => readChunk_safe h₁ dest _

theorem onSnapshotChunkRead_safe (h : n.Ready calm) {dest : NodeId} {data : List UInt8} :
    n.Safe calm (onSnapshotChunkRead dest transfer d offset data) := by
  refine ends_peek_bind.2 ?_
  split
  · exact Safe.pure h
  split
  · exact Safe.pure h
  split
  · exact Safe.pure h
  dsimp only
  split
  · exact Safe.update_bind h rfl Safe.emit
  · next hchunk =>
      rw [Bool.not_eq_true', Bool.not_eq_false] at hchunk
      refine ends_require_bind.2 ⟨(validChunk_end hchunk).2, ?_⟩
      exact Safe.update_bind h rfl Safe.emit

/-! ## The receiving side -/

theorem stageChunk_safe (active : IncomingSnapshot) (hactive : n.incomingSnapshot = some active)
    (h : Ready calm { n with incomingSnapshot := none }) (hreceive : n.Receivable active.descriptor)
    {data : List UInt8} {done sameImage : Bool} {round : Nat} (hend : offset + data.length ≤ u64Max)
    (hcase : n.role = .follower ∨
      active.pending = none ∧ ¬ (active.nextOffset < offset ∧ sameImage = false)) :
    n.Safe calm (stageChunk transfer d offset data done round sameImage) := by
  refine ends_peek_bind.2 (ends_expect_bind.2 ⟨active, hactive, ?_⟩)
  split
  · next hrefuse =>
      -- only a transfer the node already follows is refused here
      have hrole : n.role = .follower := by
        refine hcase.resolve_right fun hfresh => ?_
        rw [hfresh.1] at hrefuse
        simp only [Option.isSome_none, Bool.false_or, Bool.and_eq_true, decide_eq_true_eq,
          Bool.not_eq_true'] at hrefuse
        exact hfresh.2 hrefuse
      have hready : n.Ready calm := by
        have hset : Ready calm { n with incomingSnapshot := some active } :=
          (h.setIncoming hreceive hrole).congr rfl
        rwa [← hactive] at hset
      exact snapshotRefuse_safe hready
  · refine ends_require_bind.2 ⟨hend, ends_update_bind.2 (ends_becomeFollower_bind.2 ?_)⟩
    have hready : Ready calm { n.steppedDown with
        incomingSnapshot :=
          some { active with pending := some (offset, offset + data.length, round) } } :=
      (h.steppedDown.setIncoming (x := { active with
        pending := some (offset, offset + data.length, round) }) hreceive rfl).congr rfl
    refine ends_update_bind.2 (ends_update_bind.2 (ends_emit.2 ⟨hready.congr rfl, ?_⟩))
    exact .of_resting le_rfl rfl

theorem onInstallSnapshot_safe (h : n.Ready calm) {data : List UInt8} {done : Bool} {round : Nat}
    (hreceive : n.Receivable d) (hend : offset + data.length ≤ u64Max) :
    n.Safe calm (onInstallSnapshot transfer d offset data done round) := by
  refine ends_peek_bind.2 ?_
  dsimp only
  split
  · exact snapshotRefuse_safe h
  split
  · exact snapshotRefuse_safe h
  split
  · exact snapshotRefuse_safe h
  split
  · exact snapshotRefuse_safe h
  next hfirst =>
    refine ends_bind.2 (ends_when.2 ⟨fun hnew => ?_, fun hsame => ?_⟩)
    · -- a new transfer starts at the beginning, or repeats the image the node has
      rw [hnew] at hfirst
      refine ends_bind.2 (ends_cancelIncomingSnapshot.2 (ends_update.2 ?_))
      refine Safe.after ?_ (.of_role rfl rfl)
      refine stageChunk_safe { transfer, descriptor := d, nextOffset := 0, pending := none } rfl
        ?_ ?_ hend (Or.inr ⟨rfl, fun hgap => hfirst ?_⟩)
      · exact h.clearIncoming.congr rfl
      · exact hreceive
      have hpos : offset ≠ 0 := by
        have := hgap.1
        dsimp only at this
        omega
      simp only [Bool.not_false, Bool.true_and, Bool.and_eq_true, Bool.not_eq_true']
      exact ⟨by simpa using hpos, hgap.2⟩
    · rw [Bool.not_eq_false] at hsame
      obtain ⟨active, hactive, -⟩ := Option.any_eq_true _ _ |>.1 hsame
      have hincoming := h.incoming hactive
      exact stageChunk_safe active hactive h.clearIncoming hincoming.1 hend (Or.inl hincoming.2)

theorem completeStage_settles (h : n.Ready calm) {x : IncomingSnapshot}
    (hx : n.incomingSnapshot = some x) (transfer : SnapshotTransferId) (nextOffset round : Nat) :
    n.Settles calm (completeStage transfer x.descriptor nextOffset round) := by
  refine ends_peek_bind.2 ?_
  dsimp only
  split
  · refine ends_update_bind.2 (Ends.mono (snapshotReply_safe h.clearIncoming) fun _ _ hn => ?_)
    exact ⟨hn.1.steady, hn.2.head rfl rfl⟩
  split
  · exact (Safe.bind (cancelIncomingSnapshot_safe h) fun _ _ h₁ _ => snapshotRefuse_safe h₁).settles
  · next hpast =>
      obtain ⟨hreceive, hrole⟩ := h.incoming hx
      refine ends_update_bind.2 (ends_emit.2 ⟨h.publish ?_, .of_role rfl rfl⟩)
      exact ⟨rfl, hreceive, nofun, fun _ => ⟨hrole, by
        dsimp only
        omega, by
        dsimp only
        omega⟩⟩

theorem onSnapshotChunkStaged_settles (h : n.Ready calm) {result : SnapshotStageResult} :
    n.Settles calm (onSnapshotChunkStaged transfer d offset result) := by
  have hstay : n.Settles calm (pure ()) := (Safe.pure h).settles
  refine ends_peek_bind.2 ?_
  split
  · exact hstay
  next active hactive =>
    obtain ⟨hreceive, hrole⟩ := h.incoming hactive
    -- the transfer keeps its image, whatever is recorded of its progress
    have hset (x : IncomingSnapshot) (hx : x.descriptor = active.descriptor) :
        Ready calm { n with incomingSnapshot := some x } :=
      h.setIncoming (hx ▸ hreceive) hrole
    split
    · exact hstay
    next hmatch =>
      simp only [not_or, not_not] at hmatch
      obtain ⟨-, rfl, -⟩ := hmatch
      split
      · exact hstay
      split
      · exact hstay
      refine ends_update_bind.2 ?_
      have hcleared := hset { active with pending := none } rfl
      cases result with
      | rejected => exact (snapshotRefuse_safe hcleared).settles.after (.of_role rfl rfl)
      | accepted nextOffset complete =>
        dsimp only
        split
        · exact (Safe.bind (cancelIncomingSnapshot_safe hcleared)
            fun _ _ h₁ _ => snapshotRefuse_safe h₁).settles.after (.of_role rfl rfl)
        · have hmoved := hset { active with nextOffset, pending := none } rfl
          refine ends_update_bind.2 ?_
          split
          · exact (snapshotReply_safe hmoved).settles.after (.of_role rfl rfl)
          · exact (completeStage_settles hmoved rfl transfer nextOffset _).after (.of_role rfl rfl)

end RaftNode

end MicroRaft
