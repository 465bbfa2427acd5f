import MicroRaft.Node.Replay
import MicroRaft.Lib.Total

/-!
# What a node's fields say together

The representation invariant of a node, in four parts: the log and the positions
in it (`Ordered`), the memberships the log stands for (`Configured`), the peers
and a leader's progress (`Tracking`), and what is left (`Rep`).  None of it
depends on what peers say being true.  The second half is one lemma for each
kind of update the handlers make.
-/

namespace MicroRaft

open EffectM

/-- Within one term a node campaigns, then leads, then rests. -/
def Role.stage : Role → Nat
  | .candidate _ => 0
  | .leader .. => 1
  | _ => 2

theorem Role.stage_le (role : Role) : role.stage ≤ 2 := by
  cases role <;> simp [Role.stage]

namespace RaftNode

/-- The log is numbered, its terms are in order, and the positions lie in it. -/
structure Ordered (n : RaftNode) : Prop where
  contiguous : n.Contiguous
  bounded : ∀ e ∈ n.log, e.index ≤ u64Max
  ascending : n.log.Pairwise fun e e' => e.term ≤ e'.term
  above : ∀ e ∈ n.log, n.snapshotTerm ≤ e.term
  current : ∀ e ∈ n.log, e.term ≤ n.hard.currentTerm
  boundary : n.snapshotTerm ≤ n.hard.currentTerm
  floor : n.snapshotIndex ≤ n.lastApplied
  applied : n.lastApplied ≤ n.commitIndex
  commit : n.commitIndex ≤ n.lastLogIndex

/-- The log can be replayed from the membership at its boundary, and the committed membership
is what the committed part leads to. -/
structure Configured (n : RaftNode) : Prop where
  base : Grown n.genesisMembership n.baseMembership
  baseIndex : n.baseMembership.index ≤ n.snapshotIndex
  baseTerm : n.baseMembership.term ≤ n.snapshotTerm
  replayable : ∃ m, membershipAfter n.baseMembership n.log = .ok m
  committed : n.membershipAt n.commitIndex = .ok n.committedMembership

/-- The peers are everyone the effective membership knows but the node itself; a leader tracks
exactly them.  With `calm`, no retry cursor is behind what is confirmed. -/
structure Tracking (calm : Prop) (n : RaftNode) : Prop where
  nodup : n.peers.Nodup
  peers : ∀ p, p ∈ n.peers ↔ p ∈ n.effectiveMembership.known ∧ p ≠ n.id
  tracked : ∀ {next matched : BTreeMap NodeId Nat}, n.role = .leader next matched → ∀ p,
    (p ∈ next ↔ p ∈ n.peers) ∧ (p ∈ matched ↔ p ∈ n.peers)
  ahead : calm → ∀ {next matched : BTreeMap NodeId Nat}, n.role = .leader next matched →
    ∀ {p k m : Nat}, next[p]? = some k → matched[p]? = some m → saturatingAdd m 1 ≤ k

/-- An image that may come to be installed: it is sound, not newer than the node, and of the
node's group. -/
def Receivable (n : RaftNode) (d : SnapshotDescriptor) : Prop :=
  d.validate = .ok () ∧ d.metadata.lastIncludedTerm ≤ n.hard.currentTerm ∧
    Grown n.genesisMembership (d.metadata.membership.getD n.genesisMembership)

/-- A node that is or wants to be leader has left the initial term. -/
def Elected (n : RaftNode) : Prop :=
  (n.isLeader = true ∨ ∃ votes, n.role = .candidate votes) → 0 < n.hard.currentTerm

/-- The representation invariant. -/
structure Rep (calm : Prop) (n : RaftNode) : Prop where
  ordered : n.Ordered
  configured : n.Configured
  tracking : n.Tracking calm
  incoming : ∀ {x : IncomingSnapshot}, n.incomingSnapshot = some x →
    n.Receivable x.descriptor ∧ n.role = .follower
  elected : n.Elected
  readContext : n.readContext ≤ u64Max

/-- The effective membership is that of the whole log. -/
def Current (n : RaftNode) : Prop :=
  ∃ m, membershipAfter n.baseMembership n.log = .ok m ∧ n.effectiveMembership = m.state

/-- A node between two inputs that waits for nothing. -/
structure Ready (calm : Prop) (n : RaftNode) : Prop extends Rep calm n where
  fresh : n.Current
  idle : n.publishingSnapshot = none

/-! ## Fields that do not matter -/

/-- The fields the invariant is about. -/
structure Facade where
  id : NodeId
  peers : List NodeId
  hard : HardState
  log : List Entry
  commitIndex : Nat
  lastApplied : Nat
  role : Role
  readContext : Nat
  snapshot : Option SnapshotDescriptor
  incomingSnapshot : Option IncomingSnapshot
  publishingSnapshot : Option PublishingSnapshot
  genesisMembership : CommittedMembership
  effectiveMembership : MembershipState

def facade (n : RaftNode) : Facade where
  id := n.id
  peers := n.peers
  hard := n.hard
  log := n.log
  commitIndex := n.commitIndex
  lastApplied := n.lastApplied
  role := n.role
  readContext := n.readContext
  snapshot := n.snapshot
  incomingSnapshot := n.incomingSnapshot
  publishingSnapshot := n.publishingSnapshot
  genesisMembership := n.genesisMembership
  effectiveMembership := n.effectiveMembership

/-- The node with the fields of a facade. -/
def wearing (n : RaftNode) (f : Facade) : RaftNode :=
  { n with
    id := f.id, peers := f.peers, hard := f.hard, log := f.log, commitIndex := f.commitIndex
    lastApplied := f.lastApplied, role := f.role, readContext := f.readContext
    snapshot := f.snapshot, incomingSnapshot := f.incomingSnapshot
    publishingSnapshot := f.publishingSnapshot, genesisMembership := f.genesisMembership
    effectiveMembership := f.effectiveMembership }

variable {calm : Prop} {n n' n'' : RaftNode}

theorem eq_wearing (h : n'.facade = n.facade) : n' = n'.wearing n.facade := by
  rw [← h]
  rfl

theorem Ordered.congr (h : n.Ordered) (hf : n'.facade = n.facade) : n'.Ordered := by
  rw [eq_wearing hf]
  exact { h with }

theorem Configured.congr (h : n.Configured) (hf : n'.facade = n.facade) : n'.Configured := by
  rw [eq_wearing hf]
  exact { h with }

theorem Rep.congr (h : n.Rep calm) (hf : n'.facade = n.facade) : n'.Rep calm := by
  refine ⟨h.ordered.congr hf, h.configured.congr hf, ?_, ?_, ?_, ?_⟩ <;> rw [eq_wearing hf]
  · exact { h.tracking with }
  · exact h.incoming
  · exact h.elected
  · exact h.readContext

theorem Ready.congr (h : n.Ready calm) (hf : n'.facade = n.facade) : n'.Ready calm := by
  refine ⟨h.toRep.congr hf, ?_, ?_⟩ <;> rw [eq_wearing hf]
  · exact h.fresh
  · exact h.idle

/-! ## What leadership keeps -/

theorem isLeader_iff_stage : n.isLeader = true ↔ n.role.stage = 1 := by
  unfold isLeader Role.stage
  cases n.role <;> simp

/-- From `n` to `n'` terms only grow, no stage of a term comes back, and what the peers of a
leader had confirmed stays confirmed. -/
structure Grows (n n' : RaftNode) : Prop where
  term : n.hard.currentTerm ≤ n'.hard.currentTerm
  stage : n'.hard.currentTerm = n.hard.currentTerm → n.role.stage ≤ n'.role.stage
  matched : n'.hard.currentTerm = n.hard.currentTerm →
    ∀ {next matched next' matched' : BTreeMap NodeId Nat}, n.role = .leader next matched →
      n'.role = .leader next' matched' → ∀ {p m : Nat}, matched[p]? = some m →
        ∃ m', matched'[p]? = some m' ∧ m ≤ m'

theorem Grows.of_role (hterm : n'.hard.currentTerm = n.hard.currentTerm)
    (hrole : n'.role = n.role) : n.Grows n' := by
  refine ⟨hterm.ge, fun _ => (congrArg Role.stage hrole).ge, fun _ {_ _ _ _} hr hr' {_ m} hm => ?_⟩
  rw [hrole, hr] at hr'
  cases hr'
  exact ⟨m, hm, le_rfl⟩

theorem Grows.refl (n : RaftNode) : n.Grows n := .of_role rfl rfl

theorem Grows.congr (hf : n'.facade = n.facade) : n.Grows n' := by
  rw [eq_wearing hf]
  exact .of_role rfl rfl

/-- A run from a node of the same role and term. -/
theorem Grows.head (h : n'.Grows n'') (hterm : n'.hard.currentTerm = n.hard.currentTerm)
    (hrole : n'.role = n.role) : n.Grows n'' := by
  obtain ⟨h₁, h₂, h₃⟩ := h
  rw [hterm] at h₁ h₂ h₃
  rw [hrole] at h₂ h₃
  exact ⟨h₁, h₂, h₃⟩

theorem Grows.of_resting (hterm : n.hard.currentTerm ≤ n'.hard.currentTerm)
    (hrole : n'.role.stage = 2) : n.Grows n' := by
  refine ⟨hterm, fun _ => ?_, fun _ {_ _ _ _} _ hr' => ?_⟩
  · rw [hrole]
    exact n.role.stage_le
  · rw [hr'] at hrole
    cases hrole

theorem Grows.of_lt (hterm : n.hard.currentTerm < n'.hard.currentTerm) : n.Grows n' :=
  ⟨hterm.le, fun heq => absurd heq hterm.ne', fun heq => absurd heq hterm.ne'⟩

theorem Grows.trans (h : n.Grows n') (h' : n'.Grows n'') : n.Grows n'' := by
  have hboth : n''.hard.currentTerm = n.hard.currentTerm →
      n'.hard.currentTerm = n.hard.currentTerm ∧
        n''.hard.currentTerm = n'.hard.currentTerm := by
    intro heq
    have h₁ := h.term
    have h₂ := h'.term
    omega
  refine ⟨h.term.trans h'.term, fun heq => ?_, fun heq {_ _ _ _} hr hr'' {p m} hm => ?_⟩
  · exact (h.stage (hboth heq).1).trans (h'.stage (hboth heq).2)
  · -- a leader at both ends of a term was leader in between
    have hl' : n'.isLeader = true := by
      have h₁ := h.stage (hboth heq).1
      have h₂ := h'.stage (hboth heq).2
      rw [hr] at h₁
      rw [hr''] at h₂
      exact isLeader_iff_stage.2 (le_antisymm h₂ h₁)
    obtain ⟨next', matched', hr'⟩ := isLeader_iff.1 hl'
    obtain ⟨m', hm', hle⟩ := h.matched (hboth heq).1 hr hr' hm
    obtain ⟨m'', hm'', hle'⟩ := h'.matched (hboth heq).2 hr' hr'' hm'
    exact ⟨m'', hm'', hle.trans hle'⟩

/-! ## Safe handlers -/

/-- The handler does not panic and leaves a node that is ready again. -/
def Safe {α : Type} (calm : Prop) (m : Handler α) (n : RaftNode) : Prop :=
  Ends (fun _ n' => n'.Ready calm ∧ n.Grows n') m n

theorem Safe.after {α : Type} {m : Handler α} (h : n'.Safe calm m) (hg : n.Grows n') :
    Ends (fun _ n'' => n''.Ready calm ∧ n.Grows n'') m n' :=
  Ends.mono h fun _ _ hn => ⟨hn.1, hg.trans hn.2⟩

theorem Safe.bind {α β : Type} {m : Handler α} {f : α → Handler β} (h : n.Safe calm m)
    (hf : ∀ a n', n'.Ready calm → n.Grows n' → n'.Safe calm (f a)) : n.Safe calm (m >>= f) :=
  ends_bind.2 (Ends.mono h fun a n' hn => (hf a n' hn.1 hn.2).after hn.2)

theorem Safe.pure {α : Type} {a : α} (h : n.Ready calm) : n.Safe calm (Pure.pure a) :=
  ends_pure.2 ⟨h, .refl n⟩

theorem Safe.emit {e : Effect} (h : n.Ready calm) : n.Safe calm (EffectM.emit e) :=
  ends_emit.2 ⟨h, .refl n⟩

theorem Safe.emits {es : List Effect} (h : n.Ready calm) : n.Safe calm (EffectM.emits es) :=
  ends_emits.2 ⟨h, .refl n⟩

theorem Safe.update {f : RaftNode → RaftNode} (h : n.Ready calm) (hf : (f n).facade = n.facade) :
    n.Safe calm (EffectM.update f) :=
  ends_update.2 ⟨h.congr hf, .congr hf⟩

theorem Safe.update_bind {α : Type} {f : RaftNode → RaftNode} {k : Unit → Handler α}
    (h : n.Ready calm) (hf : (f n).facade = n.facade)
    (hk : (f n).Ready calm → (f n).Safe calm (k ())) : n.Safe calm (EffectM.update f >>= k) :=
  ends_update_bind.2 ((hk (h.congr hf)).after (.congr hf))

theorem Safe.when {c : Prop} [Decidable c] {m : Handler Unit} (hn : n.Ready calm)
    (h : c → n.Safe calm m) : n.Safe calm (EffectM.when c m) :=
  ends_when.2 ⟨h, fun _ => ⟨hn, .refl n⟩⟩

theorem Safe.forM {β : Type} {l : List β} {f : β → Handler PUnit} (hn : n.Ready calm)
    (h : ∀ x ∈ l, ∀ n' : RaftNode, n'.Ready calm → n'.Safe calm (f x)) :
    n.Safe calm (l.forM f) := by
  refine Ends.forM (I := fun n' => n'.Ready calm ∧ n.Grows n') ?_ ⟨hn, .refl n⟩
  exact fun x hx n' hn' => (h x hx n' hn'.1).after hn'.2

/-! ## Roles and terms -/

/-- Any role but that of a leader. -/
theorem Rep.setRole (h : n.Rep calm) {role : Role}
    (hrole : ∀ next matched, role ≠ .leader next matched)
    (helected : ∀ votes, role = .candidate votes → 0 < n.hard.currentTerm)
    (hincoming : role = .follower ∨ n.incomingSnapshot = none) : Rep calm { n with role } where
  ordered := { h.ordered with }
  configured := { h.configured with }
  tracking := ⟨h.tracking.nodup, h.tracking.peers, fun hr => absurd hr (hrole _ _),
    fun _ {_ _} hr => absurd hr (hrole _ _)⟩
  incoming hx := by
    refine ⟨(h.incoming hx).1, hincoming.resolve_right fun hnone => ?_⟩
    rw [hnone] at hx
    cases hx
  elected := by
    rintro (hl | ⟨votes, hv⟩)
    · obtain ⟨next, matched, hr⟩ := isLeader_iff.1 hl
      exact absurd hr (hrole _ _)
    · exact helected votes hv
  readContext := h.readContext

/-- A newer term, with the same committed membership. -/
theorem Rep.raise (h : n.Rep calm) {hard : HardState}
    (hterm : n.hard.currentTerm ≤ hard.currentTerm)
    (hmembership : hard.membership = n.hard.membership) : Rep calm { n with hard } where
  ordered := { h.ordered with
    current := fun e he => (h.ordered.current e he).trans hterm
    boundary := h.ordered.boundary.trans hterm }
  configured := by
    refine { h.configured with committed := ?_ }
    show n.membershipAt n.commitIndex = .ok (hard.membership.getD n.genesisMembership)
    rw [hmembership]
    exact h.configured.committed
  tracking := { h.tracking with }
  incoming hx := by
    obtain ⟨⟨hvalid, hincluded, hgrown⟩, hrole⟩ := h.incoming hx
    exact ⟨⟨hvalid, hincluded.trans hterm, hgrown⟩, hrole⟩
  elected hr := (h.elected hr).trans_le hterm
  readContext := h.readContext

theorem Rep.steppedDown (h : n.Rep calm) : n.steppedDown.Rep calm := by
  have hrep : Rep calm { n with role := .follower } := h.setRole nofun nofun (Or.inl rfl)
  exact hrep.congr rfl

theorem Ready.steppedDown (h : n.Ready calm) : n.steppedDown.Ready calm :=
  ⟨h.toRep.steppedDown, h.fresh, h.idle⟩

theorem Grows.steppedDown (n : RaftNode) : n.Grows n.steppedDown := .of_resting le_rfl rfl

/-! ## The log -/

/-- Another log over the same boundary that keeps what is committed. -/
theorem Rep.setLog (h : n.Rep calm) {log : List Entry} (hnum : Numbered n.snapshotIndex log)
    (hbound : ∀ e ∈ log, e.index ≤ u64Max) (hasc : log.Pairwise fun e e' => e.term ≤ e'.term)
    (habove : ∀ e ∈ log, n.snapshotTerm ≤ e.term)
    (hcurrent : ∀ e ∈ log, e.term ≤ n.hard.currentTerm)
    (hcommit : n.commitIndex ≤ n.snapshotIndex + log.length)
    (hkeep : log.take (n.commitIndex - n.snapshotIndex) =
      n.log.take (n.commitIndex - n.snapshotIndex))
    (hreplay : ∃ m, membershipAfter n.baseMembership log = .ok m) : Rep calm { n with log } where
  ordered := by
    refine ⟨hnum, hbound, hasc, habove, hcurrent, h.ordered.boundary, h.ordered.floor,
      h.ordered.applied, ?_⟩
    rw [Contiguous.lastLogIndex (n := { n with log }) hnum]
    exact hcommit
  configured := by
    refine { h.configured with replayable := hreplay, committed := ?_ }
    have hfloor := h.ordered.floor.trans h.ordered.applied
    have hold := h.configured.committed
    rw [membershipAt, if_neg (by omega), replay_eq h.ordered.contiguous] at hold
    show (if n.commitIndex < n.snapshotIndex then _
      else replay n.baseMembership log n.commitIndex) = _
    rw [if_neg (by omega), replay_eq hnum, hkeep]
    exact hold
  tracking := { h.tracking with }
  incoming := h.incoming
  elected := h.elected
  readContext := h.readContext

/-- Entries of the current term at the end of the log. -/
theorem Rep.extend (h : n.Rep calm) {l : List Entry} (hnum : Numbered n.lastLogIndex l)
    (hbound : ∀ e ∈ l, e.index ≤ u64Max) (hterm : ∀ e ∈ l, e.term = n.hard.currentTerm)
    (hreplay : ∃ m, membershipAfter n.baseMembership (n.log ++ l) = .ok m) :
    Rep calm { n with log := n.log ++ l } := by
  have hlast := h.ordered.contiguous.lastLogIndex
  have hcommit := h.ordered.commit
  refine h.setLog (h.ordered.contiguous.append hnum) ?_ ?_ ?_ ?_ ?_ ?_ hreplay
  · exact fun e he => (List.mem_append.1 he).elim (h.ordered.bounded e) (hbound e)
  · refine List.pairwise_append.2 ⟨h.ordered.ascending, ?_, fun e he e' he' => ?_⟩
    · exact List.pairwise_of_forall_mem_list fun e he e' he' => by
        rw [hterm e he, hterm e' he']
    · rw [hterm e' he']
      exact h.ordered.current e he
  · refine fun e he => (List.mem_append.1 he).elim (h.ordered.above e) fun he => ?_
    rw [hterm e he]
    exact h.ordered.boundary
  · exact fun e he => (List.mem_append.1 he).elim (h.ordered.current e) fun he => (hterm e he).le
  · rw [List.length_append]
    omega
  · exact List.take_append_of_le_length (by omega)

/-! ## Replaying -/

/-- What the log leads to can be asked for at every position from the boundary on. -/
theorem Rep.membershipAt_ok (h : n.Rep calm) {index : Nat} (hindex : n.snapshotIndex ≤ index) :
    ∃ m, n.membershipAt index = .ok m ∧
      membershipAfter m (n.log.drop (index - n.snapshotIndex)) =
        membershipAfter n.baseMembership n.log := by
  obtain ⟨last, hlast⟩ := h.configured.replayable
  obtain ⟨m, hm, hrest⟩ := membershipAfter_cut hlast (index - n.snapshotIndex)
  refine ⟨m, ?_, hrest.trans hlast.symm⟩
  rw [membershipAt, if_neg (by omega), replay_eq h.ordered.contiguous]
  exact hm

/-- The last position is that of the whole log. -/
theorem Rep.membershipAt_last (h : n.Rep calm) :
    n.membershipAt n.lastLogIndex = membershipAfter n.baseMembership n.log := by
  have hlast := h.ordered.contiguous.lastLogIndex
  rw [membershipAt, if_neg (by omega), replay_eq h.ordered.contiguous,
    List.take_of_length_le (by omega)]

/-- What refreshing computes: the membership of the whole log. -/
theorem Rep.effectiveAfter_eq (h : n.Rep calm) {m : CommittedMembership}
    (hm : membershipAfter n.baseMembership n.log = .ok m) :
    effectiveAfter n.committedMembership n.log n.commitIndex = .ok m.state := by
  have hfloor := h.ordered.floor.trans h.ordered.applied
  obtain ⟨m', hm', hrest⟩ := h.membershipAt_ok hfloor
  rw [h.configured.committed] at hm'
  cases hm'
  rw [MicroRaft.effectiveAfter_eq h.ordered.contiguous hfloor h.ordered.bounded, hrest, hm]
  rfl

/-- What the log leads to is a membership of the node's group. -/
theorem Rep.membershipAt_grown (h : n.Rep calm) {index : Nat} {m : CommittedMembership}
    (hm : n.membershipAt index = .ok m) : Grown n.genesisMembership m := by
  unfold membershipAt at hm
  split at hm
  · cases hm
  · rw [replay_eq h.ordered.contiguous] at hm
    exact h.configured.base.append hm

theorem Rep.committed_grown (h : n.Rep calm) : Grown n.genesisMembership n.committedMembership :=
  h.membershipAt_grown h.configured.committed

/-- The committed membership is no newer than the committed entries. -/
theorem Rep.committed_position (h : n.Rep calm) :
    n.committedMembership.index ≤ n.commitIndex ∧
      n.committedMembership.term ≤ n.hard.currentTerm := by
  have hfloor := h.ordered.floor.trans h.ordered.applied
  have hc := h.configured.committed
  rw [membershipAt, if_neg (by omega), replay_eq h.ordered.contiguous] at hc
  constructor
  · have := membershipAfter_position (h.ordered.contiguous.take _) h.configured.baseIndex hc
    rw [List.length_take] at this
    omega
  · refine membershipAfter_term (h.configured.baseTerm.trans h.ordered.boundary) (fun e he => ?_) hc
    exact h.ordered.current e (List.mem_of_mem_take he)

/-! ## Commitment and application -/

/-- Committing up to a position of the log, with the membership it leads to. -/
theorem Rep.commitTo (h : n.Rep calm) {index : Nat} {next : CommittedMembership} {hard : HardState}
    (hnext : n.membershipAt index = .ok next) (hge : n.commitIndex ≤ index)
    (hle : index ≤ n.lastLogIndex) (hterm : hard.currentTerm = n.hard.currentTerm)
    (hmembership : hard.membership.getD n.genesisMembership = next) :
    Rep calm { n with hard, commitIndex := index } where
  ordered := { h.ordered with
    current := fun e he => hterm ▸ h.ordered.current e he
    boundary := hterm ▸ h.ordered.boundary
    applied := h.ordered.applied.trans hge
    commit := hle }
  configured := by
    refine { h.configured with committed := ?_ }
    show n.membershipAt index = .ok (hard.membership.getD n.genesisMembership)
    rw [hmembership]
    exact hnext
  tracking := { h.tracking with }
  incoming hx := by
    obtain ⟨⟨hvalid, hincluded, hgrown⟩, hrole⟩ := h.incoming hx
    exact ⟨⟨hvalid, hterm ▸ hincluded, hgrown⟩, hrole⟩
  elected hr := hterm ▸ h.elected hr
  readContext := h.readContext

theorem Rep.applyTo (h : n.Rep calm) {index : Nat} (hge : n.lastApplied ≤ index)
    (hle : index ≤ n.commitIndex) : Rep calm { n with lastApplied := index } where
  ordered := { h.ordered with floor := h.ordered.floor.trans hge, applied := hle }
  configured := { h.configured with }
  tracking := { h.tracking with }
  incoming := h.incoming
  elected := h.elected
  readContext := h.readContext

/-- The entry after the last applied one is there as long as commitment is ahead. -/
theorem Rep.next_applied (h : n.Rep calm) (hlt : n.lastApplied < n.commitIndex) :
    ∃ e, n.entryAt (n.lastApplied + 1) = some e := by
  have hfloor := h.ordered.floor
  have hcommit := h.ordered.commit
  rw [h.ordered.contiguous.lastLogIndex] at hcommit
  have hpos : n.lastApplied + 1 - n.snapshotIndex - 1 < n.log.length := by omega
  exact ⟨_, entryAt_eq_some.2 ⟨by omega, List.getElem?_eq_getElem hpos⟩⟩

end RaftNode

end MicroRaft
