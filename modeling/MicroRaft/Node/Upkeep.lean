import MicroRaft.Node.Track
import MicroRaft.Node.Repair

/-!
# Commitment, snapshots and replication do not panic

Every `expect` and every checked position of these handlers is met by the
representation invariant, and the invariant holds again when they are done.
-/

namespace MicroRaft

open EffectM

namespace RaftNode

variable {calm : Prop} {n n' : RaftNode}

/-! ## Stepping down -/

theorem ends_becomeFollower {Q : Unit → RaftNode → Prop} :
    Ends Q becomeFollower n ↔ Q () n.steppedDown := by
  constructor
  · exact fun h => h.elim (becomeFollower_apply n)
  · exact fun h => ⟨_, _, _, becomeFollower_apply n, h⟩

theorem ends_becomeFollower_bind {α : Type} {Q : α → RaftNode → Prop} {f : Unit → Handler α} :
    Ends Q (becomeFollower >>= f) n ↔ Ends Q (f ()) n.steppedDown := by
  rw [ends_bind, ends_becomeFollower]

theorem becomeFollower_safe (h : n.Ready calm) : n.Safe calm becomeFollower :=
  ends_becomeFollower.2 ⟨h.steppedDown, .steppedDown n⟩

/-- The node with a new election deadline. -/
def redrawn (n : RaftNode) : RaftNode :=
  let draw := n.rng.rangeInclusive electionMinMs electionMaxMs
  { n with rng := draw.2, electionDeadlineMs := saturatingAdd n.nowMs draw.1 }

theorem ends_resetElectionDeadline_bind {α : Type} {Q : α → RaftNode → Prop}
    {f : Unit → Handler α} :
    Ends Q (resetElectionDeadline >>= f) n ↔ Ends Q (f ()) n.redrawn :=
  ends_update_bind

theorem resetElectionDeadline_safe (h : n.Ready calm) : n.Safe calm resetElectionDeadline :=
  Safe.update h rfl

theorem Rep.clearIncoming (h : n.Rep calm) : Rep calm { n with incomingSnapshot := none } where
  ordered := { h.ordered with }
  configured := { h.configured with }
  tracking := { h.tracking with }
  incoming hx := by cases hx
  elected := h.elected
  readContext := h.readContext

theorem Rep.setIncoming (h : n.Rep calm) {x : IncomingSnapshot} (hx : n.Receivable x.descriptor)
    (hrole : n.role = .follower) : Rep calm { n with incomingSnapshot := some x } where
  ordered := { h.ordered with }
  configured := { h.configured with }
  tracking := { h.tracking with }
  incoming hy := by
    cases hy
    exact ⟨hx, hrole⟩
  elected := h.elected
  readContext := h.readContext

theorem Ready.clearIncoming (h : n.Ready calm) : Ready calm { n with incomingSnapshot := none } :=
  ⟨h.toRep.clearIncoming, h.fresh, h.idle⟩

theorem Ready.setIncoming (h : n.Ready calm) {x : IncomingSnapshot}
    (hx : n.Receivable x.descriptor) (hrole : n.role = .follower) :
    Ready calm { n with incomingSnapshot := some x } :=
  ⟨h.toRep.setIncoming hx hrole, h.fresh, h.idle⟩

theorem ends_cancelIncomingSnapshot {Q : Unit → RaftNode → Prop} :
    Ends Q cancelIncomingSnapshot n ↔ Q () { n with incomingSnapshot := none } := by
  unfold cancelIncomingSnapshot
  rw [ends_peek_bind]
  cases hx : n.incomingSnapshot with
  | none =>
    rw [ends_pure, show { n with incomingSnapshot := none } = n by rw [← hx]]
  | some x => rw [ends_update_bind, ends_emit]

theorem cancelIncomingSnapshot_safe (h : n.Ready calm) : n.Safe calm cancelIncomingSnapshot :=
  ends_cancelIncomingSnapshot.2 ⟨h.clearIncoming, .of_role rfl rfl⟩

/-! ## Application -/

theorem applyLoop_safe : ∀ (rounds : Nat) {n : RaftNode}, n.Ready calm →
    n.Safe calm (applyLoop rounds) := by
  intro rounds
  induction rounds with
  | zero => exact fun h => Safe.pure h
  | succ rounds ih =>
    intro n h
    refine ends_peek_bind.2 ?_
    split
    · next hlt =>
        obtain ⟨e, he⟩ := h.next_applied hlt
        have hready : Ready calm { n with lastApplied := n.lastApplied + 1 } :=
          ⟨h.toRep.applyTo (by omega) (by omega), h.fresh, h.idle⟩
        refine ends_update_bind.2 (ends_expect_bind.2 ⟨e, he, ends_emit_bind.2 ?_⟩)
        exact (ih hready).after (.of_role rfl rfl)
    · exact Safe.pure h

theorem applyCommitted_safe (h : n.Ready calm) : n.Safe calm applyCommitted :=
  ends_peek_bind.2 (applyLoop_safe _ h)

/-! ## The effective membership -/

/-- A leader's peers stay known when the membership of the log becomes effective. -/
def Widens (n : RaftNode) : Prop :=
  n.isLeader = true → ∀ {m : CommittedMembership}, membershipAfter n.baseMembership n.log = .ok m →
    ∀ p ∈ n.effectiveMembership.known, p ∈ m.state.known

theorem Current.widens (h : n.Current) : n.Widens := by
  intro _ m hm p hp
  obtain ⟨m', hm', heff⟩ := h
  rw [hm] at hm'
  cases hm'
  rwa [← heff]

theorem Widens.of_not_leader (h : n.isLeader = false) : n.Widens := by
  intro hl
  rw [h] at hl
  cases hl

/-- A change of voters costs at most the leadership. -/
theorem onVotersChanged_ends :
    Ends (fun _ n' => n'.facade = n.facade ∨ n'.facade = n.steppedDown.facade)
      onVotersChanged n := by
  refine ends_bind.2 (ends_peek_bind.2 (ends_update_bind.2 (ends_emits.2 ?_)))
  refine ends_bind.2 (ends_peek_bind.2 ?_)
  split
  · exact ends_becomeFollower.2 (ends_update.2 (Or.inr rfl))
  · split
    · exact ends_update.2 (ends_update.2 (Or.inl rfl))
    · exact ends_becomeFollower.2 (ends_update.2 (Or.inr rfl))

/-- What a refresh leaves: the node as it was or with the new membership, and in either case
possibly no longer as leader. -/
inductive Refreshes (n : RaftNode) (next : MembershipState) (n' : RaftNode) : Prop
  | same (hsame : next = n.effectiveMembership) (h : n'.facade = n.facade)
  | down (hsame : next = n.effectiveMembership) (h : n'.facade = n.steppedDown.facade)
  | new (h : n'.facade = (n.refreshed next).facade)
  | newDown (h : n'.facade = (n.refreshed next).steppedDown.facade)

theorem refreshEffectiveMembership_ends {next : MembershipState}
    (h : effectiveAfter n.committedMembership n.log n.commitIndex = .ok next) :
    Ends (fun _ n' => n.Refreshes next n') refreshEffectiveMembership n := by
  refine ends_peek_bind.2 (ends_expect_bind.2 ⟨next, by rw [h]; rfl, ?_⟩)
  refine ends_bind.2 (ends_when.2 ⟨fun _ => ends_becomeFollower.2 ?_, fun _ => ?_⟩)
  · refine ends_when.2 ⟨fun _ => ends_update_bind.2 ?_, fun hsame => .down (not_not.1 hsame) rfl⟩
    refine ends_when.2 ⟨fun _ => ?_, fun _ => .newDown rfl⟩
    exact onVotersChanged_ends.mono fun _ _ hn =>
      hn.elim (fun hf => .newDown (hf.trans rfl)) fun hf => .newDown (hf.trans rfl)
  · refine ends_when.2 ⟨fun _ => ends_update_bind.2 ?_, fun hsame => .same (not_not.1 hsame) rfl⟩
    refine ends_when.2 ⟨fun _ => ?_, fun _ => .new rfl⟩
    exact onVotersChanged_ends.mono fun _ _ hn => hn.elim .new .newDown

/-- **Once the membership of the log is effective, the node is ready.** -/
theorem Refreshes.ready (h : n.Rep calm) (hidle : n.publishingSnapshot = none) (hwide : n.Widens)
    {m : CommittedMembership} (hm : membershipAfter n.baseMembership n.log = .ok m)
    (hr : n.Refreshes m.state n') : n'.Ready calm ∧ n.Grows n' := by
  have hold (hsame : m.state = n.effectiveMembership) : n.Ready calm :=
    ⟨h, ⟨m, hm, hsame.symm⟩, hidle⟩
  have hnew : (n.refreshed m.state).Ready calm := ⟨h.refresh m.state, ⟨m, hm, rfl⟩, hidle⟩
  have hgrows : n.Grows (n.refreshed m.state) := .refresh h fun hl p hp => hwide hl hm p hp
  cases hr with
  | same hsame hf => exact ⟨(hold hsame).congr hf, .congr hf⟩
  | down hsame hf =>
    exact ⟨(hold hsame).steppedDown.congr hf, (Grows.steppedDown n).trans (.congr hf)⟩
  | new hf => exact ⟨hnew.congr hf, hgrows.trans (.congr hf)⟩
  | newDown hf =>
    exact ⟨hnew.steppedDown.congr hf, hgrows.trans ((Grows.steppedDown _).trans (.congr hf))⟩

theorem refreshEffectiveMembership_safe (h : n.Rep calm) (hidle : n.publishingSnapshot = none)
    (hwide : n.Widens) : n.Safe calm refreshEffectiveMembership := by
  obtain ⟨m, hm⟩ := h.configured.replayable
  exact (refreshEffectiveMembership_ends (h.effectiveAfter_eq hm)).mono
    fun _ _ hr => hr.ready h hidle hwide hm

/-! ## Commitment -/

/-- What comes after the commit index has moved. -/
theorem commit_tail (h : n.Rep calm) (hidle : n.publishingSnapshot = none) (hwide : n.Widens)
    {c : Prop} [Decidable c] {e : Effect} :
    n.Safe calm (do refreshEffectiveMembership; applyCommitted; when c (emit e)) :=
  Safe.bind (refreshEffectiveMembership_safe h hidle hwide) fun _ _ h₁ _ =>
    Safe.bind (applyCommitted_safe h₁) fun _ _ h₂ _ => Safe.when h₂ fun _ => Safe.emit h₂

theorem advanceCommit_ends (h : n.Rep calm) (hidle : n.publishingSnapshot = none)
    (hwide : n.Widens) {index : Nat} (hlt : n.commitIndex < index) (hle : index ≤ n.lastLogIndex) :
    n.Safe calm (advanceCommit index) := by
  have hfloor := h.ordered.floor.trans h.ordered.applied
  obtain ⟨next, hnext, -⟩ := h.membershipAt_ok (show n.snapshotIndex ≤ index by omega)
  refine ends_peek_bind.2 ?_
  rw [if_neg (by omega)]
  refine ends_expect_bind.2 ⟨next, by rw [hnext]; rfl, ?_⟩
  refine ends_bind.2 (ends_when.2 ⟨fun _ => ends_update_bind.2 (ends_emit.2 ?_), fun hsame => ?_⟩)
  · have hrep : Rep calm
        { n with hard := { n.hard with membership := some next }, commitIndex := index } :=
      h.commitTo hnext hlt.le hle rfl rfl
    exact ends_update_bind.2 ((commit_tail hrep hidle hwide).after (.of_role rfl rfl))
  · have hrep : Rep calm { n with hard := n.hard, commitIndex := index } :=
      h.commitTo hnext hlt.le hle rfl (not_not.1 hsame).symm
    exact ends_update_bind.2 ((commit_tail hrep hidle hwide).after (.of_role rfl rfl))

theorem advanceCommit_safe (h : n.Ready calm) {index : Nat} (hle : index ≤ n.lastLogIndex) :
    n.Safe calm (advanceCommit index) := by
  by_cases hlt : n.commitIndex < index
  · exact advanceCommit_ends h.toRep h.idle h.fresh.widens hlt hle
  · refine ends_peek_bind.2 ?_
    rw [if_pos (by omega)]
    exact Safe.pure h

theorem Rep.mem_le_last (h : n.Rep calm) {e : Entry} (he : e ∈ n.log) :
    e.index ≤ n.lastLogIndex := by
  rw [h.ordered.contiguous.lastLogIndex]
  exact (h.ordered.contiguous.mem_bounds he).2

/-- Only entries of the log are candidates for commitment. -/
theorem Rep.candidate_le (h : n.Rep calm) {index : Nat}
    (hcand : n.quorumCommitCandidate = some index) : index ≤ n.lastLogIndex := by
  unfold quorumCommitCandidate at hcand
  split at hcand
  · obtain ⟨e, he, rfl⟩ := Option.map_eq_some_iff.1 hcand
    exact h.mem_le_last (List.mem_reverse.1 (List.mem_of_find?_eq_some he))
  · cases hcand

theorem commitQuorum_safe (h : n.Ready calm) : n.Safe calm commitQuorum := by
  refine ends_peek_bind.2 ?_
  split
  · next index hcand => exact advanceCommit_safe h (h.toRep.candidate_le hcand)
  · exact Safe.pure h

end RaftNode

end MicroRaft
