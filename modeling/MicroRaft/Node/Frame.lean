import MicroRaft.Node.Move

/-!
# Runs of moves and the handlers every other handler uses

Which fields matter to a move (`Core`), how a run of moves is put together, and
what stepping down, redrawing a deadline and dropping a transfer amount to.
-/

namespace MicroRaft

open EffectM

/-- A run of moves in reaction to `c`. -/
abbrev Steps (c : Cause) : RaftNode → List Effect → RaftNode → Prop := Run (Step c)

/-! ## The fields that matter -/

/-- The fields of a node that moves are about; everything else is bookkeeping. -/
structure Core where
  id : NodeId
  hard : HardState
  log : List Entry
  commitIndex : Nat
  lastApplied : Nat
  role : Role
  readContext : Nat
  snapshot : Option SnapshotDescriptor
  outgoingSnapshots : BTreeMap NodeId OutgoingSnapshot
  incomingSnapshot : Option IncomingSnapshot
  publishingSnapshot : Option PublishingSnapshot
  pendingReads : BTreeMap Nat PendingRead
  genesisMembership : CommittedMembership
  effectiveMembership : MembershipState

def RaftNode.core (n : RaftNode) : Core where
  id := n.id
  hard := n.hard
  log := n.log
  commitIndex := n.commitIndex
  lastApplied := n.lastApplied
  role := n.role
  readContext := n.readContext
  snapshot := n.snapshot
  outgoingSnapshots := n.outgoingSnapshots
  incomingSnapshot := n.incomingSnapshot
  publishingSnapshot := n.publishingSnapshot
  pendingReads := n.pendingReads
  genesisMembership := n.genesisMembership
  effectiveMembership := n.effectiveMembership

namespace RaftNode

variable {n n' n'' : RaftNode}

/-- Dropping the role, the outgoing transfers, the incoming one or the reads claims less. -/
theorem Weakens.of_core {role : Role} {outgoing : BTreeMap NodeId OutgoingSnapshot}
    {incoming : Option IncomingSnapshot} {reads : BTreeMap Nat PendingRead}
    (h : n'.core = { n.core with
      role, outgoingSnapshots := outgoing, incomingSnapshot := incoming, pendingReads := reads })
    (hrole : role = n.role ∨ role = .follower ∨
      ((incoming = none ∨ n.role.Probing) ∧ role.Probing))
    (houtgoing : outgoing = n.outgoingSnapshots ∨ outgoing = ∅)
    (hincoming : incoming = n.incomingSnapshot ∨ incoming = none)
    (hreads : reads = n.pendingReads ∨ reads = ∅) : n.Weakens n' := by
  simp only [core, Core.mk.injEq] at h
  obtain ⟨h₁, h₂, h₃, h₄, h₅, rfl, h₇, h₈, rfl, rfl, h₁₁, rfl, h₁₃, h₁₄⟩ := h
  refine ⟨h₁, h₂, h₃, h₄, h₅, h₈, h₁₁, h₁₃, h₁₄, h₇, hrole, ?_, ?_, ?_⟩
  · intro p o' ho
    rcases houtgoing with heq | heq
    · exact Or.inr ⟨o', heq ▸ ho, rfl⟩
    · rw [heq] at ho
      simp at ho
  · intro i' hi
    rcases hincoming with heq | heq
    · exact ⟨i', heq ▸ hi, rfl, rfl⟩
    · rw [heq] at hi
      cases hi
  · intro r x hx
    rcases hreads with heq | heq
    · exact heq ▸ hx
    · rw [heq] at hx
      simp at hx

/-- A change of bookkeeping only. -/
theorem Weakens.of_eq (h : n'.core = n.core) : n.Weakens n' :=
  Weakens.of_core h (Or.inl rfl) (Or.inl rfl) (Or.inl rfl) (Or.inl rfl)

theorem Weakens.refl (n : RaftNode) : n.Weakens n := Weakens.of_eq rfl

/-- Dropping one read. -/
theorem Weakens.of_eraseRead {requestId : Nat}
    (h : n'.core = { n.core with pendingReads := n.pendingReads.erase requestId }) :
    n.Weakens n' := by
  simp only [core, Core.mk.injEq] at h
  obtain ⟨h₁, h₂, h₃, h₄, h₅, h₆, h₇, h₈, h₉, h₁₀, h₁₁, h₁₂, h₁₃, h₁₄⟩ := h
  refine ⟨h₁, h₂, h₃, h₄, h₅, h₈, h₁₁, h₁₃, h₁₄, h₇, Or.inl h₆,
    fun {p o'} ho => Or.inr ⟨o', h₉ ▸ ho, rfl⟩, fun hi => ⟨_, h₁₀ ▸ hi, rfl, rfl⟩,
    fun {r x} hx => ?_⟩
  rw [h₁₂, Std.ExtTreeMap.getElem?_erase] at hx
  split at hx
  · cases hx
  · exact hx

/-- A change of the outgoing transfers that invents no image. -/
theorem Weakens.of_outgoing {outgoing : BTreeMap NodeId OutgoingSnapshot}
    (h : n'.core = { n.core with outgoingSnapshots := outgoing })
    (houtgoing : ∀ {p : NodeId} {o' : OutgoingSnapshot}, outgoing[p]? = some o' →
      n.snapshot = some o'.descriptor ∨
        ∃ o, n.outgoingSnapshots[p]? = some o ∧ o.descriptor = o'.descriptor) :
    n.Weakens n' := by
  simp only [core, Core.mk.injEq] at h
  obtain ⟨h₁, h₂, h₃, h₄, h₅, h₆, h₇, h₈, rfl, h₁₀, h₁₁, h₁₂, h₁₃, h₁₄⟩ := h
  exact ⟨h₁, h₂, h₃, h₄, h₅, h₈, h₁₁, h₁₃, h₁₄, h₇, Or.inl h₆, houtgoing,
    fun hi => ⟨_, h₁₀ ▸ hi, rfl, rfl⟩, fun hx => h₁₂ ▸ hx⟩

/-- Opening or advancing the transfer to one peer. -/
theorem Weakens.of_setOutgoing {dest : NodeId} {active : OutgoingSnapshot}
    (h : n'.core = { n.core with
      outgoingSnapshots := n.outgoingSnapshots.insert dest active })
    (hactive : n.snapshot = some active.descriptor ∨
      ∃ o, n.outgoingSnapshots[dest]? = some o ∧ o.descriptor = active.descriptor) :
    n.Weakens n' := by
  refine Weakens.of_outgoing h fun {p o'} ho => ?_
  rw [Std.ExtTreeMap.getElem?_insert] at ho
  split at ho
  · next heq =>
      cases ho
      rwa [← compare_eq_iff_eq.1 heq]
  · exact Or.inr ⟨o', ho, rfl⟩

/-- Closing the transfer to one peer. -/
theorem Weakens.of_eraseOutgoing {dest : NodeId}
    (h : n'.core = { n.core with outgoingSnapshots := n.outgoingSnapshots.erase dest }) :
    n.Weakens n' := by
  refine Weakens.of_outgoing h fun {p o'} ho => ?_
  rw [Std.ExtTreeMap.getElem?_erase] at ho
  split at ho
  · cases ho
  · exact Or.inr ⟨o', ho, rfl⟩

end RaftNode

/-- The effect reports something, or hands a committed entry to the state machine. -/
def RaftNode.Reports (n : RaftNode) (e : Effect) : Prop :=
  e.isNote = true ∨
    ∃ index entry, e = .apply entry ∧ index ≤ n.commitIndex ∧ n.entryAt index = some entry

/-! ## Putting runs together -/

namespace Steps

variable {c : Cause} {n n' n'' : RaftNode} {es es' : List Effect}

theorem move (h : Move c n es n') (hidle : n.publishingSnapshot = none) : Steps c n es n' :=
  Run.single (Step.move hidle h)

theorem weaken (h : n.Weakens n') (hidle : n.publishingSnapshot = none) : Steps c n [] n' :=
  move (Move.weaken h) hidle

theorem notes (h : ∀ e ∈ es, e.isNote = true) (hidle : n.publishingSnapshot = none) :
    Steps c n es n := by
  induction es with
  | nil => exact Run.nil n
  | cons e es ih =>
    exact Run.cons (Step.move hidle (Move.note (h e (List.mem_cons_self ..))))
      (ih fun e' he' => h e' (List.mem_cons_of_mem _ he'))

theorem note {e : Effect} (h : e.isNote = true) (hidle : n.publishingSnapshot = none) :
    Steps c n [e] n :=
  move (Move.note h) hidle

/-- Effects that report something or hand committed entries to the state machine. -/
theorem reports (h : ∀ e ∈ es, n.Reports e) (hidle : n.publishingSnapshot = none) :
    Steps c n es n := by
  induction es with
  | nil => exact Run.nil n
  | cons e es ih =>
    have hrest := ih fun e' he' => h e' (List.mem_cons_of_mem _ he')
    refine Run.trans (e := [e]) ?_ hrest
    rcases h e (List.mem_cons_self ..) with hnote | ⟨index, entry, rfl, hle, hentry⟩
    · exact move (Move.note hnote) hidle
    · exact move (Move.apply hle hentry) hidle

/-- A silent run followed by a run. -/
theorem silent_trans (h : Steps c n [] n') (h' : Steps c n' es n'') : Steps c n es n'' :=
  Run.trans h h'

/-- A run followed by a silent run. -/
theorem trans_silent (h : Steps c n es n') (h' : Steps c n' [] n'') : Steps c n es n'' := by
  simpa using Run.trans h h'

end Steps

/-! ## Stepping down -/

/-- The node after `become_follower`. -/
def RaftNode.steppedDown (n : RaftNode) : RaftNode :=
  { n with outgoingSnapshots := ∅, promotionFence := none, advertisementLast := ∅,
           contactRound := 0, quorumContacts := ∅, role := .follower, pendingReads := ∅ }

/-- What `become_follower` reports. -/
def RaftNode.stepDownNotes (n : RaftNode) : List Effect :=
  (if n.role = .follower then [] else [.roleChanged "Follower" n.hard.currentTerm]) ++
    n.pendingReads.keys.map fun r => .readRejected r n.leaderHint .leadershipLost

theorem rejectPendingReads_apply (reason : ReadRejectReason) (n : RaftNode) :
    rejectPendingReads reason n = some ((), { n with pendingReads := ∅ },
      n.pendingReads.keys.map fun r => .readRejected r n.leaderHint reason) := by
  unfold rejectPendingReads
  rw [peek_bind, update_bind]
  rfl

theorem becomeFollower_apply (n : RaftNode) :
    becomeFollower n = some ((), n.steppedDown, n.stepDownNotes) := by
  unfold becomeFollower
  rw [update_bind, peek_bind, bind_apply]
  unfold RaftNode.steppedDown RaftNode.stepDownNotes when
  by_cases h : n.role = .follower
  · simp [pure_apply, rejectPendingReads_apply, h]
  · simp [update_bind, rejectPendingReads_apply, h, emit, emits]

theorem becomeFollower_bind_inv {β : Type} {f : Unit → Handler β} {n n' : RaftNode} {b : β}
    {es : List Effect} (h : (becomeFollower >>= f) n = some (b, n', es)) :
    ∃ e₂, f () n.steppedDown = some (b, n', e₂) ∧ es = n.stepDownNotes ++ e₂ := by
  obtain ⟨u, n₁, e₁, e₂, h₁, h₂, rfl⟩ := bind_eq_some h
  rw [becomeFollower_apply] at h₁
  cases h₁
  exact ⟨e₂, h₂, rfl⟩

theorem resetElectionDeadline_bind_inv {β : Type} {f : Unit → Handler β} {n : RaftNode}
    {r : β × RaftNode × List Effect} (h : (resetElectionDeadline >>= f) n = some r) :
    ∃ n₁, n₁.core = n.core ∧ f () n₁ = some r := by
  obtain ⟨n₁, rfl, h⟩ := update_bind_inv h
  refine ⟨_, ?_, h⟩
  rfl

theorem RaftNode.stepDownNotes_isNote (n : RaftNode) : ∀ e ∈ n.stepDownNotes, e.isNote = true := by
  intro e he
  unfold stepDownNotes at he
  rw [List.mem_append] at he
  rcases he with he | he
  · split at he
    · cases he
    · rw [List.mem_singleton.1 he]
      rfl
  · obtain ⟨r, -, rfl⟩ := List.mem_map.1 he
    rfl

theorem RaftNode.steppedDown_weakens (n : RaftNode) : n.Weakens n.steppedDown :=
  Weakens.of_core rfl (Or.inr (Or.inl rfl)) (Or.inr rfl) (Or.inl rfl) (Or.inr rfl)

theorem steppedDown_steps {c : Cause} {n : RaftNode} (hidle : n.publishingSnapshot = none) :
    Steps c n n.stepDownNotes n.steppedDown :=
  Steps.silent_trans (Steps.weaken n.steppedDown_weakens hidle)
    (Steps.notes (n := n.steppedDown) n.stepDownNotes_isNote hidle)

/-! ## What most handlers leave alone -/

/-- Durable state, log, positions and transfers of `n` are those of `n'`, and a follower has
stayed one. -/
structure RaftNode.Keeps (n n' : RaftNode) : Prop where
  id : n'.id = n.id
  hard : n'.hard = n.hard
  log : n'.log = n.log
  commitIndex : n'.commitIndex = n.commitIndex
  lastApplied : n'.lastApplied = n.lastApplied
  snapshot : n'.snapshot = n.snapshot
  publishing : n'.publishingSnapshot = n.publishingSnapshot
  incoming : n'.incomingSnapshot = n.incomingSnapshot
  genesis : n'.genesisMembership = n.genesisMembership
  follower : n.role = .follower → n'.role = .follower

theorem RaftNode.Keeps.refl (n : RaftNode) : n.Keeps n :=
  ⟨rfl, rfl, rfl, rfl, rfl, rfl, rfl, rfl, rfl, fun h => h⟩

theorem RaftNode.Keeps.trans {n n' n'' : RaftNode} (h : n.Keeps n') (h' : n'.Keeps n'') :
    n.Keeps n'' :=
  ⟨h'.id.trans h.id, h'.hard.trans h.hard, h'.log.trans h.log,
    h'.commitIndex.trans h.commitIndex, h'.lastApplied.trans h.lastApplied,
    h'.snapshot.trans h.snapshot, h'.publishing.trans h.publishing,
    h'.incoming.trans h.incoming, h'.genesis.trans h.genesis,
    fun hf => h'.follower (h.follower hf)⟩

theorem RaftNode.steppedDown_keeps (n : RaftNode) : n.Keeps n.steppedDown :=
  ⟨rfl, rfl, rfl, rfl, rfl, rfl, rfl, rfl, rfl, fun _ => rfl⟩

/-- Identity, term, vote, log and transfers of `n` are those of `n'`, and a follower has
stayed one; commitment may have moved. -/
structure RaftNode.Stays (n n' : RaftNode) : Prop where
  id : n'.id = n.id
  term : n'.hard.currentTerm = n.hard.currentTerm
  vote : n'.hard.votedFor = n.hard.votedFor
  log : n'.log = n.log
  snapshot : n'.snapshot = n.snapshot
  publishing : n'.publishingSnapshot = n.publishingSnapshot
  incoming : n'.incomingSnapshot = n.incomingSnapshot
  genesis : n'.genesisMembership = n.genesisMembership
  follower : n.role = .follower → n'.role = .follower

theorem RaftNode.Keeps.stays {n n' : RaftNode} (h : n.Keeps n') : n.Stays n' :=
  ⟨h.id, by rw [h.hard], by rw [h.hard], h.log, h.snapshot, h.publishing, h.incoming, h.genesis,
    h.follower⟩

theorem RaftNode.Stays.trans {n n' n'' : RaftNode} (h : n.Stays n') (h' : n'.Stays n'') :
    n.Stays n'' :=
  ⟨h'.id.trans h.id, h'.term.trans h.term, h'.vote.trans h.vote, h'.log.trans h.log,
    h'.snapshot.trans h.snapshot, h'.publishing.trans h.publishing,
    h'.incoming.trans h.incoming, h'.genesis.trans h.genesis,
    fun hf => h'.follower (h.follower hf)⟩

theorem RaftNode.Stays.refl (n : RaftNode) : n.Stays n := (RaftNode.Keeps.refl n).stays

end MicroRaft
