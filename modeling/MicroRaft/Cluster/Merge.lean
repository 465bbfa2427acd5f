import MicroRaft.Cluster.System
import MicroRaft.Node.Batch

/-!
# An append request, accepted and repeated

What `on_append_entries` does with a request it accepts: the log it installs, the
log it checked beforehand, what its effects leave on disk, and what the same
request or an older one does when it arrives again.
-/

namespace MicroRaft

open EffectM

/-! ## Nodes at rest -/

namespace RaftNode

/-- The effective membership is the one the log above the commit index makes effective. -/
def Settled (n : RaftNode) : Prop :=
  effectiveAfter n.committedMembership n.log n.commitIndex = .ok n.effectiveMembership

/-- A follower with nothing of an earlier role left: stepping down again changes nothing. -/
def Resting (n : RaftNode) : Prop := n.steppedDown = n

theorem Resting.follower {n : RaftNode} (h : n.Resting) : n.role = .follower := by
  have hrole : n.steppedDown.role = .follower := rfl
  rwa [h] at hrole

theorem Resting.notes {n : RaftNode} (h : n.Resting) : n.stepDownNotes = [] := by
  have hreads : n.pendingReads = ∅ := by
    have hreads : n.steppedDown.pendingReads = ∅ := rfl
    rwa [h] at hreads
  rw [stepDownNotes, if_pos h.follower, hreads]
  rfl

/-- What a node at rest keeps while it follows commits: all but timers, peers and positions. -/
structure Follows (n n' : RaftNode) : Prop where
  resting : n'.Resting
  log : n'.log = n.log
  snapshot : n'.snapshot = n.snapshot
  genesis : n'.genesisMembership = n.genesisMembership
  term : n'.hard.currentTerm = n.hard.currentTerm
  hint : n'.leaderHint = n.leaderHint
  contact : n'.lastLeaderContactMs = n.lastLeaderContactMs
  now : n'.nowMs = n.nowMs

theorem Follows.trans {n n' n'' : RaftNode} (h : n.Follows n') (h' : n'.Follows n'') :
    n.Follows n'' :=
  ⟨h'.resting, h'.log.trans h.log, h'.snapshot.trans h.snapshot, h'.genesis.trans h.genesis,
    h'.term.trans h.term, h'.hint.trans h.hint, h'.contact.trans h.contact, h'.now.trans h.now⟩

end RaftNode

/-! ## Effects on the log -/

/-- The effect writes the durable log. -/
def Effect.writesLog : Effect → Bool
  | .persistLogEntries .. | .publishSnapshot .. => true
  | _ => false

/-- The effect tells a leader that its request was accepted. -/
def Effect.acceptsEntries : Effect → Bool
  | .send _ (.appendEntriesReply _ success ..) => success
  | _ => false

/-- Effects that neither touch the log nor send anything. -/
def Effect.Mute (e : Effect) : Prop := e.writesLog = false ∧ e.isSend = false

theorem Effect.Mute.not_accepts {e : Effect} (h : e.Mute) : e.acceptsEntries = false := by
  cases e with
  | send => cases h.2
  | _ => rfl

theorem Effect.Still.mute {e : Effect} (h : e.Still) : e.Mute := by
  obtain ⟨hlight, hinner⟩ := h
  cases e with
  | persistLogEntries | publishSnapshot => cases hlight
  | send => cases hinner
  | _ => exact ⟨rfl, rfl⟩

theorem Emits.mute {α : Type} {m : Handler α} (h : Emits (Only Effect.Still) m) :
    Emits (Only Effect.Mute) m :=
  h.mono fun _ hes e he => (hes e he).mute

theorem stepDownNotes_mute (n : RaftNode) : ∀ e ∈ n.stepDownNotes, e.Mute := fun e he =>
  (becomeFollower_still (becomeFollower_apply n) e he).mute

theorem advanceCommit_mute (index : Nat) : Emits (Only Effect.Mute) (advanceCommit index) := by
  refine Emits.peek fun n => Emits.ite (Emits.pure Only.nil) (Emits.expect fun next => ?_)
  refine Emits.seq (Emits.when (Emits.update (Emits.emit (Only.single ⟨rfl, rfl⟩))) Only.nil)
    fun _ => Emits.update (Emits.seq (Emits.mute refreshEffectiveMembership_still) fun _ => ?_)
  exact Emits.seq (applyCommitted_only fun _ => ⟨rfl, rfl⟩)
    fun _ => Emits.when (Emits.emit (Only.single ⟨rfl, rfl⟩)) Only.nil

theorem followCommit_mute (newCommit : Nat) : Emits (Only Effect.Mute) (followCommit newCommit) :=
  Emits.peek fun _ => Emits.ite (advanceCommit_mute _)
    (Emits.mute refreshEffectiveMembership_still)

/-- The log on disk after a batch. -/
def writtenLog (log : List Entry) (es : List Effect) : List Entry :=
  (es.foldl Disk.execute { log }).log

/-- What is written to the log does not depend on the rest of the disk. -/
theorem foldl_execute_log (es : List Effect) {d d' : Disk} (h : d.log = d'.log) :
    (es.foldl Disk.execute d).log = (es.foldl Disk.execute d').log := by
  induction es generalizing d d' with
  | nil => exact h
  | cons e es ih =>
    refine ih ?_
    cases e with
    | persistLogEntries => simp [Disk.execute, h]
    | _ => first | exact h | rfl

theorem writtenLog_append (log : List Entry) (es es' : List Effect) :
    writtenLog log (es ++ es') = writtenLog (writtenLog log es) es' := by
  unfold writtenLog
  rw [List.foldl_append]
  exact foldl_execute_log es' rfl

theorem writtenLog_keep {log : List Entry} {es : List Effect}
    (h : ∀ e ∈ es, e.writesLog = false) : writtenLog log es = log := by
  have hkeep : ∀ d : Disk, (es.foldl Disk.execute d).log = d.log := by
    induction es with
    | nil => exact fun _ => rfl
    | cons e es ih =>
      intro d
      have he : (d.execute e).log = d.log := by
        have hkeep := h e (List.mem_cons_self ..)
        cases e <;> first | rfl | cases hkeep
      rw [List.foldl_cons, ih fun e' he' => h e' (List.mem_cons_of_mem _ he'), he]
  exact hkeep _

/-! ## Following a commit at rest -/

section Following

variable {n n' : RaftNode} {es : List Effect} {u : Unit}

theorem onVotersChanged_follows (hrest : n.Resting)
    (h : onVotersChanged n = some (u, n', es)) :
    n.Follows n' ∧ n.Keeps n' ∧ n'.effectiveMembership = n.effectiveMembership := by
  have hlead : n.isLeader = false := by
    rw [RaftNode.isLeader, hrest.follower]
  have hreads : { n with pendingReads := ∅ } = n := by
    have hsame : { n.steppedDown with pendingReads := ∅ } = n.steppedDown := rfl
    rwa [hrest] at hsame
  unfold onVotersChanged at h
  obtain ⟨u₁, n₁, e₁, e₂, h₁, h₂, rfl⟩ := bind_eq_some h
  rw [rejectPendingReads_apply, hreads] at h₁
  cases h₁
  obtain ⟨u₂, n₂, e₃, e₄, h₃, h₄, rfl⟩ := bind_eq_some h₂
  unfold restartWindow at h₃
  rw [peek_bind, if_pos (by simp [hlead]), becomeFollower_apply, hrest] at h₃
  cases h₃
  cases h₄
  refine ⟨⟨?_, rfl, rfl, rfl, rfl, rfl, rfl, rfl⟩,
    ⟨rfl, rfl, rfl, rfl, rfl, rfl, rfl, rfl, rfl, id⟩, rfl⟩
  unfold RaftNode.Resting at hrest ⊢
  rw [← hrest]
  rfl

/-- Refreshing at rest settles the node and leaves the rest of it alone. -/
theorem refreshEffectiveMembership_follows (hrest : n.Resting)
    (h : refreshEffectiveMembership n = some (u, n', es)) :
    n.Follows n' ∧ n'.commitIndex = n.commitIndex ∧ n'.Settled := by
  have hlead : ¬ n.isLeader = true := by
    rw [RaftNode.isLeader, hrest.follower]
    simp
  unfold refreshEffectiveMembership at h
  rw [peek_bind] at h
  obtain ⟨next, hnext, h⟩ := expect_bind_inv h
  have hnext := toOption_eq_some hnext
  obtain ⟨u₁, n₁, e₁, e₂, h₁, h₂, rfl⟩ := bind_eq_some h
  rcases when_inv h₁ with ⟨⟨hcon, -⟩, -⟩ | ⟨-, rfl, rfl⟩
  · exact absurd hcon hlead
  rcases when_inv h₂ with ⟨-, h₂⟩ | ⟨hsame, rfl, rfl⟩
  · obtain ⟨n₂, hn₂, h₂⟩ := update_bind_inv h₂
    have hrest₂ : n₂.Resting := by
      rw [hn₂]
      unfold RaftNode.Resting RaftNode.updateReplicationPeers at *
      rw [← hrest]
      rfl
    have hfollows : n₁.Follows n₂ := by
      refine ⟨hrest₂, ?_, ?_, ?_, ?_, ?_, ?_, ?_⟩ <;> rw [hn₂] <;> rfl
    have hcommit : n₂.commitIndex = n₁.commitIndex := by rw [hn₂]; rfl
    have hsettled : n₂.Settled := by
      rw [hn₂]
      exact hnext
    rcases when_inv h₂ with ⟨-, h₂⟩ | ⟨-, rfl, rfl⟩
    · obtain ⟨hf, hk, heff⟩ := onVotersChanged_follows hrest₂ h₂
      refine ⟨hfollows.trans hf, hk.commitIndex.trans hcommit, ?_⟩
      unfold RaftNode.Settled RaftNode.committedMembership at hsettled ⊢
      rw [hk.hard, hk.log, hk.commitIndex, hk.genesis, heff]
      exact hsettled
    · exact ⟨hfollows, hcommit, hsettled⟩
  · rw [not_not] at hsame
    exact ⟨⟨hrest, rfl, rfl, rfl, rfl, rfl, rfl, rfl⟩, rfl, hnext.trans (congrArg _ hsame)⟩

theorem applyLoop_frame : ∀ {rounds : Nat} {n n' : RaftNode} {es : List Effect},
    applyLoop rounds n = some (u, n', es) → n' = { n with lastApplied := n'.lastApplied } := by
  intro rounds
  induction rounds with
  | zero =>
    intro n n' es h
    cases h
    rfl
  | succ rounds ih =>
    intro n n' es h
    unfold applyLoop at h
    rw [peek_bind] at h
    split at h
    · obtain ⟨n₁, rfl, h⟩ := update_bind_inv h
      obtain ⟨entry, -, h⟩ := expect_bind_inv h
      obtain ⟨e₂, hloop, -⟩ := emit_bind_inv h
      have hframe := ih hloop
      exact hframe
    · cases h
      rfl

/-- A node at rest that follows a commit is settled at or above it. -/
theorem followCommit_follows {newCommit : Nat} (hrest : n.Resting)
    (h : followCommit newCommit n = some (u, n', es)) :
    n.Follows n' ∧ newCommit ≤ n'.commitIndex ∧ n'.Settled := by
  unfold followCommit at h
  rw [peek_bind] at h
  split at h
  · next hgt =>
      unfold advanceCommit at h
      rw [peek_bind, if_neg (by omega)] at h
      obtain ⟨membership, -, h⟩ := expect_bind_inv h
      obtain ⟨u₁, n₁, e₁, e₂, h₁, h₂, rfl⟩ := bind_eq_some h
      -- the durable membership is not part of what a node at rest has to keep
      have hpersist : n.Follows n₁ := by
        rcases when_inv h₁ with ⟨-, h₁⟩ | ⟨-, rfl, -⟩
        · rw [update_bind] at h₁
          cases h₁
          refine ⟨?_, rfl, rfl, rfl, rfl, rfl, rfl, rfl⟩
          unfold RaftNode.Resting at hrest ⊢
          rw [← hrest]
          rfl
        · exact ⟨hrest, rfl, rfl, rfl, rfl, rfl, rfl, rfl⟩
      obtain ⟨n₂, hn₂, h₂⟩ := update_bind_inv h₂
      have hrest₂ : n₂.Resting := by
        have hrest₁ := hpersist.resting
        unfold RaftNode.Resting at hrest₁ ⊢
        rw [hn₂, ← hrest₁]
        rfl
      have hcommit : n₁.Follows n₂ := by
        refine ⟨hrest₂, ?_, ?_, ?_, ?_, ?_, ?_, ?_⟩ <;> rw [hn₂]
      obtain ⟨u₃, n₃, e₃, e₄, h₃, h₄, rfl⟩ := bind_eq_some h₂
      obtain ⟨hf₃, hindex, hsettled⟩ := refreshEffectiveMembership_follows hrest₂ h₃
      obtain ⟨u₅, n₅, e₅, e₆, h₅, h₆, rfl⟩ := bind_eq_some h₄
      unfold applyCommitted at h₅
      rw [peek_bind] at h₅
      have hframe := applyLoop_frame h₅
      have hlast : n' = n₅ := by
        rcases when_inv h₆ with ⟨-, h₆⟩ | ⟨-, rfl, -⟩
        · cases h₆
          rfl
        · rfl
      subst hlast
      have happlied : n₃.Follows n' := by
        have hrest₃ := hf₃.resting
        rw [hframe]
        refine ⟨?_, rfl, rfl, rfl, rfl, rfl, rfl, rfl⟩
        unfold RaftNode.Resting at hrest₃ ⊢
        rw [← hrest₃]
        rfl
      refine ⟨hpersist.trans (hcommit.trans (hf₃.trans happlied)), ?_, ?_⟩
      · rw [hframe]
        show newCommit ≤ n₃.commitIndex
        rw [hindex, hn₂]
      · rw [hframe]
        exact hsettled
  · next hle =>
      obtain ⟨hf, hindex, hsettled⟩ := refreshEffectiveMembership_follows hrest h
      exact ⟨hf, by omega, hsettled⟩

/-- A settled node at rest has nothing to do for a commit it already made. -/
theorem followCommit_settled {newCommit : Nat} (hrest : n.Resting) (hsettled : n.Settled)
    (hle : newCommit ≤ n.commitIndex) : followCommit newCommit n = some ((), n, []) := by
  have hlead : ¬ n.isLeader = true := by
    rw [RaftNode.isLeader, hrest.follower]
    simp
  have hexpect : (effectiveAfter n.committedMembership n.log n.commitIndex).toOption =
      some n.effectiveMembership := by
    rw [hsettled]
    rfl
  unfold followCommit refreshEffectiveMembership
  rw [peek_bind, if_neg (by omega), peek_bind, hexpect]
  simp [when, expect, bind_apply, pure_apply, hlead]

end Following

/-! ## The request -/

namespace RaftNode

/-- The node once it has heard from a leader of its term. -/
def heardFrom (n : RaftNode) (leaderId : NodeId) : RaftNode :=
  let draw := n.rng.rangeInclusive electionMinMs electionMaxMs
  { n.steppedDown with
    rng := draw.2, electionDeadlineMs := saturatingAdd n.nowMs draw.1,
    leaderHint := some leaderId, lastLeaderContactMs := some n.nowMs }

/-- The checks an append request has to pass. -/
structure Admits (n : RaftNode) (term prev prevTerm : Nat) (entries : List Entry) : Prop where
  current : ¬ term < n.hard.currentTerm
  retained : n.snapshotIndex ≤ prev
  anchored : n.logTerm prev = some prevTerm
  committed : n.conflictsCommitted entries = false
  above : ∀ e ∈ entries, n.snapshotIndex < e.index
  configured : n.validConfigurationSuffix (candidateLog n.snapshotIndex n.log entries) = true

end RaftNode

section Request

variable {n n' : RaftNode} {es : List Effect} {u : Unit} {leaderId : NodeId} {entries : List Entry}
variable {term prev prevTerm payloadLast leaderCommit round : Nat}

/-- The replies of a node that does not merge the request. -/
inductive RaftNode.Refusal (n : RaftNode) (leaderId : NodeId)
    (term prev prevTerm round : Nat) : Effect → Prop
  | anchor {conflict : Option AppendConflictHint} (hret : n.snapshotIndex ≤ prev)
      (hlack : n.logTerm prev ≠ some prevTerm) (hhint : n.appendConflictHint prev = some conflict) :
      n.Refusal leaderId term prev prevTerm round (.send leaderId
        (.appendEntriesReply n.hard.currentTerm false n.lastLogIndex round conflict))
  | plain {round' : Nat} (hother : term < n.hard.currentTerm ∨ n.logTerm prev = some prevTerm) :
      n.Refusal leaderId term prev prevTerm round (.send leaderId
        (.appendEntriesReply n.hard.currentTerm false n.lastLogIndex round' none))
  | compacted : n.Refusal leaderId term prev prevTerm round (.send leaderId
      (.compactedPrefix n.hard.currentTerm n.snapshotIndex n.snapshotTerm round))

theorem RaftNode.Refusal.facts {e : Effect} (h : n.Refusal leaderId term prev prevTerm round e) :
    e.writesLog = false ∧ e.acceptsEntries = false := by
  cases h <;> exact ⟨rfl, rfl⟩

theorem appendReject_apply {conflict : Option AppendConflictHint}
    (h : appendReject leaderId round conflict n = some (u, n', es)) :
    n' = n ∧ es = [.send leaderId
      (.appendEntriesReply n.hard.currentTerm false n.lastLogIndex round conflict)] := by
  unfold appendReject at h
  rw [peek_bind] at h
  cases h
  exact ⟨rfl, rfl⟩

/-- A request is admitted and merged, or it leaves what the node stores alone. -/
theorem onAppendEntries_inv
    (h : onAppendEntries term leaderId prev prevTerm entries payloadLast leaderCommit round n =
      some (u, n', es)) :
    (n.Admits term prev prevTerm entries ∧ ∃ e₂,
      acceptEntries leaderId entries payloadLast leaderCommit round (n.heardFrom leaderId) =
        some (u, n', e₂) ∧ es = n.stepDownNotes ++ e₂) ∨
    (n'.log = n.log ∧ n'.snapshot = n.snapshot ∧ n'.hard = n.hard ∧
      ∃ notes reply, es = notes ++ [reply] ∧ (∀ e ∈ notes, e.Mute) ∧
        n.Refusal leaderId term prev prevTerm round reply) := by
  unfold onAppendEntries at h
  rw [peek_bind] at h
  split at h
  · obtain ⟨rfl, rfl⟩ := appendReject_apply h
    exact Or.inr ⟨rfl, rfl, rfl, [], _, rfl, by simp, .plain (Or.inl ‹_›)⟩
  next hcurrent =>
  obtain ⟨e₂, h₁, rfl⟩ := becomeFollower_bind_inv h
  obtain ⟨n₁, hn₁, h₁⟩ := update_bind_inv h₁
  obtain ⟨n₂, hn₂, h⟩ := update_bind_inv h₁
  have hheard : n₂ = n.heardFrom leaderId := by
    rw [hn₂, hn₁]
    rfl
  clear hn₂ hn₁
  subst hheard
  -- every way out before the merge leaves the node as it was when it heard the leader
  have hreject : ∀ {round' : Nat} {conflict : Option AppendConflictHint},
      n.Refusal leaderId term prev prevTerm round (.send leaderId
        (.appendEntriesReply n.hard.currentTerm false n.lastLogIndex round' conflict)) →
      appendReject leaderId round' conflict (n.heardFrom leaderId) = some (u, n', e₂) →
      n'.log = n.log ∧ n'.snapshot = n.snapshot ∧ n'.hard = n.hard ∧
        ∃ notes reply, n.stepDownNotes ++ e₂ = notes ++ [reply] ∧ (∀ e ∈ notes, e.Mute) ∧
          n.Refusal leaderId term prev prevTerm round reply := by
    intro round' conflict hrefusal hr
    obtain ⟨rfl, rfl⟩ := appendReject_apply hr
    exact ⟨rfl, rfl, rfl, _, _, rfl, stepDownNotes_mute n, hrefusal⟩
  rw [peek_bind] at h
  split at h
  · cases h
    exact Or.inr ⟨rfl, rfl, rfl, _, _, rfl, stepDownNotes_mute n, .compacted⟩
  next hretained =>
  split at h
  · next hlack =>
      obtain ⟨conflict, hhint, h⟩ := expect_bind_inv h
      exact Or.inr (hreject (.anchor (not_lt.1 hretained) hlack hhint) h)
  next hanchored =>
  split at h
  · exact Or.inr (hreject (.plain (Or.inr (not_not.1 hanchored))) h)
  next hcommitted =>
  obtain ⟨habove, h⟩ := require_bind_inv h
  split at h
  · exact Or.inr (hreject (.plain (Or.inr (not_not.1 hanchored))) h)
  next hconfigured =>
  rw [Bool.not_eq_true', Bool.not_eq_false] at hconfigured
  exact Or.inl ⟨⟨hcurrent, not_lt.1 hretained, not_not.1 hanchored, eq_false_of_ne_true hcommitted,
    habove, hconfigured⟩, e₂, h, rfl⟩

/-- An admitted request is merged. -/
theorem onAppendEntries_admits (ha : n.Admits term prev prevTerm entries)
    (h : acceptEntries leaderId entries payloadLast leaderCommit round (n.heardFrom leaderId) =
      some (u, n', es)) :
    onAppendEntries term leaderId prev prevTerm entries payloadLast leaderCommit round n =
      some (u, n', n.stepDownNotes ++ es) := by
  have hretained : ¬ prev < (n.heardFrom leaderId).snapshotIndex := not_lt.2 ha.retained
  have hanchored : (n.heardFrom leaderId).logTerm prev = some prevTerm := ha.anchored
  have habove : ∀ e ∈ entries, (n.heardFrom leaderId).snapshotIndex < e.index := ha.above
  have hvalid : ¬ (!(n.heardFrom leaderId).validConfigurationSuffix
      (candidateLog (n.heardFrom leaderId).snapshotIndex (n.heardFrom leaderId).log entries)) =
      true := by
    rw [Bool.not_eq_true', Bool.not_eq_false]
    exact ha.configured
  have hcommitted : ¬ (n.heardFrom leaderId).conflictsCommitted entries = true := by
    rw [Bool.not_eq_true]
    exact ha.committed
  unfold onAppendEntries
  rw [peek_bind, if_neg ha.current]
  refine bind_some (becomeFollower_apply n) ?_
  unfold resetElectionDeadline
  rw [update_bind, update_bind]
  show (peek >>= _ : Handler Unit) (n.heardFrom leaderId) = _
  rw [peek_bind, if_neg hretained, if_neg (not_not.2 hanchored), if_neg hcommitted,
    require_bind habove, if_neg hvalid]
  exact h

/-! ## The merge -/

/-- What the repair loop writes: one effect, and none for a payload that is already there. -/
def RaftNode.repairWrites (n : RaftNode) (entries : List Entry) : List Effect :=
  if (repairLog n entries).appended ≠ [] then
    [.persistLogEntries (repairLog n entries).truncateFrom (repairLog n entries).appended]
  else []

/-- The reply to an accepted request. -/
def RaftNode.acceptance (n : RaftNode) (leaderId : NodeId) (payloadLast round : Nat) : Effect :=
  .send leaderId (.appendEntriesReply n.hard.currentTerm true payloadLast round none)

theorem RaftNode.Admits.fits (ha : n.Admits term prev prevTerm entries) (hc : n.Contiguous)
    (hframe : validateAppendEntries term prev prevTerm entries = some payloadLast) :
    n.Fits prev entries := by
  refine ⟨hc, ha.retained, ?_, (validateAppendEntries_eq_some hframe).2.2⟩
  rw [← hc.lastLogIndex]
  exact (hc.logTerm_bounds ha.anchored).2

theorem RaftNode.merged_of_holds (h : ∀ e ∈ entries, n.Holds e) :
    n.merged prev entries = n.log := by
  have hall : (entries.takeWhile fun e => decide (n.Holds e)) = entries :=
    List.takeWhile_eq_self_iff.2 (by simpa using h)
  rw [merged, held, hall, if_pos rfl]

/-- The merged log is the old one up to the first entry it lacks, then the payload from there. -/
theorem RaftNode.Fits.merged_split {before after : List Entry} {e : Entry}
    (hf : n.Fits prev (before ++ e :: after)) (hbefore : ∀ x ∈ before, n.Holds x)
    (he : ¬ n.Holds e) :
    n.merged prev (before ++ e :: after) =
      (n.log.filter fun old => old.index < e.index) ++ e :: after := by
  have hheld : n.held (before ++ e :: after) = before.length := by
    rw [held, List.takeWhile_append_of_pos (by simpa using hbefore),
      List.takeWhile_cons_of_neg (by simpa using he), List.append_nil]
  have hindex : e.index = prev + before.length + 1 := hf.numbered _ _ (by simp)
  have hret := hf.retained
  rw [merged, hheld, if_neg (by simp), List.drop_left,
    Numbered.filter_lt hf.contiguous (by omega),
    show e.index - n.snapshotIndex - 1 = prev - n.snapshotIndex + before.length by omega]

/-- The log on disk follows the log in memory. -/
theorem RaftNode.Fits.written (hf : n.Fits prev entries) :
    writtenLog n.log (n.repairWrites entries) = n.merged prev entries := by
  have hrepair := repairLog_eq hf.contiguous hf.retained hf.reached hf.numbered
  have happended : (repairLog n entries).appended = entries.drop (n.held entries) := by rw [hrepair]
  have hle : n.held entries ≤ entries.length := held_le
  have hret := hf.retained
  unfold repairWrites
  rw [happended]
  split
  · next hne =>
      rw [Ne, List.drop_eq_nil_iff, not_le] at hne
      have hcut : (repairLog n entries).truncateFrom =
          if prev - n.snapshotIndex + n.held entries < n.log.length then
            some (prev + n.held entries + 1) else none := by
        rw [hrepair]
        simp only [hne, true_and]
      rw [merged, if_neg (by omega)]
      show cutLog n.log (repairLog n entries).truncateFrom ++ _ = _
      rw [hcut]
      split
      · rw [cutLog, Numbered.filter_lt hf.contiguous (by omega),
          show prev + n.held entries + 1 - n.snapshotIndex - 1 =
            prev - n.snapshotIndex + n.held entries by omega]
      · rw [cutLog, List.take_of_length_le (by omega)]
  · next hnil =>
      rw [not_not, List.drop_eq_nil_iff] at hnil
      rw [merged, if_pos (le_antisymm hle hnil)]
      rfl

/-- The accepting branch: repair the log, follow the leader's commit, reply. -/
theorem acceptEntries_inv (hf : n.Fits prev entries)
    (h : acceptEntries leaderId entries payloadLast leaderCommit round n = some (u, n', es)) :
    ∃ e₂, followCommit (min leaderCommit payloadLast) { n with log := n.merged prev entries } =
        some ((), n', e₂) ∧
      es = n.repairWrites entries ++ (e₂ ++ [n'.acceptance leaderId payloadLast round]) := by
  have hmerged := repairLog_merged hf.contiguous hf.retained hf.reached hf.numbered
  unfold acceptEntries at h
  rw [peek_bind] at h
  obtain ⟨u₁, n₁, e₁, e₂, h₁, h₂, rfl⟩ := bind_eq_some h
  obtain ⟨⟨⟩, n₂, e₃, e₄, h₃, h₄, rfl⟩ := bind_eq_some h₂
  rw [peek_bind] at h₄
  cases h₄
  have hrepaired : n₁ = { n with log := n.merged prev entries } ∧ e₁ = n.repairWrites entries := by
    unfold RaftNode.repairWrites
    rcases when_inv h₁ with ⟨hne, h₁⟩ | ⟨hnil, rfl, rfl⟩
    · rw [update_bind] at h₁
      cases h₁
      rw [if_pos hne, hmerged]
      exact ⟨rfl, rfl⟩
    · rw [if_neg hnil]
      rw [not_not] at hnil
      have hrepair := repairLog_eq hf.contiguous hf.retained hf.reached hf.numbered
      have hall : n₁.held entries = entries.length := by
        rw [hrepair] at hnil
        exact le_antisymm RaftNode.held_le (List.drop_eq_nil_iff.1 hnil)
      rw [RaftNode.merged, if_pos hall]
      exact ⟨rfl, rfl⟩
  obtain ⟨rfl, rfl⟩ := hrepaired
  exact ⟨e₃, h₃, rfl⟩

/-- A payload that is already there and a commit already made leave nothing but the reply. -/
theorem acceptEntries_repeated (hf : n.Fits prev entries) (hholds : ∀ e ∈ entries, n.Holds e)
    (hrest : n.Resting) (hsettled : n.Settled)
    (hle : min leaderCommit payloadLast ≤ n.commitIndex) :
    acceptEntries leaderId entries payloadLast leaderCommit round n =
      some ((), n, [n.acceptance leaderId payloadLast round]) := by
  have hall : (entries.takeWhile fun e => decide (n.Holds e)) = entries :=
    List.takeWhile_eq_self_iff.2 (by simpa using hholds)
  have hnil : ¬ (repairLog n entries).appended ≠ [] := by
    rw [repairLog_eq hf.contiguous hf.retained hf.reached hf.numbered, not_not]
    show entries.drop (n.held entries) = []
    rw [RaftNode.held, hall, List.drop_length]
  unfold acceptEntries
  rw [peek_bind, when, if_neg hnil]
  exact bind_some (pure_apply () n) (bind_some (followCommit_settled hrest hsettled hle)
    (peek_bind _ n))

/-- What an accepted request did, and the node it left behind. -/
theorem onAppendEntries_accepted (hc : n.Contiguous)
    (hframe : validateAppendEntries term prev prevTerm entries = some payloadLast)
    (h : onAppendEntries term leaderId prev prevTerm entries payloadLast leaderCommit round n =
      some (u, n', es))
    (haccepted : ∃ e ∈ es, e.acceptsEntries = true) :
    n.Admits term prev prevTerm entries ∧ n.Fits prev entries ∧
      { n.heardFrom leaderId with log := n.merged prev entries }.Follows n' ∧
      min leaderCommit payloadLast ≤ n'.commitIndex ∧ n'.Settled ∧
      writtenLog n.log es = n'.log := by
  rcases onAppendEntries_inv h with ⟨ha, e₂, haccept, rfl⟩ |
    ⟨-, -, -, notes, reply, rfl, hnotes, hrefusal⟩
  · have hf := ha.fits hc hframe
    have hf' : (n.heardFrom leaderId).Fits prev entries := ⟨hc, hf.2, hf.3, hf.4⟩
    obtain ⟨e₃, hfollow, rfl⟩ := acceptEntries_inv hf' haccept
    have hrest : { n.heardFrom leaderId with log := n.merged prev entries }.Resting := rfl
    obtain ⟨hfollows, hcommit, hsettled⟩ := followCommit_follows hrest hfollow
    refine ⟨ha, hf, hfollows, hcommit, hsettled, ?_⟩
    have hreply : writtenLog (n.merged prev entries) [n'.acceptance leaderId payloadLast round] =
        n.merged prev entries := rfl
    rw [writtenLog_append, writtenLog_keep fun e he => (stepDownNotes_mute n e he).1,
      writtenLog_append]
    show writtenLog (writtenLog n.log (n.repairWrites entries)) _ = _
    rw [hf.written, writtenLog_append,
      writtenLog_keep fun e he => (followCommit_mute _ hfollow e he).1, hreply, hfollows.log]
  · obtain ⟨e, he, hcon⟩ := haccepted
    rcases List.mem_append.1 he with he | he
    · rw [(hnotes e he).not_accepts] at hcon
      cases hcon
    · rw [List.mem_singleton.1 he, hrefusal.facts.2] at hcon
      cases hcon

/-- A request whose payload is already there leaves the log alone, in memory and on disk. -/
theorem onAppendEntries_held (hc : n.Contiguous)
    (hframe : validateAppendEntries term prev prevTerm entries = some payloadLast)
    (hholds : ∀ e ∈ entries, n.snapshotIndex < e.index → n.Holds e)
    (h : onAppendEntries term leaderId prev prevTerm entries payloadLast leaderCommit round n =
      some (u, n', es)) : n'.log = n.log ∧ writtenLog n.log es = n.log := by
  by_cases haccepted : ∃ e ∈ es, e.acceptsEntries = true
  · obtain ⟨ha, hf, hfollows, -, -, hwritten⟩ := onAppendEntries_accepted hc hframe h haccepted
    have hlog : n'.log = n.log :=
      hfollows.log.trans (RaftNode.merged_of_holds fun e he => hholds e he (ha.above e he))
    exact ⟨hlog, hwritten.trans hlog⟩
  · rcases onAppendEntries_inv h with ⟨ha, e₂, haccept, rfl⟩ |
      ⟨hlog, -, -, notes, reply, rfl, hnotes, hrefusal⟩
    · have hf := ha.fits hc hframe
      have hf' : (n.heardFrom leaderId).Fits prev entries := ⟨hc, hf.2, hf.3, hf.4⟩
      obtain ⟨e₃, hfollow, rfl⟩ := acceptEntries_inv hf' haccept
      exact absurd ⟨n'.acceptance leaderId payloadLast round, by simp, rfl⟩ haccepted
    · refine ⟨hlog, writtenLog_keep fun e he => ?_⟩
      rcases List.mem_append.1 he with he | he
      · exact (hnotes e he).1
      · rw [List.mem_singleton.1 he]
        exact hrefusal.facts.1

end Request

/-- A node that has merged a request admits it again. -/
theorem RaftNode.Admits.again {n n' : RaftNode} {leaderId : NodeId} {entries : List Entry}
    {term prev prevTerm : Nat} (ha : n.Admits term prev prevTerm entries)
    (hf : n.Fits prev entries)
    (hfollows : { n.heardFrom leaderId with log := n.merged prev entries }.Follows n')
    (hholds : ∀ e ∈ entries, n'.Holds e) : n'.Admits term prev prevTerm entries := by
  have hlog : n'.log = n.merged prev entries := hfollows.log
  have hsnapshot : n'.snapshot = n.snapshot := hfollows.snapshot
  have hgenesis : n'.genesisMembership = n.genesisMembership := hfollows.genesis
  have hterm : n'.hard.currentTerm = n.hard.currentTerm := hfollows.term
  have hboundary := snapshotIndex_congr hsnapshot
  have hf' := hf.after_merge hlog hsnapshot
  refine ⟨hterm ▸ ha.current, hf'.retained, ?_, ?_, hboundary ▸ ha.above, ?_⟩
  · rw [merged_logTerm hf.retained hf.reached hlog hsnapshot, ha.anchored]
  · rw [conflictsCommitted, List.any_eq_false]
    intro e he
    rw [Bool.and_eq_true, decide_eq_true_eq, decide_eq_true_eq]
    exact fun hcon => hcon.2 (hholds e he)
  · -- the log that is checked now is the log that was checked then
    have hbase : n'.baseMembership = n.baseMembership := by
      unfold baseMembership
      rw [hsnapshot, hgenesis]
    have hconfigured := ha.configured
    rw [candidateLog_eq hf.retained hf.reached hf.numbered, ← hlog] at hconfigured
    rw [candidateLog_eq hf'.retained hf'.reached hf'.numbered, merged_of_holds hholds]
    unfold validConfigurationSuffix at hconfigured ⊢
    rwa [hbase]

/-- Hearing from the same leader at the same time only draws another deadline. -/
theorem RaftNode.Follows.heardFrom {n n' : RaftNode} {leaderId : NodeId} {log : List Entry}
    (hfollows : { n.heardFrom leaderId with log }.Follows n') :
    ∃ rng deadline, n'.heardFrom leaderId = { n' with rng, electionDeadlineMs := deadline } := by
  have hrest : n'.steppedDown = n' := hfollows.resting
  have hhint : n'.leaderHint = some leaderId := hfollows.hint
  have hcontact : n'.lastLeaderContactMs = some n'.nowMs := by
    rw [hfollows.contact, hfollows.now]
    rfl
  refine ⟨(n'.rng.rangeInclusive electionMinMs electionMaxMs).2,
    saturatingAdd n'.nowMs (n'.rng.rangeInclusive electionMinMs electionMaxMs).1, ?_⟩
  unfold RaftNode.heardFrom
  rw [hrest, ← hhint, ← hcontact]

/-! ## The specification of the merge -/

/-- **The log repair.** For every request `on_append_entries` accepts, the new log is the old
one if it has every entry of the payload, and otherwise the old one cut just before the first
entry it lacks, followed by the payload from there.  It is the log that was checked, it is the
log the effects leave on disk, and nothing committed is touched.  The same request once more
only draws a new election deadline and repeats the reply; a request with entries of this one
leaves the log of every later node that still has them alone. -/
theorem RaftNode.merge_spec {n n' : RaftNode} {es : List Effect} {leaderId : NodeId}
    {entries : List Entry} {term prev prevTerm payloadLast leaderCommit round : Nat}
    (hc : n.Contiguous)
    (hframe : validateAppendEntries term prev prevTerm entries = some payloadLast)
    (h : onAppendEntries term leaderId prev prevTerm entries payloadLast leaderCommit round n =
      some ((), n', es))
    (haccepted : ∃ e ∈ es, e.acceptsEntries = true) :
    ((∀ e ∈ entries, n.Holds e) → n'.log = n.log) ∧
    (∀ before e after, entries = before ++ e :: after → (∀ x ∈ before, n.Holds x) → ¬ n.Holds e →
      n'.log = (n.log.filter fun old => old.index < e.index) ++ e :: after) ∧
    candidateLog n.snapshotIndex n.log entries = n'.log ∧
    writtenLog n.log es = n'.log ∧
    (∀ i ≤ n.commitIndex, n'.entryAt i = n.entryAt i) ∧
    (∃ rng deadline,
      onAppendEntries term leaderId prev prevTerm entries payloadLast leaderCommit round n' =
        some ((), { n' with rng, electionDeadlineMs := deadline },
          [n'.acceptance leaderId payloadLast round])) ∧
    (∀ e ∈ entries, n'.Holds e) ∧
    ∀ (m m' : RaftNode) (es' : List Effect) (older : List Entry)
      (anchor anchorTerm last commit contact : Nat), m.Contiguous →
      (∀ e ∈ entries, m.snapshotIndex < e.index → m.Holds e) → older ⊆ entries →
      validateAppendEntries term anchor anchorTerm older = some last →
      onAppendEntries term leaderId anchor anchorTerm older last commit contact m =
        some ((), m', es') → m'.log = m.log ∧ writtenLog m.log es' = m.log := by
  obtain ⟨ha, hf, hfollows, hcommit, hsettled, hwritten⟩ :=
    onAppendEntries_accepted hc hframe h haccepted
  have hlog : n'.log = n.merged prev entries := hfollows.log
  have hsnapshot : n'.snapshot = n.snapshot := hfollows.snapshot
  have hboundary := snapshotIndex_congr hsnapshot
  have hholds : ∀ e ∈ entries, n'.Holds e := fun e he =>
    merged_holds hf.retained hf.numbered hf.kept_le hlog hsnapshot he
  refine ⟨?_, ?_, ?_, hwritten, ?_, ?_, hholds, ?_⟩
  · exact fun hall => hlog.trans (merged_of_holds hall)
  · rintro before e after rfl hbefore he
    exact hlog.trans (hf.merged_split hbefore he)
  · rw [candidateLog_eq hf.retained hf.reached hf.numbered, hlog]
  · exact fun i hi => hf.merged_committed ha.committed hlog hsnapshot hi
  · obtain ⟨rng, deadline, hheard⟩ := hfollows.heardFrom
    have hf' := hf.after_merge hlog hsnapshot
    refine ⟨rng, deadline, ?_⟩
    have haccept : acceptEntries leaderId entries payloadLast leaderCommit round
        { n' with rng, electionDeadlineMs := deadline } = some ((),
          { n' with rng, electionDeadlineMs := deadline },
          [n'.acceptance leaderId payloadLast round]) := by
      refine acceptEntries_repeated ⟨hf'.1, hf'.2, hf'.3, hf'.4⟩ hholds ?_ hsettled hcommit
      have hrest := hfollows.resting
      unfold Resting at hrest ⊢
      rw [← hrest]
      rfl
    rw [← hheard] at haccept
    rw [onAppendEntries_admits (ha.again hf hfollows hholds) haccept, hfollows.resting.notes,
      hheard]
    rfl
  · intro m m' es' older anchor anchorTerm last commit contact hm hheld hsub hframe' h'
    exact onAppendEntries_held hm hframe' (fun e he => hheld e (hsub he)) h'

/-- A follower of three whose last entry is not the leader's. -/
def sampleFollower : Option RaftNode :=
  (RaftNode.new 1 [2, 3] 7).map fun n =>
    { n with
      hard := { n.hard with currentTerm := 2 }
      log := [⟨1, 1, .noOp⟩, ⟨2, 1, .noOp⟩, ⟨3, 1, .noOp⟩]
      commitIndex := 1
      lastApplied := 1 }

/-- The leader of term 2 replaces the follower's last entry. -/
def samplePayload : List Entry := [⟨2, 1, .noOp⟩, ⟨3, 2, .noOp⟩]

theorem sampleFollower_facts :
    sampleFollower.any (fun n => n.log == [⟨1, 1, .noOp⟩, ⟨2, 1, .noOp⟩, ⟨3, 1, .noOp⟩] &&
      n.snapshot == none && (onAppendEntries 2 2 1 1 samplePayload 3 2 0 n).any fun r =>
        r.2.2.any Effect.acceptsEntries) = true := by
  decide +kernel

theorem merge_spec_sampleFollower :
    ∃ (n n' : RaftNode) (es : List Effect),
      onAppendEntries 2 2 1 1 samplePayload 3 2 0 n = some ((), n', es) ∧
        n'.log = [⟨1, 1, .noOp⟩, ⟨2, 1, .noOp⟩, ⟨3, 2, .noOp⟩] ∧ writtenLog n.log es = n'.log := by
  obtain ⟨n, -, hfacts⟩ := (Option.any_eq_true _ _).1 sampleFollower_facts
  simp only [Bool.and_eq_true, beq_iff_eq] at hfacts
  obtain ⟨⟨hlog, hsnapshot⟩, hrun⟩ := hfacts
  obtain ⟨⟨⟨⟩, n', es⟩, h, haccepted⟩ := (Option.any_eq_true _ _).1 hrun
  have hboundary : n.snapshotIndex = 0 := by rw [RaftNode.snapshotIndex, hsnapshot]; rfl
  have hc : n.Contiguous := by
    unfold RaftNode.Contiguous
    rw [hboundary, hlog]
    refine Numbered.cons_iff.2 ⟨rfl, Numbered.cons_iff.2 ⟨rfl, Numbered.singleton rfl⟩⟩
  obtain ⟨-, hcut, -, hwritten, -⟩ := RaftNode.merge_spec hc (by decide) h
    (by simpa [List.any_eq_true] using haccepted)
  refine ⟨n, n', es, h, ?_, hwritten⟩
  rw [hcut [⟨2, 1, .noOp⟩] ⟨3, 2, .noOp⟩ [] rfl, hlog]
  · rfl
  · simp [RaftNode.holds_iff, hboundary, hlog]
  · simp [RaftNode.holds_iff, hboundary, hlog]

end MicroRaft
