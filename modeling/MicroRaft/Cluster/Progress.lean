import MicroRaft.Cluster.Durable
import MicroRaft.Node.Monotone

/-!
# Progress across steps and crashes

A node is booted from its disk and fed inputs.  Each step keeps what
`RaftNode.Advances` lists; a crash between two effects keeps the term and the vote
that were written last, because nothing but a hard-state write touches them.
-/

namespace MicroRaft

variable {c : Cause} {n n' m : RaftNode} {d : Disk} {es emitted : List Effect} {input : Input}

/-! ## The hard state on disk -/

/-- The hard state written last. -/
def lastHard (hard : HardState) (es : List Effect) : HardState :=
  es.foldl (fun hard e => match e with
    | .persistHardState hard' => hard'
    | _ => hard) hard

/-- Two hard states agree on the election: the membership watermark is left out. -/
def HardState.SameBallot (hard hard' : HardState) : Prop :=
  hard.currentTerm = hard'.currentTerm ∧ hard.votedFor = hard'.votedFor

theorem Disk.foldl_execute_hard (d : Disk) (es : List Effect) :
    (es.foldl Disk.execute d).hard = lastHard d.hard es := by
  induction es generalizing d with
  | nil => rfl
  | cons e es ih =>
    rw [List.foldl_cons, ih, lastHard, lastHard, List.foldl_cons]
    cases e <;> rfl

theorem lastHard_append (hard : HardState) (es es' : List Effect) :
    lastHard hard (es ++ es') = lastHard (lastHard hard es) es' :=
  List.foldl_append

/-- Writing the same effects keeps the agreement. -/
theorem HardState.SameBallot.lastHard {hard hard' : HardState} (h : hard.SameBallot hard')
    (es : List Effect) : (lastHard hard es).SameBallot (lastHard hard' es) := by
  induction es generalizing hard hard' with
  | nil => exact h
  | cons e es ih =>
    cases e with
    | persistHardState hard'' => exact ih ⟨rfl, rfl⟩
    | _ => exact ih h

/-- What a node knows about its election is what its step wrote last. -/
theorem RaftNode.step_lastHard (hstep : n.step input = some (n', es)) (hsound : n.Sound)
    (htakes : n.Takes input) : lastHard n.hard es = n'.hard := by
  have hdisk := congrArg Disk.hard (n.step_onDisk hstep hsound htakes).1
  have hhard : ∀ x : RaftNode, x.onDisk.hard = x.hard := by
    intro x
    unfold onDisk
    cases x.publishingSnapshot <;> rfl
  rwa [Disk.foldl_execute_hard, hhard, hhard] at hdisk

/-! ## Booting -/

/-- A node is built from what is on disk: for the first time, or after a stop. -/
inductive RaftNode.BootsFrom : Disk → RaftNode → Prop
  | new {id : NodeId} {peers : List NodeId} {seed : Nat} {n : RaftNode}
      (h : RaftNode.new id peers seed = some n) : BootsFrom {} n
  | restore {id : NodeId} {peers : List NodeId} {seed : Nat} {d : Disk} {n : RaftNode}
      (h : restoreWithSnapshot id peers seed d.hard d.snapshot d.log = some (.ok n)) :
      BootsFrom d n
  | watermark {d : Disk} {n n' : RaftNode} {index term : Nat} (hn : BootsFrom d n)
      (h : n.restoreAppliedWatermark index term = .ok n') : BootsFrom d n'

theorem RaftNode.BootsFrom.boots (h : BootsFrom d n) : n.Boots := by
  induction h with
  | new h => exact .new h
  | restore h => exact .restore h
  | watermark _ h ih => exact .watermark ih h

/-- A rebuilt node has the term and the vote it is rebuilt from. -/
theorem restoreWithSnapshot_ballot {id : NodeId} {peers : List NodeId} {seed : Nat}
    {hard : HardState} {snapshot : Option SnapshotDescriptor} {log : List Entry}
    (h : restoreWithSnapshot id peers seed hard snapshot log = some (.ok n)) :
    hard.SameBallot n.hard := by
  obtain ⟨g₀, r, genesis, -, -, rfl⟩ := restoreWithSnapshot_eq_ok h
  -- at most the membership watermark is refreshed
  change hard.SameBallot
    (if r.refreshHard then { hard with membership := some r.committed } else hard)
  split <;> exact ⟨rfl, rfl⟩

theorem RaftNode.BootsFrom.ballot (h : BootsFrom d n) : d.hard.SameBallot n.hard := by
  induction h with
  | new h =>
    obtain ⟨g, -, rfl⟩ := RaftNode.new_eq_some h
    exact ⟨rfl, rfl⟩
  | restore h => exact restoreWithSnapshot_ballot h
  | watermark _ h ih =>
    obtain ⟨-, -, -, -, rfl⟩ := restoreAppliedWatermark_eq_ok h
    exact ih

/-- A promise kept for a sequence is kept for its beginning. -/
theorem RaftNode.Prompt.of_append {inputs rest : List Input} :
    ∀ {n : RaftNode} {es : List Effect}, n.Prompt es (inputs ++ rest) → n.Prompt es inputs := by
  induction inputs with
  | nil =>
    intro n es _
    trivial
  | cons input inputs ih =>
    intro n es h
    exact ⟨h.1, fun n' es' hstep => ih (h.2 n' es' hstep)⟩

/-- Along a whole service the disk keeps up with the election state in memory. -/
theorem RaftNode.perform_ballot {inputs : List Input} :
    ∀ {n : RaftNode} {es : List Effect} {hard : HardState}, n.Waits es → n.Prompt es inputs →
      hard.SameBallot n.hard → n.perform inputs = some (m, emitted) →
        (lastHard hard emitted).SameBallot m.hard := by
  induction inputs generalizing emitted with
  | nil =>
    intro n es hard _ _ h hperform
    cases hperform
    exact h
  | cons input inputs ih =>
    intro n es hard hwaits hprompt h hperform
    obtain ⟨⟨n₁, es₁⟩, hstep, hperform⟩ := Option.bind_eq_some_iff.1 hperform
    obtain ⟨⟨m', emitted'⟩, hrest, heq⟩ := Option.map_eq_some_iff.1 hperform
    cases heq
    have htakes := hwaits.takes hprompt.1
    have hwrote := step_lastHard hstep hwaits.sound htakes
    rw [lastHard_append]
    refine ih (hwaits.step htakes hstep) (hprompt.2 n₁ es₁ hstep) ?_ hrest
    exact hwrote ▸ h.lastHard es₁

/-! ## Every step, and every crash -/

/-- **Progress is monotone.**  In a fixed group, whatever inputs a node is fed (with prompt
reports of its publications), a step takes back no term, commitment, application or
compaction, no vote of the same term, no committed entry above the boundary, and a leader
that stays leader of its term only appends to its log and compacts what is applied.  After a
crash at any effect boundary the rebuilt node has the term and the vote written last; when
the whole batch was executed they are those in memory. -/
theorem RaftNode.progress_monotone (hboot : BootsFrom d n)
    (hfixed : n.committedMembership.state.groupId = legacyGroupId) {inputs : List Input}
    (hprompt : n.Prompt [] (inputs ++ [input])) :
    ∃ m emitted n' es, n.perform inputs = some (m, emitted) ∧ m.step input = some (n', es) ∧
      m.hard.currentTerm ≤ n'.hard.currentTerm ∧ m.commitIndex ≤ n'.commitIndex ∧
      m.lastApplied ≤ n'.lastApplied ∧ m.snapshotIndex ≤ n'.snapshotIndex ∧
      (n'.hard.currentTerm = m.hard.currentTerm → ∀ v, m.hard.votedFor = some v →
        n'.hard.votedFor = some v) ∧
      (∀ i, i ≤ m.commitIndex → n'.snapshotIndex < i → n'.entryAt i = m.entryAt i) ∧
      (m.isLeader = true → n'.isLeader = true → n'.hard.currentTerm = m.hard.currentTerm →
        ∃ k more, n'.log = m.log.drop k ++ more ∧ n'.snapshotIndex = m.snapshotIndex + k ∧
          n'.snapshotIndex ≤ n'.lastApplied) ∧
      ∀ k id peers seed r disk, disk = (emitted ++ es.take k).foldl Disk.execute d →
        restoreWithSnapshot id peers seed disk.hard disk.snapshot disk.log = some (.ok r) →
          r.hard.currentTerm = (lastHard d.hard (emitted ++ es.take k)).currentTerm ∧
          r.hard.votedFor = (lastHard d.hard (emitted ++ es.take k)).votedFor ∧
          (es.length ≤ k → r.hard.currentTerm = n'.hard.currentTerm ∧
            r.hard.votedFor = n'.hard.votedFor) := by
  have hready : n.Ready False := hboot.boots.ready
  have hwaits : n.Waits [] := .of_idle hready.ordered.contiguous hready.idle
  have hgenesis : n.genesisMembership.state.groupId = legacyGroupId :=
    hready.committed_grown.within.1.symm.trans hfixed
  obtain ⟨m, emitted, last, hperform, hm, hmwaits, hmfixed, hmprompt⟩ :=
    perform_steady not_false hready.steady hwaits hgenesis hprompt
  have htakes := hmwaits.takes hmprompt.1
  obtain ⟨n', es, hstep, hn', -⟩ := step_settles hm htakes (fun hp _ => hm.lands hmfixed hp)
    fun hc => absurd hc not_false
  have hadv := hm.step_advances hmwaits htakes hstep
  refine ⟨m, emitted, n', es, hperform, hstep, hadv.term, hadv.commit, hadv.applied,
    hadv.boundary, fun heq v hv => hadv.vote heq hv, fun i hi hlt => hadv.committed hi hlt, ?_, ?_⟩
  · intro hl hl' heq
    obtain ⟨k, more, hlog, hindex⟩ := hadv.lead heq hl hl'
    exact ⟨k, more, hlog, hindex, hn'.ordered.floor⟩
  · intro k id peers seed r disk hdisk hrestore
    have hr := restoreWithSnapshot_ballot hrestore
    rw [hdisk, Disk.foldl_execute_hard] at hr
    refine ⟨hr.1.symm, hr.2.symm, fun hall => ?_⟩
    have hwrote := step_lastHard hstep hmwaits.sound htakes
    have hboth := perform_ballot hwaits hprompt.of_append hboot.ballot hperform
    have hend := hboth.lastHard es
    rw [List.take_of_length_le hall, lastHard_append] at hr
    rw [hwrote] at hend
    exact ⟨hr.1.symm.trans hend.1, hr.2.symm.trans hend.2⟩

/-- The disk of a node of a group of one that stops after the first write of its election. -/
def stoppedDisk (emitted es : List Effect) : Disk := (emitted ++ es.take 1).foldl Disk.execute {}

theorem stopped_facts : (RaftNode.new 1 [] 0).any (fun n =>
    decide (n.committedMembership.state.groupId = legacyGroupId) &&
      decide (n.Prompt [] ([.tick 1] ++ [.tick 1000])) &&
      (n.perform [.tick 1]).any fun r => (r.1.step (.tick 1000)).any fun q =>
        let disk := stoppedDisk r.2 q.2
        decide (r.1.hard.currentTerm = 0) && decide (q.1.hard.currentTerm = 1) &&
          (restoreWithSnapshot 1 [] 0 disk.hard disk.snapshot disk.log).any fun x =>
            x.toOption.isSome) = true := by
  decide +kernel

theorem RaftNode.progress_monotone_stopped :
    ∃ (n m n' r : RaftNode) (emitted es : List Effect), RaftNode.new 1 [] 0 = some n ∧
      n.perform [.tick 1] = some (m, emitted) ∧ m.step (.tick 1000) = some (n', es) ∧
      m.hard.currentTerm = 0 ∧ n'.hard.currentTerm = 1 ∧
      restoreWithSnapshot 1 [] 0 (stoppedDisk emitted es).hard (stoppedDisk emitted es).snapshot
        (stoppedDisk emitted es).log = some (.ok r) ∧
      r.hard.votedFor = (lastHard {} (emitted ++ es.take 1)).votedFor := by
  obtain ⟨n, hnew, hn⟩ := (Option.any_eq_true _ _).1 stopped_facts
  simp only [Bool.and_eq_true, decide_eq_true_eq] at hn
  obtain ⟨⟨hfixed, hprompt⟩, hrun⟩ := hn
  obtain ⟨m', emitted', n'', es', hperform', hstep', -, -, -, -, -, -, -, hcrash⟩ :=
    progress_monotone (.new hnew) hfixed hprompt
  obtain ⟨⟨m, emitted⟩, hperform, hrun⟩ := (Option.any_eq_true _ _).1 hrun
  obtain ⟨⟨n', es⟩, hstep, hrun⟩ := (Option.any_eq_true _ _).1 hrun
  simp only [Bool.and_eq_true, decide_eq_true_eq] at hrun
  obtain ⟨⟨hm, hn'⟩, hrestore⟩ := hrun
  obtain ⟨x, hx, hok⟩ := (Option.any_eq_true _ _).1 hrestore
  obtain ⟨r, hr⟩ := Option.isSome_iff_exists.1 hok
  obtain rfl := toOption_eq_some hr
  rw [hperform] at hperform'
  cases hperform'
  rw [hstep] at hstep'
  cases hstep'
  exact ⟨n, _, _, r, _, _, hnew, hperform, hstep, hm, hn', hx,
    (hcrash 1 1 [] 0 r _ rfl hx).2.1⟩

end MicroRaft
