import MicroRaft.Cluster.Reads
import MicroRaft.Cluster.Schedule

/-!
# What a group guarantees

The guarantees of fixed and explicit groups over all runs: nodes take any inputs,
messages are lost, repeated, delayed and reordered, and nodes crash after any
effect of a batch and come back from their disks.  Each guarantee is followed by a
run in which what it speaks about happens.
-/

namespace MicroRaft

open Cluster

variable {σ σ₁ σ₂ : Cluster}

instance (σ : Cluster) (id : NodeId) (T : Nat) : Decidable (σ.Leads id T) :=
  match h : σ.up id with
  | none => .isFalse (by simp [Cluster.Leads, h])
  | some n => decidable_of_iff (n.isLeader = true ∧ n.hard.currentTerm = T) (by
      simp [Cluster.Leads, h])

/-! ## Two elections

Node 1 of three wins term 1 with the vote of node 2, replicates its first entry to node 2
and commits it; node 3 hears nothing of this and elects node 2 in term 2. -/

def firstTerm : List Event :=
  [.start 1 0, .start 2 0, .start 3 0, .take 1 (.tick 0), .take 1 (.tick 1000), .deliver 1,
    .deliver 3, .deliver 6, .deliver 10, .deliver 13, .deliver 16]

def secondTerm : List Event :=
  [.take 2 (.tick 1000), .deliver 20, .deliver 21, .deliver 25, .deliver 28]

/-- What the two elections come to, evaluated once. -/
theorem secondTerm_facts :
    (schedule (.fixed [1, 2, 3]) empty firstTerm).isSome = true ∧
      (schedule (.fixed [1, 2, 3]) empty (firstTerm ++ secondTerm)).isSome = true ∧
      (after (.fixed [1, 2, 3]) firstTerm).Leads 1 1 ∧
      (after (.fixed [1, 2, 3]) (firstTerm ++ secondTerm)).Leads 2 2 ∧
      ((after (.fixed [1, 2, 3]) firstTerm).up 1).any (fun n =>
        n.isLeader && n.commitIndex == 1 && n.hard.currentTerm == 1 && !n.pendingReads.contains 7) =
          true ∧
      ((after (.fixed [1, 2, 3]) (firstTerm ++ secondTerm)).up 2).any (fun n =>
        n.isLeader && n.hard.currentTerm == 2) = true := by
  decide +kernel

theorem secondTerm_sameRun :
    SameRun (.fixed [1, 2, 3]) (after (.fixed [1, 2, 3]) firstTerm)
      (after (.fixed [1, 2, 3]) (firstTerm ++ secondTerm)) :=
  ⟨after_reachable secondTerm_facts.1, after_reachable secondTerm_facts.2.1,
    Or.inl (after_runs secondTerm_facts.2.1)⟩

/-- Node 1 at the end of the first term. -/
theorem firstTerm_running : ∃ n, (after (.fixed [1, 2, 3]) firstTerm).up 1 = some n ∧
    n.isLeader = true ∧ n.commitIndex = 1 ∧ n.hard.currentTerm = 1 ∧ 7 ∉ n.pendingReads := by
  obtain ⟨n, hn, hfacts⟩ := (Option.any_eq_true _ _).1 secondTerm_facts.2.2.2.2.1
  refine ⟨n, hn, ?_⟩
  simpa [and_assoc, ← Std.ExtTreeMap.contains_iff_mem] using hfacts

/-- Node 2 at the end of the second term. -/
theorem secondTerm_running : ∃ n,
    (after (.fixed [1, 2, 3]) (firstTerm ++ secondTerm)).up 2 = some n ∧ n.isLeader = true ∧
      n.hard.currentTerm = 2 := by
  obtain ⟨n, hn, hfacts⟩ := (Option.any_eq_true _ _).1 secondTerm_facts.2.2.2.2.2
  refine ⟨n, hn, ?_⟩
  simpa using hfacts

/-- Election safety: no two nodes of a fixed group ever lead the same term. -/
theorem fixed_election_safety {voters : List NodeId} (hrun : SameRun (.fixed voters) σ₁ σ₂)
    {T : Nat} {i j : NodeId} (hi : σ₁.Leads i T) (hj : σ₂.Leads j T) : i = j :=
  leads_unique hrun hi hj

/-- The first term stays node 1's while node 2 leads the second. -/
theorem fixed_election_safety_secondTerm :
    (after (.fixed [1, 2, 3]) firstTerm).Leads 1 1 ∧
      (after (.fixed [1, 2, 3]) (firstTerm ++ secondTerm)).Leads 2 2 ∧
      ∀ j, (after (.fixed [1, 2, 3]) (firstTerm ++ secondTerm)).Leads j 1 → 1 = j :=
  ⟨secondTerm_facts.2.2.1, secondTerm_facts.2.2.2.1,
    fun _ hj => fixed_election_safety secondTerm_sameRun secondTerm_facts.2.2.1 hj⟩

/-- Leader completeness: what a node of a fixed group has ever committed, every leader of a
later term holds or has compacted. -/
theorem fixed_leader_completeness {voters : List NodeId} (hrun : SameRun (.fixed voters) σ₁ σ₂)
    {i : Nat} {v l : NodeId} {n₁ n₂ : RaftNode} (hup₁ : σ₁.up v = some n₁) (hpos : 0 < i)
    (hi : i ≤ n₁.commitIndex) (hup₂ : σ₂.up l = some n₂) (hlead : n₂.isLeader = true)
    (hT : n₁.hard.currentTerm < n₂.hard.currentTerm) :
    ∃ e, (σ₁.memory v n₁)[i - 1]? = some e ∧ (∀ t, n₁.logTerm i = some t → t = e.term) ∧
      (n₂.entryAt i = some e ∨ i ≤ n₂.snapshotIndex) := by
  obtain ⟨e, he, hterm⟩ := committed_entry hrun.1 hup₁ hpos hi
  exact ⟨e, he, hterm, completeness hrun hup₁ hi he hpos hup₂ hlead hT⟩

/-- Node 2 leads term 2 with the entry node 1 committed in term 1. -/
theorem fixed_leader_completeness_secondTerm :
    ∃ n₁ n₂, (after (.fixed [1, 2, 3]) firstTerm).up 1 = some n₁ ∧ n₁.commitIndex = 1 ∧
      (after (.fixed [1, 2, 3]) (firstTerm ++ secondTerm)).up 2 = some n₂ ∧
      n₂.isLeader = true ∧ n₂.hard.currentTerm = 2 ∧ ∃ e,
        ((after (.fixed [1, 2, 3]) firstTerm).memory 1 n₁)[0]? = some e ∧
        (∀ t, n₁.logTerm 1 = some t → t = e.term) ∧
        (n₂.entryAt 1 = some e ∨ 1 ≤ n₂.snapshotIndex) := by
  obtain ⟨n₁, h₁, -, hcommit, hterm₁, -⟩ := firstTerm_running
  obtain ⟨n₂, h₂, hlead, hterm₂⟩ := secondTerm_running
  exact ⟨n₁, n₂, h₁, hcommit, h₂, hlead, hterm₂,
    fixed_leader_completeness secondTerm_sameRun (i := 1) h₁ Nat.one_pos hcommit.ge h₂ hlead
      (by omega)⟩

/-! ## State machine safety

After the first term node 1 compacts its log and node 3, which has nothing, is sent the
image. -/

def firstImage : SnapshotDescriptor where
  metadata := { lastIncludedIndex := 1, lastIncludedTerm := 1, members := [1, 2, 3],
                membership := none }
  totalLen := 48
  sha256 := []

def firstTransfer : SnapshotTransferId where
  leaderId := 1
  term := 1
  incarnation := 0
  sequence := 1

def imageSent : List Event :=
  [.take 1 (.compact firstImage), .take 1 (.snapshotPublished none firstImage),
    .take 1 (.tick 1100),
    .take 1 (.snapshotChunkRead 3 firstTransfer firstImage 0 (List.replicate 48 0)), .deliver 21,
    .take 3 (.snapshotChunkStaged firstTransfer firstImage 0 (.accepted 48 true)),
    .take 3 (.snapshotPublished (some firstTransfer) firstImage)]

theorem imageSent_facts :
    (schedule (.fixed [1, 2, 3]) empty (firstTerm ++ imageSent)).isSome = true ∧
      (3, .applySnapshot firstImage) ∈ (after (.fixed [1, 2, 3]) (firstTerm ++ imageSent)).trace ∧
      (1, .apply ⟨1, 1, .noOp⟩) ∈ (after (.fixed [1, 2, 3]) (firstTerm ++ imageSent)).trace ∧
      ((after (.fixed [1, 2, 3]) (firstTerm ++ imageSent)).up 1).any (fun n =>
        n.snapshotIndex == 1 && n.snapshotTerm == 1) = true ∧
      ((after (.fixed [1, 2, 3]) (firstTerm ++ imageSent)).up 2).any (fun n =>
        n.snapshotIndex == 0 && decide (n.log = [⟨1, 1, .noOp⟩])) = true := by
  decide +kernel

theorem imageSent_reachable :
    Reachable (.fixed [1, 2, 3]) (after (.fixed [1, 2, 3]) (firstTerm ++ imageSent)) :=
  after_reachable imageSent_facts.1

/-- State machine safety: the state machines of a fixed group are given the same entry at an
index, and an image only if some node published it for the prefix that every node has
committed and applied up to the boundary of the image. -/
theorem fixed_state_machine_safety {voters : List NodeId} (h : Reachable (.fixed voters) σ) :
    (∀ {v w : NodeId} {e e' : Entry}, (v, .apply e) ∈ σ.trace → (w, .apply e') ∈ σ.trace →
      e.index = e'.index → e.term = e'.term ∧ e.command = e'.command) ∧
    ∀ {v : NodeId} {d : SnapshotDescriptor}, (v, .applySnapshot d) ∈ σ.trace →
      ∃ entries, entries.length = d.metadata.lastIncludedIndex ∧ (d, entries) ∈ σ.images ∧
        (∃ w retained, (w, .publishSnapshot none d retained) ∈ σ.trace) ∧
        (∀ {w : NodeId} {e : Entry}, (w, .apply e) ∈ σ.trace →
          (e.index = d.metadata.lastIncludedIndex → e.term = d.metadata.lastIncludedTerm) ∧
          (e.index ≤ d.metadata.lastIncludedIndex → entries[e.index - 1]? = some e)) ∧
        ∀ {σ₁ : Cluster} {w : NodeId} {n : RaftNode}, SameRun (.fixed voters) σ₁ σ →
          σ₁.up w = some n → d.metadata.lastIncludedIndex ≤ n.commitIndex →
          (σ₁.memory w n).take d.metadata.lastIncludedIndex = entries ∧
          ∀ t, n.logTerm d.metadata.lastIncludedIndex = some t →
            t = d.metadata.lastIncludedTerm := by
  refine ⟨fun he he' hindex => ?_, fun hd => ?_⟩
  · obtain ⟨g, hG⟩ := h.genesis_of_trace he
    obtain ⟨-, a, -, hrel, -⟩ := h.grow .refl hG
    rw [hrel.applied_agree he he' hindex]
    exact ⟨rfl, rfl⟩
  · obtain ⟨g, hG⟩ := h.genesis_of_trace hd
    obtain ⟨-, a, -, hrel, -⟩ := h.grow .refl hG
    obtain ⟨entries, hmem, -⟩ := hrel.trace_plain hd (by simp)
    have himage := hrel.world.images hmem
    refine ⟨entries, himage.length, hmem, hrel.published hmem, fun he => ?_, fun hrun hup hi => ?_⟩
    · have hok := hrel.trace_plain he (by simp)
      exact ⟨himage.applied_term hrel.world hok, himage.applied hrel.world hok⟩
    · obtain ⟨a₁, a₂, a', hrel₁, hrel₂, hinv, hle₁, hle₂⟩ := hrun.related hG
      exact hrel₂.image_committed hrel₁ hinv hle₁ hle₂ hmem hup hi

/-- The image node 3 installs is what node 1 applied. -/
theorem fixed_state_machine_safety_imageSent :
    (3, .applySnapshot firstImage) ∈ (after (.fixed [1, 2, 3]) (firstTerm ++ imageSent)).trace ∧
      (1, .apply ⟨1, 1, .noOp⟩) ∈ (after (.fixed [1, 2, 3]) (firstTerm ++ imageSent)).trace ∧
      ∃ entries,
        (firstImage, entries) ∈ (after (.fixed [1, 2, 3]) (firstTerm ++ imageSent)).images ∧
        entries[0]? = some ⟨1, 1, .noOp⟩ := by
  obtain ⟨-, hd, he, -⟩ := imageSent_facts
  obtain ⟨entries, -, hmem, -, happly, -⟩ :=
    (fixed_state_machine_safety imageSent_reachable).2 hd
  exact ⟨hd, he, entries, hmem, (happly he).2 (by decide)⟩

/-! ## Log matching -/

/-- Log matching: in every state of a fixed group, two logs, in memory or on disk, with an
entry of one term at one index are the same from there down to the higher boundary, and a
boundary for which the other log still has the entry replaced the entries the other log has
or had. -/
theorem fixed_log_matching {voters : List NodeId} (h : Reachable (.fixed voters) σ)
    {v w : NodeId} {p q : LogImage} (hp : σ.Holds v p) (hq : σ.Holds w q) :
    (∀ {i : Nat} {e e' : Entry}, p.entryAt i = some e → q.entryAt i = some e' →
      e.term = e'.term → ∀ {j : Nat}, max p.boundary q.boundary < j → j ≤ i →
      p.entryAt j = q.entryAt j) ∧
    ∀ {e : Entry}, q.entryAt p.boundary = some e → e.term = p.boundaryTerm →
      p.below = (q.below ++ q.log).take p.boundary := by
  obtain ⟨g, a, hrel⟩ := h.related_of_holds hp
  exact ⟨fun he he' hterm _ hj hji => hrel.log_matching hp hq he he' hterm hj hji,
    fun he hterm => hrel.boundary_matching hp hq he hterm⟩

/-- Node 1 compacted the entry that node 2 still holds. -/
theorem fixed_log_matching_imageSent :
    ∃ p q, (after (.fixed [1, 2, 3]) (firstTerm ++ imageSent)).Holds 1 p ∧
      (after (.fixed [1, 2, 3]) (firstTerm ++ imageSent)).Holds 2 q ∧ p.boundary = 1 ∧
      q.log = [⟨1, 1, .noOp⟩] ∧ p.below = (q.below ++ q.log).take p.boundary := by
  obtain ⟨-, -, -, h₁, h₂⟩ := imageSent_facts
  obtain ⟨n₁, hup₁, h₁⟩ := (Option.any_eq_true _ _).1 h₁
  obtain ⟨n₂, hup₂, h₂⟩ := (Option.any_eq_true _ _).1 h₂
  simp only [Bool.and_eq_true, beq_iff_eq, decide_eq_true_eq] at h₁ h₂
  have hp := Holds.memory hup₁
  have hq := Holds.memory hup₂
  refine ⟨_, _, hp, hq, h₁.1, h₂.2,
    (fixed_log_matching imageSent_reachable hp hq).2 (e := ⟨1, 1, .noOp⟩) ?_ h₁.2.symm⟩
  simp [LogImage.entryAt, h₁.1, h₂.1, h₂.2]

/-! ## Checked reads

The leader of the first term is asked for a read; node 2 confirms it. -/

def checkedRead : List Event := [.take 1 (.readIndex 7), .deliver 18, .deliver 20]

theorem checkedRead_facts :
    (schedule (.fixed [1, 2, 3]) empty (firstTerm ++ checkedRead)).isSome = true ∧
      (1, .readReady 7 1 1 1) ∈ (after (.fixed [1, 2, 3]) (firstTerm ++ checkedRead)).trace.drop
        (after (.fixed [1, 2, 3]) firstTerm).trace.length := by
  decide +kernel

/-- Safety of checked reads.  A node is asked for a read at `σ₁`, where the request is not
pending; an answer it gives after that has an index no lower than the commit index of any node
at any moment `σ₀` up to `σ₁`, and a term no lower than that of any leader at such a moment. -/
theorem read_index_safety {G : Group} {σ₀ σ₁ σ₂ : Cluster} {L v : NodeId} {n m : RaftNode}
    {r ctx index T : Nat} (h : Reachable G σ₀) (hr₀ : Runs G σ₀ σ₁) (hr₁ : Runs G σ₁ σ₂)
    (hup : σ₁.up L = some n) (hfresh : r ∉ n.pendingReads)
    (hready : (L, .readReady r ctx index T) ∈ σ₂.trace.drop σ₁.trace.length)
    (hv : σ₀.up v = some m) :
    m.commitIndex ≤ index ∧ (m.isLeader = true → m.hard.currentTerm ≤ T) :=
  reads_cover h hr₀ hr₁ hup hfresh hready hv

/-- The answer to the read is no older than what node 1 has committed. -/
theorem read_index_safety_checkedRead :
    (1, .readReady 7 1 1 1) ∈ (after (.fixed [1, 2, 3]) (firstTerm ++ checkedRead)).trace.drop
        (after (.fixed [1, 2, 3]) firstTerm).trace.length ∧
      ∃ n, (after (.fixed [1, 2, 3]) firstTerm).up 1 = some n ∧ n.isLeader = true ∧
        n.commitIndex ≤ 1 := by
  obtain ⟨hrun, hready⟩ := checkedRead_facts
  obtain ⟨n, hup, hlead, -, -, hfresh⟩ := firstTerm_running
  exact ⟨hready, n, hup, hlead, (read_index_safety secondTerm_sameRun.1 .refl (after_runs hrun) hup
    hfresh hready hup).1⟩

/-! ## Explicit groups

Node 1 founds a group of its own, adds node 2 as a learner and makes it a voter; the joint
configuration is the entry at index 3. -/

def promotion : List Event :=
  [.start 1 0, .take 1 .recover, .take 1 (.tick 0), .take 1 (.tick 1000),
    .take 1 (.membershipChange "add" (.addLearner 2 ⟨"two:1", "two:2"⟩)), .start 2 0,
    .take 2 .recover, .take 1 (.tick 1100), .deliver 11, .deliver 12, .deliver 14,
    .take 1 (.tick 1200), .deliver 15, .deliver 21,
    .take 1 (.membershipChange "promote" (.setVoters [1, 2])), .take 1 (.tick 1300), .deliver 25,
    .deliver 27, .take 1 (.tick 1400), .deliver 33]

theorem promotion_facts :
    (schedule (.explicit "group" [1]) empty promotion).isSome = true ∧
      (after (.explicit "group" [1]) promotion).Leads 1 1 ∧
      ((after (.explicit "group" [1]) promotion).up 1).any (fun n => decide (3 ≤ n.commitIndex)) =
        true ∧
      ((after (.explicit "group" [1]) promotion).up 2).any (fun n => decide (3 ≤ n.commitIndex)) =
        true := by
  decide +kernel

theorem promotion_sameRun :
    SameRun (.explicit "group" [1]) (after (.explicit "group" [1]) promotion)
      (after (.explicit "group" [1]) promotion) :=
  ⟨after_reachable promotion_facts.1, after_reachable promotion_facts.1, Or.inl .refl⟩

/-- Safety of explicit groups, whose configuration changes: no two nodes ever lead the same
term, and two nodes that have committed an index hold the same entry there, and have or had
the same entries below. -/
theorem explicit_safety {groupId : String} {voters : List NodeId}
    (hrun : SameRun (.explicit groupId voters) σ₁ σ₂) :
    (∀ {T : Nat} {i j : NodeId}, σ₁.Leads i T → σ₂.Leads j T → i = j) ∧
    ∀ {i : Nat} {v w : NodeId} {n₁ n₂ : RaftNode}, σ₁.up v = some n₁ → σ₂.up w = some n₂ →
      i ≤ n₁.commitIndex → i ≤ n₂.commitIndex →
      (∀ {e₁ e₂ : Entry}, n₁.entryAt i = some e₁ → n₂.entryAt i = some e₂ →
        e₁.term = e₂.term ∧ e₁.command = e₂.command) ∧
      (σ₁.memory v n₁).take i = (σ₂.memory w n₂).take i := by
  refine ⟨leads_unique hrun, fun hup₁ hup₂ hi₁ hi₂ => ⟨fun he₁ he₂ => ?_, ?_⟩⟩
  · rw [committed_entry_agree hrun hup₁ hup₂ hi₁ hi₂ he₁ he₂]
    exact ⟨rfl, rfl⟩
  · exact committed_agree hrun hup₁ hup₂ hi₁ hi₂

/-- Leader and promoted learner have committed the same joint configuration. -/
theorem explicit_safety_promotion :
    (after (.explicit "group" [1]) promotion).Leads 1 1 ∧
      ∃ n₁ n₂, (after (.explicit "group" [1]) promotion).up 1 = some n₁ ∧
        (after (.explicit "group" [1]) promotion).up 2 = some n₂ ∧
        3 ≤ n₁.commitIndex ∧ 3 ≤ n₂.commitIndex ∧
        ((after (.explicit "group" [1]) promotion).memory 1 n₁).take 3 =
          ((after (.explicit "group" [1]) promotion).memory 2 n₂).take 3 := by
  obtain ⟨-, hlead, h₁, h₂⟩ := promotion_facts
  obtain ⟨n₁, hup₁, h₁⟩ := (Option.any_eq_true _ _).1 h₁
  obtain ⟨n₂, hup₂, h₂⟩ := (Option.any_eq_true _ _).1 h₂
  rw [decide_eq_true_eq] at h₁ h₂
  exact ⟨hlead, n₁, n₂, hup₁, hup₂, h₁, h₂,
    ((explicit_safety promotion_sameRun).2 hup₁ hup₂ h₁ h₂).2⟩

end MicroRaft
