import MicroRaft.Node.Batch
import MicroRaft.Node.Boot
import MicroRaft.Node.Robust

/-!
# A node in service

A node is started or rebuilt and then fed inputs, by a driver that keeps one
promise: the report of a publication is the next input after the batch that asks
for it.  In a fixed group nothing else is needed: whatever peers send, the node
does not panic and keeps its representation invariant.
-/

namespace MicroRaft

variable {c : Cause} {n n' m : RaftNode} {es raw : List Effect} {input : Input}

/-! ## Publications and their callback -/

theorem Step.publishing (hs : Step c n es n') {p : PublishingSnapshot}
    (hp : n'.publishingSnapshot = some p) :
    n.publishingSnapshot = some p ∨ .publishSnapshot p.transfer p.descriptor p.retained ∈ es := by
  cases hs with
  | move hidle hm =>
    cases hm with
    | weaken h => exact Or.inl (h.publishing ▸ hp)
    | publish h =>
      cases hp
      exact Or.inr (List.mem_singleton_self _)
    | _ => exact Or.inl hp
  | land hl =>
    cases hl with
    | compacted => cases hp
    | installed => cases hp

theorem Steps.publishing (hs : Steps c n es n') {p : PublishingSnapshot}
    (hp : n'.publishingSnapshot = some p) :
    n.publishingSnapshot = some p ∨ .publishSnapshot p.transfer p.descriptor p.retained ∈ es := by
  induction hs with
  | nil => exact Or.inl hp
  | cons hstep _ ih =>
    rcases ih hp with hp | hmem
    · exact (hstep.publishing hp).imp_right (List.mem_append_left _)
    · exact Or.inr (List.mem_append_right _ hmem)

theorem RaftNode.mem_wrapGroupEffects {transfer : Option SnapshotTransferId}
    {descriptor : SnapshotDescriptor} {retained : List Entry}
    (h : .publishSnapshot transfer descriptor retained ∈ es) :
    .publishSnapshot transfer descriptor retained ∈ n.wrapGroupEffects es := by
  unfold wrapGroupEffects
  dsimp only
  split
  · exact h
  · exact List.mem_map.2 ⟨_, h, rfl⟩

/-- A node that waits for a publication has just asked for it. -/
theorem RaftNode.step_publishing (h : n.step input = some (n', es)) (hsound : n.Sound)
    (hidle : n.publishingSnapshot = none) {p : PublishingSnapshot}
    (hp : n'.publishingSnapshot = some p) :
    .publishSnapshot p.transfer p.descriptor p.retained ∈ es := by
  have htakes : n.Takes input := by simp [RaftNode.Takes, hidle]
  obtain ⟨raw, hraw, rfl⟩ := n.step_steps h hsound htakes
  rcases hraw.publishing hp with hcon | hmem
  · rw [hidle] at hcon
    cases hcon
  · exact mem_wrapGroupEffects hmem

/-- After its callback a publication is over. -/
theorem RaftNode.step_published {transfer : Option SnapshotTransferId}
    {descriptor : SnapshotDescriptor} (h : n.step (.snapshotPublished transfer descriptor) =
      some (n', es)) (hsound : n.Sound) (htakes : n.Takes (.snapshotPublished transfer descriptor))
    (hready : n.recoveryPending = false) : n'.publishingSnapshot = none := by
  unfold step at h
  rw [if_neg (by simp [hready])] at h
  obtain ⟨⟨u, m, raw⟩, hraw, heq⟩ := Option.map_eq_some_iff.1 h
  cases heq
  unfold Takes at htakes
  cases hpub : n.publishingSnapshot with
  | none =>
    obtain ⟨rfl, -⟩ := onSnapshotPublished_idle hraw hpub
    exact hpub
  | some p =>
    simp only [hpub] at htakes
    cases htakes
    exact (onSnapshotPublished_spec (c := .other) hraw hpub ⟨rfl, rfl⟩ hsound).2

/-! ## The group of a node -/

theorem Step.genesis (hs : Step c n es n') : n'.genesisMembership = n.genesisMembership := by
  cases hs with
  | move hidle hm =>
    cases hm with
    | weaken h => exact h.genesis
    | _ => rfl
  | land hl => cases hl <;> rfl

theorem Steps.genesis (hs : Steps c n es n') : n'.genesisMembership = n.genesisMembership := by
  induction hs with
  | nil => rfl
  | cons hstep _ ih => exact ih.trans hstep.genesis

/-! ## The driver's promise -/

/-- What the node waits for is what its last batch asked for. -/
structure RaftNode.Waits (n : RaftNode) (es : List Effect) : Prop where
  sound : n.Sound
  asked : ∀ {p : PublishingSnapshot}, n.publishingSnapshot = some p →
    .publishSnapshot p.transfer p.descriptor p.retained ∈ es ∧ n.recoveryPending = false

theorem RaftNode.Waits.of_idle (hc : n.Contiguous) (hidle : n.publishingSnapshot = none) :
    n.Waits es := by
  refine ⟨.of_idle hc hidle, fun hp => ?_⟩
  rw [hidle] at hp
  cases hp

/-- The promise makes the report of a publication the input the node takes. -/
theorem RaftNode.Waits.takes (h : n.Waits es)
    (hprompt : ∀ transfer descriptor retained,
      .publishSnapshot transfer descriptor retained ∈ es →
        input = .snapshotPublished transfer descriptor) : n.Takes input := by
  unfold Takes
  cases hp : n.publishingSnapshot with
  | none => trivial
  | some p => exact hprompt _ _ _ (h.asked hp).1

theorem RaftNode.Waits.step (h : n.Waits raw) (htakes : n.Takes input)
    (hstep : n.step input = some (n', es)) : n'.Waits es := by
  obtain ⟨raw', hsteps, rfl⟩ := n.step_steps hstep h.sound htakes
  refine ⟨hsteps.sound h.sound, fun {p} hp => ?_⟩
  cases hpub : n.publishingSnapshot with
  | none =>
    have hmem := step_publishing hstep h.sound hpub hp
    exact ⟨hmem, step_publish_ready hstep hmem rfl⟩
  | some q =>
    have hinput : input = .snapshotPublished q.transfer q.descriptor := by
      unfold Takes at htakes
      rwa [hpub] at htakes
    subst hinput
    rw [step_published hstep h.sound htakes (h.asked hpub).2] at hp
    cases hp

/-! ## Fixed groups -/

/-- In a fixed group every image lands: there is only one membership. -/
theorem RaftNode.Steady.lands {calm : Prop} (h : n.Steady calm)
    (hfixed : n.genesisMembership.state.groupId = legacyGroupId) {p : PublishingSnapshot}
    (hp : n.publishingSnapshot = some p) : n.Lands p.descriptor := by
  refine ⟨?_, fun _ => h.committed_grown.legacy hfixed⟩
  rw [(h.landing hp).receivable.2.2.legacy hfixed]
  by_cases hknown : n.logTerm p.descriptor.metadata.lastIncludedIndex =
      some p.descriptor.metadata.lastIncludedTerm
  · rw [h.ordered.contiguous.retainedSuffix_eq hknown]
    obtain ⟨m, hm⟩ := h.configured.replayable
    obtain ⟨m', hm', hrest⟩ := membershipAfter_cut hm
      (p.descriptor.metadata.lastIncludedIndex - n.snapshotIndex)
    rw [(h.configured.base.append hm').legacy hfixed] at hrest
    exact ⟨m, hrest⟩
  · exact ⟨_, by rw [retainedSuffix, if_neg hknown]; rfl⟩

/-- The nodes a driver starts with. -/
inductive RaftNode.Boots : RaftNode → Prop
  | new {id : NodeId} {peers : List NodeId} {seed : Nat} {n : RaftNode}
      (h : RaftNode.new id peers seed = some n) : Boots n
  | restore {id : NodeId} {peers : List NodeId} {seed : Nat} {hard : HardState}
      {snapshot : Option SnapshotDescriptor} {log : List Entry} {n : RaftNode}
      (h : restoreWithSnapshot id peers seed hard snapshot log = some (.ok n)) : Boots n
  | watermark {n n' : RaftNode} {index term : Nat} (hn : Boots n)
      (h : n.restoreAppliedWatermark index term = .ok n') : Boots n'

theorem RaftNode.Boots.ready {calm : Prop} (h : n.Boots) : n.Ready calm := by
  induction h with
  | new h => exact new_ready h
  | restore h => exact restoreWithSnapshot_ready h
  | watermark _ h ih => exact ih.restoreAppliedWatermark h

/-- Feed a sequence of inputs; `none` is a panic. -/
def RaftNode.feed (n : RaftNode) : List Input → Option RaftNode
  | [] => some n
  | input :: inputs => (n.step input).bind fun r => r.1.feed inputs

/-- The driver keeps its promise: after the batch `es`, and after every later one, the report
of a publication comes before any other input. -/
def RaftNode.Prompt (n : RaftNode) (es : List Effect) : List Input → Prop
  | [] => True
  | input :: inputs =>
      (∀ transfer descriptor retained, .publishSnapshot transfer descriptor retained ∈ es →
        input = .snapshotPublished transfer descriptor) ∧
      ∀ n' es', n.step input = some (n', es') → n'.Prompt es' inputs

theorem RaftNode.feed_steady {calm : Prop} (hcalm : ¬ calm) {inputs : List Input} :
    ∀ {n : RaftNode} {es : List Effect}, n.Steady calm → n.Waits es →
      n.genesisMembership.state.groupId = legacyGroupId → n.Prompt es inputs →
        ∃ n', n.feed inputs = some n' ∧ n'.Steady calm := by
  induction inputs with
  | nil => exact fun {n _} h _ _ _ => ⟨n, rfl, h⟩
  | cons input inputs ih =>
    intro n es h hwaits hfixed hprompt
    have htakes := hwaits.takes hprompt.1
    obtain ⟨n₁, es₁, hstep, h₁, -⟩ := step_settles h htakes (fun hp _ => h.lands hfixed hp)
      fun hc => absurd hc hcalm
    obtain ⟨raw, hsteps, -⟩ := n.step_steps hstep hwaits.sound htakes
    obtain ⟨n', hfeed, hn'⟩ := ih h₁ (hwaits.step htakes hstep) (hsteps.genesis ▸ hfixed)
      (hprompt.2 n₁ es₁ hstep)
    refine ⟨n', ?_, hn'⟩
    rw [feed, hstep]
    exact hfeed

/-- **A node of a fixed group withstands arbitrary peers.**  Started or rebuilt, and fed any
inputs with prompt reports of its publications, it does not panic; its log is contiguous
from the snapshot boundary, with terms that never fall, start at the boundary's and do not
exceed the current one, and its positions are in order. -/
theorem RaftNode.fixed_group_withstands (hboot : n.Boots)
    (hfixed : n.committedMembership.state.groupId = legacyGroupId) {inputs : List Input}
    (hprompt : n.Prompt [] inputs) :
    ∃ n', n.feed inputs = some n' ∧
      (∀ k e, n'.log[k]? = some e → e.index = n'.snapshotIndex + 1 + k) ∧
      (n'.log.Pairwise fun e e' => e.term ≤ e'.term) ∧
      (∀ e ∈ n'.log, n'.snapshotTerm ≤ e.term ∧ e.term ≤ n'.hard.currentTerm) ∧
      n'.snapshotTerm ≤ n'.hard.currentTerm ∧
      n'.snapshotIndex ≤ n'.lastApplied ∧ n'.lastApplied ≤ n'.commitIndex ∧
      n'.commitIndex ≤ n'.lastLogIndex := by
  have hready : n.Ready False := hboot.ready
  have hgenesis : n.genesisMembership.state.groupId = legacyGroupId :=
    hready.committed_grown.within.1.symm.trans hfixed
  obtain ⟨n', hfeed, hn'⟩ := feed_steady not_false hready.steady
    (.of_idle hready.ordered.contiguous hready.idle) hgenesis hprompt
  obtain ⟨hcont, -, hasc, habove, hcurrent, hboundary, hfloor, happlied, hcommit⟩ := hn'.ordered
  refine ⟨n', hfeed, fun k e he => ?_, hasc, fun e he => ⟨habove e he, hcurrent e he⟩, hboundary,
    hfloor, happlied, hcommit⟩
  rw [hcont k e he]
  omega

/-- Is the input the one the effect asks for, if it asks for one? -/
def Effect.answeredBy (input : Input) : Effect → Bool
  | .publishSnapshot transfer descriptor _ => input = .snapshotPublished transfer descriptor
  | _ => true

theorem all_answeredBy : es.all (Effect.answeredBy input) = true ↔
    ∀ transfer descriptor retained, .publishSnapshot transfer descriptor retained ∈ es →
      input = .snapshotPublished transfer descriptor := by
  rw [List.all_eq_true]
  constructor
  · exact fun h transfer descriptor retained he => of_decide_eq_true (h _ he)
  · intro h e he
    cases e with
    | publishSnapshot transfer descriptor retained => exact decide_eq_true (h _ _ _ he)
    | _ => rfl

/-- The promise can be checked along a run. -/
instance RaftNode.decidablePrompt : (inputs : List Input) → (n : RaftNode) → (es : List Effect) →
    Decidable (n.Prompt es inputs)
  | [], _, _ => .isTrue trivial
  | input :: inputs, n, es =>
      match hstep : n.step input with
      | none =>
          decidable_of_iff (es.all (Effect.answeredBy input) = true) (by
            rw [Prompt, all_answeredBy]
            refine (and_iff_left fun n' es' h => ?_).symm
            rw [hstep] at h
            cases h)
      | some (m, es₁) =>
          have := decidablePrompt inputs m es₁
          decidable_of_iff (es.all (Effect.answeredBy input) = true ∧ m.Prompt es₁ inputs) (by
            rw [Prompt, all_answeredBy]
            refine and_congr_right fun _ => ⟨fun h n' es' hn' => ?_, fun h => h m es₁ hstep⟩
            rw [hstep] at hn'
            cases hn'
            exact h)

/-- An image of the log of a group of one. -/
def hermitImage : SnapshotDescriptor where
  metadata := { lastIncludedIndex := 1, lastIncludedTerm := 1, members := [1], membership := none }
  totalLen := 48
  sha256 := []

/-- A node elects itself, compacts, and then hears from nobody it knows. -/
def hermitInputs : List Input :=
  [.tick 1, .tick 1000, .clientPropose .noOp, .compact hermitImage,
    .snapshotPublished none hermitImage, .message 9 (.appendEntries 5 9 7 5 [⟨3, 9, .noOp⟩] 7 0),
    .message 9 (.installSnapshot ⟨9, 8, 0, 1⟩ hermitImage 3 [] true 0)]

theorem hermit_facts : (RaftNode.new 1 [] 0).any (fun n =>
    decide (n.committedMembership.state.groupId = legacyGroupId) &&
      decide (n.Prompt [] hermitInputs) &&
      (n.feed hermitInputs).any fun n' => n'.snapshotIndex == 1 && n'.lastLogIndex == 2) =
        true := by
  decide +kernel

theorem RaftNode.fixed_group_withstands_hermit :
    ∃ n n' : RaftNode, RaftNode.new 1 [] 0 = some n ∧ n.feed hermitInputs = some n' ∧
      n'.snapshotIndex = 1 ∧ n'.lastLogIndex = 2 ∧
      ∀ k e, n'.log[k]? = some e → e.index = n'.snapshotIndex + 1 + k := by
  obtain ⟨n, hnew, hn⟩ := (Option.any_eq_true _ _).1 hermit_facts
  simp only [Bool.and_eq_true, decide_eq_true_eq] at hn
  obtain ⟨⟨hfixed, hprompt⟩, hfeed⟩ := hn
  obtain ⟨n', hn', hat⟩ := (Option.any_eq_true _ _).1 hfeed
  obtain ⟨n'', hn'', hlog, -⟩ := fixed_group_withstands (.new hnew) hfixed hprompt
  rw [hn'] at hn''
  cases hn''
  simp only [Bool.and_eq_true, beq_iff_eq] at hat
  exact ⟨n, n', hnew, hn', hat.1, hat.2, hlog⟩

end MicroRaft
