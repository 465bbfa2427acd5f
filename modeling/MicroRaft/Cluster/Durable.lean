import MicroRaft.Node.Service
import MicroRaft.Cluster.System

/-!
# The durable image of a node

A node reports every change of its durable state as an effect.  Here the effects
of a batch are executed on an image of the disk, as the driver does it: in order,
and after a snapshot publication the callback is fed at once and its batch is
executed before the rest.  The image ends up equal to what the node has in memory.

* `RaftNode.image`: what should be durable.
* `RaftNode.Executes`: executing a batch.
* `RaftNode.Reached`: the nodes the interface can produce.
-/

namespace MicroRaft

open EffectM

variable {c : Cause} {n n' m : RaftNode} {es raw : List Effect} {d d' : Disk} {input : Input}

/-! ## Images -/

/-- The durable part of the memory. -/
def RaftNode.image (n : RaftNode) : Disk where
  hard := n.hard
  snapshot := n.snapshot
  log := n.log

/-- What is on disk: the memory's image, except that a publication is on disk before the
node hears of it. -/
def RaftNode.onDisk (n : RaftNode) : Disk :=
  match n.publishingSnapshot with
  | none => n.image
  | some p => { hard := n.hard, snapshot := some p.descriptor, log := p.retained }

theorem RaftNode.onDisk_idle (h : n.publishingSnapshot = none) : n.onDisk = n.image := by
  simp [onDisk, h]

theorem RaftNode.onDisk_publishing {p : PublishingSnapshot} (h : n.publishingSnapshot = some p) :
    n.onDisk = { hard := n.hard, snapshot := some p.descriptor, log := p.retained } := by
  simp [onDisk, h]

/-- Taking over a payload writes exactly the log that memory has afterwards. -/
theorem RaftNode.Anchors.cutLog_eq {sender : NodeId} {prev leaderCommit payloadLast kept : Nat}
    {entries : List Entry} (hc : n.Contiguous)
    (ha : n.Anchors c sender prev entries leaderCommit payloadLast) :
    cutLog n.log (if prev - n.snapshotIndex + kept < n.log.length then some (prev + kept + 1)
      else none) = n.log.take (prev - n.snapshotIndex + kept) := by
  have hret := ha.retained
  split
  · rw [cutLog, Numbered.filter_lt hc (by omega),
      show prev + kept + 1 - n.snapshotIndex - 1 = prev - n.snapshotIndex + kept by omega]
  · rw [cutLog, List.take_of_length_le (by omega)]

theorem Disk.execute_note (d : Disk) {e : Effect} (h : e.isNote = true) : d.execute e = d := by
  cases e with
  | persistHardState | persistLogEntries | publishSnapshot => cases h
  | _ => rfl

theorem Move.onDisk (hm : Move c n es n') (hc : n.Contiguous)
    (hidle : n.publishingSnapshot = none) : es.foldl Disk.execute n.image = n'.onDisk := by
  have hquiet (m : RaftNode) (hpub : m.publishingSnapshot = n.publishingSnapshot)
      (hm : m.image = n.image) : n.image = m.onDisk := by
    rw [RaftNode.onDisk_idle (hpub.trans hidle), hm]
  have hwrite (m : RaftNode) (hpub : m.publishingSnapshot = n.publishingSnapshot)
      (e : Effect) (hm : n.image.execute e = m.image) :
        [e].foldl Disk.execute n.image = m.onDisk := by
    rw [RaftNode.onDisk_idle (hpub.trans hidle)]
    exact hm
  cases hm with
  | weaken h =>
    refine hquiet n' h.publishing ?_
    simp only [RaftNode.image, h.hard, h.snapshot, h.log]
  | note h => exact hwrite n rfl _ (Disk.execute_note _ h)
  | progress | peerAck | countVote | refresh | applied | receive | syncApplied | readStart
  | readCount => exact hquiet _ (by rfl) (by rfl)
  | send | adopt | campaign | grant | win | extend | extendConf | apply | rewriteHard
  | applySnapshot | readSelf | readReady => exact hwrite _ (by rfl) _ (by rfl)
  | merge hrole hanchor =>
    refine hwrite _ (by rfl) _ ?_
    simp only [Disk.execute, RaftNode.image, hanchor.cutLog_eq hc]
  | @commit index membership hgt hsafe hmembership =>
    by_cases heq : membership = n.committedMembership
    · rw [if_pos heq]
      refine hquiet _ (by rfl) ?_
      simp only [RaftNode.image, RaftNode.hardWith, if_pos heq]
    · rw [if_neg heq]
      exact hwrite _ (by rfl) _ (by rfl)
  | publish h =>
    rw [RaftNode.onDisk_publishing rfl]
    rfl

/-- **One move keeps disk and memory together.** -/
theorem Step.onDisk (hs : Step c n es n') (hsound : n.Sound) :
    es.foldl Disk.execute n.onDisk = n'.onDisk := by
  cases hs with
  | move hidle hm =>
    rw [RaftNode.onDisk_idle hidle]
    exact hm.onDisk hsound.contiguous hidle
  | land hl =>
    cases hl with
    | compacted hp htransfer =>
      rw [RaftNode.onDisk_publishing hp, RaftNode.onDisk_idle rfl]
      rfl
    | @installed p transfer hard next hp htransfer hhard hnext =>
      rw [RaftNode.onDisk_publishing hp, RaftNode.onDisk_idle rfl]
      by_cases heq : hard = n.hard
      · rw [if_pos heq, heq]
        rfl
      · rw [if_neg heq]
        rfl

/-- **A run of moves keeps disk and memory together.** -/
theorem Steps.onDisk (hs : Steps c n es n') (hsound : n.Sound) :
    es.foldl Disk.execute n.onDisk = n'.onDisk := by
  induction hs with
  | nil => rfl
  | cons hstep _ ih =>
    rw [List.foldl_append, hstep.onDisk hsound]
    exact ih (hstep.sound hsound)

/-! ## Executing a batch -/

/-- The driver executes a batch: effects in order, and a publication is followed by its
callback, whose batch goes first. -/
inductive RaftNode.Executes : RaftNode → Disk → List Effect → RaftNode → Disk → Prop
  | done {n : RaftNode} {d : Disk} : Executes n d [] n d
  | effect {n n' : RaftNode} {d d' : Disk} {e : Effect} {es : List Effect}
      (hplain : e.isPublish = false) (hrest : Executes n (d.execute e) es n' d') :
      Executes n d (e :: es) n' d'
  | publish {n m n' : RaftNode} {d d' : Disk} {transfer : Option SnapshotTransferId}
      {descriptor : SnapshotDescriptor} {retained : List Entry} {es es' : List Effect}
      (hcallback : n.step (.snapshotPublished transfer descriptor) = some (m, es'))
      (hrest : Executes m (d.execute (.publishSnapshot transfer descriptor retained)) (es' ++ es)
        n' d') :
      Executes n d (.publishSnapshot transfer descriptor retained :: es) n' d'

/-- Without a publication, executing is just writing. -/
theorem RaftNode.Executes.plain (h : n.Executes d es n' d')
    (hplain : Only (fun e => e.isPublish = false) es) : n' = n ∧ d' = es.foldl Disk.execute d := by
  induction h with
  | done => exact ⟨rfl, rfl⟩
  | effect _ _ ih => exact ih fun e he => hplain e (List.mem_cons_of_mem _ he)
  | publish => cases hplain _ List.mem_cons_self

theorem RaftNode.executes_plain (n : RaftNode) (d : Disk) :
    ∀ {es : List Effect}, Only (fun e => e.isPublish = false) es →
      n.Executes d es n (es.foldl Disk.execute d)
  | [], _ => .done
  | e :: _, h => .effect (h e List.mem_cons_self)
      (n.executes_plain (d.execute e) fun x hx => h x (List.mem_cons_of_mem _ hx))

theorem Disk.execute_wrapEffect (d : Disk) (known : MembershipState) (e : Effect) :
    d.execute (wrapEffect known e) = d.execute e := by
  cases e with
  | send dest msg => cases msg <;> rfl
  | _ => rfl

theorem Disk.foldl_wrapGroupEffects (d : Disk) (n : RaftNode) (es : List Effect) :
    (n.wrapGroupEffects es).foldl Disk.execute d = es.foldl Disk.execute d := by
  unfold RaftNode.wrapGroupEffects
  dsimp only
  split
  · rfl
  · rw [List.foldl_map]
    simp only [Disk.execute_wrapEffect]

/-- What a step writes is what it changed. -/
theorem RaftNode.step_onDisk (h : n.step input = some (n', es)) (hsound : n.Sound)
    (htakes : n.Takes input) : es.foldl Disk.execute n.onDisk = n'.onDisk ∧ n'.Sound := by
  obtain ⟨raw, hraw, rfl⟩ := n.step_steps h hsound htakes
  rw [Disk.foldl_wrapGroupEffects]
  exact ⟨hraw.onDisk hsound, hraw.sound hsound⟩

/-! ## Batches -/

/-- **Executing a batch leaves on disk what is in memory.** -/
theorem RaftNode.executes_image (hsound : n.Sound) (hidle : n.publishingSnapshot = none)
    (hstep : n.step input = some (m, es)) (hexec : m.Executes n.image es n' d) :
    d = n'.image ∧ n'.Sound ∧ n'.publishingSnapshot = none := by
  have htakes : n.Takes input := by simp [RaftNode.Takes, hidle]
  obtain ⟨hdisk, hm⟩ := n.step_onDisk hstep hsound htakes
  rw [onDisk_idle hidle] at hdisk
  by_cases hpub : ∃ e ∈ es, e.isPublish = true
  · -- the batch is one publication, and the callback is served
    obtain ⟨e, he, hpub⟩ := hpub
    have hready := step_publish_ready hstep he hpub
    cases e with
    | publishSnapshot transfer descriptor retained =>
      obtain rfl := step_publish hstep he
      have hcall : m.Takes (.snapshotPublished transfer descriptor) := by
        unfold Takes
        cases hp : m.publishingSnapshot with
        | none => trivial
        | some p =>
          cases List.mem_singleton.1 (step_publishing hstep hsound hidle hp)
          rfl
      cases hexec with
      | effect hplain => cases hplain
      | @publish _ m' _ _ _ _ _ _ _ es' hcallback hrest =>
        obtain ⟨hdisk', hsound'⟩ := m.step_onDisk hcallback hm hcall
        have hidle' := step_published hcallback hm hcall hready
        rw [List.append_nil] at hrest
        obtain ⟨rfl, rfl⟩ := hrest.plain (step_noPublish hcallback rfl)
        rw [List.foldl_cons, List.foldl_nil] at hdisk
        rw [hdisk, hdisk', onDisk_idle hidle']
        exact ⟨rfl, hsound', hidle'⟩
    | _ => cases hpub
  · have hplain : Only (fun e => e.isPublish = false) es := fun e he =>
      Bool.eq_false_iff.2 fun hcon => hpub ⟨e, he, hcon⟩
    obtain ⟨rfl, rfl⟩ := hexec.plain hplain
    have hidle' : n'.publishingSnapshot = none := by
      by_contra hcon
      obtain ⟨p, hp⟩ := Option.ne_none_iff_exists'.1 hcon
      exact hpub ⟨_, step_publishing hstep hsound hidle hp, rfl⟩
    rw [hdisk, onDisk_idle hidle']
    exact ⟨rfl, hm, hidle'⟩

/-! ## The nodes the interface produces -/

/-- Nodes built or rebuilt, put into a group, and fed inputs whose batches are executed. -/
inductive RaftNode.Reached : RaftNode → Prop
  | new {id : NodeId} {peers : List NodeId} {seed : Nat} {n : RaftNode}
      (h : RaftNode.new id peers seed = some n) : Reached n
  | restore {id : NodeId} {peers : List NodeId} {seed : Nat} {hard : HardState}
      {snapshot : Option SnapshotDescriptor} {log : List Entry} {n : RaftNode}
      (h : restoreWithSnapshot id peers seed hard snapshot log = some (.ok n)) : Reached n
  | join {n n' : RaftNode} {groupId : String} {voters : List NodeId} {es : List Effect}
      (hn : Reached n) (h : n.initializeGroup groupId voters = .ok (n', es)) : Reached n'
  | serve {n m n' : RaftNode} {input : Input} {es : List Effect} {d : Disk} (hn : Reached n)
      (hstep : n.step input = some (m, es)) (hexec : m.Executes n.image es n' d) : Reached n'

theorem restoreWithSnapshot_sound {id : NodeId} {peers : List NodeId} {seed : Nat}
    {hard : HardState} {snapshot : Option SnapshotDescriptor} {log : List Entry}
    (h : restoreWithSnapshot id peers seed hard snapshot log = some (.ok n)) :
    n.Sound ∧ n.publishingSnapshot = none := by
  obtain ⟨-, hlog⟩ := restoreWithSnapshot_checks h
  obtain ⟨g₀, r, genesis, -, -, rfl⟩ := restoreWithSnapshot_eq_ok h
  exact ⟨.of_idle (checkRestoredLog_eq_ok hlog).numbered rfl, rfl⟩

theorem RaftNode.initializeGroup_sound {groupId : String} {voters : List NodeId}
    (h : n.initializeGroup groupId voters = .ok (n', es))
    (hn : n.Sound ∧ n.publishingSnapshot = none) : n'.Sound ∧ n'.publishingSnapshot = none := by
  obtain ⟨genesis, -, h⟩ := bind_eq_ok.1 h
  split at h
  · cases h
  split at h
  · split at h
    · cases h
      exact hn
    · cases h
  · split at h
    · cases h
    · cases h
      exact ⟨.of_idle hn.1.contiguous hn.2, hn.2⟩

/-- Between batches a node is not waiting for anything, and its log is numbered. -/
theorem RaftNode.Reached.sound (h : n.Reached) : n.Sound ∧ n.publishingSnapshot = none := by
  induction h with
  | new h =>
    obtain ⟨g₀, -, rfl⟩ := RaftNode.new_eq_some h
    exact ⟨.of_idle Numbered.nil rfl, rfl⟩
  | restore h => exact restoreWithSnapshot_sound h
  | join hn h ih => exact initializeGroup_sound h ih
  | serve hn hstep hexec ih => exact (executes_image ih.1 ih.2 hstep hexec).2

/-! ## Proposals that are taken -/

/-- The node takes the proposal. -/
structure RaftNode.Accepts (n : RaftNode) (commands : List Command) : Prop where
  ready : n.recoveryPending = false
  leads : n.isLeader = true
  votes : n.isVoter n.id = true
  plain : commands.any Command.isConfiguration = false
  short : commands.length ≤ maxProposalBatch
  room : (nextIndex n.lastLogIndex commands.length).isSome = true

theorem onClientProposeBatch_accepted {commands : List Command} {u : Unit}
    (h : onClientProposeBatch commands n = some (u, n', es)) (hne : commands ≠ [])
    (hready : n.recoveryPending = false) :
    (∃ i, .proposeAccepted i ∈ es) ↔ n.Accepts commands := by
  unfold onClientProposeBatch at h
  rw [peek_bind, if_neg hne] at h
  have hrejected {l : List Command} :
      ¬ ∃ i, Effect.proposeAccepted i ∈ l.map fun _ => Effect.proposeRejected n.leaderHint := by
    simp
  cases hfinal : nextIndex n.lastLogIndex commands.length with
  | none =>
    simp only [hfinal] at h
    cases h
    refine iff_of_false hrejected fun ha => ?_
    have hroom := ha.room
    rw [hfinal] at hroom
    cases hroom
  | some finalIndex =>
  simp only [hfinal] at h
  split at h
  · next hbad =>
      cases h
      refine iff_of_false hrejected fun ha => ?_
      have hshort := ha.short
      rcases hbad with hlead | hvoter | hconf | hlong
      · rw [ha.leads] at hlead
        cases hlead
      · rw [ha.votes] at hvoter
        cases hvoter
      · rw [ha.plain] at hconf
        cases hconf
      · omega
  next hok =>
  simp only [not_or, Bool.not_eq_false, Bool.not_eq_true, not_lt] at hok
  obtain ⟨hlead, hvoter, hconf, hshort⟩ := hok
  obtain ⟨n₁, rfl, h⟩ := update_bind_inv h
  obtain ⟨e₁, h₁, rfl⟩ := emit_bind_inv h
  obtain ⟨e₂, h₂, rfl⟩ := emits_bind_inv h₁
  refine iff_of_true ?_ ⟨hready, hlead, hvoter, hconf, hshort, by rw [hfinal]; rfl⟩
  obtain ⟨command, rest, rfl⟩ := List.exists_cons_of_ne_nil hne
  refine ⟨n.lastLogIndex + 1, List.mem_cons_of_mem _ (List.mem_append_left _ ?_)⟩
  have hnum := proposedEntries_numbered n.lastLogIndex n.hard.currentTerm (command :: rest)
  have hlen := proposedEntries_length n.lastLogIndex n.hard.currentTerm (command :: rest)
  obtain ⟨e, es, hes⟩ := List.exists_cons_of_length_pos
    (l := proposedEntries n.lastLogIndex n.hard.currentTerm (command :: rest)) (by simp [hlen])
  rw [hes] at hnum ⊢
  rw [← (Numbered.cons_iff.1 hnum).1]
  exact List.mem_map_of_mem List.mem_cons_self

/-- A proposal that a node takes although it then commits an older membership change as
well: the acknowledgement is out before the change is durable. -/
def RaftNode.AcknowledgesEarly (n : RaftNode) (input : Input) : Prop :=
  n.Accepts input.proposals ∧ n.Exposed input

theorem RaftNode.step_acknowledgesEarly (h : n.step input = some (n', es)) :
    n.AcknowledgesEarly input ↔ n.Exposed input ∧ ∃ i, .proposeAccepted i ∈ es := by
  unfold AcknowledgesEarly
  rw [and_comm]
  refine and_congr_right fun hexp => ?_
  by_cases hready : n.recoveryPending = true
  · -- a node in recovery answers nothing
    unfold step at h
    rw [if_pos ⟨hready, by rintro rfl; exact hexp.1 rfl⟩] at h
    cases h
    refine iff_of_false (fun ha => ?_) (by simp)
    cases hready.symm.trans ha.ready
  · rw [Bool.not_eq_true] at hready
    unfold step at h
    rw [if_neg (by simp [hready])] at h
    obtain ⟨⟨u, m, raw⟩, hraw, heq⟩ := Option.map_eq_some_iff.1 h
    have hbatch : onClientProposeBatch input.proposals n = some (u, m, raw) := by
      cases input with
      | clientPropose | clientProposeBatch => exact hraw
      | _ => exact absurd rfl hexp.1
    rw [← onClientProposeBatch_accepted hbatch hexp.1 hready]
    cases heq
    unfold wrapGroupEffects
    dsimp only
    split
    · rfl
    · simp only [List.mem_map, wrapEffect_eq_proposeAccepted, exists_eq_right]

/-! ## The guarantee -/

/-- **Disk and memory agree after every batch, and every batch passes the audit.**  Messages,
acknowledgements and applied entries come after everything persisted, in the batch of the
input and in that of a publication's callback, except when the node acknowledges early. -/
theorem durable_before_sent (hn : n.Reached) (hstep : n.step input = some (m, es)) :
    (∀ n' d, m.Executes n.image es n' d → d = n'.image) ∧
    auditPersistBeforeSend es = .ok () ∧
    (PersistsFirst es ↔ ¬ n.AcknowledgesEarly input) ∧
    ∀ transfer descriptor retained, .publishSnapshot transfer descriptor retained ∈ es →
      ∀ n' es', m.step (.snapshotPublished transfer descriptor) = some (n', es') →
        PersistsFirst es' ∧ auditPersistBeforeSend es' = .ok () := by
  obtain ⟨hsound, hidle⟩ := hn.sound
  have htakes : n.Takes input := by simp [RaftNode.Takes, hidle]
  refine ⟨fun n' d hexec => ?_, n.step_audit hstep, ?_, ?_⟩
  · exact (RaftNode.executes_image hsound hidle hstep hexec).1
  · rw [RaftNode.step_acknowledgesEarly hstep]
    exact n.step_persistsFirst hsound.contiguous hstep
  · intro transfer descriptor retained _ n' es' hcallback
    refine ⟨?_, m.step_audit hcallback⟩
    rw [m.step_persistsFirst (n.step_onDisk hstep hsound htakes).2.contiguous hcallback]
    exact fun hexp => hexp.1.1 rfl

/-! ## Serving inputs -/

/-- An input, its batch, and the callback of a publication. -/
def RaftNode.serve (n : RaftNode) (input : Input) : Option RaftNode :=
  (n.step input).bind fun r =>
    match r.2 with
    | [.publishSnapshot transfer descriptor _] =>
        (r.1.step (.snapshotPublished transfer descriptor)).map Prod.fst
    | _ => some r.1

theorem RaftNode.Reached.serve_reached (hn : n.Reached) (h : n.serve input = some n') :
    n'.Reached := by
  obtain ⟨⟨m, es⟩, hstep, h⟩ := Option.bind_eq_some_iff.1 h
  dsimp only at h
  split at h
  · next transfer descriptor retained =>
      obtain ⟨⟨m', es'⟩, hcallback, rfl⟩ := Option.map_eq_some_iff.1 h
      have hrest := m'.executes_plain
        (n.image.execute (.publishSnapshot transfer descriptor retained))
        (step_noPublish hcallback rfl)
      exact .serve hn hstep (.publish hcallback ((List.append_nil es').symm ▸ hrest))
  · next hplain =>
      cases h
      refine .serve hn hstep (n'.executes_plain _ fun e he => ?_)
      by_contra hpub
      cases e with
      | publishSnapshot transfer descriptor retained =>
        exact hplain _ _ _ (step_publish hstep he)
      | _ => exact hpub rfl

def RaftNode.serveAll (n : RaftNode) (inputs : List Input) : Option RaftNode :=
  inputs.foldlM RaftNode.serve n

theorem RaftNode.Reached.serveAll_reached {inputs : List Input} (hn : n.Reached)
    (h : n.serveAll inputs = some n') : n'.Reached := by
  unfold serveAll at h
  induction inputs generalizing n with
  | nil =>
    cases h
    exact hn
  | cons input inputs ih =>
    rw [List.foldlM_cons] at h
    obtain ⟨m, hm, hrest⟩ := Option.bind_eq_some_iff.1 h
    exact ih (hn.serve_reached hm) hrest

/-! ## An early acknowledgement -/

/-- An image of a legacy node that records its membership. -/
def recordedImage : SnapshotDescriptor :=
  { metadata := { lastIncludedIndex := 1, lastIncludedTerm := 1, members := [1],
                  membership := (CommittedMembership.bootstrap [1]).toOption }
    totalLen := minSnapshotBytes, sha256 := [] }

/-- The image the node takes after it has joined a group, without a membership. -/
def plainImage : SnapshotDescriptor :=
  { metadata := { lastIncludedIndex := 2, lastIncludedTerm := 2, members := [1],
                  membership := none }
    totalLen := minSnapshotBytes, sha256 := [] }

/-- A node alone takes `recordedImage`, is restarted, joins a group, is elected again and takes
`plainImage`. -/
def migrated : Option RaftNode := do
  let n ← RaftNode.new 1 [] 0
  let n ← n.serveAll [.tick 0, .tick 1000, .compact recordedImage]
  let n ← (← restoreWithSnapshot 1 [] 0 n.hard n.snapshot n.log).toOption
  let (n, _) ← (n.initializeGroup "g" [1]).toOption
  n.serveAll [.tick 0, .tick 1000, .compact plainImage]

theorem migrated_reached (h : migrated = some n) : n.Reached := by
  unfold migrated at h
  simp only [Option.bind_eq_bind, Option.bind_eq_some_iff] at h
  obtain ⟨n₁, hnew, n₂, -, r, hrestore, n₃, hok, ⟨n₄, es⟩, hjoin, hserve⟩ := h
  rw [toOption_eq_some hok] at hrestore
  exact ((RaftNode.Reached.restore hrestore).join (toOption_eq_some hjoin)).serveAll_reached hserve

/-- The proposal that is acknowledged early. -/
def earlyProposal : Input := .clientPropose (.put "k" "v")

instance : DecidablePred PersistsFirst := fun es =>
  inferInstanceAs (Decidable (es.Pairwise fun e e' => e.isOutward = true → e'.isPersist = false))

theorem migrated_step : ∃ n m es, migrated = some n ∧ n.step earlyProposal = some (m, es) ∧
    ¬ PersistsFirst es := by
  have hrun : ((migrated.bind fun n => n.step earlyProposal).any
      fun r => decide (¬ PersistsFirst r.2)) = true := by
    decide +kernel
  obtain ⟨⟨m, es⟩, hstep, hnot⟩ := (Option.any_eq_true _ _).1 hrun
  obtain ⟨n, hn, hstep⟩ := Option.bind_eq_some_iff.1 hstep
  exact ⟨n, m, es, hn, hstep, of_decide_eq_true hnot⟩

/-- **A reachable node acknowledges a proposal before it persists its hard state.** -/
theorem acknowledged_before_durable : ∃ (n m : RaftNode) (es : List Effect), n.Reached ∧
    n.step earlyProposal = some (m, es) ∧ ¬ PersistsFirst es := by
  obtain ⟨n, m, es, hn, hstep, hnot⟩ := migrated_step
  exact ⟨n, m, es, migrated_reached hn, hstep, hnot⟩

theorem durable_before_sent_migrated : ∃ (n m : RaftNode) (es : List Effect), n.Reached ∧
    n.step earlyProposal = some (m, es) ∧ auditPersistBeforeSend es = .ok () ∧
    (PersistsFirst es ↔ ¬ n.AcknowledgesEarly earlyProposal) := by
  obtain ⟨n, m, es, hn, hstep, -⟩ := migrated_step
  have hall := durable_before_sent (migrated_reached hn) hstep
  exact ⟨n, m, es, migrated_reached hn, hstep, hall.2.1, hall.2.2.1⟩

end MicroRaft
