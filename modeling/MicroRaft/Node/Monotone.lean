import MicroRaft.Node.Service

/-!
# Progress is never taken back

Terms, votes, commitment, application and compaction only move forward, and what
is committed stays what it is.  Every move is checked once (`Step.advances`); a
run of moves is then a chain of a preorder (`Advances.trans`).

* `RaftNode.Advances`: what a node keeps of an earlier state of itself.
* `RaftNode.Poised`: what the moves need to know, between handlers too.
* `RaftNode.perform`: a node under a driver, with everything it emitted.
* `RaftNode.Steady.step_advances`: what every step of a node keeps.
-/

namespace MicroRaft

variable {c : Cause} {n n' n'' m : RaftNode} {es raw : List Effect} {input : Input}

namespace RaftNode

/-! ## Keeping what one has -/

/-- The log of `n'` is that of `n` with entries added at the end and compacted at the front. -/
def LogGrows (n n' : RaftNode) : Prop :=
  ∃ k more, n'.log = n.log.drop k ++ more ∧ n'.snapshotIndex = n.snapshotIndex + k

theorem LogGrows.refl (n : RaftNode) : n.LogGrows n :=
  ⟨0, [], by simp, rfl⟩

theorem LogGrows.trans (h : n.LogGrows n') (h' : n'.LogGrows n'') : n.LogGrows n'' := by
  obtain ⟨k, more, hlog, hindex⟩ := h
  obtain ⟨k', more', hlog', hindex'⟩ := h'
  refine ⟨k + k', more.drop (k' - (n.log.drop k).length) ++ more', ?_, by omega⟩
  rw [hlog', hlog, List.drop_append, List.drop_drop, List.append_assoc]

/-- What `n'` keeps of `n`. -/
structure Advances (n n' : RaftNode) : Prop where
  term : n.hard.currentTerm ≤ n'.hard.currentTerm
  /-- A vote is for the whole term. -/
  vote : n'.hard.currentTerm = n.hard.currentTerm → ∀ {v : NodeId}, n.hard.votedFor = some v →
    n'.hard.votedFor = some v
  commit : n.commitIndex ≤ n'.commitIndex
  applied : n.lastApplied ≤ n'.lastApplied
  boundary : n.snapshotIndex ≤ n'.snapshotIndex
  /-- A committed entry can only disappear below a new boundary. -/
  committed : ∀ {i : Nat}, i ≤ n.commitIndex → n'.snapshotIndex < i → n'.entryAt i = n.entryAt i
  /-- No stage of a term comes back. -/
  stage : n'.hard.currentTerm = n.hard.currentTerm → n.role.stage ≤ n'.role.stage
  /-- A leader never rewrites its log. -/
  lead : n'.hard.currentTerm = n.hard.currentTerm → n.isLeader = true → n'.isLeader = true →
    n.LogGrows n'

theorem Advances.refl (n : RaftNode) : n.Advances n :=
  ⟨le_rfl, fun _ {_} h => h, le_rfl, le_rfl, le_rfl, fun {_} _ _ => rfl, fun _ => le_rfl,
    fun _ _ _ => .refl n⟩

theorem Advances.trans (h : n.Advances n') (h' : n'.Advances n'') : n.Advances n'' := by
  have hboth : n''.hard.currentTerm = n.hard.currentTerm →
      n'.hard.currentTerm = n.hard.currentTerm ∧
        n''.hard.currentTerm = n'.hard.currentTerm := by
    intro heq
    have h₁ := h.term
    have h₂ := h'.term
    omega
  constructor
  · exact h.term.trans h'.term
  · intro heq v hv
    exact h'.vote (hboth heq).2 (h.vote (hboth heq).1 hv)
  · exact h.commit.trans h'.commit
  · exact h.applied.trans h'.applied
  · exact h.boundary.trans h'.boundary
  · intro i hi hlt
    rw [h'.committed (hi.trans h.commit) hlt, h.committed hi (h'.boundary.trans_lt hlt)]
  · intro heq
    exact (h.stage (hboth heq).1).trans (h'.stage (hboth heq).2)
  · intro heq hl hl''
    -- a leader at both ends of a term was leader in between
    have hl' : n'.isLeader = true := by
      have h₁ := h.stage (hboth heq).1
      have h₂ := h'.stage (hboth heq).2
      rw [isLeader_iff_stage] at hl hl'' ⊢
      omega
    exact (h.lead (hboth heq).1 hl hl').trans (h'.lead (hboth heq).2 hl' hl'')

/-- A change that leaves log, image and positions alone. -/
theorem Advances.of_log (hterm : n.hard.currentTerm ≤ n'.hard.currentTerm)
    (hvote : n'.hard.currentTerm = n.hard.currentTerm → ∀ {v : NodeId},
      n.hard.votedFor = some v → n'.hard.votedFor = some v)
    (hcommit : n.commitIndex ≤ n'.commitIndex) (happlied : n.lastApplied ≤ n'.lastApplied)
    (hlog : n'.log = n.log) (hsnapshot : n'.snapshot = n.snapshot)
    (hstage : n'.hard.currentTerm = n.hard.currentTerm → n.role.stage ≤ n'.role.stage) :
    n.Advances n' := by
  have hindex := snapshotIndex_congr hsnapshot
  refine ⟨hterm, hvote, hcommit, happlied, hindex.ge, ?_, hstage, ?_⟩
  · intro i _ _
    unfold entryAt
    rw [hindex, hlog]
  · intro _ _ _
    exact ⟨0, [], by simp [hlog], hindex⟩

/-- A change of what the node remembers besides its durable state and positions. -/
theorem Advances.of_stage (hhard : n'.hard = n.hard) (hlog : n'.log = n.log)
    (hsnapshot : n'.snapshot = n.snapshot) (hcommit : n'.commitIndex = n.commitIndex)
    (happlied : n'.lastApplied = n.lastApplied) (hstage : n.role.stage ≤ n'.role.stage) :
    n.Advances n' := by
  refine .of_log (by rw [hhard]) ?_ hcommit.ge happlied.ge hlog hsnapshot fun _ => hstage
  intro _ v hv
  rwa [hhard]

/-- Appending at the end of the log. -/
theorem Advances.of_append {l : List Entry} (hc : n.Contiguous)
    (hreach : n.commitIndex ≤ n.lastLogIndex) (hhard : n'.hard = n.hard)
    (hlog : n'.log = n.log ++ l) (hsnapshot : n'.snapshot = n.snapshot)
    (hcommit : n'.commitIndex = n.commitIndex) (happlied : n'.lastApplied = n.lastApplied)
    (hstage : n.role.stage ≤ n'.role.stage) : n.Advances n' := by
  have hindex := snapshotIndex_congr hsnapshot
  refine ⟨by rw [hhard], ?_, hcommit.ge, happlied.ge, hindex.ge, ?_, fun _ => hstage, ?_⟩
  · intro _ v hv
    rwa [hhard]
  · intro i hi hlt
    rw [hc.lastLogIndex] at hreach
    unfold entryAt
    rw [hindex, hlog]
    split
    · rw [List.getElem?_append_left (by omega)]
    · rfl
  · intro _ _ _
    exact ⟨0, l, by simp [hlog], hindex⟩

end RaftNode

/-! ## What moves need to know -/

/-- What a node waiting for the publication of `p` relies on. -/
structure RaftNode.Outlook (n : RaftNode) (p : PublishingSnapshot) : Prop where
  retained : p.retained = n.retainedSuffix p.descriptor
  compaction : p.transfer = none →
    n.snapshotIndex ≤ p.descriptor.metadata.lastIncludedIndex ∧
      p.descriptor.metadata.lastIncludedIndex ≤ n.lastApplied ∧
      n.logTerm p.descriptor.metadata.lastIncludedIndex =
        some p.descriptor.metadata.lastIncludedTerm
  install : p.transfer ≠ none → n.role = .follower ∧
    n.lastApplied < p.descriptor.metadata.lastIncludedIndex ∧
    n.commitIndex ≤ p.descriptor.metadata.lastIncludedIndex

/-- The positions are in order, and only a follower takes an image from outside.  Unlike the
representation invariant this holds in the middle of a handler. -/
structure RaftNode.Poised (n : RaftNode) : Prop where
  sound : n.Sound
  floor : n.snapshotIndex ≤ n.commitIndex
  applied : n.lastApplied ≤ n.commitIndex
  commit : n.commitIndex ≤ n.lastLogIndex
  incoming : n.incomingSnapshot ≠ none → n.role = .follower
  outlook : ∀ {p : PublishingSnapshot}, n.publishingSnapshot = some p → n.Outlook p

/-- A node between two inputs is poised. -/
theorem RaftNode.Steady.poised {calm : Prop} (h : n.Steady calm) (hsound : n.Sound) :
    n.Poised where
  sound := hsound
  floor := h.ordered.floor.trans h.ordered.applied
  applied := h.ordered.applied
  commit := h.ordered.commit
  incoming hne := by
    obtain ⟨x, hx⟩ := Option.ne_none_iff_exists'.1 hne
    exact (h.incoming hx).2
  outlook {p} hp := by
    have hl := h.landing hp
    refine ⟨hl.retained, fun hnone => ?_, fun hne => ?_⟩
    · obtain ⟨hlt, hle, hterm, -⟩ := hl.compaction hnone
      exact ⟨hlt.le, hle, hterm⟩
    · exact hl.install hne

/-- A payload the log holds completely ends inside the log. -/
theorem RaftNode.LeaderSays.le_lastLogIndex {index : Nat} (h : n.LeaderSays c index)
    (hc : n.Contiguous) : index ≤ n.lastLogIndex := by
  obtain ⟨-, sender, prev, entries, leaderCommit, payloadLast, ha, hheld, rfl⟩ := h
  obtain ⟨prevTerm, round, -, hvalid, -⟩ := ha.heard
  obtain ⟨hlast, -, -⟩ := validateAppendEntries_eq_some hvalid
  have hfit : prev - n.snapshotIndex + entries.length ≤ n.log.length := by
    refine ha.kept_le hc le_rfl fun i _ e he => ?_
    exact hheld e (List.mem_of_getElem? he)
  have hret := ha.retained
  have hend := hc.lastLogIndex
  omega

/-- The first entry of the payload that the log lacks is not committed. -/
theorem RaftNode.Anchors.commit_le_kept {sender : NodeId} {prev leaderCommit payloadLast : Nat}
    {entries : List Entry} {kept : Nat}
    (ha : n.Anchors c sender prev entries leaderCommit payloadLast)
    (hcommitted : n.conflictsCommitted entries = false) (hlt : kept < entries.length)
    (hstop : ∀ e, entries[kept]? = some e → n.logTerm e.index ≠ some e.term) :
    n.commitIndex ≤ prev + kept := by
  obtain ⟨prevTerm, round, -, hvalid, -⟩ := ha.heard
  obtain ⟨-, -, hnumbered⟩ := validateAppendEntries_eq_some hvalid
  have hget := List.getElem?_eq_getElem hlt
  have hindex := hnumbered _ _ hget
  by_contra hcon
  rw [conflictsCommitted, List.any_eq_false] at hcommitted
  refine hcommitted _ (List.mem_of_getElem? hget) ?_
  rw [Bool.and_eq_true, decide_eq_true_eq, decide_eq_true_eq]
  exact ⟨by omega, hstop _ hget⟩

/-! ## One move -/

/-- A vote that is granted was free, or given to the same candidate before. -/
theorem decideVote_votedFor {hard : HardState} {last : Nat × Nat} {req : RequestVoteRq}
    (h : decideVote hard last req = true) {v : NodeId} (hv : hard.votedFor = some v) :
    req.candidateId = v := by
  unfold decideVote at h
  rw [hv] at h
  by_contra hne
  simp [Ne.symm hne] at h

@[simp] theorem RaftNode.hardWith_currentTerm (n : RaftNode) (membership : CommittedMembership) :
    (n.hardWith membership).currentTerm = n.hard.currentTerm := by
  unfold hardWith
  split <;> rfl

@[simp] theorem RaftNode.hardWith_votedFor (n : RaftNode) (membership : CommittedMembership) :
    (n.hardWith membership).votedFor = n.hard.votedFor := by
  unfold hardWith
  split <;> rfl

/-- Giving up claims does not bring a stage back. -/
theorem RaftNode.Weakens.stage_le (h : n.Weakens n') : n.role.stage ≤ n'.role.stage := by
  rcases h.role with heq | hfollower | ⟨-, prospective, campaign, votes, hprobe⟩
  · rw [heq]
  · rw [hfollower]
    exact n.role.stage_le
  · rw [hprobe]
    exact n.role.stage_le

theorem Move.advances (hm : Move c n es n') (h : n.Poised) : n.Advances n' := by
  have hc := h.sound.contiguous
  cases hm with
  | weaken hw =>
    exact .of_stage hw.hard hw.log hw.snapshot hw.commitIndex hw.lastApplied hw.stage_le
  | progress hrole =>
    exact .of_stage rfl rfl rfl rfl rfl (by rw [hrole]; exact le_rfl)
  | peerAck hrole =>
    exact .of_stage rfl rfl rfl rfl rfl (by rw [hrole]; exact le_rfl)
  | adopt hterm =>
    exact .of_log hterm.le (fun heq => absurd heq hterm.ne') le_rfl le_rfl rfl rfl
      fun heq => absurd heq hterm.ne'
  | campaign hterm =>
    subst hterm
    exact .of_log (Nat.le_succ _) (fun heq => absurd heq (Nat.succ_ne_self _)) le_rfl le_rfl rfl
      rfl fun heq => absurd heq (Nat.succ_ne_self _)
  | grant _ hdecide =>
    refine .of_log le_rfl ?_ le_rfl le_rfl rfl rfl fun _ => le_rfl
    intro _ v hv
    exact congrArg some (decideVote_votedFor hdecide hv)
  | countVote hrole =>
    exact .of_stage rfl rfl rfl rfl rfl (by rw [hrole]; exact le_rfl)
  | win hrole =>
    exact .of_append hc h.commit rfl rfl rfl rfl rfl (by rw [hrole]; exact Nat.zero_le _)
  | extend => exact .of_append hc h.commit rfl rfl rfl rfl rfl le_rfl
  | extendConf => exact .of_append hc h.commit rfl rfl rfl rfl rfl le_rfl
  | @merge sender prev _ _ entries kept _ hrole hanchor hcommitted hkept hlt hstop =>
    -- the cut is above the commit index, and only followers merge
    have hcut := hanchor.commit_le_kept hcommitted hlt hstop
    have hfit := hanchor.kept_le hc hlt.le hkept
    have hret := hanchor.retained
    refine ⟨le_rfl, fun _ {_} hv => hv, le_rfl, le_rfl, le_rfl, ?_, fun _ => le_rfl, ?_⟩
    · intro i hi hlow
      have hlow' : n.snapshotIndex < i := hlow
      rw [RaftNode.entryAt, RaftNode.entryAt, if_pos hlow, if_pos hlow']
      change (n.log.take (prev - n.snapshotIndex + kept) ++ entries.drop kept)[
        i - n.snapshotIndex - 1]? = _
      rw [List.getElem?_append_left (by rw [List.length_take]; omega), List.getElem?_take,
        if_pos (by omega)]
    · intro _ hlead
      simp [RaftNode.isLeader, hrole] at hlead
  | commit hgt =>
    refine .of_log (by simp) ?_ hgt.le le_rfl rfl rfl fun _ => le_rfl
    intro _ v hv
    simpa using hv
  | applied hge =>
    exact .of_log le_rfl (fun _ {_} hv => hv) le_rfl hge rfl rfl fun _ => le_rfl
  | syncApplied =>
    exact .of_log le_rfl (fun _ {_} hv => hv) le_rfl h.applied rfl rfl fun _ => le_rfl
  | note | send | apply | rewriteHard | applySnapshot => exact .refl n
  | refresh | receive | publish | readStart | readSelf | readCount | readReady =>
    exact .of_stage rfl rfl rfl rfl rfl le_rfl

theorem Land.advances (hl : Land n es n') (h : n.Poised) : n.Advances n' := by
  cases hl with
  | @compacted p hp htransfer =>
    obtain ⟨hlow, hhigh, hterm⟩ := (h.outlook hp).compaction htransfer
    have hlog := (h.outlook hp).retained.trans (h.sound.contiguous.retainedSuffix_eq hterm)
    refine ⟨le_rfl, fun _ {_} hv => hv, le_rfl, le_rfl, hlow, ?_, fun _ => le_rfl, ?_⟩
    · intro i _ hi
      have hi' : p.descriptor.metadata.lastIncludedIndex < i := hi
      rw [RaftNode.entryAt, RaftNode.entryAt, if_pos hi, if_pos (by omega)]
      change p.retained[i - p.descriptor.metadata.lastIncludedIndex - 1]? = _
      rw [hlog, List.getElem?_drop]
      congr 1
      omega
    · intro _ _ _
      refine ⟨p.descriptor.metadata.lastIncludedIndex - n.snapshotIndex, [], ?_, ?_⟩
      · rw [List.append_nil]
        exact hlog
      · change p.descriptor.metadata.lastIncludedIndex = _
        omega
  | @installed p transfer hard next hp htransfer hhard =>
    obtain ⟨hrole, -, hle⟩ := (h.outlook hp).install (by rw [htransfer]; nofun)
    subst hhard
    refine ⟨le_rfl, fun _ {_} hv => hv, hle, le_rfl, h.floor.trans hle, ?_, fun _ => le_rfl, ?_⟩
    · -- nothing that was committed is above the installed boundary
      intro i hi hlt
      have hlt' : p.descriptor.metadata.lastIncludedIndex < i := hlt
      omega
    · intro _ hlead
      simp [RaftNode.isLeader, hrole] at hlead

/-! ## Staying poised -/

/-- Only followers have an image under way, whatever else a node gives up. -/
theorem RaftNode.Weakens.incoming_follower (h : n.Weakens n')
    (hincoming : n.incomingSnapshot ≠ none → n.role = .follower) :
    n'.incomingSnapshot ≠ none → n'.role = .follower := by
  intro hne
  obtain ⟨i', hi'⟩ := Option.ne_none_iff_exists'.1 hne
  obtain ⟨i, hi, -, -⟩ := h.incoming hi'
  have hrole := hincoming (by rw [hi]; nofun)
  rcases h.role with heq | hfollower | ⟨hnone | hprobe, -⟩
  · rw [heq, hrole]
  · exact hfollower
  · exact absurd hnone hne
  · obtain ⟨_, _, _, hprobe⟩ := hprobe
    rw [hrole] at hprobe
    cases hprobe

/-- The end of the log moves only forward or is cut above the commit index. -/
theorem Move.commit_le (hm : Move c n es n') (h : n.Poised) : n'.commitIndex ≤ n'.lastLogIndex := by
  have hc := h.sound.contiguous
  have hreach := h.commit
  rw [hc.lastLogIndex] at hreach
  rw [(hm.contiguous hc).lastLogIndex]
  cases hm with
  | weaken hw => rwa [hw.commitIndex, RaftNode.snapshotIndex_congr hw.snapshot, hw.log]
  | win | extend | extendConf =>
    refine hreach.trans (Nat.add_le_add_left ?_ _)
    simp
  | merge hrole hanchor hcommitted hkept hlt hstop =>
    have hcut := hanchor.commit_le_kept hcommitted hlt hstop
    have hfit := hanchor.kept_le hc hlt.le hkept
    have hret := hanchor.retained
    refine hcut.trans ?_
    change _ ≤ n.snapshotIndex + _
    rw [List.length_append, List.length_take, List.length_drop]
    omega
  | commit hgt hsafe =>
    refine le_of_le_of_eq ?_ hc.lastLogIndex
    rcases hsafe with hquorum | hsays
    · exact hquorum.2.1
    · exact hsays.le_lastLogIndex hc
  | _ => exact hreach

theorem Move.floor (hm : Move c n es n') (h : n.Poised) :
    n'.snapshotIndex ≤ n'.commitIndex ∧ n'.lastApplied ≤ n'.commitIndex := by
  cases hm with
  | weaken hw =>
    rw [RaftNode.snapshotIndex_congr hw.snapshot, hw.commitIndex, hw.lastApplied]
    exact ⟨h.floor, h.applied⟩
  | commit hgt => exact ⟨h.floor.trans hgt.le, h.applied.trans hgt.le⟩
  | applied hge hle => exact ⟨h.floor, hle⟩
  | syncApplied => exact ⟨h.floor, le_rfl⟩
  | _ => exact ⟨h.floor, h.applied⟩

theorem Move.incoming_follower (hm : Move c n es n') (h : n.Poised) :
    n'.incomingSnapshot ≠ none → n'.role = .follower := by
  have hin := h.incoming
  cases hm with
  | weaken hw => exact hw.incoming_follower hin
  | adopt => exact fun _ => rfl
  | receive hrole => exact fun _ => hrole
  | syncApplied => exact fun hne => absurd rfl hne
  | progress hrole | peerAck hrole | countVote hrole | win hrole =>
    intro hne
    have := hin hne
    rw [hrole] at this
    cases this
  | campaign _ hrole =>
    intro hne
    obtain ⟨_, _, _, hrole⟩ := hrole
    have := hin hne
    rw [hrole] at this
    cases this
  | _ => exact hin

/-- Waiting begins with what a publication requires. -/
theorem Move.outlook (hm : Move c n es n') (h : n.Poised) (hidle : n.publishingSnapshot = none)
    {p : PublishingSnapshot} (hp : n'.publishingSnapshot = some p) : n'.Outlook p := by
  cases hm with
  | weaken hw =>
    rw [hw.publishing, hidle] at hp
    cases hp
  | @publish transfer descriptor round hpub =>
    cases hp
    refine ⟨rfl, fun hnone => ?_, fun hne => ?_⟩
    · obtain rfl : transfer = none := hnone
      obtain ⟨-, -, -, hlow, happlied, -, hterm⟩ := hpub
      exact ⟨hlow.le, happlied, hterm⟩
    · obtain ⟨transfer, rfl⟩ := Option.ne_none_iff_exists'.1 hne
      obtain ⟨-, -, happlied, hcommit, i, hi, -, -⟩ := hpub
      exact ⟨h.incoming (by rw [hi]; nofun), happlied, hcommit⟩
  | _ =>
    rw [show n.publishingSnapshot = some p from hp] at hidle
    cases hidle

theorem Step.poised (hs : Step c n es n') (h : n.Poised) : n'.Poised := by
  have hsound := hs.sound h.sound
  cases hs with
  | move hidle hm =>
    exact ⟨hsound, (hm.floor h).1, (hm.floor h).2, hm.commit_le h, hm.incoming_follower h,
      fun {p} hp => hm.outlook h hidle hp⟩
  | land hl =>
    cases hl with
    | @compacted p hp htransfer =>
      obtain ⟨hlow, hhigh, hterm⟩ := (h.outlook hp).compaction htransfer
      refine ⟨hsound, hhigh.trans h.applied, h.applied, ?_, h.incoming, nofun⟩
      have hlog := (h.outlook hp).retained.trans (h.sound.contiguous.retainedSuffix_eq hterm)
      have hreach := h.commit
      rw [h.sound.contiguous.lastLogIndex] at hreach
      rw [hsound.contiguous.lastLogIndex]
      change n.commitIndex ≤ p.descriptor.metadata.lastIncludedIndex + p.retained.length
      rw [hlog, List.length_drop]
      omega
    | @installed p transfer hard next hp htransfer hhard =>
      obtain ⟨hrole, -, hle⟩ := (h.outlook hp).install (by rw [htransfer]; nofun)
      refine ⟨hsound, le_rfl, h.applied.trans hle, ?_, h.incoming, nofun⟩
      rw [hsound.contiguous.lastLogIndex]
      exact Nat.le_add_right _ _

theorem Step.advances (hs : Step c n es n') (h : n.Poised) : n.Advances n' := by
  cases hs with
  | move _ hm => exact hm.advances h
  | land hl => exact hl.advances h

theorem Steps.advances (hs : Steps c n es n') (h : n.Poised) : n.Advances n' ∧ n'.Poised := by
  induction hs with
  | nil => exact ⟨.refl _, h⟩
  | cons hstep _ ih =>
    obtain ⟨hadv, hlast⟩ := ih (hstep.poised h)
    exact ⟨(hstep.advances h).trans hadv, hlast⟩

/-! ## A node in service -/

/-- Feed a sequence of inputs and collect what the node emits; `none` is a panic. -/
def RaftNode.perform (n : RaftNode) : List Input → Option (RaftNode × List Effect)
  | [] => some (n, [])
  | input :: inputs =>
      (n.step input).bind fun r => (r.1.perform inputs).map fun q => (q.1, r.2 ++ q.2)

/-- A node of a fixed group serves every prompt sequence of inputs, and stays ready for more. -/
theorem RaftNode.perform_steady {calm : Prop} (hcalm : ¬ calm) {inputs rest : List Input} :
    ∀ {n : RaftNode} {es : List Effect}, n.Steady calm → n.Waits es →
      n.genesisMembership.state.groupId = legacyGroupId → n.Prompt es (inputs ++ rest) →
        ∃ n' emitted last, n.perform inputs = some (n', emitted) ∧ n'.Steady calm ∧
          n'.Waits last ∧ n'.genesisMembership.state.groupId = legacyGroupId ∧
          n'.Prompt last rest := by
  induction inputs with
  | nil =>
    intro n es h hwaits hfixed hprompt
    exact ⟨n, [], es, rfl, h, hwaits, hfixed, hprompt⟩
  | cons input inputs ih =>
    intro n es h hwaits hfixed hprompt
    have htakes := hwaits.takes hprompt.1
    obtain ⟨n₁, es₁, hstep, h₁, -⟩ := step_settles h htakes (fun hp _ => h.lands hfixed hp)
      fun hc => absurd hc hcalm
    obtain ⟨raw, hsteps, -⟩ := n.step_steps hstep hwaits.sound htakes
    obtain ⟨n', emitted, last, hperform, hrest⟩ := ih h₁ (hwaits.step htakes hstep)
      (hsteps.genesis ▸ hfixed) (hprompt.2 n₁ es₁ hstep)
    refine ⟨n', es₁ ++ emitted, last, ?_, hrest⟩
    simp [perform, hstep, hperform]

/-- What a step of a node between two inputs keeps. -/
theorem RaftNode.Steady.step_advances {calm : Prop} (h : n.Steady calm) (hwaits : n.Waits raw)
    (htakes : n.Takes input) (hstep : n.step input = some (n', es)) : n.Advances n' := by
  obtain ⟨raw', hsteps, -⟩ := n.step_steps hstep hwaits.sound htakes
  exact (hsteps.advances (h.poised hwaits.sound)).1

end MicroRaft
