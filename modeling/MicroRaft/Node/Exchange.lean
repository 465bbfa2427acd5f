import MicroRaft.Node.Landing

/-!
# Replication does not panic

The leader's batches and the follower's merge.  A payload is checked before it
touches the log: its framing makes the terms of the merged log ascend, and the
replay of the candidate log makes the merged log replayable.
-/

namespace MicroRaft

open EffectM

/-! ## Framing -/

/-- The terms of a well-framed payload ascend between its anchor and its sender's term. -/
theorem validEntries_terms {messageTerm prev prevTerm : Nat} {entries : List Entry}
    (h : validEntries messageTerm prev prevTerm entries = true) :
    entries.Pairwise (fun e e' => e.term ≤ e'.term) ∧
      ∀ e ∈ entries, prevTerm ≤ e.term ∧ e.term ≤ messageTerm := by
  induction entries generalizing prev prevTerm with
  | nil => exact ⟨List.Pairwise.nil, fun e he => absurd he List.not_mem_nil⟩
  | cons e es ih =>
    simp only [validEntries, Bool.and_eq_true, decide_eq_true_eq] at h
    obtain ⟨⟨⟨-, hlow⟩, hhigh⟩, hes⟩ := h
    obtain ⟨hasc, hbounds⟩ := ih hes
    refine ⟨List.pairwise_cons.2 ⟨fun e' he' => (hbounds e' he').1, hasc⟩, fun e' he' => ?_⟩
    rcases List.mem_cons.1 he' with rfl | he'
    · exact ⟨hlow, hhigh⟩
    · exact ⟨hlow.trans (hbounds e' he').1, (hbounds e' he').2⟩

theorem validateAppendEntries_terms {messageTerm prev prevTerm last : Nat} {entries : List Entry}
    (h : validateAppendEntries messageTerm prev prevTerm entries = some last) :
    entries.Pairwise (fun e e' => e.term ≤ e'.term) ∧
      ∀ e ∈ entries, prevTerm ≤ e.term ∧ e.term ≤ messageTerm := by
  unfold validateAppendEntries at h
  split at h
  · cases h
  split at h
  · cases h
  split at h
  · next hvalid => exact validEntries_terms hvalid
  · cases h

namespace RaftNode

variable {calm : Prop} {n n' : RaftNode}

/-! ## Advertising -/

theorem advertiseMembership_safe (h : n.Ready calm) (dest : NodeId) :
    n.Safe calm (advertiseMembership dest) := by
  obtain ⟨m, hm⟩ := h.configured.replayable
  refine ends_peek_bind.2 (ends_expect_bind.2 ⟨m, by rw [h.membershipAt_last, hm]; rfl, ?_⟩)
  split
  · exact Safe.emit h
  · exact Safe.pure h

theorem advertiseReplicationMembership_safe (h : n.Ready calm) (dest : NodeId) :
    n.Safe calm (advertiseReplicationMembership dest) := by
  obtain ⟨m, hm⟩ := h.configured.replayable
  refine ends_peek_bind.2 ?_
  split
  · exact Safe.pure h
  refine ends_expect_bind.2 ⟨m, by rw [h.membershipAt_last, hm]; rfl, ?_⟩
  split
  · split
    · exact Safe.pure h
    split
    · exact Safe.pure h
    · exact Safe.update_bind h rfl fun h₁ => advertiseMembership_safe h₁ dest
  · exact Safe.pure h

/-! ## The leader's batches -/

theorem sendAppendTo_safe (h : n.Ready calm) (progress : BTreeMap NodeId Nat) (peer : NodeId) :
    n.Safe calm (sendAppendTo progress peer) := by
  refine Safe.bind (advertiseReplicationMembership_safe h peer) fun _ n₁ h₁ _ => ?_
  refine ends_peek_bind.2 ?_
  dsimp only
  split
  · exact sendSnapshotChunk_safe h₁ peer
  · exact Safe.update_bind h₁ rfl Safe.emit

theorem sendAppendEntries_safe (h : n.Ready calm) : n.Safe calm sendAppendEntries := by
  refine ends_peek_bind.2 ?_
  split
  · exact Safe.forM h fun peer _ n₁ h₁ => sendAppendTo_safe h₁ _ peer
  · exact Safe.pure h

/-- Entries of the current term that configure nothing. -/
theorem Ready.extend (h : n.Ready calm) {l : List Entry} (hnum : Numbered n.lastLogIndex l)
    (hbound : n.lastLogIndex + l.length ≤ u64Max) (hterm : ∀ e ∈ l, e.term = n.hard.currentTerm)
    (hconf : ∀ e ∈ l, e.command.isConfiguration = false) :
    Ready calm { n with log := n.log ++ l } := by
  obtain ⟨m, hm, heff⟩ := h.fresh
  have hreplay : membershipAfter n.baseMembership (n.log ++ l) = .ok m := by
    rw [membershipAfter_append, hm]
    exact membershipAfter_of_not_conf hconf
  refine ⟨h.toRep.extend hnum (fun e he => ?_) hterm ⟨m, hreplay⟩, ⟨m, hreplay, heff⟩, h.idle⟩
  exact (hnum.mem_bounds he).2.trans hbound

theorem onClientProposeBatch_safe (h : n.Ready calm) (commands : List Command) :
    n.Safe calm (onClientProposeBatch commands) := by
  refine ends_peek_bind.2 ?_
  split
  · exact Safe.pure h
  split
  · next finalIndex hfinal =>
      split
      · exact Safe.emits h
      · next hok =>
          simp only [not_or, Bool.not_eq_true] at hok
          obtain ⟨hlast, hlt⟩ := nextIndex_eq_some hfinal
          have hnum := proposedEntries_numbered n.lastLogIndex n.hard.currentTerm commands
          have hlen := proposedEntries_length n.lastLogIndex n.hard.currentTerm commands
          have hready := h.extend hnum (by omega) (fun e he => (proposedEntries_mem he).1)
            fun e he => by
              have := List.any_eq_false.1 hok.2.2.1 _ (proposedEntries_mem he).2
              simpa using this
          refine ends_update_bind.2 (ends_emit_bind.2 (ends_emits_bind.2 (ends_peek_bind.2 ?_)))
          split
          · refine Safe.after (advanceCommit_safe hready ?_) (.of_role rfl rfl)
            rw [hready.ordered.contiguous.lastLogIndex]
            show finalIndex ≤ n.snapshotIndex + (n.log ++ proposedEntries _ _ _).length
            rw [List.length_append, hlen, ← Nat.add_assoc, ← h.ordered.contiguous.lastLogIndex]
            exact hlast.le
          · exact Safe.after (Safe.pure hready) (.of_role rfl rfl)
  · exact Safe.emits h

/-! ## Conflict hints -/

/-- The search for the conflicting term does not run off the log. -/
theorem appendConflictHint_isSome (n : RaftNode) (rejected : Nat) :
    ∃ hint, n.appendConflictHint rejected = some hint := by
  unfold appendConflictHint
  split
  · exact ⟨none, rfl⟩
  · next term _ hterm =>
      split
      · exact ⟨_, rfl⟩
      · next hne =>
          -- the entry that bears the term stops the search at the latest
          have hentry : ∃ e ∈ n.log, e.term = term := by
            unfold logTerm at hterm
            split at hterm
            · cases hterm
              exact absurd rfl hne
            · obtain ⟨e, he, rfl⟩ := Option.map_eq_some_iff.1 hterm
              exact ⟨e, List.mem_of_getElem? (entryAt_eq_some.1 he).2, rfl⟩
          obtain ⟨e, he, heq⟩ := hentry
          have hlt : partitionPoint (fun e => decide (e.term < term)) n.log < n.log.length := by
            refine lt_of_le_of_ne (List.takeWhile_sublist _).length_le fun hall => ?_
            have hself := (List.takeWhile_sublist
              (fun e : Entry => decide (e.term < term))).eq_of_length hall
            rw [← hself] at he
            have := List.mem_takeWhile_imp he
            simp [heq] at this
          exact ⟨_, by rw [List.getElem?_eq_getElem hlt]; rfl⟩
  · exact ⟨_, rfl⟩

/-! ## The merge -/

/-- Terms do not exceed that of a later position. -/
theorem Ordered.term_le_before (h : n.Ordered) {index term : Nat}
    (hterm : n.logTerm index = some term) {e : Entry} (he : e ∈ n.log) (hle : e.index ≤ index) :
    e.term ≤ term := by
  have hlow := (h.contiguous.mem_bounds he).1
  unfold logTerm at hterm
  rw [if_neg (by omega)] at hterm
  obtain ⟨x, hx, rfl⟩ := Option.map_eq_some_iff.1 hterm
  obtain ⟨-, hget⟩ := entryAt_eq_some.1 hx
  have hget' := Numbered.getElem?_of_mem h.contiguous he
  obtain ⟨hi, rfl⟩ := List.getElem?_eq_some_iff.1 hget
  obtain ⟨hj, heq⟩ := List.getElem?_eq_some_iff.1 hget'
  rcases Nat.eq_or_lt_of_le hle with rfl | hlt
  · rw [heq]
  · rw [← heq]
    exact List.pairwise_iff_getElem.1 h.ascending _ _ hj hi (by omega)

theorem Ordered.snapshotTerm_le (h : n.Ordered) {index term : Nat}
    (hterm : n.logTerm index = some term) : n.snapshotTerm ≤ term := by
  unfold logTerm at hterm
  split at hterm
  · cases hterm
    exact le_rfl
  · obtain ⟨e, he, rfl⟩ := Option.map_eq_some_iff.1 hterm
    exact h.above e (h.contiguous.index_of_entryAt he).2

section Merge

variable {prev prevTerm term payloadLast : Nat} {entries : List Entry}

/-- The entries before the cut have no later term than those behind it. -/
theorem Ordered.merge_ascending (h : n.Ordered) (hf : n.Fits prev entries)
    (hanchor : n.logTerm prev = some prevTerm)
    (hframe : validateAppendEntries term prev prevTerm entries = some payloadLast) {e e' : Entry}
    (he : e ∈ n.log.take (prev - n.snapshotIndex + n.held entries))
    (he' : e' ∈ entries.drop (n.held entries)) : e.term ≤ e'.term := by
  obtain ⟨hasc, hbounds⟩ := validateAppendEntries_terms hframe
  have hret := hf.retained
  have hmem := List.mem_of_mem_take he
  have hindex : e.index ≤ prev + n.held entries := by
    have := ((Numbered.take hf.contiguous _).mem_bounds he).2
    rw [List.length_take] at this
    omega
  -- the last position before the cut is the anchor or the last payload entry the log has
  rcases Nat.eq_zero_or_pos (n.held entries) with hzero | hpos
  · rw [hzero, Nat.add_zero] at hindex
    exact (h.term_le_before hanchor hmem hindex).trans (hbounds e' (List.mem_of_mem_drop he')).1
  · have hlt : n.held entries - 1 < entries.length := by
      have : n.held entries ≤ entries.length := held_le
      omega
    have hget := List.getElem?_eq_getElem hlt
    have hholds := holds_of_lt_held (n := n) (by omega) hget
    have hnum := hf.numbered _ _ hget
    refine (h.term_le_before hholds hmem (by omega)).trans ?_
    obtain ⟨k, hk⟩ := List.mem_iff_getElem?.1 he'
    rw [List.getElem?_drop] at hk
    obtain ⟨hk', rfl⟩ := List.getElem?_eq_some_iff.1 hk
    exact List.pairwise_iff_getElem.1 hasc _ _ hlt hk' (by omega)

/-- **A checked payload keeps the invariant.**  The effective membership may be stale. -/
theorem Ready.merge (h : n.Ready calm) (hf : n.Fits prev entries)
    (hanchor : n.logTerm prev = some prevTerm)
    (hframe : validateAppendEntries term prev prevTerm entries = some payloadLast)
    (hterm : term ≤ n.hard.currentTerm) (hcommitted : n.conflictsCommitted entries = false)
    (hconfigured : n.validConfigurationSuffix (candidateLog n.snapshotIndex n.log entries) = true) :
    Rep calm { n with log := n.merged prev entries } := by
  obtain ⟨hasc, hbounds⟩ := validateAppendEntries_terms hframe
  obtain ⟨hlast, hmax, -⟩ := validateAppendEntries_eq_some hframe
  have hret := hf.retained
  have hkept := hf.kept_le
  have hcommit := h.ordered.commit
  rw [h.ordered.contiguous.lastLogIndex] at hcommit
  have hnum : Contiguous { n with log := n.merged prev entries } :=
    RaftNode.Fits.contiguous (hf.after_merge rfl rfl)
  have hpayload : ∀ e ∈ entries, e.index ≤ u64Max := fun e he => by
    have := (hf.numbered.mem_bounds he).2
    omega
  have hmem : ∀ e ∈ n.merged prev entries, e ∈ n.log ∨ e ∈ entries := by
    intro e he
    unfold merged at he
    split at he
    · exact Or.inl he
    · exact (List.mem_append.1 he).imp List.mem_of_mem_take List.mem_of_mem_drop
  have hbound : ∀ e ∈ n.merged prev entries, e.index ≤ u64Max :=
    fun e he => (hmem e he).elim (h.ordered.bounded e) (hpayload e)
  refine h.toRep.setLog hnum hbound ?_ ?_ ?_ ?_ ?_ ?_
  · unfold merged
    split
    · exact h.ordered.ascending
    · refine List.pairwise_append.2 ⟨h.ordered.ascending.sublist (List.take_sublist _ _),
        hasc.sublist (List.drop_sublist _ _), fun e he e' he' => ?_⟩
      exact h.ordered.merge_ascending hf hanchor hframe he he'
  · exact fun e he => (hmem e he).elim (h.ordered.above e)
      fun he => (h.ordered.snapshotTerm_le hanchor).trans (hbounds e he).1
  · exact fun e he => (hmem e he).elim (h.ordered.current e) fun he => (hbounds e he).2.trans hterm
  · unfold merged
    split
    · exact hcommit
    · next hne =>
        have hcut := hf.commit_le_kept hcommitted (lt_of_le_of_ne held_le hne)
        rw [List.length_append, List.length_take]
        omega
  · unfold merged
    split
    · rfl
    · next hne =>
        have hcut := hf.commit_le_kept hcommitted (lt_of_le_of_ne held_le hne)
        rw [List.take_append_of_le_length (by rw [List.length_take]; omega), List.take_take,
          min_eq_left (by omega)]
  · unfold validConfigurationSuffix at hconfigured
    rw [candidateLog_eq hf.retained hf.reached hf.numbered, replay_all hbound] at hconfigured
    exact toBool_eq_true hconfigured

theorem followCommit_safe (h : n.Rep calm) (hidle : n.publishingSnapshot = none) (hwide : n.Widens)
    {newCommit : Nat} (hle : newCommit ≤ n.lastLogIndex) :
    n.Safe calm (followCommit newCommit) := by
  refine ends_peek_bind.2 ?_
  split
  · next hgt => exact advanceCommit_ends h hidle hwide hgt hle
  · exact refreshEffectiveMembership_safe h hidle hwide

theorem acceptEntries_safe (h : n.Ready calm) (hrole : n.role = .follower)
    (hf : n.Fits prev entries) (hanchor : n.logTerm prev = some prevTerm)
    (hframe : validateAppendEntries term prev prevTerm entries = some payloadLast)
    (hterm : term ≤ n.hard.currentTerm) (hcommitted : n.conflictsCommitted entries = false)
    (hconfigured : n.validConfigurationSuffix (candidateLog n.snapshotIndex n.log entries) = true)
    (leaderId : NodeId) (leaderCommit round : Nat) :
    n.Safe calm (acceptEntries leaderId entries payloadLast leaderCommit round) := by
  have hrep := h.merge hf hanchor hframe hterm hcommitted hconfigured
  have hwide : Widens { n with log := n.merged prev entries } := by
    refine .of_not_leader ?_
    show n.isLeader = false
    rw [isLeader, hrole]
  have hcommit : min leaderCommit payloadLast ≤
      lastLogIndex { n with log := n.merged prev entries } := by
    rw [hrep.ordered.contiguous.lastLogIndex]
    have := hf.payload_le
    rw [(validateAppendEntries_eq_some hframe).1]
    exact (min_le_right _ _).trans this
  have htail : Ends (fun _ n' => n'.Ready calm ∧ n.Grows n') (do
      followCommit (min leaderCommit payloadLast)
      let n ← peek
      emit (.send leaderId
        (.appendEntriesReply n.hard.currentTerm true payloadLast round none)))
      { n with log := n.merged prev entries } := by
    refine Safe.after (Safe.bind (followCommit_safe hrep h.idle hwide hcommit) fun _ _ h₁ _ => ?_)
      (.of_role rfl rfl)
    exact ends_peek_bind.2 (Safe.emit h₁)
  have hmerged := repairLog_merged hf.contiguous hf.retained hf.reached hf.numbered
  refine ends_peek_bind.2 (ends_bind.2 (ends_when.2 ⟨fun _ => ?_, fun hnil => ?_⟩))
  · refine ends_update_bind.2 (ends_emit.2 ?_)
    rw [hmerged]
    exact htail
  · have hsame : n.merged prev entries = n.log := by
      have hrepair := repairLog_eq hf.contiguous hf.retained hf.reached hf.numbered
      rw [not_not, hrepair] at hnil
      rw [merged, if_pos (le_antisymm held_le (List.drop_eq_nil_iff.1 hnil))]
    rw [hsame] at htail
    exact htail

theorem appendReject_safe (h : n.Ready calm) {leaderId : NodeId} {round : Nat}
    {conflict : Option AppendConflictHint} : n.Safe calm (appendReject leaderId round conflict) :=
  ends_peek_bind.2 (Safe.emit h)

theorem onAppendEntries_safe (h : n.Ready calm)
    (hframe : validateAppendEntries term prev prevTerm entries = some payloadLast)
    (hterm : term ≤ n.hard.currentTerm) (leaderId : NodeId) (leaderCommit round : Nat) :
    n.Safe calm (onAppendEntries term leaderId prev prevTerm entries payloadLast leaderCommit
      round) := by
  refine ends_peek_bind.2 ?_
  split
  · exact appendReject_safe h
  refine ends_becomeFollower_bind.2 (ends_resetElectionDeadline_bind.2 ?_)
  refine ends_update_bind.2 (ends_peek_bind.2 ?_)
  refine Safe.after ?_ (.of_resting le_rfl rfl)
  split
  · exact Safe.emit (h.steppedDown.congr rfl)
  next hretained =>
  split
  · obtain ⟨hint, hhint⟩ := n.appendConflictHint_isSome prev
    refine ends_expect_bind.2 ⟨hint, hhint, appendReject_safe ?_⟩
    exact h.steppedDown.congr rfl
  next hanchor =>
  rw [not_not] at hanchor
  have hanchored : n.logTerm prev = some prevTerm := hanchor
  have hf : n.Fits prev entries := by
    refine ⟨h.ordered.contiguous, not_lt.1 hretained, ?_,
      (validateAppendEntries_eq_some hframe).2.2⟩
    rw [← h.ordered.contiguous.lastLogIndex]
    exact (h.ordered.contiguous.logTerm_bounds hanchored).2
  split
  · refine appendReject_safe ?_
    exact h.steppedDown.congr rfl
  next hcommitted =>
  refine ends_require_bind.2 ⟨fun e he => ?_, ?_⟩
  · exact hf.retained.trans_lt (hf.numbered.mem_bounds he).1
  split
  · refine appendReject_safe ?_
    exact h.steppedDown.congr rfl
  next hconfigured =>
  rw [Bool.not_eq_true', Bool.not_eq_false] at hconfigured
  refine acceptEntries_safe ?_ ?_ ?_ hanchor hframe hterm (eq_false_of_ne_true hcommitted)
    hconfigured leaderId leaderCommit round
  · exact h.steppedDown.congr rfl
  · rfl
  · exact ⟨hf.contiguous, hf.retained, hf.reached, hf.numbered⟩

end Merge

/-! ## Replies -/

section Replies

variable {n : RaftNode} {calm : Prop} {sender : NodeId} {next matched : BTreeMap NodeId Nat}
  {peerMatch : Nat}

theorem Ready.recordReply (h : n.Ready calm) (hrole : n.role = .leader next matched)
    (hmatched : matched[sender]? = some peerMatch) (success : Bool)
    (matchIndex contactRound : Nat) (hinted : Option Nat) (peerNext : Nat) :
    (recordReply sender success matchIndex contactRound hinted next matched peerNext peerMatch
      n).Ready calm ∧
    n.Grows (recordReply sender success matchIndex contactRound hinted next matched peerNext
      peerMatch n) := by
  have hpeer : sender ∈ n.peers :=
    ((h.tracking.tracked hrole sender).2).1 (mem_iff_getElem?.2 ⟨_, hmatched⟩)
  cases success with
  | true =>
    have hrep := h.toRep.confirm hrole hpeer (max peerMatch matchIndex)
    have hgrows : n.Grows { n with
        role := .leader (next.insert sender (saturatingAdd (max peerMatch matchIndex) 1))
          (matched.insert sender (max peerMatch matchIndex)) } :=
      .confirm hrole hmatched (le_max_left peerMatch matchIndex)
    exact ⟨⟨hrep.congr rfl, h.fresh, h.idle⟩, hgrows.trans (.of_role rfl rfl)⟩
  | false =>
    have hrep := h.toRep.setNext hrole hpeer
      (k := max (min (hinted.getD (saturatingAdd matchIndex 1)) (peerNext - 1))
        (max (saturatingAdd peerMatch 1) 1)) fun _ m hm => by
          rw [hmatched] at hm
          cases hm
          exact (le_max_left _ _).trans (le_max_right _ _)
    exact ⟨⟨hrep.congr rfl, h.fresh, h.idle⟩, (Grows.setNext hrole).trans (.of_role rfl rfl)⟩

theorem onAppendEntriesReply_safe (h : n.Ready calm) (term : Nat) (success : Bool)
    (matchIndex contactRound : Nat) (conflict : Option AppendConflictHint) :
    n.Safe calm (onAppendEntriesReply sender term success matchIndex contactRound conflict) := by
  refine ends_peek_bind.2 ?_
  split
  · exact Safe.pure h
  split
  · exact Safe.pure h
  split
  · exact Safe.pure h
  split
  · next next matched hrole =>
      split
      · next peerNext peerMatch hnext hmatched =>
          split
          · exact Safe.pure h
          obtain ⟨hready, hgrows⟩ := h.recordReply hrole hmatched success matchIndex contactRound
            (conflict.map n.hintedNext) peerNext
          refine ends_update_bind.2 (Safe.after ?_ hgrows)
          split
          · exact commitQuorum_safe hready
          · exact Safe.pure hready
      · exact Safe.pure h
  · exact Safe.pure h

/-- Refused at `matchIndex`, the transfer in flight would put the retry cursor of the peer
behind what the peer has confirmed. -/
def Regresses (n : RaftNode) (sender : NodeId) (transfer : SnapshotTransferId)
    (matchIndex : Nat) : Prop :=
  ∃ active next matched m, n.outgoingSnapshots[sender]? = some active ∧
    active.transfer = transfer ∧ active.sentEnd ≠ none ∧
    active.descriptor.metadata.lastIncludedIndex ≤ matchIndex ∧ matchIndex ≤ n.lastLogIndex ∧
    n.role = .leader next matched ∧ matched[sender]? = some m ∧ matchIndex < m

theorem onTransferRefused_safe (h : n.Ready calm) {active : OutgoingSnapshot}
    (hactive : n.outgoingSnapshots[sender]? = some active) (hsent : active.sentEnd ≠ none)
    (hpeer : sender ∈ n.peers) {matchIndex : Nat}
    (hcalm : calm → ¬ n.Regresses sender active.transfer matchIndex) :
    n.Safe calm (onTransferRefused sender matchIndex active) := by
  refine ends_update.2 ?_
  dsimp only
  split
  · next next matched hrole =>
      split
      · next hrange =>
          have hrep := h.toRep.setNext hrole hpeer (k := saturatingAdd matchIndex 1)
            fun hc m hm => min_le_min_right _ (Nat.succ_le_succ (not_lt.1 fun hlt =>
              hcalm hc ⟨active, next, matched, m, hactive, rfl, hsent, hrange.1, hrange.2, hrole,
                hm, hlt⟩))
          exact ⟨⟨hrep.congr rfl, h.fresh, h.idle⟩, (Grows.setNext hrole).trans (.of_role rfl rfl)⟩
      · exact ⟨h.congr rfl, .of_role rfl rfl⟩
  · exact ⟨h.congr rfl, .of_role rfl rfl⟩

theorem onInstallSnapshotReply_safe (h : n.Ready calm) (hpeer : sender ∈ n.peers)
    {transfer : SnapshotTransferId} {term matchIndex : Nat} {accepted : Bool}
    (hcalm : calm → accepted = false → term = n.hard.currentTerm →
      ¬ n.Regresses sender transfer matchIndex)
    (nextOffset : Nat) (installed : Bool) (contactRound : Nat) :
    n.Safe calm (onInstallSnapshotReply sender term transfer nextOffset matchIndex accepted
      installed contactRound) := by
  refine ends_peek_bind.2 ?_
  split
  · exact Safe.pure h
  next hterm =>
  split
  · exact Safe.pure h
  next active hactive =>
  split
  · exact Safe.pure h
  next hsent =>
  rw [not_or, not_not] at hsent
  split
  · next hrefused =>
      rw [Bool.not_eq_true'] at hrefused
      rw [not_or, not_not] at hterm
      refine onTransferRefused_safe h hactive hsent.2 hpeer fun hc => ?_
      rw [hsent.1]
      exact hcalm hc hrefused hterm.1
  split
  · exact Safe.pure h
  refine Safe.bind (Safe.when h fun _ => Safe.update h rfl) fun _ n₁ h₁ _ => ?_
  split
  · refine Safe.update_bind h₁ rfl fun h₂ => ?_
    exact Safe.bind (onAppendEntriesReply_safe h₂ ..) fun _ _ h₃ _ => sendAppendEntries_safe h₃
  · exact Safe.update_bind h₁ rfl fun h₂ => sendSnapshotChunk_safe h₂ sender

end Replies

end RaftNode

end MicroRaft
