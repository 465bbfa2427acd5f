import MicroRaft.Node.Exchange

/-!
# Elections and reads do not panic

The handlers of `election.rs` and `read.rs` keep the representation invariant:
a campaign only ever raises the term, a new leader tracks exactly its peers, and
a read finds a fresh context as long as it is not turned away.
-/

namespace MicroRaft

open EffectM

namespace RaftNode

variable {n : RaftNode} {calm : Prop}

/-! ## Becoming leader -/

theorem collect_safe {m : Handler Unit} (h : n.Safe calm m) : n.Safe calm (collect m) := by
  obtain ⟨u, n', out, hrun, hn'⟩ := h
  refine ⟨out, n', [], ?_, hn'⟩
  rw [collect, hrun]
  rfl

/-- Only a follower receives an image. -/
theorem Rep.incoming_eq_none (h : n.Rep calm) (hrole : n.role ≠ .follower) :
    n.incomingSnapshot = none := by
  by_contra hne
  obtain ⟨x, hx⟩ := Option.ne_none_iff_exists'.1 hne
  exact hrole (h.incoming hx).2

/-- The progress of a new leader. -/
theorem Rep.lead (h : n.Rep calm) (hpos : 0 < n.hard.currentTerm)
    (hincoming : n.incomingSnapshot = none) {k : Nat} (hk : 0 < k) :
    Rep calm { n with
      role := .leader (.ofList (n.peers.map fun peer => (peer, k)))
        (.ofList (n.peers.map fun peer => (peer, 0)))
      readContext := 0 } where
  ordered := { h.ordered with }
  configured := { h.configured with }
  tracking := by
    refine ⟨h.tracking.nodup, h.tracking.peers, fun {_ _} hr p => ?_, fun _ {_ _} hr => ?_⟩
    · cases hr
      simp
    · cases hr
      intro p k' m hk' hm
      rw [getElem?_ofList_map] at hk' hm
      split at hk'
      · next hp =>
          rw [if_pos hp] at hm
          cases hk'
          cases hm
          exact (min_le_left _ _).trans hk
      · cases hk'
  incoming {_} hx := by
    rw [show _ = none from hincoming] at hx
    cases hx
  elected _ := hpos
  readContext := Nat.zero_le _

theorem commitAlone_safe (h : n.Ready calm) : n.Safe calm commitAlone :=
  ends_peek_bind.2 (Safe.when h fun _ => advanceCommit_safe h le_rfl)

theorem becomeLeader_safe (h : n.Ready calm) {votes : BTreeSet NodeId}
    (hrole : n.role = .candidate votes) : n.Safe calm becomeLeader := by
  have hincoming := h.incoming_eq_none (by rw [hrole]; nofun)
  refine ends_peek_bind.2 ?_
  split
  · refine Safe.update_bind h rfl fun h₁ => Safe.bind (becomeFollower_safe h₁) fun _ _ h₂ _ => ?_
    exact Safe.update h₂ rfl
  next index hindex =>
  obtain ⟨hlast, hmax⟩ := nextIndex_eq_some hindex
  have hnoop : Ready calm { n with
      log := n.log ++ [{ index, term := n.hard.currentTerm, command := .noOp }] } := by
    refine h.extend ?_ ?_ (List.forall_mem_singleton.2 rfl) (List.forall_mem_singleton.2 rfl)
    · exact Numbered.cons_iff.2 ⟨hlast, .nil⟩
    · exact hlast ▸ hmax.le
  have hpos : 0 < n.hard.currentTerm := h.elected (Or.inr ⟨votes, hrole⟩)
  have hrep := hnoop.toRep.lead hpos hincoming (k := index) (hlast ▸ Nat.succ_pos _)
  refine ends_update_bind.2 (Safe.after ?_ ⟨le_rfl, fun _ => ?_, fun _ {_ _ _ _} hr => ?_⟩)
  · refine Safe.bind (Safe.emit ?_) fun _ _ h₁ _ => ?_
    · exact ⟨hrep.congr rfl, hnoop.fresh, h.idle⟩
    refine Safe.bind (collect_safe (commitAlone_safe h₁)) fun _ _ h₂ _ => ?_
    refine Safe.bind (Safe.emits h₂) fun _ _ h₃ _ => ?_
    refine ends_peek_bind.2 (Safe.bind (Safe.emit h₃) fun _ _ h₄ _ => ?_)
    refine Safe.bind (sendAppendEntries_safe h₄) fun _ _ h₅ _ => ?_
    exact Safe.update_bind h₅ rfl Safe.emits
  · rw [hrole]
    exact Nat.zero_le _
  · rw [hrole] at hr
    cases hr

/-! ## Campaigning -/

theorem solicit_safe (h : n.Ready calm) (msg : RaftMessage) (peer : NodeId) :
    n.Safe calm (solicit msg peer) := by
  refine ends_peek_bind.2 ?_
  split
  · exact Safe.pure h
  · exact Safe.bind (advertiseMembership_safe h peer) fun _ _ h₁ _ => Safe.emit h₁

theorem startElection_safe (h : n.Ready calm) (hincoming : n.incomingSnapshot = none) :
    n.Safe calm startElection := by
  refine ends_peek_bind.2 ?_
  split
  · exact Safe.pure h
  split
  · exact Safe.update_bind h rfl becomeFollower_safe
  next term hterm =>
  obtain ⟨hsucc, -⟩ := checkedAdd_eq_some hterm
  have hpos : 0 < term := hsucc ▸ Nat.succ_pos _
  have hraise : Rep calm { n with
      hard := { n.hard with currentTerm := term, votedFor := some n.id } } :=
    h.toRep.raise (hsucc ▸ Nat.le_succ _) rfl
  have hrep : Rep calm { n with
      hard := { n.hard with currentTerm := term, votedFor := some n.id }
      role := .candidate {n.id} } :=
    hraise.setRole nofun (fun _ _ => hpos) (Or.inr hincoming)
  refine ends_update_bind.2 (ends_resetElectionDeadline_bind.2 (ends_emit_bind.2 ?_))
  refine ends_peek_bind.2 (Safe.after ?_ (.of_lt (hsucc ▸ Nat.lt_succ_self _)))
  have hready : Ready calm (redrawn { n with
      hard := { n.hard with currentTerm := term, votedFor := some n.id }
      role := .candidate {n.id} }) := ⟨hrep.congr rfl, h.fresh, h.idle⟩
  split
  · exact becomeLeader_safe hready rfl
  · refine Safe.bind (Safe.emit hready) fun _ _ h₁ _ => ?_
    exact Safe.forM h₁ fun peer _ _ h₂ => solicit_safe h₂ _ peer

theorem startPreVote_safe (h : n.Ready calm) : n.Safe calm startPreVote := by
  refine ends_peek_bind.2 ?_
  split
  · exact Safe.pure h
  refine ends_bind.2 (ends_cancelIncomingSnapshot.2 ?_)
  refine Safe.after ?_ (.of_role rfl rfl)
  have hclear := h.clearIncoming
  split
  · next term sequence hterm hsequence =>
      have hrep : Rep calm { n with
          incomingSnapshot := none
          role := .preCandidate term { incarnation := n.campaignIncarnation, sequence } {n.id} } :=
        hclear.toRep.setRole nofun nofun (Or.inr rfl)
      refine ends_update_bind.2 (ends_resetElectionDeadline_bind.2 ?_)
      refine ends_peek_bind.2 (Safe.after ?_ (.of_resting le_rfl rfl))
      split
      · refine startElection_safe ?_ rfl
        exact ⟨hrep.congr rfl, h.fresh, h.idle⟩
      · refine Safe.bind (Safe.emit ?_) fun _ _ h₁ _ => ?_
        · exact ⟨hrep.congr rfl, h.fresh, h.idle⟩
        · exact Safe.forM h₁ fun peer _ _ h₂ => solicit_safe h₂ _ peer
  · exact Safe.update_bind hclear rfl becomeFollower_safe

theorem onPreVoteReply_safe (h : n.Ready calm) {sender : NodeId} {term prospectiveTerm : Nat}
    {campaignId : CampaignId} {voteGranted : Bool} :
    n.Safe calm (onPreVoteReply sender term prospectiveTerm campaignId voteGranted) := by
  refine ends_peek_bind.2 ?_
  split
  · exact Safe.pure h
  split
  · next expectedTerm expectedId votes hrole =>
      split
      · exact Safe.pure h
      have hincoming := h.incoming_eq_none (by rw [hrole]; nofun)
      have hready : Ready calm { n with
          role := .preCandidate expectedTerm expectedId (votes.insert sender) } :=
        ⟨h.toRep.setRole nofun nofun (Or.inr hincoming), h.fresh, h.idle⟩
      refine ends_update_bind.2 (Safe.after ?_ (.of_resting le_rfl rfl))
      split
      · exact startElection_safe hready hincoming
      · exact Safe.pure hready
  · exact Safe.pure h

/-! ## Votes -/

theorem onRequestVote_safe (h : n.Ready calm) {term lastLogIndex lastLogTerm : Nat}
    {candidateId : NodeId} :
    n.Safe calm (onRequestVote term candidateId lastLogIndex lastLogTerm) := by
  refine ends_peek_bind.2 ?_
  split
  · exact Safe.emit h
  refine Safe.bind (Safe.when h fun _ => ?_) fun _ _ h₁ _ => Safe.emit h₁
  have hready : Ready calm { n with hard := { n.hard with votedFor := some candidateId } } :=
    ⟨h.toRep.raise le_rfl rfl, h.fresh, h.idle⟩
  refine ends_update_bind.2 (Safe.after ?_ (.of_role rfl rfl))
  exact Safe.bind (resetElectionDeadline_safe hready) fun _ _ h₁ _ => Safe.emit h₁

theorem onRequestVoteReply_safe (h : n.Ready calm) {sender : NodeId} {term : Nat}
    {voteGranted : Bool} : n.Safe calm (onRequestVoteReply sender term voteGranted) := by
  refine ends_peek_bind.2 ?_
  split
  · exact Safe.pure h
  split
  · next votes hrole =>
      have hincoming := h.incoming_eq_none (by rw [hrole]; nofun)
      have hpos := h.elected (Or.inr ⟨votes, hrole⟩)
      have hready : Ready calm { n with role := .candidate (votes.insert sender) } :=
        ⟨h.toRep.setRole nofun (fun _ _ => hpos) (Or.inr hincoming), h.fresh, h.idle⟩
      have hgrows : n.Grows { n with role := .candidate (votes.insert sender) } := by
        refine ⟨le_rfl, fun _ => by rw [hrole]; exact le_rfl, fun _ {_ _ _ _} hr => ?_⟩
        rw [hrole] at hr
        cases hr
      refine ends_update_bind.2 (Safe.after ?_ hgrows)
      split
      · exact becomeLeader_safe hready rfl
      · exact Safe.pure hready
  · exact Safe.pure h

/-! ## Reads -/

theorem onReadIndex_safe (h : n.Ready calm) (requestId : Nat) :
    n.Safe calm (onReadIndex requestId) := by
  refine ends_peek_bind.2 ?_
  split
  · exact Safe.pure h
  split
  · exact Safe.emit h
  next hadmitted =>
  -- the last context is turned away, so there is a next one
  have hcontext : n.readContext + 1 ≤ u64Max := by
    refine lt_of_le_of_ne h.readContext fun hmax => ?_
    unfold readRejection at hadmitted
    rw [if_pos hmax] at hadmitted
    split_ifs at hadmitted
  refine ends_expect_bind.2 ⟨_, if_pos hcontext, ends_update_bind.2 ?_⟩
  have hready : Ready calm { n with readContext := n.readContext + 1 } := by
    refine ⟨⟨{ h.ordered with }, { h.configured with }, { h.tracking with }, h.incoming, h.elected,
      hcontext⟩, h.fresh, h.idle⟩
  refine Safe.after ?_ (.of_role rfl rfl)
  split
  · exact Safe.emit hready
  · exact Safe.update_bind hready rfl Safe.emits

theorem onReadProbe_safe (h : n.Ready calm) {term context : Nat} {leaderId : NodeId} :
    n.Safe calm (onReadProbe term leaderId context) := by
  refine ends_peek_bind.2 ?_
  refine Safe.bind (Safe.when h fun _ => ?_) fun _ _ h₁ _ => Safe.emit h₁
  refine Safe.bind (becomeFollower_safe h) fun _ _ h₁ _ => ?_
  exact Safe.bind (resetElectionDeadline_safe h₁) fun _ _ h₂ _ => Safe.update h₂ rfl

theorem onReadProbeReply_safe (h : n.Ready calm) {sender : NodeId} {term context : Nat}
    {accepted : Bool} : n.Safe calm (onReadProbeReply sender term context accepted) := by
  refine ends_peek_bind.2 ?_
  split
  · exact Safe.pure h
  split
  · exact Safe.pure h
  dsimp only
  split
  · exact Safe.update_bind h rfl Safe.emit
  · exact Safe.update h rfl

theorem cancelRead_safe (h : n.Ready calm) (requestId : Nat) :
    n.Safe calm (cancelRead requestId) := by
  refine ends_peek_bind.2 ?_
  split
  · exact Safe.update_bind h rfl Safe.emit
  · exact Safe.pure h

end RaftNode

end MicroRaft
