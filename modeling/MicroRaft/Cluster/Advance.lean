import MicroRaft.Cluster.Configuration
import MicroRaft.Cluster.Guarantees
import MicroRaft.Group.Lawful
import MicroRaft.Node.CommitRule

/-!
# A leader's progress

What a leader's peers have confirmed never shrinks while it leads a term.  The
retry cursor of a peer stays ahead of it as long as no refused transfer puts the
cursor back: `on_install_snapshot_reply` takes the position a refusal reports for
the cursor without comparing it with what the peer has confirmed since.
-/

namespace MicroRaft

open Function Consensus

variable {G : Group} {g : CommittedMembership} {a : Abstract} {σ σ' : Cluster} {id : NodeId}
  {n n' : RaftNode} {calm : Prop} {next matched : BTreeMap NodeId Nat}

/-! ## Confirmed positions -/

/-- A confirmed position is one of the leader's log, so there is a next one. -/
theorem Related.matched_lt (h : Related g a σ) (hup : σ.up id = some n)
    (hrole : n.role = .leader next matched) {p m : Nat} (hm : matched[p]? = some m) :
    m < u64Max := by
  have hok := (h.nodes hup).1.role
  rw [hrole] at hok
  rcases hok.2.2.2 hm with rfl | hacked
  · decide
  · obtain ⟨-, hlead, hle⟩ := h.world.inv.ack_le (hacked m le_rfl)
    exact hle.trans_lt (h.world.logs hlead).bounded

/-- A leader installs nothing. -/
theorem RaftNode.Steady.not_installing (h : n.Steady calm) (hrole : n.role = .leader next matched) :
    ¬ n.Installing := by
  rintro ⟨x, t, hx, ht⟩
  have hfollower := ((h.landing hx).install (by rw [ht]; nofun)).1
  rw [hrole] at hfollower
  cases hfollower

/-- A retry cursor is at most one past the end of the leader's log. -/
theorem Related.next_le (h : Related g a σ) (hup : σ.up id = some n) (hsteady : n.Steady calm)
    (hrole : n.role = .leader next matched) {p k : Nat} (hk : next[p]? = some k) :
    k ≤ n.lastLogIndex + 1 := by
  have hnode := (h.nodes hup).1
  have hok := hnode.role
  rw [hrole] at hok
  have hni := hsteady.not_installing hrole
  have hlast : n.lastLogIndex = (a.log id).length := by
    rw [(h.views_memory hup).lastLogIndex]
    exact congrArg List.length (hnode.whole hni)
  rw [hlast]
  exact hok.2.2.1 hk

/-! ## The leader's configuration -/

/-- The voters of a leader are a valid configuration. -/
theorem Cluster.Reachable.voters_valid (h : Cluster.Reachable G σ) (hup : σ.up id = some n)
    (hrole : n.role = .leader next matched) : n.voterConfig.validate = .ok () := by
  obtain ⟨g, a, -, hrel⟩ := h.related hup
  obtain ⟨m, hm, heff⟩ :=
    (hrel.nodes hup).1.effective ((h.steady hup).not_installing hrole)
  obtain ⟨evs, hevs⟩ := membershipAfter_retains hrel.world.genesis hm
  rw [RaftNode.voterConfig, heff]
  exact (CommittedMembership.replay_lawful hrel.world.genesis hevs.built).voters

/-- With a stable configuration a leader of a run commits what the rule for fixed voters
commits. -/
theorem Cluster.Reachable.candidate_eq (h : Cluster.Reachable G σ) (hup : σ.up id = some n)
    (hrole : n.role = .leader next matched) {voters : List NodeId}
    (hconfig : n.voterConfig = .stable voters) :
    n.quorumCommitCandidate = commitAdvance n.commitIndex n.hard.currentTerm n.log
      (voters.map fun v => ((n.watermarks matched)[v]?).getD 0) := by
  obtain ⟨g, a, -, hrel⟩ := h.related hup
  exact RaftNode.candidate_eq_commitAdvance (hrel.nodes hup).1.sound.contiguous hrole hconfig
    (hconfig ▸ h.voters_valid hup hrole)

/-! ## Along a run -/

/-- An event leaves a running node further along, or a node that has just come up. -/
theorem Related.next_grows (h : Related g a σ)
    (hsteady : ∀ {v m}, σ.up v = some m → m.Steady False) (hnext : Cluster.Next G σ σ')
    (hup : σ'.up id = some n') :
    (∃ n, σ.up id = some n ∧ n.Grows n') ∨ n'.role = .follower := by
  have hkeep : ∀ {v : NodeId} {m : RaftNode}, update σ.up v (some m) id = some n' →
      (v = id → (∃ n, σ.up id = some n ∧ n.Grows m) ∨ m.role = .follower) →
      (∃ n, σ.up id = some n ∧ n.Grows n') ∨ n'.role = .follower := by
    intro v m hn hm
    by_cases hv : id = v
    · subst hv
      rw [update_self] at hn
      cases hn
      exact hm rfl
    · rw [update_of_ne hv] at hn
      exact Or.inl ⟨n', hn, .refl n'⟩
  cases hnext with
  | @start v m es hnew hstart =>
    refine hkeep (v := v) (m := m) ?_ fun _ => Or.inr ?_
    · rw [← hup]
      show _ = update (Cluster.executeAll _ _ _).up _ _ _
      rw [Cluster.up_executeAll]
    · obtain ⟨g', -, hf, -⟩ := hstart.fresh
      exact hf.role
  | @take v m m' input es hm htakes hoffers hstep =>
    obtain ⟨m₁, es₁, hstep₁, -, hgrows⟩ := RaftNode.step_settles (hsteady hm) htakes
      (fun hp _ => h.lands hm (hsteady hm) hp) False.elim
    rw [hstep] at hstep₁
    cases hstep₁
    refine hkeep (v := v) (m := m') ?_ fun hv => Or.inl ⟨m, hv ▸ hm, hgrows⟩
    rw [← hup]
    show _ = update (Cluster.executeAll _ _ _).up _ _ _
    rw [Cluster.up_executeAll]
  | crash hm htakes hoffers hstep =>
    have hn := Cluster.up_of_stop hup
    rw [Cluster.up_executeAll] at hn
    exact Or.inl ⟨n', hn, .refl n'⟩
  | fail => exact Or.inl ⟨n', Cluster.up_of_stop hup, .refl n'⟩
  | restart hdown hdisk hpeers hrestore =>
    refine hkeep hup fun _ => Or.inr ?_
    obtain ⟨g₀, r, genesis, -, -, rfl⟩ := restoreWithSnapshot_eq_ok hrestore
    rfl
  | resume hdown hdisk hpeers hrestore happlied hwatermark =>
    refine hkeep hup fun _ => Or.inr ?_
    obtain ⟨hrole, -, -, -, rfl⟩ := RaftNode.restoreAppliedWatermark_eq_ok hwatermark
    exact hrole

/-- **A node only moves forward**, also across a crash. -/
theorem Cluster.Reachable.grows (h : Cluster.Reachable G σ) (hrun : Cluster.Runs G σ σ')
    (hup : σ.up id = some n) (hup' : σ'.up id = some n') : n.Grows n' := by
  obtain ⟨g, a, hG, hrel⟩ := h.related hup
  have hgrows : ∃ a', Related g a' σ' ∧ n.hard.currentTerm ≤ a'.term id ∧
      ∀ n', σ'.up id = some n' → n.Grows n' := by
    clear hup'
    induction hrun with
    | refl =>
      obtain ⟨d, -, hat⟩ := hrel.at hup
      refine ⟨a, hrel, hat.term.le, fun n' hn' => ?_⟩
      rw [hup] at hn'
      cases hn'
      exact .refl n
    | tail hrun hnext ih =>
      obtain ⟨a₁, hrel₁, hterm, ih⟩ := ih
      obtain ⟨a₂, hsmalls⟩ := hrel₁.next hG hnext
      have hrel₂ := hsmalls.related hrel₁
      have hterm₂ := hterm.trans ((hrel₁.world.inv.moves hsmalls.moves).1.term id)
      refine ⟨a₂, hrel₂, hterm₂, fun n' hn' => ?_⟩
      rcases hrel₁.next_grows (fun hv => Cluster.Reachable.steady (h.trans hrun) hv) hnext hn'
        with ⟨n₁, hn₁, hstep⟩ | hfollower
      · exact (ih n₁ hn₁).trans hstep
      · obtain ⟨d, -, hat⟩ := hrel₂.at hn'
        refine .of_resting (hat.term ▸ hterm₂) ?_
        rw [hfollower]
        rfl
  obtain ⟨a', -, -, hgrows⟩ := hgrows
  exact hgrows n' hup'

/-! ## Runs without a retreat -/

/-- An event that is not a node hearing of a refusal behind what is confirmed. -/
def Cluster.CalmNext (G : Group) (σ σ' : Cluster) : Prop :=
  Cluster.Next G σ σ' ∧ ∀ {id : NodeId} {n : RaftNode} {input : Input}, σ.up id = some n →
    σ.Became id input σ' → ¬ n.Retreats input

abbrev Cluster.CalmRuns (G : Group) : Cluster → Cluster → Prop :=
  Relation.ReflTransGen (Cluster.CalmNext G)

theorem Cluster.CalmRuns.runs (h : Cluster.CalmRuns G σ σ') : Cluster.Runs G σ σ' := by
  induction h with
  | refl => exact .refl
  | tail _ hnext ih => exact ih.tail hnext.1

theorem Cluster.CalmRuns.steady (h : Cluster.CalmRuns G .empty σ) (hup : σ.up id = some n) :
    n.Steady True := by
  induction h generalizing id n with
  | refl => cases hup
  | tail hrun hnext ih =>
    cases hG : G.genesis with
    | error msg =>
      have hdown := (Cluster.Reachable.silent hG
        (Cluster.CalmRuns.runs (hrun.tail hnext))).1 id
      rw [hup] at hdown
      cases hdown
    | ok g =>
      obtain ⟨a, ha⟩ := (Related.empty hG).runs hG (Cluster.CalmRuns.runs hrun)
      exact (ha.related (Related.empty hG)).next_steady ih hnext.1
        (fun _ {_ _ _} hm hb => hnext.2 hm hb) hup

/-- Does the message refuse a transfer? -/
def RaftMessage.isRefusal : RaftMessage → Bool
  | .installSnapshotReply _ _ _ _ accepted _ _ => !accepted
  | .groupMessage _ _ (.installSnapshotReply _ _ _ _ accepted _ _) => !accepted
  | _ => false

def Effect.isRefusal : Effect → Bool
  | .send _ msg => msg.isRefusal
  | _ => false

theorem Cluster.Next.trace_subset (h : Cluster.Next G σ σ') {x : NodeId × Effect}
    (hx : x ∈ σ.trace) : x ∈ σ'.trace := by
  cases h with
  | start | take | crash =>
    show x ∈ (Cluster.executeAll _ _ _).trace
    rw [Cluster.trace_executeAll]
    exact List.mem_append_left _ hx
  | fail | restart | resume => exact hx

/-- Without a refused transfer there is no retreat. -/
theorem Cluster.Runs.undisturbed (h : Cluster.Runs G σ σ')
    (hnone : ∀ x ∈ σ'.trace, x.2.isRefusal = false) : Cluster.CalmRuns G σ σ' := by
  induction h with
  | refl => exact .refl
  | tail _ hnext ih =>
    have hbefore := fun x hx => hnone x (Cluster.Next.trace_subset hnext hx)
    refine (ih hbefore).tail ⟨hnext, fun {id n input} _ hbecame hretreats => ?_⟩
    obtain ⟨-, -, -, -, -, hoffers, -⟩ := hbecame
    obtain ⟨sender, msg, m, rfl, hunwrap, transfer, offset, index, installed, round, rfl, -⟩ :=
      hretreats
    have hreply := hbefore _ hoffers
    cases msg with
    | groupMessage | installSnapshotReply =>
      simp only [RaftNode.unwrapGroupMessage] at hunwrap
      split at hunwrap
      · cases hunwrap
        cases hreply
      · cases hunwrap
    | _ =>
      simp only [RaftNode.unwrapGroupMessage] at hunwrap
      split at hunwrap <;> cases hunwrap

/-- A leader's progress: in every run in which no leader hears of a refused transfer behind
what the peer has confirmed, every retry cursor is past what is confirmed and at most one
past the log; and in every run what is confirmed does not shrink while the node leads the
term. -/
theorem leader_progress (h : Cluster.Reachable G σ) (hup : σ.up id = some n)
    (hrole : n.role = .leader next matched) :
    (Cluster.CalmRuns G .empty σ → ∀ {p k m : Nat}, next[p]? = some k → matched[p]? = some m →
      m < k ∧ k ≤ n.lastLogIndex + 1) ∧
    ∀ {σ' : Cluster} {n' : RaftNode} {next' matched' : BTreeMap NodeId Nat},
      Cluster.Runs G σ σ' → σ'.up id = some n' →
      n'.hard.currentTerm = n.hard.currentTerm → n'.role = .leader next' matched' →
      ∀ {p m : Nat}, matched[p]? = some m → ∃ m', matched'[p]? = some m' ∧ m ≤ m' := by
  obtain ⟨g, a, -, hrel⟩ := h.related hup
  refine ⟨fun hcalm {p k m} hk hm => ?_, ?_⟩
  · have hsteady := hcalm.steady hup
    have hahead := hsteady.tracking.ahead trivial hrole hk hm
    have hmax := hrel.matched_lt hup hrole hm
    rw [saturatingAdd, min_eq_left hmax] at hahead
    exact ⟨hahead, hrel.next_le hup hsteady hrole hk⟩
  · intro σ' n' next' matched' hrun hup' hterm hrole' p m hm
    exact (h.grows hrun hup hup').matched hterm hrole hrole' hm

/-- The image is on its way to node 3, and then its reply is back. -/
theorem imageSent_calm_facts :
    (Cluster.schedule (.fixed [1, 2, 3]) .empty
      (firstTerm ++ imageSent ++ [.deliver 26])).isSome = true ∧
    ((Cluster.after (.fixed [1, 2, 3]) (firstTerm ++ imageSent ++ [.deliver 26])).trace.all
      fun x => !x.2.isRefusal) = true ∧
    ((Cluster.after (.fixed [1, 2, 3]) (firstTerm ++ imageSent ++ [.deliver 26])).up 1).any
      (fun n => match n.role with
        | .leader next matched => next[3]? == some 2 && matched[3]? == some 1
        | _ => false) = true := by
  decide +kernel

/-- Node 3 has confirmed the image of the first entry and is to be sent the second. -/
theorem leader_progress_imageSent :
    ∃ n next matched, (Cluster.after (.fixed [1, 2, 3])
        (firstTerm ++ imageSent ++ [.deliver 26])).up 1 = some n ∧
      n.role = .leader next matched ∧ next[3]? = some 2 ∧ matched[3]? = some 1 ∧
      1 < 2 ∧ 2 ≤ n.lastLogIndex + 1 := by
  obtain ⟨hsome, hquiet, hfacts⟩ := imageSent_calm_facts
  obtain ⟨n, hup, hn⟩ := (Option.any_eq_true _ _).1 hfacts
  have hreach := Cluster.after_reachable hsome
  have hcalm := Cluster.Runs.undisturbed hreach fun x hx =>
    Bool.not_eq_true' _ ▸ List.all_eq_true.1 hquiet x hx
  cases hrole : n.role with
  | leader next matched =>
      rw [hrole] at hn
      simp only [Bool.and_eq_true, beq_iff_eq] at hn
      exact ⟨n, next, matched, hup, hrole, hn.1, hn.2,
        (leader_progress hreach hup hrole).1 hcalm hn.1 hn.2⟩
  | _ =>
      rw [hrole] at hn
      cases hn

/-! ## A refusal that comes too late

Node 3 refuses a transfer because it already has everything the image stands for, but the
refusal arrives after the node has confirmed more. -/

namespace Cluster

/-- Node 1 sends node 3 both an image and the entries after it. -/
def lateRefusal : List Event :=
  [.take 1 (.tick 1050), .take 1 (.clientPropose .noOp), .take 1 (.tick 1100),
    .take 1 (.compact firstImage), .take 1 (.snapshotPublished none firstImage),
    .take 1 (.tick 1150),
    .take 1 (.snapshotChunkRead 3 firstTransfer firstImage 0 (List.replicate 48 0)),
    .deliver 19, .deliver 27, .deliver 23, .deliver 34, .deliver 32]

theorem lateRefusal_facts :
    (schedule (.fixed [1, 2, 3]) empty (firstTerm ++ lateRefusal)).isSome = true ∧
      ((after (.fixed [1, 2, 3]) (firstTerm ++ lateRefusal)).up 1).any (fun n =>
        match n.role with
        | .leader next matched => next[3]? == some 2 && matched[3]? == some 2
        | _ => false) = true := by
  decide +kernel

end Cluster

/-- After the late refusal the cursor of node 3 is at a position it has confirmed. -/
theorem late_refusal_regresses :
    ∃ σ n next matched, Cluster.Reachable (.fixed [1, 2, 3]) σ ∧ σ.up 1 = some n ∧
      n.role = .leader next matched ∧ next[3]? = some 2 ∧ matched[3]? = some 2 := by
  obtain ⟨hsome, hfacts⟩ := Cluster.lateRefusal_facts
  obtain ⟨n, hup, hn⟩ := (Option.any_eq_true _ _).1 hfacts
  refine ⟨Cluster.after (.fixed [1, 2, 3]) (firstTerm ++ Cluster.lateRefusal), n, ?_⟩
  cases hrole : n.role with
  | leader next matched =>
      rw [hrole] at hn
      simp only [Bool.and_eq_true, beq_iff_eq] at hn
      exact ⟨next, matched, Cluster.after_reachable hsome, hup, rfl, hn⟩
  | _ =>
      rw [hrole] at hn
      cases hn

end MicroRaft
