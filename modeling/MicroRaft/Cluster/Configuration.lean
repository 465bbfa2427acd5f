import MicroRaft.Cluster.Safety
import MicroRaft.Cluster.Schedule
import MicroRaft.Node.Service

/-!
# The configuration is a function of the log

In every run of a group the running nodes satisfy the representation invariant,
so the configuration a node works with is the one its log stands for, and no
handler panics.  What one node cannot check alone, that an image it installs fits
the entries it keeps above it, comes from the agreement of the logs.
-/

namespace MicroRaft

open Function

variable {G : Group} {g : CommittedMembership} {a : Abstract} {σ σ' : Cluster} {id : NodeId}
  {n n' : RaftNode} {calm : Prop}

/-- **An image installed in a run lands**: what the node keeps above it continues what the
image stands for. -/
theorem Related.lands (h : Related g a σ) (hup : σ.up id = some n) (hsteady : n.Steady calm)
    {p : PublishingSnapshot} (hp : n.publishingSnapshot = some p) : n.Lands p.descriptor := by
  obtain ⟨d, hdisk, hat⟩ := h.at hup
  obtain ⟨himage, hlog⟩ := hat.agrees.publishing hp
  have hok := h.world.images (hat.disk.image himage)
  have hgenesis := hat.node.genesis
  constructor
  · obtain ⟨m, hm⟩ := (h.world.wellFormed (h.world.inv.log_rooted id)).replayable
    rw [hat.disk.log, hlog, (hsteady.landing hp).retained, ← membershipAfter_split hok.membership]
      at hm
    rw [hgenesis]
    exact ⟨m, hm⟩
  · intro hnone
    exact hsteady.committed_grown.legacy (hgenesis ▸ (hok.legacy hnone).1)

/-! ## Every running node -/

/-- The nodes of a group start ready. -/
theorem Group.Starts.ready {es : List Effect} (h : G.Starts id n es) : n.Ready calm := by
  cases h with
  | fixed _ hnew => exact RaftNode.new_ready hnew
  | explicit hnew => exact RaftNode.newForGroup_ready hnew

/-- The cluster has become what it is after the node took the input. -/
def Cluster.Became (σ : Cluster) (id : NodeId) (input : Input) (σ' : Cluster) : Prop :=
  ∃ n n' es, σ.up id = some n ∧ n.Takes input ∧ σ.Offers id input ∧
    n.step input = some (n', es) ∧ σ' = (σ.executeAll id es).run id n'

/-- **One event keeps every running node whole.** -/
theorem Related.next_steady (h : Related g a σ)
    (hsteady : ∀ {v m}, σ.up v = some m → m.Steady calm) (hnext : Cluster.Next G σ σ')
    (hcalm : calm → ∀ {v m input}, σ.up v = some m → σ.Became v input σ' → ¬ m.Retreats input)
    (hup : σ'.up id = some n) : n.Steady calm := by
  have hkeep : ∀ {v : NodeId} {m : RaftNode}, (update σ.up v (some m)) id = some n → m.Steady calm →
      n.Steady calm := by
    intro v m hn hm
    by_cases hv : id = v
    · subst hv
      rw [update_self] at hn
      cases hn
      exact hm
    · rw [update_of_ne hv] at hn
      exact hsteady hn
  cases hnext with
  | @start v m es hnew hstart =>
    refine hkeep (v := v) (m := m) ?_ hstart.ready.steady
    rw [← hup]
    show _ = update (Cluster.executeAll _ _ _).up _ _ _
    rw [Cluster.up_executeAll]
  | @take v m m' input es hm htakes hoffers hstep =>
    obtain ⟨m₁, es₁, hstep₁, hsteady₁, -⟩ := RaftNode.step_settles (hsteady hm) htakes
      (fun hp _ => h.lands hm (hsteady hm) hp)
      fun hc => hcalm hc hm ⟨m, m', es, hm, htakes, hoffers, hstep, rfl⟩
    rw [hstep] at hstep₁
    cases hstep₁
    refine hkeep (v := v) (m := m') ?_ hsteady₁
    rw [← hup]
    show _ = update (Cluster.executeAll _ _ _).up _ _ _
    rw [Cluster.up_executeAll]
  | crash hm htakes hoffers hstep =>
    have hn := Cluster.up_of_stop hup
    rw [Cluster.up_executeAll] at hn
    exact hsteady hn
  | fail => exact hsteady (Cluster.up_of_stop hup)
  | restart hdown hdisk hpeers hrestore =>
    exact hkeep hup (RaftNode.restoreWithSnapshot_ready hrestore).steady
  | resume hdown hdisk hpeers hrestore happlied hwatermark =>
    exact hkeep hup
      ((RaftNode.restoreWithSnapshot_ready hrestore).restoreAppliedWatermark hwatermark).steady

/-- **In every state of a run every running node is whole.** -/
theorem Cluster.Reachable.steady (h : Cluster.Reachable G σ) (hup : σ.up id = some n) :
    n.Steady False := by
  induction h generalizing id n with
  | refl => cases hup
  | tail hrun hnext ih =>
    cases hG : G.genesis with
    | error msg =>
      have hdown := (Cluster.Reachable.silent hG (hrun.tail hnext)).1 id
      rw [hup] at hdown
      cases hdown
    | ok g =>
      obtain ⟨a, ha⟩ := (Related.empty hG).runs hG hrun
      exact (ha.related (Related.empty hG)).next_steady ih hnext False.elim hup

/-- The configuration of a node is a function of its log: in every state of an explicit group
the effective membership is the one the whole log leads to, the committed membership the one
the committed part leads to, the peers are everyone the effective membership knows but the
node itself, and whatever input the node takes, it does not panic. -/
theorem explicit_configuration_of_log {groupId : String} {voters : List NodeId}
    (h : Cluster.Reachable (.explicit groupId voters) σ) (hup : σ.up id = some n) :
    (n.membershipAt n.lastLogIndex).map CommittedMembership.state = .ok n.effectiveMembership ∧
      n.membershipAt n.commitIndex = .ok n.committedMembership ∧
      n.peers.Nodup ∧
      (∀ p, p ∈ n.peers ↔ (p ∈ n.effectiveMembership.participants ∨
        p ∈ n.effectiveMembership.retired) ∧ p ≠ n.id) ∧
      ∀ input, n.Takes input → n.step input ≠ none := by
  have hsteady := h.steady hup
  obtain ⟨m, hm, heff⟩ := hsteady.fresh
  refine ⟨?_, hsteady.configured.committed, hsteady.tracking.nodup, fun p => ?_,
    fun input htakes => ?_⟩
  · rw [hsteady.membershipAt_last, hm, heff]
    rfl
  · rw [hsteady.tracking.peers, MembershipState.known, Std.ExtTreeSet.mem_union_iff]
  · obtain ⟨g, a, -, hrel⟩ := h.related hup
    obtain ⟨n', es, hstep, -⟩ := RaftNode.step_settles hsteady htakes
      (fun hp _ => hrel.lands hup hsteady hp) False.elim
    rw [hstep]
    exact Option.some_ne_none _

/-- The only voter of a group admits a learner. -/
def admission : List Event :=
  [.start 1 0, .take 1 (.tick 1), .take 1 (.tick 1000),
    .take 1 (.membershipChange "add-2" (.addLearner 2 ⟨"raft:2", "http:2"⟩))]

theorem admission_facts :
    (Cluster.schedule (.explicit "group" [1]) .empty admission).isSome = true ∧
      ((Cluster.after (.explicit "group" [1]) admission).up 1).any (fun n =>
        n.lastLogIndex == 2 && n.commitIndex == 2 &&
          decide (n.effectiveMembership.learners.toList = [2]) &&
          decide (n.peers = [2])) = true := by
  decide +kernel

/-- The learner comes from the entry the log ends with. -/
theorem explicit_configuration_of_log_admission :
    ∃ n, (Cluster.after (.explicit "group" [1]) admission).up 1 = some n ∧ n.lastLogIndex = 2 ∧
      n.effectiveMembership.learners.toList = [2] ∧ n.peers = [2] ∧
      (n.membershipAt 2).map CommittedMembership.state = .ok n.effectiveMembership ∧
      n.membershipAt 2 = .ok n.committedMembership := by
  obtain ⟨n, hup, hn⟩ := (Option.any_eq_true _ _).1 admission_facts.2
  simp only [Bool.and_eq_true, beq_iff_eq, decide_eq_true_eq] at hn
  obtain ⟨⟨⟨hlast, hcommit⟩, hlearners⟩, hpeers⟩ := hn
  obtain ⟨heffective, hcommitted, -⟩ :=
    explicit_configuration_of_log (Cluster.after_reachable admission_facts.1) hup
  rw [hlast] at heffective
  rw [hcommit] at hcommitted
  exact ⟨n, hup, hlast, hlearners, hpeers, heffective, hcommitted⟩

end MicroRaft
