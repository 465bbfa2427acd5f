import MicroRaft.Cluster.System

/-!
# Executable runs

A schedule is a list of events; executing it checks that every event is possible
and computes the cluster it leads to.  What a schedule leads to is a run of the
system (`Cluster.schedule_runs`), so concrete states can be shown reachable by
evaluation.
-/

namespace MicroRaft

/-- An event by name. -/
inductive Event where
  | start (id : NodeId) (seed : Nat)
  | take (id : NodeId) (input : Input)
  /-- The message that was the given effect of the run arrives. -/
  | deliver (position : Nat)
  | crash (id : NodeId) (input : Input) (executed : Nat)
  | fail (id : NodeId)
  | restart (id : NodeId) (seed : Nat)

instance (n : RaftNode) (input : Input) : Decidable (n.Takes input) :=
  match h : n.publishingSnapshot with
  | none => .isTrue (by simp [RaftNode.Takes, h])
  | some p => decidable_of_iff (input = .snapshotPublished p.transfer p.descriptor) (by
      simp [RaftNode.Takes, h])

instance (σ : Cluster) (id : NodeId) (input : Input) : Decidable (σ.Offers id input) :=
  match input with
  | .message sender msg => inferInstanceAs (Decidable ((sender, Effect.send id msg) ∈ σ.trace))
  | .recover | .membershipChange .. | .tick _ | .clientPropose _ | .clientProposeBatch _
  | .readIndex _ | .cancelRead _ | .compact _ | .snapshotChunkRead .. | .snapshotChunkStaged ..
  | .snapshotPublished .. => .isTrue trivial

instance (G : Group) (id : NodeId) (peers : List NodeId) : Decidable (G.PeersFit id peers) :=
  match G with
  | .fixed voters => inferInstanceAs (Decidable ((peers ++ [id]).insertionSort (· ≤ ·) = voters))
  | .explicit .. => .isTrue trivial

/-- The peers a node of the group is given. -/
def Group.peersOf : Group → NodeId → List NodeId
  | .fixed voters, id | .explicit _ voters, id => voters.filter (· ≠ id)

/-- The first start of a node. -/
def Group.begin (G : Group) (id : NodeId) (seed : Nat) : Option (RaftNode × List Effect) :=
  match G with
  | .fixed _ =>
      if G.PeersFit id (G.peersOf id) then
        (RaftNode.new id (G.peersOf id) seed).map fun n => (n, [])
      else none
  | .explicit groupId voters =>
      match RaftNode.newForGroup id voters seed groupId with
      | some (.ok r) => some r
      | _ => none

theorem Group.begin_starts {G : Group} {id : NodeId} {seed : Nat} {n : RaftNode}
    {es : List Effect} (h : G.begin id seed = some (n, es)) : G.Starts id n es := by
  cases G with
  | fixed voters =>
    simp only [begin] at h
    split at h
    · next hvoters =>
        obtain ⟨m, hm, heq⟩ := Option.map_eq_some_iff.1 h
        cases heq
        exact .fixed hvoters hm
    · cases h
  | explicit groupId voters =>
    simp only [begin] at h
    split at h
    · next hnew =>
        cases h
        exact .explicit hnew
    · cases h

namespace Cluster

/-- A node takes an input that is offered to it. -/
def stepOf (σ : Cluster) (id : NodeId) (input : Input) : Option (RaftNode × List Effect) := do
  let n ← σ.up id
  if n.Takes input ∧ σ.Offers id input then n.step input else none

/-- Execute one event, if it is possible. -/
def exec (G : Group) (σ : Cluster) : Event → Option Cluster
  | .start id seed =>
      if σ.disk id = none then
        (G.begin id seed).map fun r =>
          ({ σ with disk := Function.update σ.disk id (some {}) }.executeAll id r.2).run id r.1
      else none
  | .take id input => (σ.stepOf id input).map fun r => (σ.executeAll id r.2).run id r.1
  | .deliver position =>
      match σ.trace[position]? with
      | some (sender, .send dest msg) =>
          (σ.stepOf dest (.message sender msg)).map fun r => (σ.executeAll dest r.2).run dest r.1
      | _ => none
  | .crash id input executed =>
      (σ.stepOf id input).map fun r => (σ.executeAll id (r.2.take executed)).stop id
  | .fail id => some (σ.stop id)
  | .restart id seed => do
      let d ← σ.disk id
      if σ.up id = none ∧ G.PeersFit id (G.peersOf id) then
        match restoreWithSnapshot id (G.peersOf id) seed d.hard d.snapshot d.log with
        | some (.ok n) => some (σ.run id n)
        | _ => none
      else none

/-- Execute a list of events. -/
def schedule (G : Group) (σ : Cluster) (events : List Event) : Option Cluster :=
  events.foldlM (exec G) σ

theorem stepOf_eq_some {σ : Cluster} {id : NodeId} {input : Input} {n' : RaftNode}
    {es : List Effect} (h : σ.stepOf id input = some (n', es)) :
    ∃ n, σ.up id = some n ∧ n.Takes input ∧ σ.Offers id input ∧ n.step input = some (n', es) := by
  obtain ⟨n, hn, h⟩ := Option.bind_eq_some_iff.1 h
  split at h
  · next hok => exact ⟨n, hn, hok.1, hok.2, h⟩
  · cases h

/-- What an event leads to is a next state of the system. -/
theorem exec_next {G : Group} {σ σ' : Cluster} {event : Event} (h : exec G σ event = some σ') :
    Next G σ σ' := by
  cases event with
  | start id seed =>
    simp only [exec] at h
    split at h
    · next hnew =>
        obtain ⟨⟨n, es⟩, hbegin, rfl⟩ := Option.map_eq_some_iff.1 h
        exact .start hnew (Group.begin_starts hbegin)
    · cases h
  | take id input =>
    obtain ⟨⟨n', es⟩, hstep, rfl⟩ := Option.map_eq_some_iff.1 h
    obtain ⟨n, hup, htakes, hoffers, hstep⟩ := stepOf_eq_some hstep
    exact .take hup htakes hoffers hstep
  | deliver position =>
    simp only [exec] at h
    split at h
    · obtain ⟨⟨n', es⟩, hstep, rfl⟩ := Option.map_eq_some_iff.1 h
      obtain ⟨n, hup, htakes, hoffers, hstep⟩ := stepOf_eq_some hstep
      exact .take hup htakes hoffers hstep
    · cases h
  | crash id input executed =>
    obtain ⟨⟨n', es⟩, hstep, rfl⟩ := Option.map_eq_some_iff.1 h
    obtain ⟨n, hup, htakes, hoffers, hstep⟩ := stepOf_eq_some hstep
    exact .crash hup htakes hoffers hstep
  | fail id =>
    cases h
    exact .fail
  | restart id seed =>
    obtain ⟨d, hdisk, h⟩ := Option.bind_eq_some_iff.1 h
    split at h
    · next hok =>
        split at h
        · next hrestore =>
            cases h
            exact .restart hok.1 hdisk hok.2 hrestore
        · cases h
    · cases h

/-- What a schedule leads to is reached by a run of the system. -/
theorem schedule_runs {G : Group} {σ σ' : Cluster} {events : List Event}
    (h : schedule G σ events = some σ') : Runs G σ σ' := by
  induction events generalizing σ with
  | nil =>
    cases h
    exact .refl
  | cons event events ih =>
    obtain ⟨σ₁, hexec, hrest⟩ := Option.bind_eq_some_iff.1 h
    exact .head (exec_next hexec) (ih hrest)

/-- Where a schedule leads from the empty cluster; the empty cluster if it is not possible. -/
def after (G : Group) (events : List Event) : Cluster := (schedule G empty events).getD empty

theorem schedule_after {G : Group} {events : List Event}
    (h : (schedule G empty events).isSome = true) :
    schedule G empty events = some (after G events) := by
  obtain ⟨σ, hσ⟩ := Option.isSome_iff_exists.1 h
  rw [after, hσ, Option.getD_some]

theorem after_reachable {G : Group} {events : List Event}
    (h : (schedule G empty events).isSome = true) : Reachable G (after G events) :=
  schedule_runs (schedule_after h)

/-- A schedule that goes on is a run that goes on. -/
theorem after_runs {G : Group} {events more : List Event}
    (h : (schedule G empty (events ++ more)).isSome = true) :
    Runs G (after G events) (after G (events ++ more)) := by
  have hall := schedule_after h
  rw [schedule, List.foldlM_append] at hall
  obtain ⟨σ, hσ, hmore⟩ := Option.bind_eq_some_iff.1 hall
  have hfirst : after G events = σ := by
    rw [after, schedule, hσ, Option.getD_some]
  rw [hfirst]
  exact schedule_runs hmore

end Cluster

end MicroRaft
