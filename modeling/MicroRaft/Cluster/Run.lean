import MicroRaft.Cluster.Restart

/-!
# Runs of the cluster

Every event of the cluster is a sequence of small steps: single moves of a
running node, a node coming up, a node going down.  The relation to the abstract
protocol holds before and after each of them (`Small`), so a fact that small
steps preserve holds in every reachable state.
-/

namespace MicroRaft

open Consensus Function EffectM

variable {G : Group} {g : CommittedMembership} {a a' : Abstract} {σ σ' : Cluster} {id : NodeId}
  {n n' : RaftNode} {c : Cause} {es : List Effect}

/-! ## Envelopes -/

theorem envelope_injective (g : CommittedMembership) : Injective (envelope g) := by
  intro m m' h
  unfold envelope at h
  split at h
  · exact h
  · cases h
    rfl

/-- What a node takes out of an envelope, the group has put in. -/
theorem NodeOK.unwrap {images : List (SnapshotDescriptor × List Entry)} {k : List Entry}
    (h : NodeOK g a images id k n) {msg m : RaftMessage} (hm : n.unwrapGroupMessage msg = some m) :
    msg = envelope g m := by
  obtain ⟨hid, hvoters⟩ := membershipAfter_group h.committed
  unfold RaftNode.unwrapGroupMessage at hm
  dsimp only at hm
  rw [hid, hvoters] at hm
  unfold envelope
  split at hm
  · split at hm
    · next hok =>
        cases hm
        rw [if_neg hok.1, hok.2.1, hok.2.2.1]
    · cases hm
  · split at hm
    · next hl =>
        cases hm
        rw [if_pos hl]
    · cases hm

/-- A handler never puts a message into an envelope itself. -/
theorem Step.plain (hs : Step c n es n') {dest : NodeId} {msg : RaftMessage}
    (he : .send dest msg ∈ es) : msg.isGroupMessage = false := by
  obtain ⟨hsend, -⟩ := hs.mayEmit _ he
  cases msg with
  | groupMessage => exact hsend.elim
  | _ => rfl

theorem Steps.plain (hs : Steps c n es n') {dest : NodeId} {msg : RaftMessage}
    (he : .send dest msg ∈ es) : msg.isGroupMessage = false := by
  induction hs with
  | nil => cases he
  | cons hstep _ ih =>
    rcases List.mem_append.1 he with he | he
    · exact hstep.plain he
    · exact ih he

/-- The group's envelope around a whole batch. -/
theorem NodeOK.wrapGroupEffects {images : List (SnapshotDescriptor × List Entry)} {k : List Entry}
    (h : NodeOK g a images id k n') {raw : List Effect} (hs : Steps c n raw n') :
    n'.wrapGroupEffects raw = raw.map (sealed g) := by
  obtain ⟨hid, hvoters⟩ := membershipAfter_group h.committed
  unfold RaftNode.wrapGroupEffects
  dsimp only
  split
  · next hl =>
      rw [hid] at hl
      symm
      refine List.map_id'' (fun e => ?_) raw
      cases e with
      | send dest msg => simp [sealed, envelope, hl]
      | _ => rfl
  · next hl =>
      rw [hid] at hl
      refine List.map_congr_left fun e he => ?_
      cases e with
      | send dest msg => simp [wrapEffect, sealed, envelope, hl, hs.plain he, hid, hvoters]
      | _ => rfl

/-! ## Small steps -/

/-- What the node reacts to was put on the wire. -/
def Cluster.Hears (σ : Cluster) (g : CommittedMembership) (id : NodeId) : Cause → Prop
  | .heard sender msg => σ.Sent sender id (envelope g msg)
  | _ => True

theorem Related.causeOK (h : Related g a σ) (hc : σ.Hears g id c) : CauseOK a σ.images id c := by
  cases c with
  | heard sender msg =>
    obtain ⟨e, heq, hok⟩ := h.trace hc
    cases e with
    | send dest inner =>
      simp only [sealed, Effect.send.injEq] at heq
      obtain ⟨rfl, heq⟩ := heq
      cases envelope_injective g heq
      exact hok
    | _ => cases heq
  | _ => trivial

/-- One small step of the cluster together with the abstract protocol. -/
inductive Small (g : CommittedMembership) : Abstract × Cluster → Abstract × Cluster → Prop
  | move {a a' : Abstract} {σ : Cluster} {id : NodeId} {n n' : RaftNode} {c : Cause}
      {es : List Effect} (h : Related g a σ)
      (h' : Related g a' ((σ.executeAll id (es.map (sealed g))).run id n'))
      (hup : σ.up id = some n) (hears : σ.Hears g id c) (hs : Step c n es n')
      (hby : State.By (scheme g) id a a') :
      Small g (a, σ) (a', (σ.executeAll id (es.map (sealed g))).run id n')
  | boot {a : Abstract} {σ σ' : Cluster} {id : NodeId} {n : RaftNode} {es : List Effect}
      (h : Related g a σ) (h' : Related g a σ') (hup : σ'.up = update σ.up id (some n))
      (hrole : n.role = .follower) (hreads : n.pendingReads = ∅)
      (hes : ∀ e ∈ es, ∃ hard, e = .persistHardState hard)
      (htrace : σ'.trace = σ.trace ++ es.map fun e => (id, e)) : Small g (a, σ) (a, σ')
  | stop {a : Abstract} {σ : Cluster} {id : NodeId} (h : Related g a σ)
      (h' : Related g a (σ.stop id)) : Small g (a, σ) (a, σ.stop id)

abbrev Smalls (g : CommittedMembership) : Abstract × Cluster → Abstract × Cluster → Prop :=
  Relation.ReflTransGen (Small g)

/-- Small steps through states with a property. -/
abbrev Passes (g : CommittedMembership) (R : Cluster → Prop) :
    Abstract × Cluster → Abstract × Cluster → Prop :=
  Relation.ReflTransGen fun x y => Small g x y ∧ R y.2

/-- A run from `σ₀` can leave this trace and these disks. -/
def Cluster.Shown (G : Group) (σ₀ σ : Cluster) : Prop :=
  ∃ σ₁, Cluster.Runs G σ₀ σ₁ ∧ σ₁.trace = σ.trace ∧ σ₁.disk = σ.disk ∧ σ₁.compacted = σ.compacted

theorem Cluster.Runs.shown {σ₀ : Cluster} (hrun : Cluster.Runs G σ₀ σ)
    (h : Cluster.Shown G σ σ') : Cluster.Shown G σ₀ σ' := by
  obtain ⟨σ₁, hrun', hsame⟩ := h
  exact ⟨σ₁, hrun.trans hrun', hsame⟩

variable {x y : Abstract × Cluster} {R : Cluster → Prop}

theorem Small.related (h : Small g x y) : Related g x.1 x.2 ∧ Related g y.1 y.2 := by
  cases h with
  | move h h' => exact ⟨h, h'⟩
  | boot h h' => exact ⟨h, h'⟩
  | stop h h' => exact ⟨h, h'⟩

theorem Small.moves (h : Small g x y) : State.Moves (scheme g) x.1 y.1 := by
  cases h with
  | move _ _ _ _ _ hby => exact hby.moves
  | boot => exact Relation.ReflTransGen.refl
  | stop => exact Relation.ReflTransGen.refl

theorem Smalls.moves (h : Smalls g x y) : State.Moves (scheme g) x.1 y.1 := by
  induction h with
  | refl => exact Relation.ReflTransGen.refl
  | tail _ hstep ih => exact ih.trans hstep.moves

theorem Smalls.related (h : Smalls g x y) (hx : Related g x.1 x.2) : Related g y.1 y.2 := by
  cases h with
  | refl => exact hx
  | tail _ hstep => exact hstep.related.2

theorem Passes.smalls (h : Passes g R x y) : Smalls g x y := by
  induction h with
  | refl => exact .refl
  | tail _ hstep ih => exact ih.tail hstep.1

theorem Passes.imp {R R' : Cluster → Prop} (h : Passes g R x y)
    (hR : ∀ σ, R σ → R' σ) : Passes g R' x y := by
  induction h with
  | refl => exact .refl
  | tail _ hstep ih => exact ih.tail ⟨hstep.1, hR _ hstep.2⟩

/-- Stopping a node brings nobody up. -/
theorem Cluster.up_of_stop {v : NodeId} (h : (σ.stop id).up v = some n) : σ.up v = some n := by
  have h : update σ.up id none v = some n := h
  by_cases hne : v = id
  · rw [hne, update_self] at h
    cases h
  · rwa [update_of_ne hne] at h

theorem Related.stop (h : Related g a σ) (id : NodeId) : Related g a (σ.stop id) where
  world := h.world
  published := h.published
  absent {v} hv := by
    obtain ⟨hup, hrest⟩ := h.absent hv
    refine ⟨Option.eq_none_iff_forall_ne_some.2 fun n hn => ?_, hrest⟩
    rw [Cluster.up_of_stop hn] at hup
    cases hup
  disks := h.disks
  nodes hv := h.nodes (Cluster.up_of_stop hv)
  trace := h.trace

/-! ## Events as small steps -/

/-- Everything sent stays on the wire. -/
theorem Cluster.trace_executeAll (σ : Cluster) (id : NodeId) (es : List Effect) :
    (σ.executeAll id es).trace = σ.trace ++ es.map fun e => (id, e) := by
  induction es generalizing σ with
  | nil => simp [executeAll]
  | cons e es ih =>
    show ((σ.execute id e).executeAll id es).trace = _
    rw [ih]
    show (σ.trace ++ [(id, e)]) ++ _ = _
    simp

theorem Cluster.up_execute (σ : Cluster) (id : NodeId) (e : Effect) :
    (σ.execute id e).up = σ.up := by
  cases e with
  | publishSnapshot transfer => cases transfer <;> rfl
  | _ => rfl

theorem Cluster.up_executeAll (σ : Cluster) (id : NodeId) (es : List Effect) :
    (σ.executeAll id es).up = σ.up := by
  induction es generalizing σ with
  | nil => rfl
  | cons e es ih => exact (ih (σ.execute id e)).trans (up_execute ..)

theorem Cluster.Hears.mono (h : σ.Hears g id c) (hsub : ∀ x ∈ σ.trace, x ∈ σ'.trace) :
    σ'.Hears g id c := by
  cases c with
  | heard sender msg => exact hsub _ h
  | _ => trivial

/-- A run of moves, one small step for each; between them the effects so far are executed. -/
theorem Related.steps (hrun : ∀ σ n, R σ → R (σ.run id n))
    (h : Related g a σ) (hup : σ.up id = some n) (hears : σ.Hears g id c) (hs : Steps c n es n')
    (hR : ∀ k, R (σ.executeAll id ((es.map (sealed g)).take k))) :
    ∃ a', Passes g R (a, σ) (a', (σ.executeAll id (es.map (sealed g))).run id n') := by
  induction hs generalizing a σ with
  | nil n =>
    refine ⟨a, ?_⟩
    have hsame : (σ.executeAll id (List.map (sealed g) [])).run id n = σ := by
      show σ.run id n = σ
      rw [Cluster.run, ← hup, update_eq_self]
    rw [hsame]
  | @cons n n₁ n₂ e es hstep _ ih =>
    obtain ⟨a₁, hby, h₁⟩ := h.step hup (h.causeOK hears) hstep
    have hhere : R ((σ.executeAll id (e.map (sealed g))).run id n₁) := by
      have htake := hR (e.map (sealed g)).length
      rw [List.map_append, List.take_left] at htake
      exact hrun _ _ htake
    obtain ⟨a₂, hpasses⟩ := ih h₁ (Cluster.run_up ..) (hears.mono fun x hx => by
      show x ∈ (σ.executeAll id (e.map (sealed g))).trace
      rw [Cluster.trace_executeAll]
      exact List.mem_append_left _ hx) fun k => by
        have htake := hR ((e.map (sealed g)).length + k)
        rw [List.map_append, List.take_length_add_append, Cluster.executeAll_append] at htake
        rw [Cluster.executeAll_run]
        exact hrun _ _ htake
    refine ⟨a₂, .head ⟨Small.move h h₁ hup hears hstep hby, hhere⟩ ?_⟩
    rw [Cluster.executeAll_run, Cluster.run_run, ← Cluster.executeAll_append,
      ← List.map_append] at hpasses
    exact hpasses

/-- What a node reacts to when it takes an input the cluster offers. -/
theorem Related.hears (h : Related g a σ) (hup : σ.up id = some n) {input : Input}
    (hoffers : σ.Offers id input) : σ.Hears g id (n.causeOf input) := by
  cases input with
  | message sender msg =>
    show σ.Hears g id ((n.unwrapGroupMessage msg).elim .other (.heard sender))
    cases hm : n.unwrapGroupMessage msg with
    | none => trivial
    | some m =>
      show σ.Sent sender id (envelope g m)
      rw [← (h.nodes hup).1.unwrap hm]
      exact hoffers
  | _ => trivial

/-- A batch, cut after any of its effects, is a sequence of small steps. -/
theorem Related.take (hrun : ∀ σ n, R σ → R (σ.run id n))
    (h : Related g a σ) (hup : σ.up id = some n) {input : Input} (htakes : n.Takes input)
    (hoffers : σ.Offers id input) (hstep : n.step input = some (n', es))
    (hR : ∀ k, R (σ.executeAll id (es.take k))) :
    (∃ a', Passes g R (a, σ) (a', (σ.executeAll id es).run id n')) ∧
      ∀ executed, ∃ a' m, Passes g R (a, σ)
        (a', (σ.executeAll id (es.take executed)).run id m) := by
  have hears := h.hears hup hoffers
  obtain ⟨raw, hsteps, rfl⟩ := RaftNode.step_steps hstep (h.nodes hup).1.sound htakes
  obtain ⟨a', hpasses⟩ := h.steps (R := fun _ => True) (fun _ _ _ => trivial) hup hears hsteps
    fun _ => trivial
  have hnode := ((hpasses.smalls.related h).nodes (Cluster.run_up ..)).1
  rw [hnode.wrapGroupEffects hsteps] at hR ⊢
  refine ⟨h.steps hrun hup hears hsteps hR, fun executed => ?_⟩
  obtain ⟨m, hm⟩ := Run.take Step.length_le_one hsteps executed
  obtain ⟨a'', hcut⟩ := h.steps hrun hup hears hm fun k => by
    rw [List.map_take, List.take_take]
    exact hR _
  rw [List.map_take] at hcut
  exact ⟨a'', m, hcut⟩

theorem Cluster.run_stop (σ : Cluster) (id : NodeId) (n : RaftNode) :
    (σ.run id n).stop id = σ.stop id := by
  simp [run, stop, update_idem]

/-- **Every event of the cluster is a sequence of small steps**, and had the node crashed
between two of them, its disk would be as it is there. -/
theorem Related.passes (hG : G.genesis = .ok g) (h : Related g a σ) (hn : Cluster.Next G σ σ') :
    ∃ a', Passes g (Cluster.Shown G σ) (a, σ) (a', σ') := by
  have hnext : Cluster.Shown G σ σ' := ⟨σ', .single hn, rfl, rfl, rfl⟩
  have hrun : ∀ {id : NodeId} (τ : Cluster) (m : RaftNode), Cluster.Shown G σ τ →
      Cluster.Shown G σ (τ.run id m) := fun τ m hτ => hτ
  cases hn with
  | start hnew hstart =>
    obtain ⟨g', -, hf, hes⟩ := hstart.fresh
    refine ⟨a, .single ⟨Small.boot h (h.start hG hnew hstart) ?_ hf.role hf.reads ?_
      (Cluster.trace_executeAll ..), hnext⟩⟩
    · show update (Cluster.executeAll _ _ _).up _ _ = _
      rw [Cluster.up_executeAll]
    · intro e he
      rcases hes with ⟨-, rfl, -⟩ | ⟨-, rfl⟩
      · cases he
      · exact ⟨_, List.mem_singleton.1 he⟩
  | take hup htakes hoffers hstep =>
    exact (h.take hrun hup htakes hoffers hstep fun k =>
      ⟨_, .single (.crash hup htakes hoffers hstep), rfl, rfl, rfl⟩).1
  | crash hup htakes hoffers hstep =>
    obtain ⟨a', m, hcut⟩ := (h.take hrun hup htakes hoffers hstep fun k =>
      ⟨_, .single (.crash hup htakes hoffers hstep), rfl, rfl, rfl⟩).2 _
    have hrel := hcut.smalls.related h
    refine ⟨a', hcut.tail ?_⟩
    rw [← Cluster.run_stop _ _ m] at hnext ⊢
    exact ⟨Small.stop hrel (hrel.stop _), hnext⟩
  | fail => exact ⟨a, .single ⟨Small.stop h (h.stop _), hnext⟩⟩
  | restart hdown hdisk hpeers hrestore =>
    have hrelated := h.restart hG hdisk hpeers hrestore
    obtain ⟨g₀, r, genesis, -, -, rfl⟩ := restoreWithSnapshot_eq_ok hrestore
    exact ⟨a, .single ⟨Small.boot (n := restoredNode _ _ _ _ _ _) h hrelated rfl rfl rfl
      (fun e he => absurd he List.not_mem_nil) (List.append_nil _).symm, hnext⟩⟩
  | resume hdown hdisk hpeers hrestore happlied hwatermark =>
    obtain ⟨g₀, r, genesis, -, -, rfl⟩ := restoreWithSnapshot_eq_ok hrestore
    have hrelated := (h.restart hG hdisk hpeers hrestore).resume (Cluster.run_up ..) rfl happlied
      hwatermark
    rw [Cluster.run_run] at hrelated
    obtain ⟨-, -, -, -, rfl⟩ := RaftNode.restoreAppliedWatermark_eq_ok hwatermark
    exact ⟨a, .single ⟨Small.boot h hrelated rfl rfl rfl
      (fun e he => absurd he List.not_mem_nil) (List.append_nil _).symm, hnext⟩⟩

theorem Related.next (hG : G.genesis = .ok g) (h : Related g a σ) (hn : Cluster.Next G σ σ') :
    ∃ a', Smalls g (a, σ) (a', σ') := by
  obtain ⟨a', hpasses⟩ := h.passes hG hn
  exact ⟨a', hpasses.smalls⟩

theorem Related.runs (hG : G.genesis = .ok g) (h : Related g a σ) (hr : Cluster.Runs G σ σ') :
    ∃ a', Smalls g (a, σ) (a', σ') := by
  induction hr with
  | refl => exact ⟨a, .refl⟩
  | tail _ hnext ih =>
    obtain ⟨a₁, h₁⟩ := ih
    obtain ⟨a₂, h₂⟩ := (h₁.related h).next hG hnext
    exact ⟨a₂, h₁.trans h₂⟩

/-! ## Reachable states -/

theorem Related.empty (hG : G.genesis = .ok g) : Related g State.init Cluster.empty where
  world :=
    { genesis := Group.genesis_genesis hG
      inv := State.Inv.init
      logs := fun hl => absurd rfl hl
      images := fun hd => by cases hd }
  published hs := by cases hs
  absent _ := ⟨rfl, rfl, rfl, rfl⟩
  disks hd := by cases hd
  nodes hn := by cases hn
  trace he := by cases he

/-- A group that cannot be formed never starts a node. -/
theorem Cluster.Reachable.silent {msg : String} (hG : G.genesis = .error msg)
    (h : Cluster.Reachable G σ) :
    (∀ id, σ.up id = none) ∧ (∀ id, σ.disk id = none) ∧ σ.trace = [] := by
  induction h with
  | refl => exact ⟨fun _ => rfl, fun _ => rfl, rfl⟩
  | tail _ hnext ih =>
    obtain ⟨hup, hdisk, htrace⟩ := ih
    cases hnext with
    | start hnew hstart =>
      obtain ⟨g, hg, -⟩ := hstart.fresh
      rw [hG] at hg
      cases hg
    | take hn =>
      rw [hup] at hn
      cases hn
    | crash hn =>
      rw [hup] at hn
      cases hn
    | fail =>
      refine ⟨fun v => Option.eq_none_iff_forall_ne_some.2 fun n hn => ?_, hdisk, htrace⟩
      have hn := Cluster.up_of_stop hn
      rw [hup] at hn
      cases hn
    | restart hdown hd =>
      rw [hdisk] at hd
      cases hd
    | resume hdown hd =>
      rw [hdisk] at hd
      cases hd

/-- **Every reachable state is accounted for by the abstract protocol**, and so is every
state that comes after it. -/
theorem Cluster.Reachable.related (h : Cluster.Reachable G σ) (hup : σ.up id = some n) :
    ∃ g a, G.genesis = .ok g ∧ Related g a σ := by
  cases hG : G.genesis with
  | error msg =>
    rw [(h.silent hG).1] at hup
    cases hup
  | ok g =>
    obtain ⟨a, ha⟩ := (Related.empty hG).runs hG h
    exact ⟨g, a, rfl, ha.related (Related.empty hG)⟩

end MicroRaft
