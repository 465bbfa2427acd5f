import MicroRaft.Cluster.Safety

/-!
# Quorum reads

A read is answered when a quorum has confirmed the leader after the read was
admitted.  A confirmation answers a probe, a probe carries the context of its read,
and a leader uses a context once in its term (`Probes`); so the confirmations of a
read are all younger than the read.  When the last of them arrives, no later leader
can have existed at the moment of admission, and the leader's own commit position of
that moment covered everything anybody had committed (`Pending.served`).
-/

namespace MicroRaft

open Consensus Function

variable {G : Group} {g : CommittedMembership} {a a₀ a₁ a' : Abstract} {σ σ₁ : Cluster}
  {id L : NodeId} {n n' : RaftNode} {c : Cause} {es : List Effect} {r : Nat} {x : PendingRead}

/-! ## What a move does to reads -/

/-- Where a pending read comes from. -/
theorem Step.reads_cases (hs : Step c n es n') (hx : n'.pendingReads[r]? = some x) :
    n.pendingReads[r]? = some x ∨
    (n.publishingSnapshot = none ∧ n.readRejection = none ∧
      x = ⟨n.readContext + 1, n.hard.currentTerm, n.commitIndex, {n.id}⟩) ∨
    ∃ sender y, n.pendingReads[r]? = some y ∧
      c = .heard sender (.readProbeReply y.term y.context true) ∧
      x = ⟨y.context, y.term, y.index, y.voters.insert sender⟩ := by
  cases hs with
  | land hl => cases hl <;> exact Or.inl hx
  | move hidle hm =>
    cases hm with
    | weaken hw => exact Or.inl (hw.reads hx)
    | readStart hasked hfresh hready =>
      simp only [Std.ExtTreeMap.getElem?_insert, Nat.compare_eq_eq] at hx
      split at hx
      · exact Or.inr (Or.inl ⟨hidle, hready, (Option.some_inj.1 hx).symm⟩)
      · exact Or.inl hx
    | readCount hlead hread hheard hterm =>
      simp only [Std.ExtTreeMap.getElem?_insert, Nat.compare_eq_eq] at hx
      split at hx
      · next heq =>
          subst heq
          rw [← hterm] at hheard
          exact Or.inr (Or.inr ⟨_, _, hread, hheard, (Option.some_inj.1 hx).symm⟩)
      · exact Or.inl hx
    | readReady hlead hread hheard hterm hquorum =>
      simp only [Std.ExtTreeMap.getElem?_erase, Nat.compare_eq_eq] at hx
      split at hx
      · cases hx
      · exact Or.inl hx
    | _ => exact Or.inl hx

/-- A leader has been leader before the move, in the same term and with no higher context,
or has just won. -/
theorem Step.leader_cases (hs : Step c n es n') (hlead : n'.isLeader = true) :
    n'.hard.currentTerm = n.hard.currentTerm ∧
      (n.isLeader = true ∧ n.readContext ≤ n'.readContext ∨
        ∃ votes, n.role = .candidate votes) := by
  cases hs with
  | land hl =>
    cases hl with
    | compacted => exact ⟨rfl, Or.inl ⟨hlead, le_rfl⟩⟩
    | installed hp htransfer hhard => exact ⟨by rw [hhard], Or.inl ⟨hlead, le_rfl⟩⟩
  | move hidle hm =>
    cases hm with
    | weaken hw =>
      refine ⟨by rw [hw.hard], Or.inl ⟨?_, hw.readContext.ge⟩⟩
      obtain ⟨next, matched, hrole⟩ := RaftNode.isLeader_iff.1 hlead
      rcases hw.role with heq | heq | ⟨-, p, campaign, votes, heq⟩
      · exact RaftNode.isLeader_iff.2 ⟨next, matched, heq ▸ hrole⟩
      · rw [heq] at hrole
        cases hrole
      · rw [heq] at hrole
        cases hrole
    | progress hrole | peerAck hrole =>
      exact ⟨rfl, Or.inl ⟨RaftNode.isLeader_iff.2 ⟨_, _, hrole⟩, le_rfl⟩⟩
    | adopt | campaign => cases hlead
    | countVote hrole | win hrole => exact ⟨rfl, Or.inr ⟨_, hrole⟩⟩
    | commit =>
      refine ⟨?_, Or.inl ⟨hlead, le_rfl⟩⟩
      dsimp only [RaftNode.hardWith]
      split <;> rfl
    | readStart | readSelf => exact ⟨rfl, Or.inl ⟨hlead, Nat.le_succ _⟩⟩
    | _ => exact ⟨rfl, Or.inl ⟨hlead, le_rfl⟩⟩

/-! ## The trace of a small step -/

variable {y z : Abstract × Cluster} {msg : RaftMessage} {v dest : NodeId}

theorem sealed_eq_send {e : Effect} {dest : NodeId}
    (h : sealed g e = .send dest (envelope g msg)) : e = .send dest msg := by
  cases e with
  | send dest' msg' =>
    simp only [sealed, Effect.send.injEq] at h
    rw [h.1, envelope_injective g h.2]
  | _ => cases h

theorem sealed_eq_readReady {e : Effect} {ctx index T : Nat}
    (h : sealed g e = .readReady r ctx index T) : e = .readReady r ctx index T := by
  cases e with
  | send => cases h
  | _ => exact h

theorem Cluster.trace_move (σ : Cluster) (id : NodeId) (es : List Effect) (n' : RaftNode) :
    ((σ.executeAll id (es.map (sealed g))).run id n').trace =
      σ.trace ++ es.map fun e => (id, sealed g e) := by
  show (σ.executeAll id (es.map (sealed g))).trace = _
  rw [trace_executeAll, List.map_map]
  rfl

/-- A message of a small step is old, or the mover sends it now. -/
theorem Cluster.sent_move (hs : Step c n es n')
    (h : ((σ.executeAll id (es.map (sealed g))).run id n').Sent v dest (envelope g msg)) :
    σ.Sent v dest (envelope g msg) ∨ v = id ∧ n.MaySend c dest msg ∧ n' = n := by
  rw [Sent, trace_move] at h
  rcases List.mem_append.1 h with h | h
  · exact Or.inl h
  · obtain ⟨e, he, heq⟩ := List.mem_map.1 h
    simp only [Prod.mk.injEq] at heq
    rw [sealed_eq_send heq.2] at he
    exact Or.inr ⟨heq.1.symm, hs.mayEmit _ he⟩

/-- A node that comes up sends nothing. -/
theorem sent_boot {σ' : Cluster} (hes : ∀ e ∈ es, ∃ hard, e = .persistHardState hard)
    (htrace : σ'.trace = σ.trace ++ es.map fun e => (id, e)) (h : σ'.Sent v dest msg) :
    σ.Sent v dest msg := by
  rw [Cluster.Sent, htrace] at h
  rcases List.mem_append.1 h with h | h
  · exact h
  · obtain ⟨e, he, heq⟩ := List.mem_map.1 h
    obtain ⟨hard, rfl⟩ := hes e he
    simp at heq

theorem Cluster.up_move (σ : Cluster) (id : NodeId) (es : List Effect) (n' : RaftNode) :
    ((σ.executeAll id es).run id n').up = update σ.up id (some n') := by
  show update (σ.executeAll id es).up id (some n') = _
  rw [up_executeAll]

/-! ## Probes and confirmations -/

/-- Contexts are used once in a term, and only probes are confirmed. -/
structure Probes (g : CommittedMembership) (σ : Cluster) : Prop where
  context : ∀ {L dest leader : NodeId} {n : RaftNode} {ctx : Nat}, σ.up L = some n →
    n.isLeader = true →
    σ.Sent L dest (envelope g (.readProbe n.hard.currentTerm leader ctx)) → ctx ≤ n.readContext
  answered : ∀ {v dest : NodeId} {T ctx : Nat},
    σ.Sent v dest (envelope g (.readProbeReply T ctx true)) →
    σ.Sent dest v (envelope g (.readProbe T dest ctx))

theorem Cluster.Sent.move (h : σ.Sent v dest msg) (es : List Effect) (n' : RaftNode) :
    ((σ.executeAll id (es.map (sealed g))).run id n').Sent v dest msg := by
  rw [Sent, trace_move]
  exact List.mem_append_left _ h

/-- Only the leader of a term probes in it. -/
theorem Related.probe_lead (h : Related g a σ) {v dest leader : NodeId} {T ctx : Nat}
    (hs : σ.Sent v dest (envelope g (.readProbe T leader ctx))) : a.lead T = some v := by
  obtain ⟨e, heq, hok⟩ := h.trace hs
  rw [sealed_eq_send heq.symm] at hok
  exact hok.2

theorem Small.probes (h : Small g y z) (hp : Probes g y.2) : Probes g z.2 := by
  cases h with
  | @move a a' σ id n n' c es hrel hrel' hup hears hs hby =>
    refine ⟨fun {L dest leader m ctx} hm hlead hsent => ?_, fun hsent => ?_⟩
    · rw [Cluster.up_move] at hm
      by_cases hL : L = id
      · subst hL
        rw [update_self] at hm
        cases hm
        obtain ⟨hterm, hcase⟩ := hs.leader_cases hlead
        rw [hterm] at hsent
        rcases Cluster.sent_move hs hsent with hold | ⟨-, ⟨-, -, -, hctx⟩, rfl⟩
        · rcases hcase with ⟨hwas, hle⟩ | ⟨votes, hrole⟩
          · exact (hp.context hup hwas hold).trans hle
          · -- a candidate is not the leader of its term, so it has not probed in it
            have hr := (hrel.nodes hup).1.role
            have hlead' := hrel.probe_lead hold
            rw [hrole] at hr
            rw [hrel.term_eq hup] at hlead'
            exact absurd hlead' hr.2.1
        · exact hctx.le
      · rw [update_of_ne hL] at hm
        rcases Cluster.sent_move hs hsent with hold | ⟨heq, -⟩
        · exact hp.context hm hlead hold
        · exact absurd heq hL
    · rcases Cluster.sent_move hs hsent with hold | ⟨rfl, ⟨-, hheard⟩, -⟩
      · exact (hp.answered hold).move es n'
      · rw [hheard rfl] at hears
        exact Cluster.Sent.move hears es n'
  | @boot a σ σ' id n es hrel hrel' hup hrole hreads hes htrace =>
    refine ⟨fun {L dest leader m ctx} hm hlead hsent => ?_, fun hsent => ?_⟩
    · rw [hup] at hm
      by_cases hL : L = id
      · rw [hL, update_self] at hm
        cases hm
        simp [RaftNode.isLeader, hrole] at hlead
      · rw [update_of_ne hL] at hm
        exact hp.context hm hlead (sent_boot hes htrace hsent)
    · show (_, _) ∈ σ'.trace
      rw [htrace]
      exact List.mem_append_left _ (hp.answered (sent_boot hes htrace hsent))
  | stop => exact ⟨fun hm => hp.context (Cluster.up_of_stop hm), hp.answered⟩

theorem Probes.empty : Probes g Cluster.empty where
  context hup := by cases hup
  answered hs := by cases hs

/-! ## Pending reads -/

/-- At `a₀` the read was admitted: the leader's commit position was of its own term. -/
structure Admitted (a₀ : Abstract) (L : NodeId) (x : PendingRead) : Prop where
  lead : a₀.lead x.term = some L
  index : x.index = a₀.lcommit x.term
  own : lastTerm ((a₀.llog x.term).take x.index) = x.term

/-- The read was admitted after `a₁`, and whoever has confirmed it had not left its term
when it was admitted. -/
def Pending (g : CommittedMembership) (a₁ a : Abstract) (σ : Cluster) (L : NodeId)
    (x : PendingRead) : Prop :=
  ∃ a₀, State.Moves (scheme g) a₁ a₀ ∧ State.Moves (scheme g) a₀ a ∧ Admitted a₀ L x ∧
    (∀ v ∈ x.voters, a₀.term v ≤ x.term) ∧
    ∀ v, σ.Sent v L (envelope g (.readProbeReply x.term x.context true)) → a₀.term v ≤ x.term

/-- An answer covers whatever was known to be committed at `a₁`, and no term had a later
leader. -/
def Served (a₁ : Abstract) (index T : Nat) : Prop :=
  (∀ v i, a₁.Knows v i → i ≤ index) ∧ ∀ U, a₁.lead U ≠ none → U ≤ T

/-- A quorum that had not left the term of a leader at the moment of admission. -/
theorem Admitted.served (hx : Admitted a₀ L x) (h₁ : a₁.Inv (scheme g))
    (hm : State.Moves (scheme g) a₁ a₀) (hinv : a'.Inv (scheme g)) (hle : State.Le a₀ a')
    {S : Set NodeId} (hq : (scheme g).Quorum ((scheme g).conf (a'.llog x.term)) S)
    (hS : ∀ v ∈ S, a₀.term v ≤ x.term) : Served a₁ x.index x.term := by
  obtain ⟨hle₁, h₀⟩ := h₁.moves hm
  have hled : a₀.lead x.term ≠ none := by simp [hx.lead]
  have hlast := h₀.no_later_leader hinv hle (hle.led hled) hq hS
  refine ⟨fun v i hk => ?_, fun U hU => ?_⟩
  · have hown := hx.own
    rw [hx.index] at hown ⊢
    exact h₀.knows_le hled hown hlast (h₁.knows_moves hm hk).2
  · by_contra hcon
    exact hle₁.led hU (hlast U (not_le.1 hcon))

/-- Reads a node may admit. -/
theorem Related.admits (h : Related g a σ) (hup : σ.up L = some n)
    (hready : n.readRejection = none) (ctx : Nat) (voters : BTreeSet NodeId) :
    Admitted a L ⟨ctx, n.hard.currentTerm, n.commitIndex, voters⟩ := by
  unfold RaftNode.readRejection at hready
  split at hready
  · cases hready
  next hlead =>
  split at hready
  · cases hready
  next hown =>
  rw [not_or, Bool.not_eq_false] at hlead
  rw [not_or, not_not] at hown
  have hl := h.lead_eq hup hlead.1
  obtain ⟨next, matched, hrole⟩ := RaftNode.isLeader_iff.1 hlead.1
  have hnode := (h.nodes hup).1
  have hr := hnode.role
  rw [hrole] at hr
  refine ⟨hl, ?_, ?_⟩
  · show n.commitIndex = a.lcommit n.hard.currentTerm
    rw [h.term_eq hup]
    exact hr.2.1
  · show lastTerm ((a.llog n.hard.currentTerm).take n.commitIndex) = n.hard.currentTerm
    rw [← h.memory_leader hup hlead.1]
    cases ht : n.logTerm n.commitIndex with
    | none =>
      -- the commit index is in the log, so it has a term
      have hlen := (h.settled_memory hup le_rfl).2
      rw [List.length_take] at hlen
      rw [(h.views_memory hup).logTerm_iff.2 ⟨hnode.floor, by omega, rfl⟩] at ht
      cases ht
    | some t =>
      rw [((h.views_memory hup).logTerm_iff.1 ht).2.2, ← hown.2, RaftNode.termAt, ht,
        Option.getD_some]

/-- A confirmation sent now comes from a node in the term of the read. -/
theorem Pending.move (hinv : a₁.Inv (scheme g)) (hp : Pending g a₁ a σ L x)
    (hrel : Related g a σ) (hup : σ.up id = some n) (hs : Step c n es n')
    (hm : State.Moves (scheme g) a a') :
    Pending g a₁ a' ((σ.executeAll id (es.map (sealed g))).run id n') L x := by
  obtain ⟨a₀, h₁, h₂, hadmitted, hvoters, hsent⟩ := hp
  refine ⟨a₀, h₁, h₂.trans hm, hadmitted, hvoters, fun v hv => ?_⟩
  rcases Cluster.sent_move hs hv with hold | ⟨rfl, ⟨hterm, -⟩, -⟩
  · exact hsent v hold
  · rw [hterm, hrel.term_eq hup]
    exact ((hinv.moves h₁).2.moves h₂).1.term v

theorem Related.log_leader (h : Related g a σ) (hup : σ.up L = some n)
    (hlead : a.lead n.hard.currentTerm = some L) : a.log L = a.llog n.hard.currentTerm := by
  rw [h.term_eq hup] at hlead ⊢
  exact h.world.inv.own hlead

/-- The voters of a read after one more confirmation. -/
theorem confirmed {sender v : NodeId} (hvoters : ∀ v ∈ x.voters, a₀.term v ≤ x.term)
    (hsent : ∀ v, σ.Sent v L (envelope g (.readProbeReply x.term x.context true)) →
      a₀.term v ≤ x.term)
    (hears : σ.Sent sender L (envelope g (.readProbeReply x.term x.context true)))
    (hv : v ∈ x.voters.insert sender) : a₀.term v ≤ x.term := by
  rcases Std.ExtTreeSet.mem_insert.1 hv with hv | hv
  · rw [Nat.compare_eq_eq] at hv
    rw [← hv]
    exact hsent _ hears
  · exact hvoters v hv

/-- A read is answered when its confirmations are complete. -/
theorem Related.answer (h : Related g a σ) (h₁ : a₁.Inv (scheme g))
    (hm : State.Moves (scheme g) a₁ a) (hup : σ.up L = some n) (hears : σ.Hears g L c)
    (hidle : n.publishingSnapshot = none)
    (hpending : ∀ x, n.pendingReads[r]? = some x → Pending g a₁ a σ L x) {index T : Nat}
    (hans : n.MayAnswer c r index T) : Served a₁ index T := by
  obtain ⟨d, hd, hat⟩ := h.at hup
  rcases hans with ⟨hready, hquorum, rfl, rfl⟩ |
    ⟨sender, x, hlead, hx, hheard, hterm, hquorum, rfl, rfl⟩
  · -- the leader is a quorum of its own
    have hadmitted := h.admits hup hready 0 ∅
    have hq := hat.quorum hidle hquorum
    rw [h.log_leader hup hadmitted.lead] at hq
    refine hadmitted.served h₁ hm h.world.inv (State.Le.refl _) hq fun v hv => ?_
    rw [Set.mem_ofPred_eq, mem_singletonSet] at hv
    rw [hv, hat.node.self, ← hat.term]
  · obtain ⟨a₀, hm₁, hm₂, hadmitted, hvoters, hsent⟩ := hpending x hx
    have h₀ := (h₁.moves hm₁).2
    have hq := hat.quorum hidle hquorum
    rw [h.log_leader hup (h.lead_eq hup hlead), ← hterm] at hq
    refine hadmitted.served h₁ hm₁ h.world.inv (h₀.moves hm₂).1 hq fun v hv => ?_
    rw [hheard] at hears
    exact confirmed hvoters hsent hears hv

/-- What a move of the leader leaves pending. -/
theorem Related.reads_move (h : Related g a σ) (hp : Probes g σ) (h₁ : a₁.Inv (scheme g))
    (hm₁ : State.Moves (scheme g) a₁ a) (hup : σ.up L = some n) (hears : σ.Hears g L c)
    (hs : Step c n es n') (hm : State.Moves (scheme g) a a')
    (hpending : ∀ x, n.pendingReads[r]? = some x → Pending g a₁ a σ L x)
    (hx : n'.pendingReads[r]? = some x) :
    Pending g a₁ a' ((σ.executeAll L (es.map (sealed g))).run L n') L x := by
  refine Pending.move h₁ ?_ h hup hs hm
  rcases hs.reads_cases hx with hold | ⟨hidle, hready, rfl⟩ | ⟨sender, y, hy, hheard, rfl⟩
  · exact hpending x hold
  · -- just admitted: nobody has confirmed its context yet
    refine ⟨a, hm₁, .refl, h.admits hup hready _ _, fun v hv => ?_, fun v hv => ?_⟩
    · rw [mem_singletonSet] at hv
      rw [hv, (h.nodes hup).1.self]
      exact (h.term_eq hup).ge
    · have := hp.context hup (RaftNode.isLeader_of_readRejection hready) (hp.answered hv)
      exact absurd this (Nat.not_succ_le_self _)
  · obtain ⟨a₀, hm₁, hm₂, hadmitted, hvoters, hsent⟩ := hpending y hy
    refine ⟨a₀, hm₁, hm₂, ⟨hadmitted.lead, hadmitted.index, hadmitted.own⟩, fun v hv => ?_, hsent⟩
    rw [hheard] at hears
    exact confirmed (x := y) hvoters hsent hears hv

/-- Answers to a request that was not pending at `σ₁`, and the request while it waits. -/
structure ReadsOK (g : CommittedMembership) (a₁ : Abstract) (σ₁ : Cluster) (L : NodeId) (r : Nat)
    (a : Abstract) (σ : Cluster) : Prop where
  moves : State.Moves (scheme g) a₁ a
  answers : ∃ later, σ.trace = σ₁.trace ++ later ∧
    ∀ {ctx index T : Nat}, (L, .readReady r ctx index T) ∈ later → Served a₁ index T
  pending : ∀ {n : RaftNode} {x : PendingRead}, σ.up L = some n → n.pendingReads[r]? = some x →
    Pending g a₁ a σ L x

theorem Small.readsOK (h : Small g y z) (hp : Probes g y.2)
    (h₁ : a₁.Inv (scheme g)) (hr : ReadsOK g a₁ σ₁ L r y.1 y.2) : ReadsOK g a₁ σ₁ L r z.1 z.2 := by
  cases h with
  | @move a a' σ id n n' c es hrel hrel' hup hears hs hby =>
    refine ⟨hr.moves.trans hby.moves, ?_, fun {m x} hm hx => ?_⟩
    · obtain ⟨later, htrace, hans⟩ := hr.answers
      refine ⟨later ++ es.map fun e => (id, sealed g e), ?_, fun {ctx index T} he => ?_⟩
      · show ((σ.executeAll id (es.map (sealed g))).run id n').trace = _
        rw [Cluster.trace_move, ← List.append_assoc, ← htrace]
      · rcases List.mem_append.1 he with he | he
        · exact hans he
        · obtain ⟨e, hmem, heq⟩ := List.mem_map.1 he
          simp only [Prod.mk.injEq] at heq
          obtain ⟨rfl, heq⟩ := heq
          rw [sealed_eq_readReady heq] at hmem
          obtain ⟨hidle, hans⟩ := hs.mayEmit _ hmem
          exact hrel.answer h₁ hr.moves hup hears hidle (fun x hx => hr.pending hup hx) hans
    · have hm : update σ.up id (some n') L = some m := by rw [← Cluster.up_move]; exact hm
      by_cases hL : L = id
      · subst hL
        rw [update_self] at hm
        cases hm
        exact hrel.reads_move hp h₁ hr.moves hup hears hs hby.moves
          (fun x hx => hr.pending hup hx) hx
      · rw [update_of_ne hL] at hm
        exact (hr.pending hm hx).move h₁ hrel hup hs hby.moves
  | @boot a σ σ' id n es hrel hrel' hup hrole hreads hes htrace =>
    refine ⟨hr.moves, ?_, fun {m x} hm hx => ?_⟩
    · obtain ⟨later, hlater, hans⟩ := hr.answers
      refine ⟨later ++ es.map fun e => (id, e), ?_, fun {ctx index T} he => ?_⟩
      · show σ'.trace = _
        rw [htrace, ← List.append_assoc, ← hlater]
      · rcases List.mem_append.1 he with he | he
        · exact hans he
        · obtain ⟨e, he, heq⟩ := List.mem_map.1 he
          obtain ⟨hard, rfl⟩ := hes e he
          simp at heq
    · have hm : update σ.up id (some n) L = some m := by rw [← hup]; exact hm
      by_cases hL : L = id
      · rw [hL, update_self] at hm
        cases hm
        rw [hreads] at hx
        simp at hx
      · rw [update_of_ne hL] at hm
        obtain ⟨a₀, hm₁, hm₂, hadmitted, hvoters, hsent⟩ := hr.pending hm hx
        exact ⟨a₀, hm₁, hm₂, hadmitted, hvoters, fun v hv => hsent v (sent_boot hes htrace hv)⟩
  | stop => exact ⟨hr.moves, hr.answers, fun hm hx => hr.pending (Cluster.up_of_stop hm) hx⟩

theorem Smalls.probes (h : Smalls g y z) (hp : Probes g y.2) : Probes g z.2 := by
  induction h with
  | refl => exact hp
  | tail _ hstep ih => exact hstep.probes ih

theorem Smalls.readsOK (h : Smalls g y z) (hp : Probes g y.2)
    (h₁ : a₁.Inv (scheme g)) (hr : ReadsOK g a₁ σ₁ L r y.1 y.2) : ReadsOK g a₁ σ₁ L r z.1 z.2 := by
  induction h with
  | refl => exact hr
  | tail hrest hstep ih => exact hstep.readsOK (Smalls.probes hrest hp) h₁ ih

/-- An answer after `σ₁` to a request that was not pending there covers whatever any node had
committed by then, and belongs to no earlier term than any leader had by then. -/
theorem reads_cover {σ₀ σ₂ : Cluster} {m : RaftNode} {v : NodeId} {ctx index T : Nat}
    (h : Cluster.Reachable G σ₀) (hr₀ : Cluster.Runs G σ₀ σ₁) (hr₁ : Cluster.Runs G σ₁ σ₂)
    (hup : σ₁.up L = some n) (hfresh : r ∉ n.pendingReads)
    (hready : (L, .readReady r ctx index T) ∈ σ₂.trace.drop σ₁.trace.length)
    (hv : σ₀.up v = some m) :
    m.commitIndex ≤ index ∧ (m.isLeader = true → m.hard.currentTerm ≤ T) := by
  obtain ⟨g, hG⟩ := h.genesis hv
  obtain ⟨a₀, h₀⟩ := (Related.empty hG).runs hG h
  have hrel₀ := h₀.related (Related.empty hG)
  obtain ⟨a₁, h₁⟩ := hrel₀.runs hG hr₀
  have hrel₁ := h₁.related hrel₀
  obtain ⟨a₂, h₂⟩ := hrel₁.runs hG hr₁
  have hprobes := h₁.probes (h₀.probes Probes.empty)
  obtain ⟨-, ⟨later, hlater, hans⟩, -⟩ := h₂.readsOK (r := r) (L := L) hprobes hrel₁.world.inv
    { moves := .refl
      answers := ⟨[], (List.append_nil _).symm, fun he => by cases he⟩
      pending := fun {k x} hk hx => by
        rw [hup] at hk
        cases hk
        exact absurd (Std.ExtTreeMap.mem_iff_isSome_getElem?.2 (by rw [hx]; rfl)) hfresh }
  have hlater : σ₂.trace = σ₁.trace ++ later := hlater
  rw [hlater, List.drop_left] at hready
  obtain ⟨hknown, hled⟩ := hans hready
  refine ⟨?_, fun hlead => ?_⟩
  · exact hknown v _ (hrel₀.world.inv.knows_moves h₁.moves (hrel₀.nodes hv).1.known).2
  · have hl : a₀.lead m.hard.currentTerm = some v := hrel₀.lead_eq hv hlead
    exact hled _ ((hrel₀.world.inv.moves h₁.moves).1.led (by simp [hl]))

end MicroRaft
