import MicroRaft.Cluster.Run

/-!
# Safety of a group

What the abstract protocol guarantees, said about the nodes themselves, in every
reachable state and between any two states of one run:

* one leader for each term (`leads_unique`);
* what a node has committed, every later leader holds (`completeness`);
* two nodes agree on what both have committed (`committed_agree`);
* logs that share an entry share everything below it (`logs_match`).

Nodes forget: a restart loses the commit index, a compaction the entries below
its boundary.  The statements therefore speak about all states of the run and
about the log as it would be without compaction.
-/

namespace MicroRaft

open Consensus Function

variable {G : Group} {g : CommittedMembership} {a a₁ a₂ : Abstract} {σ σ₁ σ₂ : Cluster}
  {id : NodeId} {n n₁ n₂ : RaftNode}

namespace Cluster

/-- The node is the leader of the term. -/
def Leads (σ : Cluster) (id : NodeId) (T : Nat) : Prop :=
  ∃ n, σ.up id = some n ∧ n.isLeader = true ∧ n.hard.currentTerm = T

/-- One of the two states comes after the other in a run. -/
def SameRun (G : Group) (σ₁ σ₂ : Cluster) : Prop :=
  Reachable G σ₁ ∧ Reachable G σ₂ ∧ (Runs G σ₁ σ₂ ∨ Runs G σ₂ σ₁)

end Cluster

/-! ## Two states of one run -/

/-- A group with a running node can be formed. -/
theorem Cluster.Reachable.genesis (h : Cluster.Reachable G σ) (hup : σ.up id = some n) :
    ∃ g, G.genesis = .ok g := by
  obtain ⟨g, -, hg, -⟩ := h.related hup
  exact ⟨g, hg⟩

theorem Cluster.Reachable.genesis_of_trace {x : NodeId × Effect} (h : Cluster.Reachable G σ)
    (hx : x ∈ σ.trace) : ∃ g, G.genesis = .ok g := by
  cases hG : G.genesis with
  | error msg =>
    rw [(h.silent hG).2.2] at hx
    cases hx
  | ok g => exact ⟨g, rfl⟩

/-- Both ends of a run, with the growth of the history between them. -/
theorem Cluster.Reachable.grow (h : Cluster.Reachable G σ₁) (hr : Cluster.Runs G σ₁ σ₂)
    (hG : G.genesis = .ok g) :
    ∃ a₁ a₂, Related g a₁ σ₁ ∧ Related g a₂ σ₂ ∧ State.Moves (scheme g) a₁ a₂ := by
  obtain ⟨a₁, h₁⟩ := (Related.empty hG).runs hG h
  have hrel := h₁.related (Related.empty hG)
  obtain ⟨a₂, h₂⟩ := hrel.runs hG hr
  exact ⟨a₁, a₂, hrel, h₂.related hrel, h₂.moves⟩

/-- Two states of a run, seen from a third whose history contains both of theirs. -/
theorem Cluster.SameRun.related (h : Cluster.SameRun G σ₁ σ₂) (hG : G.genesis = .ok g) :
    ∃ a₁ a₂ a, Related g a₁ σ₁ ∧ Related g a₂ σ₂ ∧ a.Inv (scheme g) ∧ State.Le a₁ a ∧
      State.Le a₂ a := by
  obtain ⟨h₁, h₂, hr | hr⟩ := h
  · obtain ⟨a₁, a₂, hrel₁, hrel₂, hm⟩ := h₁.grow hr hG
    exact ⟨a₁, a₂, a₂, hrel₁, hrel₂, hrel₂.world.inv, (hrel₁.world.inv.moves hm).1, State.Le.refl _⟩
  · obtain ⟨a₂, a₁, hrel₂, hrel₁, hm⟩ := h₂.grow hr hG
    exact ⟨a₁, a₂, a₁, hrel₁, hrel₂, hrel₁.world.inv, State.Le.refl _, (hrel₂.world.inv.moves hm).1⟩

/-! ## What a running node stands for -/

theorem Related.term_eq (h : Related g a σ) (hup : σ.up id = some n) :
    n.hard.currentTerm = a.term id := by
  obtain ⟨d, -, hat⟩ := h.at hup
  exact hat.term

theorem Related.lead_eq (h : Related g a σ) (hup : σ.up id = some n) (hlead : n.isLeader = true) :
    a.lead n.hard.currentTerm = some id := by
  obtain ⟨next, matched, hrole⟩ := RaftNode.isLeader_iff.1 hlead
  have hr := (h.nodes hup).1.role
  rw [hrole] at hr
  rw [h.term_eq hup]
  exact hr.1

/-- The log in memory, as part of the whole log. -/
theorem Related.views_memory (h : Related g a σ) (hup : σ.up id = some n) :
    Views g ((σ.compacted id).take n.snapshotIndex) (σ.memory id n) n := by
  have hm := (h.nodes hup).1.memory
  have hwf := h.world.wellFormed hm.rooted
  exact ⟨rfl, hm.length, hm.term, hm.base, hwf.numbered, hwf.bounded⟩

variable {i : Nat} {d : SnapshotDescriptor} {v w : NodeId} {entries : List Entry} {p : LogImage}
  {e e' : Entry}

/-- What a node has committed is committed. -/
theorem Related.settled_memory (h : Related g a σ) (hup : σ.up id = some n)
    (hi : i ≤ n.commitIndex) : a.Settled (scheme g) n.hard.currentTerm ((σ.memory id n).take i) ∧
      ((σ.memory id n).take i).length = i := by
  have hnode := (h.nodes hup).1
  have hshared : (σ.memory id n).take i = (a.log id).take i := by
    have := congrArg (List.take i) hnode.memory.shared
    rwa [List.take_take, List.take_take, min_eq_left hi] at this
  have hknown := hnode.known.of_le hi
  rw [hshared, h.term_eq hup]
  exact ⟨h.world.inv.knows_settled hknown, by rw [List.length_take, min_eq_left hknown.1]⟩

/-- A leader holds the log of its term. -/
theorem Related.memory_leader (h : Related g a σ) (hup : σ.up id = some n)
    (hlead : n.isLeader = true) : σ.memory id n = a.llog n.hard.currentTerm := by
  have hnode := (h.nodes hup).1
  have hl := h.lead_eq hup hlead
  have hni : ¬ n.Installing := by
    rintro ⟨p, t, hp, ht⟩
    obtain ⟨-, x, hx, -⟩ := hnode.sound.pending hp ht
    obtain ⟨next, matched, hrole⟩ := RaftNode.isLeader_iff.1 hlead
    have := (hnode.incoming hx).1
    rw [hrole] at this
    cases this
  rw [h.term_eq hup] at hl ⊢
  exact (hnode.whole hni).trans (h.world.inv.own hl)

/-- A node has or had an entry at every index it has committed. -/
theorem committed_entry (h : Cluster.Reachable G σ) (hup : σ.up id = some n)
    (hpos : 0 < i) (hi : i ≤ n.commitIndex) :
    ∃ e, (σ.memory id n)[i - 1]? = some e ∧ ∀ t, n.logTerm i = some t → t = e.term := by
  obtain ⟨g, a, -, hrel⟩ := h.related hup
  have hlen := (hrel.settled_memory hup hi).2
  rw [List.length_take] at hlen
  refine ⟨_, List.getElem?_eq_getElem (by omega), fun t ht => ?_⟩
  obtain ⟨-, -, hterm⟩ := (hrel.views_memory hup).logTerm_iff.1 ht
  rw [← hterm, ← lastTerm_take (List.getElem?_eq_getElem (by omega)),
    show i - 1 + 1 = i by omega]

/-! ## Election safety -/

theorem leads_unique (h : Cluster.SameRun G σ₁ σ₂) {T : Nat} {i j : NodeId} (hi : σ₁.Leads i T)
    (hj : σ₂.Leads j T) : i = j := by
  obtain ⟨n₁, hup₁, hl₁, rfl⟩ := hi
  obtain ⟨n₂, hup₂, hl₂, hT⟩ := hj
  obtain ⟨g, hG⟩ := h.1.genesis hup₁
  obtain ⟨a₁, a₂, a, hrel₁, hrel₂, -, hle₁, hle₂⟩ := h.related hG
  have h₁ := (hle₁.lead (hrel₁.lead_eq hup₁ hl₁)).1
  have h₂ := (hle₂.lead (hrel₂.lead_eq hup₂ hl₂)).1
  rw [hT, h₁] at h₂
  exact Option.some_inj.1 h₂

/-! ## Leader completeness -/

theorem completeness (h : Cluster.SameRun G σ₁ σ₂) {v l : NodeId}
    (hup₁ : σ₁.up v = some n₁) (hi : i ≤ n₁.commitIndex)
    (he : (σ₁.memory v n₁)[i - 1]? = some e) (hpos : 0 < i) (hup₂ : σ₂.up l = some n₂)
    (hlead : n₂.isLeader = true) (hT : n₁.hard.currentTerm < n₂.hard.currentTerm) :
    n₂.entryAt i = some e ∨ i ≤ n₂.snapshotIndex := by
  obtain ⟨g, hG⟩ := h.1.genesis hup₁
  obtain ⟨a₁, a₂, a, hrel₁, hrel₂, hinv, hle₁, hle₂⟩ := h.related hG
  obtain ⟨hset, hlen⟩ := hrel₁.settled_memory hup₁ hi
  have hled₂ : a₂.lead n₂.hard.currentTerm ≠ none := by simp [hrel₂.lead_eq hup₂ hlead]
  -- the later leader was elected with all of it
  have hbase := hinv.settled_prefix_base (hset.mono hle₁ le_rfl) hT (hle₂.led hled₂)
  rw [hle₂.base hled₂] at hbase
  have hpre : (σ₁.memory v n₁).take i <+: σ₂.memory l n₂ := by
    rw [hrel₂.memory_leader hup₂ hlead]
    exact hbase.trans (hrel₂.world.inv.lead_base hled₂).1
  by_cases hsnap : i ≤ n₂.snapshotIndex
  · exact Or.inr hsnap
  · refine Or.inl (RaftNode.entryAt_eq_some.2 ⟨by omega, ?_⟩)
    rw [(hrel₂.views_memory hup₂).getElem? (by omega)]
    obtain ⟨t, ht⟩ := hpre
    rw [← ht, List.getElem?_append_left (by omega), List.getElem?_take_of_lt (by omega)]
    exact he

/-! ## Agreement on what is committed -/

theorem committed_agree (h : Cluster.SameRun G σ₁ σ₂)
    (hup₁ : σ₁.up v = some n₁) (hup₂ : σ₂.up w = some n₂) (hi₁ : i ≤ n₁.commitIndex)
    (hi₂ : i ≤ n₂.commitIndex) : (σ₁.memory v n₁).take i = (σ₂.memory w n₂).take i := by
  obtain ⟨g, hG⟩ := h.1.genesis hup₁
  obtain ⟨a₁, a₂, a, hrel₁, hrel₂, hinv, hle₁, hle₂⟩ := h.related hG
  obtain ⟨hset₁, hlen₁⟩ := hrel₁.settled_memory hup₁ hi₁
  obtain ⟨hset₂, hlen₂⟩ := hrel₂.settled_memory hup₂ hi₂
  exact hinv.settled_eq (hset₁.mono hle₁ le_rfl) (hset₂.mono hle₂ le_rfl) (hlen₁.trans hlen₂.symm)

/-- Entries at one committed index are the same entry. -/
theorem committed_entry_agree (h : Cluster.SameRun G σ₁ σ₂)
    {e₁ e₂ : Entry} (hup₁ : σ₁.up v = some n₁) (hup₂ : σ₂.up w = some n₂)
    (hi₁ : i ≤ n₁.commitIndex) (hi₂ : i ≤ n₂.commitIndex) (he₁ : n₁.entryAt i = some e₁)
    (he₂ : n₂.entryAt i = some e₂) : e₁ = e₂ := by
  obtain ⟨g, hG⟩ := h.1.genesis hup₁
  obtain ⟨a₁, a₂, a, hrel₁, hrel₂, -⟩ := h.related hG
  obtain ⟨hlt, hget₁⟩ := (hrel₁.views_memory hup₁).entryAt he₁
  obtain ⟨-, hget₂⟩ := (hrel₂.views_memory hup₂).entryAt he₂
  have htake := congrArg (fun l => l[i - 1]?) (committed_agree h hup₁ hup₂ hi₁ hi₂)
  simp only [List.getElem?_take_of_lt (show i - 1 < i by omega), hget₁, hget₂] at htake
  exact Option.some_inj.1 htake

/-! ## Log matching -/

/-- A log over a snapshot boundary, in memory or on disk; `below` are the entries the
boundary replaced. -/
structure LogImage where
  below : List Entry
  boundary : Nat
  boundaryTerm : Nat
  log : List Entry

/-- The entry at an index above the boundary. -/
def LogImage.entryAt (p : LogImage) (index : Nat) : Option Entry :=
  if p.boundary < index then p.log[index - p.boundary - 1]? else none

/-- The logs a node has: the one in memory while it runs, and the one on its disk. -/
inductive Cluster.Holds (σ : Cluster) (id : NodeId) : LogImage → Prop
  | memory {n : RaftNode} (hup : σ.up id = some n) :
      Holds σ id ⟨(σ.compacted id).take n.snapshotIndex, n.snapshotIndex, n.snapshotTerm, n.log⟩
  | disk {d : Disk} (hdisk : σ.disk id = some d) :
      Holds σ id ⟨σ.compacted id, d.snapshotIndex,
        d.snapshot.elim 0 fun s => s.metadata.lastIncludedTerm, d.log⟩

theorem Cluster.Reachable.related_of_holds (h : Cluster.Reachable G σ)
    (hp : σ.Holds id p) : ∃ g a, Related g a σ := by
  cases hG : G.genesis with
  | error msg =>
    cases hp with
    | memory hup => simp [(h.silent hG).1] at hup
    | disk hdisk => simp [(h.silent hG).2.1] at hdisk
  | ok g =>
    obtain ⟨-, a, -, hrel, -⟩ := h.grow .refl hG
    exact ⟨g, a, hrel⟩

/-- The boundary describes the entries below it, and the whole log has an origin. -/
structure LogImage.OK (g : CommittedMembership) (a : Abstract) (p : LogImage) : Prop where
  length : p.below.length = p.boundary
  term : lastTerm p.below = p.boundaryTerm
  rooted : a.Rooted (scheme g) (p.below ++ p.log)

theorem Related.holds (h : Related g a σ) (hp : σ.Holds id p) : p.OK g a := by
  cases hp with
  | memory hup =>
    have hm := (h.nodes hup).1.memory
    exact ⟨hm.length, hm.term, hm.rooted⟩
  | @disk d hdisk =>
    have hd := h.disks hdisk
    have hrooted := h.world.inv.log_rooted id
    rw [hd.log] at hrooted
    refine ⟨?_, ?_, hrooted⟩
    · show _ = d.snapshot.elim 0 fun s => s.metadata.lastIncludedIndex
      cases hs : d.snapshot with
      | none => rw [hd.bare hs]; rfl
      | some s => exact (h.world.images (hd.image hs)).length
    · show _ = d.snapshot.elim 0 fun s => s.metadata.lastIncludedTerm
      cases hs : d.snapshot with
      | none => rw [hd.bare hs]; rfl
      | some s => exact (h.world.images (hd.image hs)).term

theorem LogImage.OK.getElem? (h : p.OK g a) (hi : p.boundary < i) :
    (p.below ++ p.log)[i - 1]? = p.entryAt i := by
  rw [entryAt, if_pos hi, List.getElem?_append_right (by rw [h.length]; omega), h.length,
    show i - 1 - p.boundary = i - p.boundary - 1 by omega]

theorem LogImage.OK.entryAt (h : p.OK g a)
    (he : p.entryAt i = some e) : p.boundary < i ∧ (p.below ++ p.log)[i - 1]? = some e := by
  have hlt : p.boundary < i := by
    by_contra hle
    rw [LogImage.entryAt, if_neg hle] at he
    cases he
  exact ⟨hlt, (h.getElem? hlt).trans he⟩

/-- Logs with a common term at a position are the same up to it. -/
theorem logs_match {l l' : List Entry} (hr : a.Rooted (scheme g) l) (hr' : a.Rooted (scheme g) l')
    (he : l[i]? = some e) (he' : l'[i]? = some e')
    (hterm : e.term = e'.term) : l.take (i + 1) = l'.take (i + 1) := by
  have hlen := (List.getElem?_eq_some_iff.1 he).1
  have hlen' := (List.getElem?_eq_some_iff.1 he').1
  refine State.Rooted.eq_of_lastTerm (hr.of_isPrefix (List.take_prefix _ _))
    (hr'.of_isPrefix (List.take_prefix _ _)) ?_ ?_
  · rw [scheme_lastTerm, scheme_lastTerm, lastTerm_take he, lastTerm_take he', hterm]
  · rw [List.length_take, List.length_take]
    omega

theorem Related.log_matching (h : Related g a σ) {p q : LogImage}
    (hp : σ.Holds v p) (hq : σ.Holds w q) (he : p.entryAt i = some e)
    (he' : q.entryAt i = some e') (hterm : e.term = e'.term) {j : Nat}
    (hj : max p.boundary q.boundary < j) (hji : j ≤ i) : p.entryAt j = q.entryAt j := by
  have hp := h.holds hp
  have hq := h.holds hq
  obtain ⟨hpj, hqj⟩ := max_lt_iff.1 hj
  have htake := logs_match hp.rooted hq.rooted (hp.entryAt he).2 (hq.entryAt he').2 hterm
  have hget := congrArg (fun l => l[j - 1]?) htake
  simp only [List.getElem?_take_of_lt (show j - 1 < i - 1 + 1 by omega)] at hget
  rw [← hp.getElem? hpj, ← hq.getElem? hqj]
  exact hget

/-- A boundary that another log still has an entry for replaced what that log has below. -/
theorem Related.boundary_matching (h : Related g a σ) {p q : LogImage}
    (hp : σ.Holds v p) (hq : σ.Holds w q) (he : q.entryAt p.boundary = some e)
    (hterm : e.term = p.boundaryTerm) : p.below = (q.below ++ q.log).take p.boundary := by
  have hp := h.holds hp
  have hq := h.holds hq
  obtain ⟨hlt, hget⟩ := hq.entryAt he
  have hlen := (List.getElem?_eq_some_iff.1 hget).1
  have hlast := lastTerm_take hget
  rw [show p.boundary - 1 + 1 = p.boundary by omega] at hlast
  refine State.Rooted.eq_of_lastTerm (hp.rooted.of_isPrefix (List.prefix_append _ _))
    (hq.rooted.of_isPrefix (List.take_prefix _ _)) ?_ ?_
  · rw [scheme_lastTerm, scheme_lastTerm, hlast, hterm, hp.term]
  · rw [List.length_take, hp.length]
    omega

/-! ## What the state machines are given -/

/-- What an executed effect other than a message means. -/
theorem Related.trace_plain (h : Related g a σ) {v : NodeId} {e : Effect} (he : (v, e) ∈ σ.trace)
    (hplain : ∀ dest msg, e ≠ .send dest msg) : EffectOK g a σ.images v e := by
  obtain ⟨e', rfl, hok⟩ := h.trace he
  cases e' with
  | send dest msg => exact absurd rfl (hplain _ _)
  | _ => exact hok

/-- Two state machines are given the same entry at an index. -/
theorem Related.applied_agree (h : Related g a σ)
    (he : (v, .apply e) ∈ σ.trace) (he' : (w, .apply e') ∈ σ.trace) (hindex : e.index = e'.index) :
    e = e' := by
  obtain ⟨-, -, T, l, hset, hget⟩ := h.trace_plain he (by simp)
  obtain ⟨-, -, T', l', hset', hget'⟩ := h.trace_plain he' (by simp)
  rw [← hindex] at hget'
  exact h.world.inv.settled_getElem? hset hset' hget hget'

/-- An entry given to a state machine is the one an image has at its position. -/
theorem ImageOK.applied {images : List (SnapshotDescriptor × List Entry)} (w : World g a images)
    (h : ImageOK g a d entries) {v : NodeId} (he : EffectOK g a images v (.apply e))
    (hle : e.index ≤ d.metadata.lastIncludedIndex) : entries[e.index - 1]? = some e := by
  obtain ⟨hpos, -, T, l, hset, hget⟩ := he
  obtain ⟨T', hset'⟩ := h.settled
  have hlt : e.index - 1 < entries.length := by
    rw [h.length]
    omega
  obtain ⟨e', he'⟩ : ∃ e', entries[e.index - 1]? = some e' := ⟨_, List.getElem?_eq_getElem hlt⟩
  rw [he', w.inv.settled_getElem? hset hset' hget he']

theorem ImageOK.applied_term {images : List (SnapshotDescriptor × List Entry)}
    (w : World g a images)
    (h : ImageOK g a d entries) {v : NodeId} (he : EffectOK g a images v (.apply e))
    (hindex : e.index = d.metadata.lastIncludedIndex) : e.term = d.metadata.lastIncludedTerm := by
  have hpos : 0 < e.index := he.1
  have hlast := lastTerm_take (h.applied w he hindex.le)
  rw [show e.index - 1 + 1 = e.index by omega, hindex, ← h.length, List.take_length,
    h.term] at hlast
  exact hlast.symm

/-- What any node of the run has committed up to the boundary of an image is what the image
stands for. -/
theorem Related.image_committed (hrel : Related g a₂ σ₂) (hrel₁ : Related g a₁ σ₁)
    (hinv : a.Inv (scheme g)) (hle₁ : State.Le a₁ a) (hle₂ : State.Le a₂ a)
    (hmem : (d, entries) ∈ σ₂.images) (hup : σ₁.up id = some n)
    (hi : d.metadata.lastIncludedIndex ≤ n.commitIndex) :
    (σ₁.memory id n).take d.metadata.lastIncludedIndex = entries ∧
      ∀ t, n.logTerm d.metadata.lastIncludedIndex = some t → t = d.metadata.lastIncludedTerm := by
  have himage := hrel.world.images hmem
  obtain ⟨T, hset⟩ := himage.settled
  obtain ⟨hset₁, hlen⟩ := hrel₁.settled_memory hup hi
  have heq := hinv.settled_eq (hset₁.mono hle₁ le_rfl) (hset.mono hle₂ le_rfl)
    (hlen.trans himage.length.symm)
  refine ⟨heq, fun t ht => ?_⟩
  obtain ⟨-, -, hterm⟩ := (hrel₁.views_memory hup).logTerm_iff.1 ht
  rw [← hterm, heq, himage.term]

end MicroRaft
