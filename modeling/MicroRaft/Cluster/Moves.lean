import MicroRaft.Cluster.Local

/-!
# Moves the abstract protocol makes too

Terms, votes, elections, log changes and commitment: each of these moves of a
running node is a run of moves of the same node in the abstract protocol.
-/

namespace MicroRaft

open Consensus Function

variable {g : CommittedMembership} {a a' : Abstract}
  {images : List (SnapshotDescriptor × List Entry)} {id : NodeId} {k : List Entry}
  {n n' : RaftNode} {d : Disk} {c : Cause}

/-! ## The disk follows -/

theorem Certified.by (w : World g a images) (hby : State.By (scheme g) id a a')
    {m : Option CommittedMembership} (h : Certified g a id m) : Certified g a' id m := by
  cases m with
  | none => exact h
  | some m =>
    obtain ⟨j, hk, hm⟩ := h
    exact ⟨j, hby.knows w.inv hk, by rw [hby.take_known w.inv hk]; exact hm⟩

/-- Where the bindings of a map come from. -/
theorem getElem?_insertMany_cases {l : List (NodeId × Nat)} {m : BTreeMap NodeId Nat} {p y : Nat}
    (h : (m.insertMany l)[p]? = some y) : m[p]? = some y ∨ (p, y) ∈ l := by
  induction l generalizing m with
  | nil => simpa using h
  | cons x l ih =>
    obtain ⟨q, z⟩ := x
    rw [Std.ExtTreeMap.insertMany_cons] at h
    rcases ih h with h | h
    · rw [Std.ExtTreeMap.getElem?_insert] at h
      split at h
      · next heq =>
          cases h
          rw [compare_eq_iff_eq.1 heq]
          exact Or.inr (List.mem_cons_self ..)
      · exact Or.inl h
    · exact Or.inr (List.mem_cons_of_mem _ h)

/-- A map that gives every key the same value. -/
theorem eq_of_ofList_map {l : List NodeId} {x y : Nat} {p : NodeId}
    (h : (Std.ExtTreeMap.ofList (l.map fun p => (p, x)) compare)[p]? = some y) : y = x := by
  rw [Std.ExtTreeMap.ofList_eq_insertMany_empty] at h
  rcases getElem?_insertMany_cases h with h | h
  · simp at h
  · obtain ⟨q, -, hq⟩ := List.mem_map.1 h
    cases hq
    rfl
/-! ## Longer logs -/

theorem WellFormed.append {l es : List Entry} (hl : WellFormed g l) (hnum : Numbered l.length es)
    (hlen : l.length + es.length < u64Max) (hrep : ∃ m, membershipAfter g (l ++ es) = .ok m) :
    WellFormed g (l ++ es) :=
  ⟨hl.numbered.append (by rwa [Nat.zero_add]), by rwa [List.length_append], hrep⟩

theorem membershipAfter_ordinary {l es : List Entry}
    (hes : ∀ e ∈ es, e.command.isConfiguration = false) :
    membershipAfter g (l ++ es) = membershipAfter g l := by
  induction es generalizing l with
  | nil => rw [List.append_nil]
  | cons e es ih =>
    rw [show l ++ e :: es = (l ++ [e]) ++ es by simp,
      ih fun x hx => hes x (List.mem_cons_of_mem _ hx)]
    exact (scheme g).conf_concat l e (hes e (List.mem_cons_self ..))

/-- Only the log of the extending leader's term changes. -/
theorem World.logs_extended (w : World g a images) {v : NodeId} {l : List Entry}
    (hl : WellFormed g l)
    (hlead : a'.lead = a.lead) (hllog : a'.llog = update a.llog (a.term v) l) {T : Nat}
    (hT : a'.lead T ≠ none) : WellFormed g (a'.llog T) := by
  rw [hllog]
  by_cases heq : T = a.term v
  · rw [heq, update_self]
    exact hl
  · rw [update_of_ne heq]
    exact w.logs (hlead ▸ hT)

/-- A longer log bounds what the leader keeps about its peers as well. -/
theorem RoleOK.extended {next matched : BTreeMap NodeId Nat} {commit : Nat}
    (hle : State.Le a a') (hterm : a'.term id = a.term id) (hlog : a.log id <+: a'.log id)
    (hcommit : a'.lcommit (a.term id) = a.lcommit (a.term id))
    (h : RoleOK a id (.leader next matched) commit) :
      RoleOK a' id (.leader next matched) commit := by
  obtain ⟨hlead, hc, hnext, hmatched⟩ := h
  have hlen := hlog.length_le
  simp only [RoleOK, hterm, hcommit]
  refine ⟨(hle.lead hlead).1, hc, fun hp => ?_, fun hp =>
    (hmatched hp).imp_right (AckedTo.mono hle)⟩
  have := hnext hp
  omega

namespace At

variable (w : World g a images) (h : At g a images id k n d)

include w h

/-- The abstract log is the same and the new hard state is written. -/
theorem writeHard (n' : RaftNode) (hby : State.By (scheme g) id a a')
    (hn : NodeOK g a' images id k n')
    (hterm : n'.hard.currentTerm = a'.term id) (hvote : n'.hard.votedFor = a'.vote id (a'.term id))
    (halog : a'.log id = a.log id) (hsnapshot : n'.snapshot = n.snapshot) (hlog : n'.log = n.log)
    (hpub : n'.publishingSnapshot = n.publishingSnapshot) :
    At g a' images id k n' (d.execute (.persistHardState n'.hard)) where
  node := hn
  disk :=
    { term := hterm
      vote := hvote
      certified := hn.certified
      log := halog.trans h.disk.log
      bare := h.disk.bare
      image := h.disk.image
      known := hby.knows w.inv h.disk.known }
  agrees :=
    { term := rfl
      vote := rfl
      idle hp := by
        rw [hsnapshot, hlog]
        exact h.agrees.idle (hpub ▸ hp)
      publishing hp := h.agrees.publishing (hpub ▸ hp) }

/-- The abstract log becomes `k ++ log`, on disk as in memory. -/
theorem writeLog (n' : RaftNode) (hby : State.By (scheme g) id a a')
    (hn : NodeOK g a' images id k n')
    (hterm : a'.term id = a.term id) (hvote : ∀ T, a'.vote id T = a.vote id T)
    (halog : a'.log id = k ++ n'.log) (hhard : n'.hard = n.hard)
    (hidle : n.publishingSnapshot = none) (hidle' : n'.publishingSnapshot = none)
    (hsnapshot : n'.snapshot = n.snapshot) :
    At g a' images id k n' { d with log := n'.log } where
  node := hn
  disk :=
    { term := h.disk.term.trans hterm.symm
      vote := by rw [hterm, hvote]; exact h.disk.vote
      certified := h.disk.certified.by w hby
      log := halog
      bare := h.disk.bare
      image := h.disk.image
      known := hby.knows w.inv h.disk.known }
  agrees :=
    { term := by rw [hhard]; exact h.agrees.term
      vote := by rw [hhard]; exact h.agrees.vote
      idle _ := ⟨(h.agrees.idle hidle).1.trans hsnapshot.symm, rfl⟩
      publishing hp := by
        rw [hidle'] at hp
        cases hp }

/-! ## Terms and votes -/

/-- Entering a newer term. -/
theorem newTerm {hard : HardState} {role : Role} (hby : State.By (scheme g) id a a')
    (hlt : a.term id < a'.term id) (hlog : a'.log id = a.log id)
    (hterm : hard.currentTerm = a'.term id) (hvote : hard.votedFor = a'.vote id (a'.term id))
    (hmembership : hard.membership = n.hard.membership)
    (hrole : RoleOK a' id role n.commitIndex)
    (hincoming : n.incomingSnapshot = none ∨ role = .follower)
    (hsound : RaftNode.Sound { n with hard, role }) :
    At g a' images id k { n with hard, role } (d.execute (.persistHardState hard)) := by
  refine h.writeHard w { n with hard, role } hby ?_ hterm hvote hlog rfl rfl rfl
  exact
    { self := h.node.self
      sound := hsound
      genesis := h.node.genesis
      known := hby.knows w.inv h.node.known
      floor := h.node.floor
      committed := by
        rw [hlog, h.node.committed]
        simp only [RaftNode.committedMembership, hmembership]
      legacy := fun hm => h.node.legacy (hmembership ▸ hm)
      effective := fun hni => by
        rw [hlog]
        exact h.node.effective hni
      role := hrole
      incoming := by
        intro x hx
        rcases hincoming with hnone | hr
        · rw [show n.incomingSnapshot = some x from hx] at hnone
          cases hnone
        · have hle := (h.node.incoming hx).2.1
          exact ⟨hr, hle.trans hlt.le, fun heq => by omega⟩
      outgoing := h.node.outgoing
      boundary := h.node.boundary
      memory := h.node.memory.mono hby.le (by rw [hlog])
      whole := fun hni => by
        rw [hlog]
        exact h.node.whole hni }

theorem adopt {term : Nat} (hterm : n.hard.currentTerm < term)
    (hsound : RaftNode.Sound { n with
      hard := { n.hard with currentTerm := term, votedFor := none }, role := .follower }) :
    Goes g a images id k d
      [.persistHardState { n.hard with currentTerm := term, votedFor := none }]
      { n with
        hard := { n.hard with currentTerm := term, votedFor := none }, role := .follower } := by
  rw [h.term] at hterm
  have hby := w.inv.by_adopt hterm
  have hself : update a.term id term id = term := update_self ..
  refine ⟨_, hby, w.step hby w.logs, ?_, by simp [EffectOK]⟩
  refine h.newTerm w hby (by dsimp only; rw [hself]; exact hterm) rfl hself.symm ?_ rfl trivial
    (Or.inr rfl) hsound
  dsimp only
  rw [hself]
  cases hv : a.vote id term with
  | none => rfl
  | some m =>
    have := w.inv.vote_le hv
    omega

theorem campaign {term : Nat} (hterm : term = n.hard.currentTerm + 1) (hrole : n.role.Probing)
    (hsound : RaftNode.Sound { n with
      hard := { n.hard with currentTerm := term, votedFor := some n.id }
      role := .candidate {n.id} }) :
    Goes g a images id k d
      [.persistHardState { n.hard with currentTerm := term, votedFor := some n.id }]
      { n with hard := { n.hard with currentTerm := term, votedFor := some n.id }
               role := .candidate {n.id} } := by
  rw [h.term] at hterm
  obtain ⟨a', hby, hself, hlog, hcamp, hvote, hlead, hllog⟩ :=
    w.inv.by_campaign (v := id) (T := term) (by omega)
  refine ⟨a', hby, w.step hby ?_, ?_, by simp [EffectOK]⟩
  · rw [hlead, hllog]
    exact w.logs
  refine h.newTerm w hby (by omega) (by rw [hlog]) hself.symm ?_ rfl ?_ ?_ hsound
  · rw [hself, hvote, h.node.self]
  · refine ⟨by rw [hself, hlog]; exact hcamp, ?_, fun v hv => ?_⟩
    · -- a leader of this term would have campaigned in it before
      rw [hself, hlead]
      intro hl
      have := (w.inv.camp_le (w.inv.lead_won hl).1).2
      omega
    · rw [mem_singletonSet.1 hv, h.node.self, hself]
      exact hvote
  · obtain ⟨p, x, v, hr⟩ := hrole
    exact Or.inl (h.incoming_none (by simp [hr]))

/-- A vote that is free or already given, to a candidate that is up to date. -/
theorem grant {candidate : NodeId} {lastIndex lastTerm' : Nat}
    (hidle : n.publishingSnapshot = none)
    (hc : PacketOK a images candidate id
      (.requestVote n.hard.currentTerm candidate lastIndex lastTerm'))
    (hdecide : decideVote n.hard (n.lastLogIndex, n.lastLogTerm)
      { term := n.hard.currentTerm, candidateId := candidate, lastLogIndex := lastIndex,
        lastLogTerm := lastTerm' } = true)
    (hsound : RaftNode.Sound { n with hard := { n.hard with votedFor := some candidate } }) :
    Goes g a images id k d [.persistHardState { n.hard with votedFor := some candidate }]
      { n with hard := { n.hard with votedFor := some candidate } } := by
  have hv := h.views w hidle
  obtain ⟨-, l, hcamp, hlen, hlast⟩ := hc
  rw [h.term] at hcamp
  unfold decideVote at hdecide
  dsimp only at hdecide
  cases hvote : n.hard.votedFor with
  | some already =>
    -- the vote is repeated: nothing changes
    simp only [hvote] at hdecide
    obtain rfl : already = candidate := by
      by_contra hne
      simp [hne] at hdecide
    have hsame : { n.hard with votedFor := some already } = n.hard := by rw [← hvote]
    rw [hsame]
    exact h.rewriteHard w
  | none =>
    simp only [hvote, Bool.not_true, Bool.false_eq_true, if_false, Bool.or_eq_true,
      Bool.and_eq_true, decide_eq_true_eq] at hdecide
    rw [hv.lastLogIndex, hv.lastLogTerm] at hdecide
    have hfree : a.vote id (a.term id) = none := h.vote.symm.trans hvote
    have hutd : (scheme g).UpToDate l (a.log id) := by
      rcases hdecide with hgt | ⟨heq, hge⟩
      · exact Or.inl (hgt.trans_eq hlast.symm)
      · exact Or.inr ⟨heq.symm.trans hlast.symm, hlen ▸ hge⟩
    have hby := w.inv.by_grant hfree hcamp hutd
    refine ⟨_, hby, w.step hby w.logs, ?_, by simp [EffectOK]⟩
    refine h.writeHard w { n with hard := { n.hard with votedFor := some candidate } } hby
      ?_ h.term (State.record_self _ _ _ _).symm rfl rfl rfl rfl
    exact
      { h.node with
        sound := hsound
        known := hby.knows w.inv h.node.known
        role := h.node.role.frame hby.le rfl rfl (fun hl => hl) fun _ => rfl
        incoming := fun hx => ⟨(h.node.incoming hx).1, (h.node.incoming hx).2.1,
          fun ht => ((h.node.incoming hx).2.2 ht).mono hby.le (List.Subset.refl _)⟩
        memory := h.node.memory.mono hby.le rfl }

/-! ## The log -/

/-- A node that waits for no publication changes its log. -/
theorem newLog (log' : List Entry) (effective : MembershipState) (role : Role) (readContext : Nat)
    (hidle : n.publishingSnapshot = none) (hby : State.By (scheme g) id a a')
    (hterm : a'.term id = a.term id) (hvote : ∀ T, a'.vote id T = a.vote id T)
    (hlog : a'.log id = k ++ log')
    (heff : ∃ m, membershipAfter g (k ++ log') = .ok m ∧ effective = m.state)
    (hrole : RoleOK a' id role n.commitIndex)
    (hincoming : n.incomingSnapshot = none ∨ role = .follower)
    (hsound : RaftNode.Sound { n with
      log := log', effectiveMembership := effective, role, readContext })
    (w' : World g a' images) :
    At g a' images id k
      { n with log := log', effectiveMembership := effective, role, readContext }
      { d with log := log' } := by
  have hv := h.views w hidle
  refine h.writeLog w { n with
    log := log', effectiveMembership := effective, role, readContext } hby ?_ hterm hvote hlog rfl
      hidle hidle rfl
  exact
    { self := h.node.self
      sound := hsound
      genesis := h.node.genesis
      known := hby.knows w.inv h.node.known
      floor := h.node.floor
      committed := by
        rw [hby.take_known w.inv h.node.known]
        exact h.node.committed
      legacy := h.node.legacy
      effective := fun _ => by
        rw [hlog]
        exact heff
      role := hrole
      incoming := by
        intro x hx
        rcases hincoming with hnone | hr
        · rw [show n.incomingSnapshot = some x from hx] at hnone
          cases hnone
        · rw [hterm]
          exact ⟨hr, (h.node.incoming hx).2.1,
            fun ht => ((h.node.incoming hx).2.2 ht).mono hby.le (List.Subset.refl _)⟩
      outgoing := h.node.outgoing
      boundary := fun hp => by
        rw [show n.publishingSnapshot = some _ from hp] at hidle
        cases hidle
      memory := by
        have hwf := w'.log id
        have hv' : Views g k (a'.log id) { n with log := log' } := by
          rw [hlog] at hwf ⊢
          exact hv.setLog _ hwf.numbered hwf.bounded
        exact hv'.memoryOK (w'.inv.log_rooted id) n.commitIndex
      whole := fun _ => by
        show k.take n.snapshotIndex ++ log' = a'.log id
        rw [hlog, ← hv.boundary, List.take_length] }

/-- Winning an election. -/
theorem win {votes : BTreeSet NodeId} {index : Nat} (hidle : n.publishingSnapshot = none)
    (hrole : n.role = .candidate votes) (hquorum : n.voterConfig.hasQuorum votes = true)
    (hindex : nextIndex n.lastLogIndex 1 = some index)
    (hsound : RaftNode.Sound { n with
      role := .leader (.ofList (n.peers.map fun peer => (peer, index)))
        (.ofList (n.peers.map fun peer => (peer, 0)))
      readContext := 0
      log := n.log ++ [{ index, term := n.hard.currentTerm, command := .noOp }] }) :
    Goes g a images id k d
      [.persistLogEntries none [{ index, term := n.hard.currentTerm, command := .noOp }]]
      { n with
        role := .leader (.ofList (n.peers.map fun peer => (peer, index)))
          (.ofList (n.peers.map fun peer => (peer, 0)))
        readContext := 0
        log := n.log ++ [{ index, term := n.hard.currentTerm, command := .noOp }] } := by
  have hv := h.views w hidle
  have hr := h.node.role
  rw [hrole] at hr
  obtain ⟨rfl, hlt⟩ := nextIndex_eq_some hindex
  have hlast := hv.lastLogIndex
  obtain ⟨m, hm, heff⟩ := h.effective hidle
  set e : Entry := { index := n.lastLogIndex + 1, term := n.hard.currentTerm, command := .noOp }
  have hmem : membershipAfter g (a.log id ++ [e]) = .ok m := by
    rw [membershipAfter_ordinary (by simp [e, Command.isConfiguration])]
    exact hm
  obtain ⟨a', hby, hterm, hvote, hlog, hlead, hllog, hcommit⟩ :=
    w.inv.by_elect (e := e) ⟨hr.1, _, h.quorum hidle hquorum, hr.2.2⟩ hr.2.1 h.term rfl
      h.node.known
  have hwf : WellFormed g (a.log id ++ [e]) := by
    refine (w.log id).append (Numbered.singleton ?_) ?_ ⟨m, hmem⟩
    · show n.lastLogIndex + 1 = _
      omega
    · rw [List.length_singleton]
      omega
  have hself : a'.log id = a.log id ++ [e] := by rw [hlog, update_self]
  have w' : World g a' images := by
    refine w.step hby fun {T} hl => ?_
    rw [hllog]
    by_cases hT : T = a.term id
    · rw [hT, update_self]
      exact hwf
    · rw [update_of_ne hT]
      rw [hlead, update_of_ne hT] at hl
      exact w.logs hl
  refine ⟨a', hby, w', ?_, by simp [EffectOK]⟩
  show At g a' images id k _ { d with log := d.log ++ [e] }
  rw [(h.agrees.idle hidle).2]
  refine h.newLog w (n.log ++ [e]) n.effectiveMembership _ _ hidle hby (by rw [hterm])
    (by rw [hvote]; exact fun _ => rfl) ?_ ?_ ?_
    (Or.inl (h.incoming_none (by simp [hrole]))) hsound w'
  · rw [hself, ← List.append_assoc, ← hv.log]
  · rw [← List.append_assoc, ← hv.log]
    exact ⟨m, hmem, heff⟩
  · refine ⟨by rw [hterm, hlead, update_self], by rw [hterm, hcommit], fun hp => ?_, fun hp => ?_⟩
    · have := eq_of_ofList_map hp
      rw [hself, List.length_append]
      omega
    · exact Or.inl (eq_of_ofList_map hp)

/-- A leader appends to its log. -/
theorem extendBy {es : List Entry} {effective : MembershipState}
    {next matched : BTreeMap NodeId Nat} (hidle : n.publishingSnapshot = none)
    (hrole : n.role = .leader next matched) (hby : State.By (scheme g) id a a')
    (hterm : a'.term = a.term) (hvote : a'.vote = a.vote)
    (hlog : a'.log = update a.log id (a.log id ++ es)) (hlead : a'.lead = a.lead)
    (hllog : a'.llog = update a.llog (a.term id) (a.log id ++ es))
    (hcommit : a'.lcommit = a.lcommit) (hnum : Numbered (a.log id).length es)
    (hlen : (a.log id).length + es.length < u64Max)
    (heff : ∃ m, membershipAfter g (a.log id ++ es) = .ok m ∧ effective = m.state)
    (hsound : RaftNode.Sound { n with log := n.log ++ es, effectiveMembership := effective }) :
    Goes g a images id k d [.persistLogEntries none es]
      { n with log := n.log ++ es, effectiveMembership := effective } := by
  have hv := h.views w hidle
  have hr := h.node.role
  rw [hrole] at hr
  have hself : a'.log id = a.log id ++ es := by rw [hlog, update_self]
  have hwf := (w.log id).append hnum hlen (heff.imp fun _ hm => hm.1)
  have w' : World g a' images := w.step hby fun hT => w.logs_extended hwf hlead hllog hT
  refine ⟨a', hby, w', ?_, by simp [EffectOK]⟩
  show At g a' images id k _ { d with log := d.log ++ es }
  rw [(h.agrees.idle hidle).2]
  refine h.newLog w _ _ n.role n.readContext hidle hby (by rw [hterm])
    (by rw [hvote]; exact fun _ => rfl) ?_ ?_ ?_
    (Or.inl (h.incoming_none (by simp [hrole]))) hsound w'
  · rw [hself, ← List.append_assoc, ← hv.log]
  · rw [← List.append_assoc, ← hv.log]
    exact heff
  · rw [hrole]
    exact hr.extended hby.le (by rw [hterm]) (by rw [hself]; exact List.prefix_append _ _)
      (by rw [hcommit])

theorem extend {commands : List Command} (hidle : n.publishingSnapshot = none)
    (hlead : n.isLeader = true)
    (hconf : ∀ command ∈ commands, command.isConfiguration = false)
    (hlast : n.lastLogIndex + commands.length < u64Max)
    (hsound : RaftNode.Sound { n with
      log := n.log ++ proposedEntries n.lastLogIndex n.hard.currentTerm commands }) :
    Goes g a images id k d
      [.persistLogEntries none (proposedEntries n.lastLogIndex n.hard.currentTerm commands)]
      { n with log := n.log ++ proposedEntries n.lastLogIndex n.hard.currentTerm commands } := by
  obtain ⟨next, matched, hrole⟩ := RaftNode.isLeader_iff.1 hlead
  have hr := h.node.role
  rw [hrole] at hr
  have hlen := (h.views w hidle).lastLogIndex
  have hentries : ∀ e ∈ proposedEntries n.lastLogIndex n.hard.currentTerm commands,
      e.term = a.term id ∧ e.command.isConfiguration = false := fun e he =>
    ⟨(proposedEntries_mem he).1.trans h.term, hconf _ (proposedEntries_mem he).2⟩
  obtain ⟨a', hby, hlog, hllog, hterm, hvote, hl, hcommit⟩ := w.inv.by_extends hr.1
    (fun e he => (hentries e he).1) fun e he => (hentries e he).2
  obtain ⟨m, hm, heff⟩ := h.effective hidle
  refine h.extendBy w hidle hrole hby hterm hvote hlog hl hllog hcommit ?_ ?_ ⟨m, ?_, heff⟩ hsound
  · rw [hlen]
    exact proposedEntries_numbered _ _ _
  · rw [proposedEntries_length, ← hlen]
    exact hlast
  · rw [membershipAfter_ordinary fun e he => (hentries e he).2]
    exact hm

/-- The configuration entries of a leader that has none above its commit index are committed. -/
theorem stem_settled (hidle : n.publishingSnapshot = none)
    (hclear : n.uncommittedConfiguration = false) :
    a.Settled (scheme g) (a.term id) ((scheme g).stem (a.log id)) := by
  have hv := h.views w hidle
  refine (w.inv.knows_settled h.node.known).of_isPrefix
    (List.prefix_take_iff.2
      ⟨Scheme.stem_isPrefix _, Scheme.stem_length_le fun i e hi he => ?_⟩)
  have hfloor := h.node.floor
  have hmem : n.log[i - n.snapshotIndex]? = some e := by
    have := hv.getElem? (i := i + 1) (by omega)
    rw [Nat.add_sub_cancel, he,
      show i + 1 - n.snapshotIndex - 1 = i - n.snapshotIndex by omega] at this
    exact this
  have hindex := hv.numbered i e he
  unfold RaftNode.uncommittedConfiguration at hclear
  have := List.any_eq_false.1 hclear e (List.mem_of_getElem? hmem)
  simp only [Bool.and_eq_true, decide_eq_true_eq, not_and, Bool.not_eq_true] at this
  exact this (by omega)

theorem extendConf {index : Nat} {change : ConfigurationEntry} {next : MembershipState}
    (hidle : n.publishingSnapshot = none) (hlead : n.isLeader = true)
    (hclear : n.uncommittedConfiguration = false)
    (hindex : nextIndex n.lastLogIndex 1 = some index)
    (hnext : effectiveAfter n.committedMembership
      (n.log ++ [{ index, term := n.hard.currentTerm, command := .configuration change }])
      n.commitIndex = .ok next)
    (hsound : RaftNode.Sound { n with
      log := n.log ++ [{ index, term := n.hard.currentTerm, command := .configuration change }]
      effectiveMembership := next }) :
    Goes g a images id k d
      [.persistLogEntries none
        [{ index, term := n.hard.currentTerm, command := .configuration change }]]
      { n with
        log := n.log ++ [{ index, term := n.hard.currentTerm, command := .configuration change }]
        effectiveMembership := next } := by
  obtain ⟨nextIndex, matched, hrole⟩ := RaftNode.isLeader_iff.1 hlead
  have hr := h.node.role
  rw [hrole] at hr
  have hv := h.views w hidle
  have hlen := hv.lastLogIndex
  obtain ⟨rfl, hlt⟩ := nextIndex_eq_some hindex
  set e : Entry :=
    { index := n.lastLogIndex + 1, term := n.hard.currentTerm, command := .configuration change }
  have hnum : Numbered (a.log id).length [e] := Numbered.singleton (by
    show n.lastLogIndex + 1 = _
    omega)
  have hbound : (a.log id).length + [e].length < u64Max := by
    rw [List.length_singleton]
    omega
  have hby := w.inv.by_extend (n := id) (e := e) hr.1 h.term fun _ => h.stem_settled w hidle hclear
  refine h.extendBy w hidle hrole hby rfl rfl rfl rfl rfl rfl hnum hbound ?_ hsound
  -- the effective membership is the one after the new entry
  have happend : a.log id ++ [e] = k ++ (n.log ++ [e]) := by rw [← List.append_assoc, ← hv.log]
  have hv' := hv.setLog (n.log ++ [e])
    (by rw [← happend]; exact hv.numbered.append (by rwa [Nat.zero_add]))
    (by rwa [← happend, List.length_append])
  have hcommitted : membershipAfter g ((k ++ (n.log ++ [e])).take n.commitIndex) =
      .ok n.committedMembership := by
    rw [← happend, List.take_append_of_le_length h.node.known.1]
    exact h.node.committed
  obtain ⟨m, hm, hstate⟩ := (hv'.effectiveAfter hcommitted h.node.floor).1 hnext
  exact ⟨m, by rw [happend]; exact hm, hstate.symm⟩

/-- A follower takes over the part of a payload it does not have. -/
theorem merge {sender : NodeId} {prev leaderCommit payloadLast kept : Nat} {entries : List Entry}
    {membership : CommittedMembership} (hidle : n.publishingSnapshot = none)
    (hc : CauseOK a images id c) (hrole : n.role = .follower)
    (hanchor : n.Anchors c sender prev entries leaderCommit payloadLast)
    (hkept : ∀ i < kept, ∀ e, entries[i]? = some e → n.logTerm e.index = some e.term)
    (hlt : kept < entries.length)
    (hstop : ∀ e, entries[kept]? = some e → n.logTerm e.index ≠ some e.term)
    (hmembership : replay n.baseMembership
      (n.log.take (prev - n.snapshotIndex + kept) ++ entries.drop kept) u64Max = .ok membership)
    (hsound : RaftNode.Sound { n with
      log := n.log.take (prev - n.snapshotIndex + kept) ++ entries.drop kept
      effectiveMembership := membership.state }) :
    Goes g a images id k d
      [.persistLogEntries
        (if prev - n.snapshotIndex + kept < n.log.length then some (prev + kept + 1) else none)
        (entries.drop kept)]
      { n with
        log := n.log.take (prev - n.snapshotIndex + kept) ++ entries.drop kept
        effectiveMembership := membership.state } := by
  have hv := h.views w hidle
  obtain ⟨hlead, hlast, hlen, hslice, -, -, -⟩ := h.anchored w hidle hc hanchor
  obtain ⟨hshared, hfit⟩ := h.holds_kept w hidle hc hanchor hlt.le hkept
  have hretained := hanchor.retained
  have hled : a.lead (a.term id) ≠ none := by simp [hlead]
  -- the leader's log up to the end of the payload
  have hnew : (a.llog (a.term id)).take payloadLast =
      (a.log id).take (prev + kept) ++ entries.drop kept := by
    rw [hlast, show prev + entries.length = prev + kept + (entries.length - kept) by omega,
      List.take_add, hshared]
    congr 1
    conv_rhs => rw [hslice]
    rw [List.drop_take, List.drop_drop]
  have hwhole : (a.llog (a.term id)).take payloadLast =
      k ++ (n.log.take (prev - n.snapshotIndex + kept) ++ entries.drop kept) := by
    rw [hnew, ← List.append_assoc, hv.log, List.take_append, hv.boundary,
      List.take_of_length_le (l := k) (by rw [hv.boundary]; omega),
      show prev + kept - n.snapshotIndex = prev - n.snapshotIndex + kept by omega]
  have hnot : ¬ (a.llog (a.term id)).take payloadLast <+: a.log id := by
    intro hpre
    obtain ⟨e, he⟩ : ∃ e, entries[kept]? = some e := ⟨_, List.getElem?_eq_getElem hlt⟩
    obtain ⟨prevTerm, round, -, hvalid, -⟩ := hanchor.heard
    have hindex := (validateAppendEntries_eq_some hvalid).2.2 _ _ he
    have hget : (a.log id)[prev + kept]? = some e := by
      obtain ⟨t, ht⟩ := hpre
      rw [← ht, hnew, List.append_assoc,
        List.getElem?_append_right (by rw [List.length_take]; omega),
        List.length_take, min_eq_left hfit, Nat.sub_self, List.getElem?_append_left
          (by rw [List.length_drop]; omega), List.getElem?_drop]
      exact he
    refine hstop e he (hv.logTerm_iff.2 ⟨by omega, ?_, ?_⟩)
    · have := (List.getElem?_eq_some_iff.1 hget).1
      omega
    · rw [hindex]
      exact lastTerm_take hget
  have hby := w.inv.by_accept hled hnot
  have w' := w.step hby w.logs
  refine ⟨_, hby, w', ?_, by simp [EffectOK]⟩
  have hdisk : d.execute (.persistLogEntries
      (if prev - n.snapshotIndex + kept < n.log.length then some (prev + kept + 1) else none)
      (entries.drop kept)) =
      { d with log := n.log.take (prev - n.snapshotIndex + kept) ++ entries.drop kept } := by
    simp only [Disk.execute, (h.agrees.idle hidle).2]
    split
    · rw [cutLog, hv.contiguous.filter_lt (by omega),
        show prev + kept + 1 - n.snapshotIndex - 1 = prev - n.snapshotIndex + kept by omega]
    · rw [cutLog, List.take_of_length_le (l := n.log) (by omega)]
  rw [List.foldl_cons, List.foldl_nil, hdisk]
  have hself : update a.log id ((a.llog (a.term id)).take payloadLast) id =
      k ++ (n.log.take (prev - n.snapshotIndex + kept) ++ entries.drop kept) := by
    rw [update_self, hwhole]
  have hwf := w.wellFormed ((w.inv.lead_rooted hled).of_isPrefix (List.take_prefix payloadLast _))
  rw [hwhole] at hwf
  refine h.newLog w _ _ n.role n.readContext hidle hby rfl (fun _ => rfl)
    hself ⟨membership, ?_, rfl⟩ ?_ (Or.inr hrole) hsound w'
  · rw [← (hv.setLog _ hwf.numbered hwf.bounded).replay_all]
    exact hmembership
  · rw [hrole]
    trivial

end At

end MicroRaft
