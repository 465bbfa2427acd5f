import MicroRaft.Cluster.Advance

/-!
# What a run keeps

The group refines the abstract protocol, whose history only grows.  What has been said
or stored therefore stays: what a leader counts on at its peers, what its requests carry,
the one vote of a term, and the entries given to a state machine, which a quorum of disks
holds ever after.
-/

namespace MicroRaft

open Cluster Consensus

variable {G : Group} {g : CommittedMembership} {a : Abstract} {σ σ₁ σ₂ : Cluster}
  {id v : NodeId} {n₁ n₂ : RaftNode} {T : Nat}

/-! ## Refinement -/

/-- **The group refines the protocol**: every event is a sequence of protocol moves, crashes
and restarts included, so every reachable state stands for a state of the protocol. -/
theorem cluster_refines_protocol (hG : G.genesis = .ok g) :
    Related g State.init empty ∧
    (∀ {a : Abstract} {σ σ' : Cluster}, Related g a σ → Next G σ σ' →
      ∃ a', State.Moves (scheme g) a a' ∧ Related g a' σ') ∧
    ∀ {σ : Cluster}, Reachable G σ → ∃ a, State.Moves (scheme g) State.init a ∧ Related g a σ := by
  refine ⟨.empty hG, fun h hnext => ?_, fun h => ?_⟩
  · obtain ⟨a', hsmalls⟩ := h.next hG hnext
    exact ⟨a', hsmalls.moves, hsmalls.related h⟩
  · obtain ⟨a, hsmalls⟩ := (Related.empty hG).runs hG h
    exact ⟨a, hsmalls.moves, hsmalls.related (.empty hG)⟩

/-- The run with a compaction and a transferred image. -/
theorem cluster_refines_protocol_imageSent :
    ∃ g a, (Group.fixed [1, 2, 3]).genesis = .ok g ∧ State.Moves (scheme g) State.init a ∧
      Related g a (after (.fixed [1, 2, 3]) (firstTerm ++ imageSent)) := by
  obtain ⟨g, hG⟩ := imageSent_reachable.genesis_of_trace imageSent_facts.2.1
  obtain ⟨a, hmoves, hrel⟩ := (cluster_refines_protocol hG).2.2 imageSent_reachable
  exact ⟨g, a, hG, hmoves, hrel⟩

/-! ## Leaders -/

theorem Related.commit_leader (h : Related g a σ) (hup : σ.up id = some n₁)
    (hlead : n₁.isLeader = true) : n₁.commitIndex = a.lcommit n₁.hard.currentTerm := by
  obtain ⟨next, matched, hrole⟩ := RaftNode.isLeader_iff.1 hlead
  have hr := (h.nodes hup).1.role
  rw [hrole] at hr
  rw [h.term_eq hup]
  exact hr.2.1

/-- **Match indexes are true**: a peer of the leader's term holds on its disk the leader's log
as far as the leader counts on it, whatever either has compacted. -/
theorem match_index_true (h : Reachable G σ) (hup : σ.up id = some n₁)
    {next matched : BTreeMap NodeId Nat} (hrole : n₁.role = .leader next matched) {i : Nat}
    (hi : matched[v]? = some i) {d : Disk} (hd : σ.disk v = some d)
    (hT : d.hard.currentTerm = n₁.hard.currentTerm) :
    (σ.memory id n₁).take i <+: σ.compacted v ++ d.log := by
  obtain ⟨g, a, -, hrel⟩ := h.related hup
  have hr := (hrel.nodes hup).1.role
  have hdisk := hrel.disks hd
  rw [hrole] at hr
  rcases hr.2.2.2 hi with rfl | hack
  · simp
  rw [hrel.memory_leader hup (RaftNode.isLeader_iff.2 ⟨_, _, hrole⟩), ← hdisk.log, hrel.term_eq hup]
  -- no leader of a later term can have made the peer drop it
  refine hrel.world.inv.ack_hold (hack i le_rfl) fun W hlt hle _ => absurd hle ?_
  rw [← hdisk.term, hT, hrel.term_eq hup]
  omega

theorem firstTerm_matched :
    ((after (.fixed [1, 2, 3]) firstTerm).up 1).any (fun n =>
      match n.role with
      | .leader _ matched => matched[2]? == some 1
      | _ => false) = true := by
  decide +kernel

/-- Node 1 counts on the first entry at node 2. -/
theorem match_index_true_firstTerm :
    ∃ n d, (after (.fixed [1, 2, 3]) firstTerm).up 1 = some n ∧
      (after (.fixed [1, 2, 3]) firstTerm).disk 2 = some d ∧
      ((after (.fixed [1, 2, 3]) firstTerm).memory 1 n).take 1 <+:
        (after (.fixed [1, 2, 3]) firstTerm).compacted 2 ++ d.log := by
  have hdisk : ((after (.fixed [1, 2, 3]) firstTerm).disk 2).any (fun d =>
      d.hard.currentTerm == 1) = true := by
    decide +kernel
  obtain ⟨d, hd, hT⟩ := (Option.any_eq_true _ _).1 hdisk
  obtain ⟨n, hup, -, -, hterm, -⟩ := firstTerm_running
  have hfacts := firstTerm_matched
  rw [hup] at hfacts
  cases hrole : n.role with
  | leader next matched =>
    simp only [Option.any_some, hrole, beq_iff_eq] at hfacts
    exact ⟨n, d, hup, hd, match_index_true (v := 2) secondTerm_sameRun.1 hup hrole hfacts hd
      ((eq_of_beq hT).trans hterm.symm)⟩
  | _ => simp [hrole] at hfacts

/-- Node 1 still leads the first term after it has compacted its log. -/
theorem imageSent_running : ∃ n,
    (after (.fixed [1, 2, 3]) (firstTerm ++ imageSent)).up 1 = some n ∧ n.isLeader = true ∧
      n.hard.currentTerm = 1 ∧ n.snapshotIndex = 1 := by
  have hfacts : ((after (.fixed [1, 2, 3]) (firstTerm ++ imageSent)).up 1).any (fun n =>
      n.isLeader && n.hard.currentTerm == 1 && n.snapshotIndex == 1) = true := by
    decide +kernel
  obtain ⟨n, hup, hn⟩ := (Option.any_eq_true _ _).1 hfacts
  exact ⟨n, hup, by simpa [and_assoc] using hn⟩

/-- **Append requests tell the leader's log**: what was ever sent for a term is what the leader
of that term has at those positions of its log, compacted or not, at any time after, and it has
committed as much as the request said. -/
theorem append_requests_true (hG : G.genesis = .ok g) (h : Reachable G σ₁) (hr : Runs G σ₁ σ₂)
    {dest leader : NodeId} {prev prevTerm commit round : Nat} {entries : List Entry}
    (hsent : σ₁.Sent v dest
      (envelope g (.appendEntries T leader prev prevTerm entries commit round)))
    (hup : σ₂.up id = some n₂) (hlead : n₂.isLeader = true) (hT : n₂.hard.currentTerm = T) :
    v = id ∧ leader = id ∧ prev + entries.length ≤ (σ₂.memory id n₂).length ∧
      prevTerm = lastTerm ((σ₂.memory id n₂).take prev) ∧
      ((σ₂.memory id n₂).drop prev).take entries.length = entries ∧ commit ≤ n₂.commitIndex := by
  obtain ⟨a₁, a₂, hrel₁, hrel₂, hm⟩ := h.grow hr hG
  obtain ⟨hself, hled, hlen, hentries, hprev, hcommit⟩ :=
    hrel₁.causeOK (c := .heard v (.appendEntries ..)) hsent
  have hle := (hrel₁.world.inv.moves hm).1
  obtain ⟨hled₂, -, hpre⟩ := hle.lead hled
  have hid : v = id := by
    rw [← hT, hrel₂.lead_eq hup hlead] at hled₂
    exact (Option.some_inj.1 hled₂).symm
  refine ⟨hid, hself.trans hid, ?_⟩
  rw [hrel₂.memory_leader hup hlead, hrel₂.commit_leader hup hlead, hT]
  refine ⟨hlen.trans hpre.length_le, ?_, ?_, hcommit.trans (hle.lcommit T)⟩
  · rw [hprev, take_eq_of_isPrefix hpre (by omega)]
  · obtain ⟨t, ht⟩ := hpre
    rw [← ht, List.drop_append_of_le_length (by omega),
      List.take_append_of_le_length (by rw [List.length_drop]; omega)]
    exact hentries.symm

/-- A group without a name of its own puts no envelope around its messages. -/
theorem firstTerm_plain :
    ∃ g, (Group.fixed [1, 2, 3]).genesis = .ok g ∧ ∀ msg, envelope g msg = msg := by
  have hplain : (Group.fixed [1, 2, 3]).genesis.toOption.any (fun g =>
      decide (g.state.groupId = legacyGroupId)) = true := by
    decide +kernel
  obtain ⟨g, hG⟩ := imageSent_reachable.genesis_of_trace imageSent_facts.2.1
  refine ⟨g, hG, fun msg => if_pos ?_⟩
  rw [hG] at hplain
  exact of_decide_eq_true hplain

/-- Node 1 has compacted the entry it sent to node 3. -/
theorem append_requests_true_imageSent :
    ∃ n, (after (.fixed [1, 2, 3]) (firstTerm ++ imageSent)).up 1 = some n ∧
      ((after (.fixed [1, 2, 3]) (firstTerm ++ imageSent)).memory 1 n).take 1 =
        [⟨1, 1, .noOp⟩] := by
  obtain ⟨g, hG, hplain⟩ := firstTerm_plain
  obtain ⟨n, hup, hl, hT, -⟩ := imageSent_running
  have hsent : (after (.fixed [1, 2, 3]) firstTerm).Sent 1 3
      (.appendEntries 1 1 0 0 [⟨1, 1, .noOp⟩] 0 1) := by
    unfold Sent
    decide +kernel
  rw [← hplain (.appendEntries ..)] at hsent
  exact ⟨n, hup, (append_requests_true hG secondTerm_sameRun.1 (after_runs imageSent_facts.1) hsent
    hup hl hT).2.2.2.2.1⟩

/-! ## Votes and committed entries -/

/-- **One vote for each term**: over a whole run, crashes and restarts included, a node grants
its vote of a term to one candidate. -/
theorem votes_once (hG : G.genesis = .ok g) (h : Reachable G σ) {c c' : NodeId}
    (hc : σ.Sent v c (envelope g (.requestVoteReply T true)))
    (hc' : σ.Sent v c' (envelope g (.requestVoteReply T true))) : c = c' := by
  obtain ⟨-, a, -, hrel, -⟩ := h.grow .refl hG
  have hvote : a.vote v T = some c := hrel.causeOK (c := .heard v (.requestVoteReply ..)) hc rfl
  have hvote' : a.vote v T = some c' := hrel.causeOK (c := .heard v (.requestVoteReply ..)) hc' rfl
  rw [hvote] at hvote'
  exact Option.some_inj.1 hvote'

/-- Node 2 votes for node 1 in the first term. -/
theorem votes_once_firstTerm : ∃ g, (Group.fixed [1, 2, 3]).genesis = .ok g ∧
    (after (.fixed [1, 2, 3]) firstTerm).Sent 2 1 (envelope g (.requestVoteReply 1 true)) ∧
    ∀ c, (after (.fixed [1, 2, 3]) firstTerm).Sent 2 c (envelope g (.requestVoteReply 1 true)) →
      1 = c := by
  obtain ⟨g, hG, hplain⟩ := firstTerm_plain
  have hsent : (after (.fixed [1, 2, 3]) firstTerm).Sent 2 1 (.requestVoteReply 1 true) := by
    unfold Sent
    decide +kernel
  rw [← hplain (.requestVoteReply ..)] at hsent
  exact ⟨g, hG, hsent, fun c hc => votes_once hG secondTerm_sameRun.1 hsent hc⟩

/-- Every leader had its whole log on its disk at a moment of the run, in the term it led. -/
def Stored (G : Group) (a : Abstract) (σ : Cluster) : Prop :=
  ∀ {T : Nat} {v : NodeId}, a.lead T = some v → ∃ σ₁ d, Reachable G σ₁ ∧ σ₁.trace <+: σ.trace ∧
    σ₁.disk v = some d ∧ d.hard.currentTerm = T ∧ a.llog T = σ₁.compacted v ++ d.log

theorem Stored.mono {a' : Abstract} (h : Stored G a σ₁) (htrace : σ₁.trace <+: σ₂.trace)
    {v : NodeId} (hlead : a.lead T = some v) (hllog : a'.llog T = a.llog T) :
    ∃ σ d, Reachable G σ ∧ σ.trace <+: σ₂.trace ∧ σ.disk v = some d ∧ d.hard.currentTerm = T ∧
      a'.llog T = σ.compacted v ++ d.log := by
  obtain ⟨σ, d, hreach, hpre, hrest⟩ := h hlead
  exact ⟨σ, d, hreach, hpre.trans htrace, hllog ▸ hrest⟩

theorem Small.stored {x y : Abstract × Cluster} (h : Small g x y) (hshown : Shown G empty y.2)
    (hx : Stored G x.1 x.2) : Stored G y.1 y.2 := by
  intro T v hlead
  cases h with
  | @move a a' σ id n n' c es h h' hup hears hs hby =>
    rcases hby.led hlead with ⟨hlead, hllog⟩ | ⟨rfl, rfl⟩
    · refine hx.mono ?_ hlead hllog
      show _ <+: (σ.executeAll _ _).trace
      rw [trace_executeAll]
      exact List.prefix_append _ _
    · -- the leader has just written: its disk holds what it leads with
      obtain ⟨σ₁, hreach, htrace, hdisk, hcompacted⟩ := hshown
      obtain ⟨d, hd, hat⟩ := h'.at (run_up ..)
      refine ⟨σ₁, d, hreach, htrace ▸ List.prefix_rfl, hdisk ▸ hd, hat.disk.term, ?_⟩
      rw [hcompacted, ← hat.disk.log]
      exact (h'.world.inv.own hlead).symm
  | boot h h' hup hrole hreads hes htrace =>
    exact hx.mono (htrace ▸ List.prefix_append _ _) hlead rfl
  | stop h h' => exact hx hlead

theorem Passes.stored {x y : Abstract × Cluster} (h : Passes g (Shown G empty) x y)
    (hx : Stored G x.1 x.2) : Stored G y.1 y.2 := by
  induction h with
  | refl => exact hx
  | tail _ hstep ih => exact hstep.1.stored hstep.2 ih

theorem Cluster.Reachable.stored (hG : G.genesis = .ok g) (h : Reachable G σ) :
    ∃ a, Related g a σ ∧ Stored G a σ := by
  induction h with
  | refl => exact ⟨State.init, .empty hG, fun hlead => by cases hlead⟩
  | @tail σ₁ σ₂ hrun hnext ih =>
    obtain ⟨a, hrel, hstored⟩ := ih
    obtain ⟨a', hpasses⟩ := hrel.passes hG hnext
    have hwhole : Passes g (Shown G empty) (a, σ₁) (a', σ₂) :=
      hpasses.imp fun _ hshown => Cluster.Runs.shown hrun hshown
    exact ⟨a', hwhole.smalls.related hrel, hwhole.stored hstored⟩

/-- **Applied entries are on a quorum of disks** at every later time.  The quorum is one of the
configuration that committed the entry: of the first `k` entries of the log that the leader of a
term had on its disk at a moment of the run; nobody else leads that term from now on.  The members
have the first `i` of these entries, up to one of that term, in the log or below the boundary of
the snapshot, and the applied entry is among them. -/
theorem applied_on_quorum (hG : G.genesis = .ok g) (h : Reachable G σ) {e : Entry}
    (he : (id, .apply e) ∈ σ.trace) :
    ∃ σ₁ leader d₁ l i k m votes, Reachable G σ₁ ∧ σ₁.trace <+: σ.trace ∧
      σ₁.disk leader = some d₁ ∧ l = σ₁.compacted leader ++ d₁.log ∧
      (∀ σ' w, Runs G σ σ' → σ'.Leads w d₁.hard.currentTerm → w = leader) ∧
      l[e.index - 1]? = some e ∧ e.index ≤ i ∧ lastTerm (l.take i) = d₁.hard.currentTerm ∧
      i ≤ k ∧ k ≤ l.length ∧ membershipAfter g (l.take k) = .ok m ∧
      m.state.voters.hasQuorum votes = true ∧
      ∀ v ∈ votes, ∃ d, σ.disk v = some d ∧ l.take i <+: σ.compacted v ++ d.log := by
  obtain ⟨a, hrel, hstored⟩ := h.stored hG
  obtain ⟨hpos, -, T, l, hset, hget⟩ := hrel.trace_plain he (by simp)
  rcases hset with rfl | ⟨T', i, k, hchosen, -, t, ht⟩
  · cases hget
  have hget : ((a.llog T').take i)[e.index - 1]? = some e := by
    rw [← ht, List.getElem?_append_left (List.getElem?_eq_some_iff.1 hget).1, hget]
  have hi : e.index ≤ i := by
    have := (List.getElem?_eq_some_iff.1 hget).1
    rw [List.length_take] at this
    omega
  rw [List.getElem?_take_of_lt (by omega)] at hget
  obtain ⟨leader, hlead⟩ := Option.ne_none_iff_exists'.1 hchosen.led
  obtain ⟨σ₁, d₁, hreach, hpre, hd₁, rfl, hllog⟩ := hstored hlead
  obtain ⟨S, ⟨m, votes, hm, hquorum, hvotes⟩, hack⟩ := hchosen.quorum
  refine ⟨σ₁, leader, d₁, _, i, k, m, votes, hreach, hpre, hd₁, hllog, ?_, hget, hi,
    hchosen.own, hchosen.le, hchosen.le_length, hm, hquorum, fun v hv => ?_⟩
  · rintro σ' w hrun ⟨n, hup, hleads, hterm⟩
    obtain ⟨a', hsmalls⟩ := hrel.runs hG hrun
    have hle := (hrel.world.inv.moves hsmalls.moves).1
    have hsame := (hsmalls.related hrel).lead_eq hup hleads
    rw [hterm, (hle.lead hlead).1, Option.some_inj] at hsame
    exact hsame.symm
  -- nobody who acknowledged a committed entry has lost it
  have hhold := hrel.world.inv.ack_hold (hack v (hvotes v hv)) fun W hW _ hlead =>
    hrel.world.inv.chosen_prefix_base hlead _ i k hW hchosen
  cases hdisk : σ.disk v with
  | none =>
    have hlen := hhold.length_le
    have hlt := (List.getElem?_eq_some_iff.1 hget).1
    rw [(hrel.absent hdisk).2.2.1, List.length_take, List.length_nil] at hlen
    omega
  | some d => exact ⟨d, rfl, (hrel.disks hdisk).log ▸ hhold⟩

/-- The first entry is on two disks, though node 1 has compacted it. -/
theorem applied_on_quorum_imageSent : ∃ g σ₁ leader d₁ l i k m votes,
    Reachable (.fixed [1, 2, 3]) σ₁ ∧ σ₁.disk leader = some d₁ ∧
      l = σ₁.compacted leader ++ d₁.log ∧ l[0]? = some ⟨1, 1, .noOp⟩ ∧ 1 ≤ i ∧ i ≤ k ∧
      membershipAfter g (l.take k) = .ok m ∧ m.state.voters.hasQuorum votes = true ∧
      ∀ v ∈ votes, ∃ d, (after (.fixed [1, 2, 3]) (firstTerm ++ imageSent)).disk v = some d ∧
        l.take i <+: (after (.fixed [1, 2, 3]) (firstTerm ++ imageSent)).compacted v ++ d.log := by
  obtain ⟨g, hG, -⟩ := firstTerm_plain
  obtain ⟨σ₁, leader, d₁, l, i, k, m, votes, hreach, -, hd, hl, -, hget, hi, -, hk, -, hm,
    hquorum, hdisks⟩ := applied_on_quorum hG imageSent_reachable imageSent_facts.2.2.1
  exact ⟨g, σ₁, leader, d₁, l, i, k, m, votes, hreach, hd, hl, hget, hi, hk, hm, hquorum, hdisks⟩

end MicroRaft
