import MicroRaft.Node.Rep

/-!
# The peers and what a leader knows of them

Every place that writes the peers or the two progress maps of a leader: the
refresh after a configuration entry, the start of a term, a reply, a refused
transfer.  Confirmed replication is never taken back; the retry cursor of a peer
stays ahead of it, except after a refused transfer that tells of less than is
already confirmed.
-/

namespace MicroRaft

open EffectM

/-! ## Progress maps -/

theorem getElem?_foldl_insertIfNew (l : List NodeId) (start : Nat) (m : BTreeMap NodeId Nat)
    (p : NodeId) : (l.foldl (fun m peer => m.insertIfNew peer start) m)[p]? =
      if p ∈ l then some ((m[p]?).getD start) else m[p]? := by
  induction l generalizing m with
  | nil => simp
  | cons q l ih =>
    rw [List.foldl_cons, ih, Std.ExtTreeMap.getElem?_insertIfNew]
    by_cases hq : q = p
    · subst hq
      by_cases hm : q ∈ m <;> simp [hm]
    · have hne : ¬ (compare q p = .eq ∧ ¬ q ∈ m) := fun h => hq (compare_eq_iff_eq.1 h.1)
      rw [if_neg hne]
      simp [List.mem_cons, Ne.symm hq]

/-- Retained progress, binding by binding. -/
theorem getElem?_retainProgress (peers : List NodeId) (start : Nat) (progress : BTreeMap NodeId Nat)
    (p : NodeId) : (retainProgress peers start progress)[p]? =
      if p ∈ peers then some ((progress[p]?).getD start) else none := by
  rw [retainProgress, getElem?_foldl_insertIfNew, Std.ExtTreeMap.getElem?_filter']
  by_cases hp : p ∈ peers
  · cases progress[p]? <;> simp [hp, Option.filter]
  · simp [hp]

/-- The same value for every key of a list. -/
theorem getElem?_ofList_map (l : List NodeId) (x : Nat) (p : NodeId) :
    (Std.ExtTreeMap.ofList (l.map fun q => (q, x)) compare)[p]? =
      if p ∈ l then some x else none := by
  have hfold : ∀ m : BTreeMap NodeId Nat, (m.insertMany (l.map fun q => (q, x)))[p]? =
      if p ∈ l then some x else m[p]? := by
    induction l with
    | nil => simp
    | cons q l ih =>
      intro m
      rw [List.map_cons, Std.ExtTreeMap.insertMany_cons, ih, Std.ExtTreeMap.getElem?_insert]
      by_cases hq : q = p
      · simp [hq]
      · have hne : ¬ compare q p = .eq := fun h => hq (compare_eq_iff_eq.1 h)
        rw [if_neg hne]
        simp [List.mem_cons, Ne.symm hq]
  rw [Std.ExtTreeMap.ofList_eq_insertMany_empty, hfold]
  simp

theorem mem_iff_getElem? {m : BTreeMap NodeId Nat} {p : NodeId} : p ∈ m ↔ ∃ k, m[p]? = some k := by
  rw [← Std.ExtTreeMap.isSome_getElem?_iff_mem, Option.isSome_iff_exists]

/-- Replacing the binding of a key that is there. -/
theorem mem_insert_of_mem {m : BTreeMap NodeId Nat} {p q : NodeId} {k : Nat} (hq : q ∈ m) :
    p ∈ m.insert q k ↔ p ∈ m := by
  rw [Std.ExtTreeMap.mem_insert]
  constructor
  · rintro (heq | hp)
    · rwa [← compare_eq_iff_eq.1 heq]
    · exact hp
  · exact Or.inr

namespace RaftNode

variable {calm : Prop} {n n' : RaftNode}

/-! ## A new effective membership -/

/-- The peers of a membership, without the node itself. -/
theorem mem_replicationPeers {m : MembershipState} {id p : NodeId} :
    p ∈ (m.participants ∪ m.retired).toList.filter (· ≠ id) ↔ p ∈ m.known ∧ p ≠ id := by
  rw [List.mem_filter, Std.ExtTreeSet.mem_toList, decide_eq_true_eq]
  rfl

theorem nodup_replicationPeers (m : MembershipState) (id : NodeId) :
    ((m.participants ∪ m.retired).toList.filter (· ≠ id)).Nodup := by
  refine List.Nodup.filter _ ?_
  refine (Std.ExtTreeSet.distinct_toList (t := m.participants ∪ m.retired)).imp
    fun {a b} hne heq => ?_
  exact hne (compare_eq_iff_eq.2 heq)

/-- The node once a new membership is effective. -/
def refreshed (n : RaftNode) (next : MembershipState) : RaftNode :=
  { n with effectiveMembership := next }.updateReplicationPeers

theorem refreshed_role {next : MembershipState} {nexts matched : BTreeMap NodeId Nat}
    (hrole : n.role = .leader nexts matched) :
    (n.refreshed next).role = .leader
      (retainProgress (n.refreshed next).peers (saturatingAdd n.lastLogIndex 1) nexts)
      (retainProgress (n.refreshed next).peers 0 matched) := by
  simp only [refreshed, updateReplicationPeers, hrole]
  rfl

theorem refreshed_role_of_not_leader {next : MembershipState} (hrole : n.isLeader = false) :
    (n.refreshed next).role = n.role := by
  simp only [refreshed, updateReplicationPeers]
  split
  · next hr =>
      rw [isLeader, hr] at hrole
      cases hrole
  · rfl

theorem refreshed_stage (n : RaftNode) (next : MembershipState) :
    (n.refreshed next).role.stage = n.role.stage := by
  cases hl : n.isLeader with
  | false => rw [refreshed_role_of_not_leader hl]
  | true =>
    obtain ⟨nexts, matched, hr⟩ := isLeader_iff.1 hl
    rw [refreshed_role hr, hr]
    rfl

theorem refreshed_isLeader (n : RaftNode) (next : MembershipState) :
    (n.refreshed next).isLeader = n.isLeader := by
  rw [Bool.eq_iff_iff, isLeader_iff_stage, isLeader_iff_stage, refreshed_stage]

/-- **A new effective membership.**  A leader keeps what it knows of the peers that stay. -/
theorem Rep.refresh (h : n.Rep calm) (next : MembershipState) : (n.refreshed next).Rep calm where
  ordered := { h.ordered with }
  configured := { h.configured with }
  tracking := by
    refine ⟨nodup_replicationPeers _ _, fun p => mem_replicationPeers, ?_, ?_⟩
    · intro next' matched' hr p
      obtain ⟨nexts, matched, hrole⟩ := isLeader_iff.1
        (n.refreshed_isLeader next ▸ isLeader_iff.2 ⟨_, _, hr⟩)
      rw [refreshed_role hrole] at hr
      cases hr
      simp only [mem_iff_getElem?, getElem?_retainProgress]
      constructor <;> split <;> simp [*]
    · intro hcalm next' matched' hr p k m hk hm
      obtain ⟨nexts, matched, hrole⟩ := isLeader_iff.1
        (n.refreshed_isLeader next ▸ isLeader_iff.2 ⟨_, _, hr⟩)
      rw [refreshed_role hrole] at hr
      cases hr
      rw [getElem?_retainProgress] at hk hm
      split at hk
      · next hp =>
          rw [if_pos hp] at hm
          cases hk
          cases hm
          -- both maps know the peer, or neither does and it starts from the end of the log
          by_cases hold : p ∈ n.peers
          · obtain ⟨k, hk⟩ := mem_iff_getElem?.1 (((h.tracking.tracked hrole p).1).2 hold)
            obtain ⟨m, hm⟩ := mem_iff_getElem?.1 (((h.tracking.tracked hrole p).2).2 hold)
            rw [hk, hm]
            exact h.tracking.ahead hcalm hrole hk hm
          · have hk : nexts[p]? = none := Std.ExtTreeMap.getElem?_eq_none
              fun hmem => hold (((h.tracking.tracked hrole p).1).1 hmem)
            have hm : matched[p]? = none := Std.ExtTreeMap.getElem?_eq_none
              fun hmem => hold (((h.tracking.tracked hrole p).2).1 hmem)
            rw [hk, hm]
            exact min_le_min_right _ (Nat.add_le_add_right (Nat.zero_le _) 1)
      · cases hk
  incoming hx := by
    have hrole := (h.incoming hx).2
    refine ⟨(h.incoming hx).1, ?_⟩
    rw [refreshed_role_of_not_leader (by rw [isLeader, hrole]), hrole]
  elected := by
    rintro (hl | ⟨votes, hv⟩)
    · exact h.elected (Or.inl (n.refreshed_isLeader next ▸ hl))
    · refine h.elected (Or.inr ⟨votes, ?_⟩)
      have hl : n.isLeader = false := by
        rw [← n.refreshed_isLeader next, isLeader, hv]
      rw [← hv, refreshed_role_of_not_leader hl]
  readContext := h.readContext

/-- A leader whose membership grows keeps every peer it tracks. -/
theorem Grows.refresh (h : n.Rep calm) {next : MembershipState}
    (hgrow : n.isLeader = true → ∀ p ∈ n.effectiveMembership.known, p ∈ next.known) :
    n.Grows (n.refreshed next) := by
  refine ⟨le_rfl, fun _ => (n.refreshed_stage next).ge, ?_⟩
  intro _ nexts matched next' matched' hr hr' p m hm
  rw [refreshed_role hr] at hr'
  cases hr'
  have hpeer := (h.tracking.peers p).1
    (((h.tracking.tracked hr p).2).1 (mem_iff_getElem?.2 ⟨m, hm⟩))
  have hpeer' : p ∈ (n.refreshed next).peers :=
    mem_replicationPeers.2 ⟨hgrow (isLeader_iff.2 ⟨_, _, hr⟩) p hpeer.1, hpeer.2⟩
  refine ⟨m, ?_, le_rfl⟩
  rw [getElem?_retainProgress, if_pos hpeer', hm]
  rfl

/-! ## The leader's maps -/

/-- A leader's maps, with the same peers. -/
theorem Rep.setProgress (h : n.Rep calm) (hlead : n.isLeader = true)
    {next matched : BTreeMap NodeId Nat}
    (hkeys : ∀ p, (p ∈ next ↔ p ∈ n.peers) ∧ (p ∈ matched ↔ p ∈ n.peers))
    (hahead : calm → ∀ {p k m : Nat}, next[p]? = some k → matched[p]? = some m →
      saturatingAdd m 1 ≤ k) : Rep calm { n with role := .leader next matched } where
  ordered := { h.ordered with }
  configured := { h.configured with }
  tracking := by
    refine ⟨h.tracking.nodup, h.tracking.peers, fun hr => ?_, fun hcalm {_ _} hr => ?_⟩
    · cases hr
      exact hkeys
    · cases hr
      exact hahead hcalm
  incoming hx := by
    rw [isLeader, (h.incoming hx).2] at hlead
    cases hlead
  elected _ := h.elected (Or.inl hlead)
  readContext := h.readContext

section Reply

variable {next matched : BTreeMap NodeId Nat} {sender : NodeId} {peerNext peerMatch : Nat}

/-- A new cursor for one peer, not behind what the peer has confirmed. -/
theorem Rep.setNext (h : n.Rep calm) (hrole : n.role = .leader next matched)
    (hpeer : sender ∈ n.peers) {k : Nat}
    (hk : calm → ∀ m, matched[sender]? = some m → saturatingAdd m 1 ≤ k) :
    Rep calm { n with role := .leader (next.insert sender k) matched } := by
  have htracked := h.tracking.tracked hrole
  refine h.setProgress (isLeader_iff.2 ⟨_, _, hrole⟩) (fun p => ⟨?_, (htracked p).2⟩) ?_
  · rw [mem_insert_of_mem (((htracked sender).1).2 hpeer)]
    exact (htracked p).1
  · intro hcalm p k' m hk' hm
    rw [Std.ExtTreeMap.getElem?_insert] at hk'
    split at hk'
    · next heq =>
        cases hk'
        rw [← compare_eq_iff_eq.1 heq] at hm
        exact hk hcalm m hm
    · exact h.tracking.ahead hcalm hrole hk' hm

/-- A confirmation moves both maps. -/
theorem Rep.confirm (h : n.Rep calm) (hrole : n.role = .leader next matched)
    (hpeer : sender ∈ n.peers) (m : Nat) :
    Rep calm { n with
      role := .leader (next.insert sender (saturatingAdd m 1)) (matched.insert sender m) } := by
  have htracked := h.tracking.tracked hrole
  refine h.setProgress (isLeader_iff.2 ⟨_, _, hrole⟩) (fun p => ⟨?_, ?_⟩) ?_
  · rw [mem_insert_of_mem (((htracked sender).1).2 hpeer)]
    exact (htracked p).1
  · rw [mem_insert_of_mem (((htracked sender).2).2 hpeer)]
    exact (htracked p).2
  · intro hcalm p k' m' hk' hm'
    rw [Std.ExtTreeMap.getElem?_insert] at hk' hm'
    split at hk'
    · next heq =>
        rw [if_pos heq] at hm'
        cases hk'
        cases hm'
        exact le_rfl
    · next hne =>
        rw [if_neg hne] at hm'
        exact h.tracking.ahead hcalm hrole hk' hm'

theorem Grows.setNext (hrole : n.role = .leader next matched) {next' : BTreeMap NodeId Nat} :
    n.Grows { n with role := .leader next' matched } := by
  refine ⟨le_rfl, fun _ => (congrArg Role.stage hrole).le, fun _ {_ _ _ _} hr hr' {_ m} hm => ?_⟩
  rw [hrole] at hr
  cases hr
  cases hr'
  exact ⟨m, hm, le_rfl⟩

theorem Grows.confirm (hrole : n.role = .leader next matched) {next' : BTreeMap NodeId Nat}
    (hknown : matched[sender]? = some peerMatch) {m : Nat} (hle : peerMatch ≤ m) :
    n.Grows { n with role := .leader next' (matched.insert sender m) } := by
  refine ⟨le_rfl, fun _ => (congrArg Role.stage hrole).le, fun _ {_ _ _ _} hr hr' {p m'} hm => ?_⟩
  rw [hrole] at hr
  cases hr
  cases hr'
  rw [Std.ExtTreeMap.getElem?_insert]
  split
  · next heq =>
      rw [← compare_eq_iff_eq.1 heq, hknown] at hm
      cases hm
      exact ⟨m, rfl, hle⟩
  · exact ⟨m', hm, le_rfl⟩

end Reply

end RaftNode

end MicroRaft
