import MicroRaft.Core.Node
import MicroRaft.Lib.Consensus.Scheme

/-!
# Quorums of a group

Majorities of one voter list meet, and so do quorums of the voter
configurations that one configuration entry can turn into each other: a joint
configuration requires the majority of both lists.  With this the configuration
entries of a group form a `Consensus.Scheme` over the group's genesis
(`scheme`), the interface through which the abstract protocol is used.
-/

namespace MicroRaft

open Consensus

/-! ## Majorities -/

theorem mem_singletonSet {v x : NodeId} : v ∈ ({x} : BTreeSet NodeId) ↔ v = x := by
  show v ∈ (∅ : BTreeSet NodeId).insert x ↔ v = x
  rw [Std.ExtTreeSet.mem_insert, compare_eq_iff_eq]
  simp [eq_comm]

/-- Two predicates that together hold more often than the list is long meet in it. -/
theorem exists_mem_of_length_filter {α : Type} (p q : α → Bool) :
    ∀ l : List α, l.length < (l.filter p).length + (l.filter q).length →
      ∃ x ∈ l, p x = true ∧ q x = true
  | [], h => by simp at h
  | x :: l, h => by
      by_cases hx : p x = true ∧ q x = true
      · exact ⟨x, List.mem_cons_self .., hx⟩
      · obtain ⟨y, hy, hpq⟩ := exists_mem_of_length_filter p q l (by
          rw [List.filter_cons, List.filter_cons, List.length_cons] at h
          split at h <;> split at h <;> simp_all <;> omega)
        exact ⟨y, List.mem_cons_of_mem _ hy, hpq⟩

variable {entry : ConfigurationEntry} {voters : List NodeId} {votes a b : BTreeSet NodeId}
  {m m' : CommittedMembership} {index term : Nat} {c : VoterConfig}

theorem majority_meet (ha : majority voters a = true) (hb : majority voters b = true) :
    ∃ v ∈ voters, v ∈ a ∧ v ∈ b := by
  rw [majority, decide_eq_true_eq] at ha hb
  obtain ⟨v, hv, hav, hbv⟩ := exists_mem_of_length_filter (fun id => a.contains id)
    (fun id => b.contains id) voters (by omega)
  exact ⟨v, hv, hav, hbv⟩

theorem validateSet_ok {u : Unit} (h : validateSet voters = .ok u) :
    voters ≠ [] ∧ voters.length ≤ 256 ∧ voters.IsChain (· < ·) := by
  unfold validateSet at h
  split at h
  · cases h
  · next hn =>
      rw [not_or, not_or, not_not, not_lt] at hn
      exact hn

namespace VoterConfig

theorem hasQuorum_stable : (VoterConfig.stable voters).hasQuorum votes = true ↔
      validateSet voters = .ok () ∧ majority voters votes = true := by
  simp only [hasQuorum, validate]
  cases h : validateSet voters with
  | error e => simp
  | ok u => simp

theorem hasQuorum_joint {old new : List NodeId} :
    (VoterConfig.joint old new).hasQuorum votes = true ↔
      (validateSet old = .ok () ∧ validateSet new = .ok ()) ∧
        majority old votes = true ∧ majority new votes = true := by
  simp only [hasQuorum, validate]
  cases h : validateSet old with
  | error e => simp [bind, Except.bind]
  | ok u =>
    cases h' : validateSet new with
    | error e => simp [bind, Except.bind]
    | ok u => simp [bind, Except.bind]

theorem hasQuorum_meet (ha : c.hasQuorum a = true)
    (hb : c.hasQuorum b = true) : ∃ v, v ∈ a ∧ v ∈ b := by
  cases c with
  | stable voters =>
    obtain ⟨v, -, hv⟩ := majority_meet (hasQuorum_stable.1 ha).2 (hasQuorum_stable.1 hb).2
    exact ⟨v, hv⟩
  | joint old new =>
    obtain ⟨v, -, hv⟩ := majority_meet (hasQuorum_joint.1 ha).2.1 (hasQuorum_joint.1 hb).2.1
    exact ⟨v, hv⟩

end VoterConfig

/-! ## The replicated index -/

/-- The element at a position from the end of a sorted list is reached by all behind it. -/
theorem lt_countP_of_sorted {l : List Nat} (hs : l.Pairwise (· ≤ ·)) {k x i : Nat}
    (hk : l[l.length - (k + 1)]? = some x) (hlen : k < l.length) (hi : i ≤ x) :
    k < l.countP (i ≤ ·) := by
  have hall : ∀ y ∈ l.drop (l.length - (k + 1)), i ≤ y := by
    intro y hy
    obtain ⟨j, hj⟩ := List.mem_iff_getElem?.1 hy
    rw [List.getElem?_drop] at hj
    rcases Nat.eq_zero_or_pos j with rfl | hpos
    · rw [Nat.add_zero, hk] at hj
      cases hj
      exact hi
    · obtain ⟨h₁, e₁⟩ := List.getElem?_eq_some_iff.1 hk
      obtain ⟨h₂, e₂⟩ := List.getElem?_eq_some_iff.1 hj
      have hle := List.pairwise_iff_getElem.1 hs _ _ h₁ h₂ (by omega)
      rw [e₁, e₂] at hle
      omega
  have hcount : (l.drop (l.length - (k + 1))).countP (i ≤ ·) = k + 1 := by
    rw [List.countP_eq_length.2 (by simpa using hall), List.length_drop]
    omega
  have hsub := (List.drop_sublist (l.length - (k + 1)) l).countP_le (p := (i ≤ ·))
  omega

theorem majority_of_majorityIndex {matched : BTreeMap NodeId Nat} {i : Nat}
    (hpos : 0 < i) (hi : i ≤ majorityIndex voters matched)
    (hvotes : ∀ v ∈ voters, i ≤ (matched[v]?).getD 0 → v ∈ votes) :
    majority voters votes = true := by
  unfold majorityIndex at hi
  split at hi
  · omega
  next hne =>
  dsimp only at hi
  have hlen : ((voters.map fun id => (matched[id]?).getD 0).insertionSort (· ≤ ·)).length =
      voters.length := by rw [List.length_insertionSort, List.length_map]
  have hvlen : 0 < voters.length := List.length_pos_iff.2 hne
  obtain ⟨x, hx⟩ : ∃ x, ((voters.map fun id => (matched[id]?).getD 0).insertionSort
      (· ≤ ·))[voters.length - (voters.length / 2 + 1)]? = some x :=
    ⟨_, List.getElem?_eq_getElem (by omega)⟩
  rw [hlen, hx, Option.getD_some] at hi
  have hcount := lt_countP_of_sorted (k := voters.length / 2)
    (List.pairwise_insertionSort (· ≤ ·) _) (by rw [hlen]; exact hx) (by omega) hi
  rw [(List.perm_insertionSort (· ≤ ·) _).countP_eq, List.countP_map] at hcount
  rw [majority, decide_eq_true_eq, ← List.countP_eq_length_filter]
  refine hcount.trans_le (List.countP_mono_left fun v hv hiv => ?_)
  exact hvotes v hv (by simpa using hiv)

/-- Everyone who has reached the replicated index, as a quorum. -/
theorem VoterConfig.hasQuorum_of_replicatedIndex {matched : BTreeMap NodeId Nat}
    {i : Nat} (hpos : 0 < i) (hi : i ≤ c.replicatedIndex matched) :
    ∃ votes, c.hasQuorum votes = true ∧ ∀ v ∈ votes, i ≤ (matched[v]?).getD 0 := by
  obtain ⟨u, hvalid⟩ : ∃ u, c.validate = .ok u := by
    cases h : c.validate with
    | ok u => exact ⟨u, rfl⟩
    | error e =>
      simp only [replicatedIndex, h] at hi
      omega
  let votes : BTreeSet NodeId :=
    .ofList (c.voters.toList.filter fun v => i ≤ (matched[v]?).getD 0)
  have hmem : ∀ v, v ∈ votes ↔ v ∈ c.voters ∧ i ≤ (matched[v]?).getD 0 := by
    intro v
    rw [Std.ExtTreeSet.mem_ofList, List.contains_iff_mem, List.mem_filter, decide_eq_true_eq,
      Std.ExtTreeSet.mem_toList]
  refine ⟨votes, ?_, fun v hv => ((hmem v).1 hv).2⟩
  unfold replicatedIndex at hi
  unfold hasQuorum
  rw [hvalid] at hi ⊢
  cases c with
  | stable voters =>
    refine majority_of_majorityIndex hpos hi fun v hv hiv => (hmem v).2 ⟨?_, hiv⟩
    simpa [VoterConfig.voters] using hv
  | joint old new =>
    simp only [Bool.and_eq_true]
    constructor
    · refine majority_of_majorityIndex hpos (hi.trans (min_le_left _ _)) fun v hv hiv =>
        (hmem v).2 ⟨?_, hiv⟩
      simp [VoterConfig.voters, hv]
    · refine majority_of_majorityIndex hpos (hi.trans (min_le_right _ _)) fun v hv hiv =>
        (hmem v).2 ⟨?_, hiv⟩
      simp [VoterConfig.voters, hv]

/-- A strictly increasing list is the listing of the set it makes. -/
theorem toList_ofList {l : List NodeId} (h : l.IsChain (· < ·)) :
    (Std.ExtTreeSet.ofList l compare).toList = l := by
  have hs : (Std.ExtTreeSet.ofList l compare).toList.Pairwise (· < ·) :=
    Std.ExtTreeSet.ordered_toList.imp compare_lt_iff_lt.1
  refine hs.eq_of_mem_iff (List.isChain_iff_pairwise.1 h) fun a => ?_
  rw [Std.ExtTreeSet.mem_toList, Std.ExtTreeSet.mem_ofList, List.contains_iff_mem]

/-! ## What one configuration entry does to the voters -/

namespace MembershipState

theorem applyFinal_eq_ok {m m' : MembershipState} (h : m.applyFinal index term entry = .ok m') :
    ∃ record old new, m.pending = some (entry.requestId, record) ∧
      record.operation = entry.operation ∧ record.firstIndex < index ∧ record.firstTerm ≤ term ∧
      m.voters = .joint old new ∧ m' = { m with
        retired := m.retired.insertMany (old.filter fun id => !new.contains id)
        voters := .stable new
        records := m.records.insert entry.requestId
          { record with finalIndex := some index, finalTerm := some term } } := by
  unfold applyFinal at h
  split at h
  · cases h
  next pendingId record hp =>
    split at h
    · cases h
    next hok =>
      rw [not_or, not_or, not_or, not_not, not_not, not_le, not_lt] at hok
      obtain ⟨rfl, hop, hidx, hterm⟩ := hok
      split at h
      · cases h
      next old new hv =>
        cases h
        exact ⟨record, old, new, hp, hop, hidx, hterm, hv, rfl⟩

/-- A first phase is only admitted over stable voters with nothing pending. -/
theorem firstPhase_eq_ok {m : MembershipState} {id : String} {operation : AdminOperation}
    {phase : ConfigurationPhase} (h : m.firstPhase id operation = .ok phase) :
    m.groupId ≠ legacyGroupId ∧ m.records[id]? = none ∧ m.pending = none ∧
      (∃ voters, m.voters = .stable voters) ∧ m.records.size < maxAdminRecords := by
  unfold firstPhase at h
  obtain ⟨-, -, h⟩ := bind_eq_ok.1 h
  split at h
  · cases h
  next hg =>
    split at h
    · split at h <;> cases h
    next hr =>
      split at h
      · cases h
      next hp =>
        split at h
        · cases h
        next hs =>
          rw [Bool.or_eq_true, not_or, Bool.not_eq_true, Option.isSome_eq_false_iff,
            Option.isNone_iff_eq_none] at hp
          refine ⟨hg, hr, hp.1, ?_, by omega⟩
          cases hv : m.voters with
          | stable voters => exact ⟨voters, rfl⟩
          | joint old new => simp [hv, VoterConfig.isJoint] at hp

/-- The voters a first-phase entry leaves: unchanged, or joint with the old ones first. -/
theorem applyFirst_voters {m m' : MembershipState} (h : m.applyFirst index term entry = .ok m') :
    ∃ voters, m.voters = .stable voters ∧ (m'.voters = .stable voters ∨
        ∃ new, m'.voters = .joint (Std.ExtTreeSet.ofList voters compare).toList new) := by
  obtain ⟨phase, hphase, h⟩ := bind_eq_ok.1 h
  obtain ⟨-, -, -, ⟨voters, hv⟩, -⟩ := firstPhase_eq_ok hphase
  refine ⟨voters, hv, ?_⟩
  split at h
  · cases h
  dsimp only at h
  split at h
  · obtain ⟨new, -, h⟩ := bind_eq_ok.1 h
    cases h
    exact Or.inr ⟨new, by rw [hv]; rfl⟩
  · split at h
    · cases h
      exact Or.inl hv
    · cases h
      exact Or.inl hv
    · cases h

theorem applyEntry_eq_ok {m m' : MembershipState} (h : m.applyEntry index term entry = .ok m') :
    (index ≠ 0 ∧ index ≠ u64Max ∧ term ≠ 0) ∧
      ((entry.phase = .final ∧ m.applyFinal index term entry = .ok m') ∨
        (entry.phase ≠ .final ∧ m.applyFirst index term entry = .ok m')) := by
  unfold applyEntry at h
  split at h
  · cases h
  next hb =>
    rw [not_or, not_or] at hb
    obtain ⟨-, -, h⟩ := bind_eq_ok.1 h
    split at h
    · next hf => exact ⟨hb, Or.inl ⟨hf, h⟩⟩
    · next hf => exact ⟨hb, Or.inr ⟨hf, h⟩⟩

end MembershipState

theorem CommittedMembership.advanced_eq_ok (h : m.advanced index term entry = .ok m') :
    m.index < index ∧ m.term ≤ term ∧ m'.index = index ∧ m'.term = term ∧
      m.state.applyEntry index term entry = .ok m'.state := by
  unfold advanced at h
  split at h
  · cases h
  next hb =>
    rw [not_or, not_le, not_lt] at hb
    obtain ⟨state, hs, h⟩ := bind_eq_ok.1 h
    cases h
    exact ⟨hb.1, hb.2, rfl, rfl, hs⟩

/-- The three ways a configuration entry treats the voters. -/
theorem CommittedMembership.advanced_voters (h : m.advanced index term entry = .ok m') :
    (∃ voters, m.state.voters = .stable voters ∧ (m'.state.voters = .stable voters ∨
        ∃ new, m'.state.voters = .joint (Std.ExtTreeSet.ofList voters compare).toList new)) ∨
      ∃ old new, m.state.voters = .joint old new ∧ m'.state.voters = .stable new := by
  obtain ⟨-, -, -, -, h⟩ := advanced_eq_ok h
  obtain ⟨-, ⟨-, h⟩ | ⟨-, h⟩⟩ := MembershipState.applyEntry_eq_ok h
  · obtain ⟨record, old, new, -, -, -, -, hv, heq⟩ := MembershipState.applyFinal_eq_ok h
    exact Or.inr ⟨old, new, hv, by rw [heq]⟩
  · exact Or.inl (MembershipState.applyFirst_voters h)

/-! ## Overlap of adjacent and sibling configurations -/

/-- A quorum of the configuration after a first phase contains a majority of the voters
before it. -/
theorem majority_of_first (hc : c = .stable voters ∨
      ∃ new, c = .joint (Std.ExtTreeSet.ofList voters compare).toList new)
    (hq : c.hasQuorum votes = true) :
    majority (Std.ExtTreeSet.ofList voters compare).toList votes = true := by
  rcases hc with rfl | ⟨new, rfl⟩
  · obtain ⟨hvalid, hmaj⟩ := VoterConfig.hasQuorum_stable.1 hq
    rwa [toList_ofList (validateSet_ok hvalid).2.2]
  · exact (VoterConfig.hasQuorum_joint.1 hq).2.1

theorem advanced_meet
    (h : m.advanced index term entry = .ok m') (ha : m.state.voters.hasQuorum a = true)
    (hb : m'.state.voters.hasQuorum b = true) : ∃ v, v ∈ a ∧ v ∈ b := by
  rcases CommittedMembership.advanced_voters h with ⟨voters, hv, hv'⟩ | ⟨old, new, hv, hv'⟩
  · obtain ⟨v, -, hav, hbv⟩ := majority_meet (majority_of_first (Or.inl hv) ha)
      (majority_of_first hv' hb)
    exact ⟨v, hav, hbv⟩
  · rw [hv] at ha
    rw [hv'] at hb
    obtain ⟨v, -, hav, hbv⟩ := majority_meet (VoterConfig.hasQuorum_joint.1 ha).2.2
      (VoterConfig.hasQuorum_stable.1 hb).2
    exact ⟨v, hav, hbv⟩

theorem advanced_meet_sibling {m m₁ m₂ : CommittedMembership} {i₁ i₂ : Nat} {t₁ t₂ : Nat}
    {e₁ e₂ : ConfigurationEntry} (h₁ : m.advanced i₁ t₁ e₁ = .ok m₁)
    (h₂ : m.advanced i₂ t₂ e₂ = .ok m₂) (ha : m₁.state.voters.hasQuorum a = true)
    (hb : m₂.state.voters.hasQuorum b = true) : ∃ v, v ∈ a ∧ v ∈ b := by
  rcases CommittedMembership.advanced_voters h₁ with ⟨voters, hv, hv₁⟩ | ⟨old, new, hv, hv₁⟩ <;>
  rcases CommittedMembership.advanced_voters h₂ with ⟨voters', hv', hv₂⟩ | ⟨old', new', hv', hv₂⟩
  · rw [hv] at hv'
    cases hv'
    obtain ⟨v, -, hav, hbv⟩ := majority_meet (majority_of_first hv₁ ha) (majority_of_first hv₂ hb)
    exact ⟨v, hav, hbv⟩
  · rw [hv] at hv'
    cases hv'
  · rw [hv] at hv'
    cases hv'
  · rw [hv] at hv'
    cases hv'
    rw [hv₁] at ha
    rw [hv₂] at hb
    obtain ⟨v, -, hav, hbv⟩ := majority_meet (VoterConfig.hasQuorum_stable.1 ha).2
      (VoterConfig.hasQuorum_stable.1 hb).2
    exact ⟨v, hav, hbv⟩

/-! ## The scheme of a group -/

/-- The membership after a log, replayed from the genesis of the group. -/
def membershipAfter (genesis : CommittedMembership) (log : List Entry) :
    Except String CommittedMembership :=
  log.foldlM replayEntry genesis

@[simp] theorem membershipAfter_nil (genesis : CommittedMembership) :
    membershipAfter genesis [] = .ok genesis := rfl

theorem membershipAfter_append (genesis : CommittedMembership) (l l' : List Entry) :
    membershipAfter genesis (l ++ l') =
      (membershipAfter genesis l >>= fun m => membershipAfter m l') :=
  List.foldlM_append

theorem membershipAfter_concat (genesis : CommittedMembership) (l : List Entry) (e : Entry) :
    membershipAfter genesis (l ++ [e]) =
      (membershipAfter genesis l >>= fun m => replayEntry m e) := by
  rw [membershipAfter_append]
  cases membershipAfter genesis l with
  | error _ => rfl
  | ok m =>
    show (replayEntry m e >>= fun s => pure s) = replayEntry m e
    rw [bind_pure]

theorem replayEntry_of_not_conf {m : CommittedMembership} {e : Entry}
    (he : e.command.isConfiguration = false) : replayEntry m e = .ok m := by
  unfold replayEntry
  cases hc : e.command with
  | configuration change => rw [hc] at he; cases he
  | _ => rfl

theorem replayEntry_of_conf {m : CommittedMembership} {e : Entry}
    (he : e.command.isConfiguration = true) :
    ∃ change, replayEntry m e = m.advanced e.index e.term change := by
  unfold replayEntry
  cases hc : e.command with
  | configuration change => exact ⟨change, rfl⟩
  | _ => rw [hc] at he; cases he

/-- The members of `S` are enough for a quorum of the membership, if there is one. -/
def MembershipQuorum (c : Except String CommittedMembership) (S : Set NodeId) : Prop :=
  ∃ m votes, c = .ok m ∧ m.state.voters.hasQuorum votes = true ∧ ∀ v ∈ votes, v ∈ S

theorem MembershipQuorum.concat {genesis : CommittedMembership} {l : List Entry} {e : Entry}
    {S : Set NodeId} (he : e.command.isConfiguration = true)
    (h : MembershipQuorum (membershipAfter genesis (l ++ [e])) S) :
    ∃ m m' change votes, membershipAfter genesis l = .ok m ∧
      m.advanced e.index e.term change = .ok m' ∧
      m'.state.voters.hasQuorum votes = true ∧ ∀ v ∈ votes, v ∈ S := by
  obtain ⟨m', votes, heq, hq, hS⟩ := h
  rw [membershipAfter_concat, bind_eq_ok] at heq
  obtain ⟨m, hm, hrep⟩ := heq
  obtain ⟨change, hchange⟩ := replayEntry_of_conf (m := m) he
  exact ⟨m, m', change, votes, hm, hchange ▸ hrep, hq, hS⟩

/-- Terms, configuration entries and quorums of the logs of a group. -/
def scheme (genesis : CommittedMembership) : Scheme NodeId Entry where
  termOf := Entry.term
  isConf e := e.command.isConfiguration
  Conf := Except String CommittedMembership
  conf := membershipAfter genesis
  Quorum := MembershipQuorum
  conf_concat l e he := by
    rw [membershipAfter_concat]
    cases membershipAfter genesis l with
    | error _ => rfl
    | ok m => exact replayEntry_of_not_conf he
  meet_self := by
    rintro c S S' ⟨m, votes, heq, hq, hS⟩ ⟨m', votes', heq', hq', hS'⟩
    rw [heq] at heq'
    cases heq'
    obtain ⟨v, hv, hv'⟩ := VoterConfig.hasQuorum_meet hq hq'
    exact ⟨v, hS v hv, hS' v hv'⟩
  meet_next := by
    rintro l e S S' he ⟨m, votes, heq, hq, hS⟩ h'
    obtain ⟨m₁, m', change, votes', heq', hadv, hq', hS'⟩ := MembershipQuorum.concat he h'
    rw [heq] at heq'
    cases heq'
    obtain ⟨v, hv, hv'⟩ := advanced_meet hadv hq hq'
    exact ⟨v, hS v hv, hS' v hv'⟩
  meet_sibling := by
    intro l l' e e' S S' hconf he he' h h'
    obtain ⟨m, m₁, c₁, votes, heq, hadv, hq, hS⟩ := MembershipQuorum.concat he h
    obtain ⟨m', m₂, c₂, votes', heq', hadv', hq', hS'⟩ := MembershipQuorum.concat he' h'
    rw [hconf, heq'] at heq
    cases heq
    obtain ⟨v, hv, hv'⟩ := advanced_meet_sibling hadv hadv' hq hq'
    exact ⟨v, hS v hv, hS' v hv'⟩

end MicroRaft
