import MicroRaft.Group.Growth

/-!
# Lineages of a group

The memberships a group can have are those that configuration entries build, one
`CommittedMembership.advanced` after the other, from its genesis.  This file says
what that makes of three checks of the source:

* quorums of configurations that are next to each other overlap in a common voter
  (`consecutive_overlap`);
* `validate` accepts exactly the memberships that can be built (`validate_exact`);
* `isConsistentExtensionOf` is the prefix order on the events of the histories
  (`extension_prefix_order`).
-/

namespace MicroRaft

/-- Apply configuration entries, each at its position. -/
def CommittedMembership.replay (g : CommittedMembership) (evs : List ConfigurationEvent) :
    Except String CommittedMembership :=
  evs.foldlM (fun state e => state.advanced e.1 e.2.1 e.2.2) g

variable {g m m' a b c : CommittedMembership} {evs : List ConfigurationEvent}

theorem CommittedMembership.replay_append (g : CommittedMembership)
    (evs evs' : List ConfigurationEvent) :
    g.replay (evs ++ evs') = g.replay evs >>= fun m => m.replay evs' :=
  List.foldlM_append

theorem CommittedMembership.replay_concat_eq_ok {e : ConfigurationEvent} :
    g.replay (evs ++ [e]) = .ok m' ↔
      ∃ m, g.replay evs = .ok m ∧ m.advanced e.1 e.2.1 e.2.2 = .ok m' := by
  have hone (m : CommittedMembership) : m.replay [e] = m.advanced e.1 e.2.1 e.2.2 := by
    rw [replay, List.foldlM_cons]
    exact bind_pure _
  rw [replay_append, bind_eq_ok]
  simp only [hone]

/-! ## Adjacent configurations -/

/-- The memberships a group goes through, the genesis first. -/
def Lineage (ms : List CommittedMembership) : Prop :=
  (∃ g, ms.head? = some g ∧ Genesis g) ∧
    ms.IsChain fun m m' => ∃ index term entry, m.advanced index term entry = .ok m'

/-- Two configurations that follow each other in a lineage, or one that stays. -/
def Neighbours (ms : List CommittedMembership) (c c' : VoterConfig) : Prop :=
  ∃ i m m', ms[i]? = some m ∧ (ms[i]? = some m' ∨ ms[i + 1]? = some m') ∧
    c = m.state.voters ∧ c' = m'.state.voters

/-- A quorum of the configuration is a majority of these voters of it. -/
structure VoterConfig.Counts (c : VoterConfig) (l : List NodeId) : Prop where
  majority : ∀ votes, c.hasQuorum votes = true → majority l votes = true
  voters : ∀ v ∈ l, v ∈ c.voters

theorem VoterConfig.Counts.stable (voters : List NodeId) :
    (VoterConfig.stable voters).Counts voters where
  majority _ h := (hasQuorum_stable.1 h).2
  voters _ hv := mem_voters.2 hv

theorem VoterConfig.Counts.old (old new : List NodeId) :
    (VoterConfig.joint old new).Counts old where
  majority _ h := (hasQuorum_joint.1 h).2.1
  voters _ hv := mem_voters.2 (Or.inl hv)

theorem VoterConfig.Counts.new (old new : List NodeId) :
    (VoterConfig.joint old new).Counts new where
  majority _ h := (hasQuorum_joint.1 h).2.2
  voters _ hv := mem_voters.2 (Or.inr hv)

theorem VoterConfig.exists_counts : ∀ c : VoterConfig, ∃ l, c.Counts l
  | .stable voters => ⟨voters, .stable voters⟩
  | .joint old new => ⟨old, .old old new⟩

/-- The listing of stable voters, as a joint configuration has it on its old side. -/
theorem VoterConfig.Counts.listed (voters : List NodeId) :
    (VoterConfig.stable voters).Counts (Std.ExtTreeSet.ofList voters compare).toList where
  majority _ h := majority_of_first (Or.inl rfl) h
  voters v hv := by
    rw [Std.ExtTreeSet.mem_toList] at hv
    exact hv

/-- A configuration entry leaves some voters whose majorities count before and after it. -/
theorem advanced_counts {index term : Nat} {entry : ConfigurationEntry}
    (h : m.advanced index term entry = .ok m') :
    ∃ l, m.state.voters.Counts l ∧ m'.state.voters.Counts l := by
  rcases CommittedMembership.advanced_voters h with
    ⟨voters, hv, hv' | ⟨new, hv'⟩⟩ | ⟨old, new, hv, hv'⟩
  · rw [hv, hv']
    exact ⟨voters, .stable voters, .stable voters⟩
  · rw [hv, hv']
    exact ⟨_, .listed voters, .old _ new⟩
  · rw [hv, hv']
    exact ⟨new, .new old new, .stable new⟩

theorem Neighbours.exists_counts {ms : List CommittedMembership} {c c' : VoterConfig}
    (hms : Lineage ms) (h : Neighbours ms c c') : ∃ l, c.Counts l ∧ c'.Counts l := by
  obtain ⟨i, m, m', hm, hm' | hm', rfl, rfl⟩ := h
  · rw [hm] at hm'
    cases hm'
    obtain ⟨l, hl⟩ := m.state.voters.exists_counts
    exact ⟨l, hl, hl⟩
  · obtain ⟨hlt, hget⟩ := List.getElem?_eq_some_iff.1 hm'
    obtain ⟨hlt₀, hget₀⟩ := List.getElem?_eq_some_iff.1 hm
    obtain ⟨index, term, entry, hadv⟩ := List.isChain_iff_getElem.1 hms.2 i hlt
    rw [hget, hget₀] at hadv
    exact advanced_counts hadv

/-- **Consecutive configurations overlap.** -/
theorem consecutive_overlap {ms : List CommittedMembership} (hms : Lineage ms)
    {c c' : VoterConfig} (hadjacent : Neighbours ms c c') {x y : BTreeSet NodeId}
    (hx : c.hasQuorum x = true) (hy : c'.hasQuorum y = true) :
    ∃ v, v ∈ x ∧ v ∈ y ∧ v ∈ c.voters ∧ v ∈ c'.voters := by
  obtain ⟨l, hc, hc'⟩ := hadjacent.exists_counts hms
  obtain ⟨v, hv, hvx, hvy⟩ := majority_meet (hc.majority x hx) (hc'.majority y hy)
  exact ⟨v, hvx, hvy, hc.voters v hv, hc'.voters v hv⟩

/-- The memberships that events lead through, as far as they apply. -/
def CommittedMembership.lineage (m : CommittedMembership) :
    List ConfigurationEvent → List CommittedMembership
  | [] => [m]
  | e :: evs =>
      match m.advanced e.1 e.2.1 e.2.2 with
      | .ok m' => m :: m'.lineage evs
      | .error _ => [m]

theorem CommittedMembership.lineage_head (m : CommittedMembership)
    (evs : List ConfigurationEvent) : (m.lineage evs).head? = some m := by
  cases evs with
  | nil => rfl
  | cons e evs =>
    unfold lineage
    split <;> rfl

theorem Genesis.lineage (hg : Genesis g) (evs : List ConfigurationEvent) :
    Lineage (g.lineage evs) := by
  refine ⟨⟨g, g.lineage_head evs, hg⟩, ?_⟩
  clear hg
  induction evs generalizing g with
  | nil => exact List.isChain_singleton _
  | cons e evs ih =>
    unfold CommittedMembership.lineage
    split
    · next m' hadv =>
        refine List.isChain_cons.2 ⟨fun y hy => ?_, ih⟩
        rw [m'.lineage_head evs] at hy
        cases hy
        exact ⟨_, _, _, hadv⟩
    · exact List.isChain_singleton _

/-- Learner 4 is admitted to a group of three and takes the place of voter 3. -/
def replacement : List ConfigurationEvent :=
  [(1, 1, ⟨"admit", .addLearner 4 ⟨"d:1", "d:2"⟩, .apply⟩),
   (2, 1, ⟨"swap", .setVoters [1, 2, 4], .joint⟩),
   (3, 2, ⟨"swap", .setVoters [1, 2, 4], .final⟩)]

/-- The group `replacement` happens in. -/
def trio : CommittedMembership where
  index := 0
  term := 0
  state := {
    version := 1, groupId := "trio", genesisVoters := [1, 2, 3], voters := .stable [1, 2, 3],
    learners := ∅, retired := ∅, endpoints := ∅, records := ∅ }

theorem trio_genesis : Genesis trio := ⟨"trio", [1, 2, 3], by rfl⟩

theorem replacement_facts :
    ((trio.lineage replacement)[1]?.any fun m => m.state.voters = .stable [1, 2, 3]) = true ∧
    ((trio.lineage replacement)[2]?.any fun m =>
      m.state.voters = .joint [1, 2, 3] [1, 2, 4]) = true := by
  decide +kernel

theorem consecutive_overlap_replacement :
    ∃ v, v ∈ (.ofList [2, 3] : BTreeSet NodeId) ∧ v ∈ (.ofList [1, 2] : BTreeSet NodeId) ∧
      v ∈ (VoterConfig.stable [1, 2, 3]).voters ∧
      v ∈ (VoterConfig.joint [1, 2, 3] [1, 2, 4]).voters := by
  obtain ⟨m, hm, hvoters⟩ := (Option.any_eq_true _ _).1 replacement_facts.1
  obtain ⟨m', hm', hvoters'⟩ := (Option.any_eq_true _ _).1 replacement_facts.2
  refine consecutive_overlap (trio_genesis.lineage replacement)
    ⟨1, m, m', hm, Or.inr hm', (of_decide_eq_true hvoters).symm, (of_decide_eq_true hvoters').symm⟩
    ?_ ?_
  · decide +kernel
  · decide +kernel

/-! ## Validation -/

/-- What is built from a genesis retains its events. -/
theorem Retains.of_replay (hg : Genesis g) (h : g.replay evs = .ok m) : Retains g evs m := by
  induction evs using List.reverseRecOn generalizing m with
  | nil =>
    cases h
    exact .genesis hg
  | append_singleton evs e ih =>
    obtain ⟨m₁, hm₁, hadv⟩ := CommittedMembership.replay_concat_eq_ok.1 h
    exact (ih hm₁).advance hadv

/-- Positions rise and terms do not fall along a history. -/
theorem CommittedMembership.replay_ascending (h : g.replay evs = .ok m) :
    (evs.Pairwise fun e e' => e.1 < e'.1 ∧ e.2.1 ≤ e'.2.1) ∧
      ∀ e ∈ evs, e.1 ≤ m.index ∧ e.2.1 ≤ m.term := by
  induction evs using List.reverseRecOn generalizing m with
  | nil => exact ⟨.nil, fun e he => absurd he List.not_mem_nil⟩
  | append_singleton evs e ih =>
    obtain ⟨m₁, hm₁, hadv⟩ := replay_concat_eq_ok.1 h
    obtain ⟨hsorted, hbelow⟩ := ih hm₁
    obtain ⟨hlt, hle, hindex, hterm, -⟩ := advanced_eq_ok hadv
    constructor
    · refine List.pairwise_append.2 ⟨hsorted, List.pairwise_singleton .., ?_⟩
      intro x hx y hy
      cases List.mem_singleton.1 hy
      exact ⟨(hbelow x hx).1.trans_lt hlt, (hbelow x hx).2.trans hle⟩
    · intro x hx
      rcases List.mem_append.1 hx with hx | hx
      · exact ⟨(hbelow x hx).1.trans (hlt.le.trans hindex.ge),
          (hbelow x hx).2.trans (hle.trans hterm.ge)⟩
      · cases List.mem_singleton.1 hx
        exact ⟨hindex.ge, hterm.ge⟩

/-- A valid membership is built by the events its records list. -/
theorem CommittedMembership.validate_eq_ok (h : m.validate = .ok ()) :
    ∃ g evs, bootstrapWithGroup m.state.groupId m.state.genesisVoters = .ok g ∧
      m.events = .ok evs ∧ g.replay evs = .ok m := by
  unfold validate at h
  split at h
  · cases h
  obtain ⟨g, hg, h⟩ := bind_eq_ok.1 h
  obtain ⟨evs, hevs, h⟩ := bind_eq_ok.1 h
  obtain ⟨rebuilt, hrebuilt, h⟩ := bind_eq_ok.1 h
  split at h
  · cases h
  next heq =>
    obtain rfl := not_not.1 heq
    exact ⟨g, evs, hg, hevs, hrebuilt⟩

/-- **Membership validation is exact**: it accepts what successful `advanced` calls build from
the genesis a membership names, and of all memberships with the same records only one. -/
theorem validate_exact (m : CommittedMembership) :
    (m.validate = .ok () ↔
      ∃ g evs, CommittedMembership.bootstrapWithGroup m.state.groupId m.state.genesisVoters =
        .ok g ∧
        g.replay evs = .ok m ∧ evs.Pairwise fun e e' => e.1 < e'.1 ∧ e.2.1 ≤ e'.2.1) ∧
    (m.validate = .ok () → ∀ m' : CommittedMembership, m'.validate = .ok () →
      m'.state.groupId = m.state.groupId → m'.state.genesisVoters = m.state.genesisVoters →
      m'.state.records = m.state.records → m' = m) := by
  constructor
  · constructor
    · intro h
      obtain ⟨g, evs, hg, -, hreplay⟩ := CommittedMembership.validate_eq_ok h
      exact ⟨g, evs, hg, hreplay, (CommittedMembership.replay_ascending hreplay).1⟩
    · rintro ⟨g, evs, hg, hreplay, -⟩
      exact (Retains.of_replay ⟨_, _, hg⟩ hreplay).validate ⟨_, _, hg⟩
  · intro h m' h' hgroup hvoters hrecords
    obtain ⟨g, evs, hg, hevs, hreplay⟩ := CommittedMembership.validate_eq_ok h
    obtain ⟨g', evs', hg', hevs', hreplay'⟩ := CommittedMembership.validate_eq_ok h'
    have hsame : m'.events = m.events := by
      unfold CommittedMembership.events
      rw [hrecords]
    rw [hgroup, hvoters, hg] at hg'
    rw [hsame, hevs] at hevs'
    cases hg'
    cases hevs'
    rw [hreplay] at hreplay'
    cases hreplay'
    rfl

theorem replacement_builds :
    (trio.replay replacement).toOption.any (fun m => m.state.voters = .stable [1, 2, 4] &&
      m.state.retired.toList = [3] && m.state.groupId = "trio" &&
      m.state.genesisVoters = [1, 2, 3]) = true := by
  decide +kernel

theorem validate_exact_replacement :
    ∃ m, trio.replay replacement = .ok m ∧ m.state.voters = .stable [1, 2, 4] ∧
      m.validate = .ok () := by
  obtain ⟨m, hm, hfacts⟩ := (Option.any_eq_true _ _).1 replacement_builds
  simp only [Bool.and_eq_true, decide_eq_true_eq] at hfacts
  have hreplay := toOption_eq_some hm
  refine ⟨m, hreplay, hfacts.1.1.1, (validate_exact m).1.2 ⟨trio, replacement, ?_, hreplay, ?_⟩⟩
  · rw [hfacts.1.2, hfacts.2]
    rfl
  · decide

/-! ## Extension -/

theorem AdminRecord.first_mem_events (r : AdminRecord) (id : String) :
    r.first id ∈ r.events id := by
  unfold events
  split
  · exact List.mem_cons_self
  · exact List.mem_cons_self

theorem Retains.firstIndex_le (h : Retains g evs m) {id : String} {r : AdminRecord}
    (hr : m.state.records[id]? = some r) : r.firstIndex ≤ m.index :=
  h.below _ (h.listed.2 ⟨id, r, hr, r.first_mem_events id⟩)

/-- A joint operation ends after it has begun. -/
theorem CommittedMembership.replay_first_lt_final (hg : Genesis g) (h : g.replay evs = .ok m)
    {id : String} {r : AdminRecord} (hr : m.state.records[id]? = some r) (hjoint : r.joint = true)
    {index : Nat} (hfinal : r.finalIndex = some index) : r.firstIndex < index := by
  induction evs using List.reverseRecOn generalizing m with
  | nil =>
    cases h
    rw [hg.records, Std.ExtTreeMap.getElem?_empty] at hr
    cases hr
  | append_singleton evs e ih =>
    obtain ⟨m₁, hm₁, hadv⟩ := replay_concat_eq_ok.1 h
    obtain ⟨x, hrecords, hcase⟩ := advanced_records hadv
    rw [hrecords, Std.ExtTreeMap.getElem?_insert] at hr
    split at hr
    · cases hr
      rcases hcase with ⟨-, -, rfl, -⟩ | ⟨old, hold, -, -, -, rfl⟩
      · have hphase : (e.2.2.phase == .joint) = true := hjoint
        simp [MembershipState.firstRecord, hphase] at hfinal
      · cases hfinal
        exact ((Retains.of_replay hg hm₁).firstIndex_le hold).trans_lt (advanced_eq_ok hadv).1
    · exact ih hm₁ hr

/-- The last entry of a joint operation. -/
def AdminRecord.last (r : AdminRecord) (id : String) (index term : Nat) : ConfigurationEvent :=
  (index, term, { requestId := id, operation := r.operation, phase := .final })

theorem AdminRecord.mem_events {r : AdminRecord} {id : String} {e : ConfigurationEvent} :
    e ∈ r.events id ↔ e = r.first id ∨ r.joint = true ∧
      ∃ index term, r.finalIndex = some index ∧ r.finalTerm = some term ∧
        e = r.last id index term := by
  obtain ⟨operation, firstIndex, firstTerm, joint, finalIndex, finalTerm⟩ := r
  cases joint <;> cases finalIndex <;> cases finalTerm <;> simp [events, last]

/-- What `recordExtends` compares. -/
structure AdminRecord.Continues (past : Nat) (old new : AdminRecord) : Prop where
  first : ∀ id, new.first id = old.first id
  operation : new.operation = old.operation
  joint : new.joint = old.joint
  final : old.finalIndex ≠ none →
    new.finalIndex = old.finalIndex ∧ new.finalTerm = old.finalTerm
  later : old.finalIndex = none → ∀ index, new.finalIndex = some index → past < index

theorem AdminRecord.continues_of_extends {past : Nat} {old new : AdminRecord}
    (h : CommittedMembership.recordExtends past old new = true) :
      AdminRecord.Continues past old new := by
  simp only [CommittedMembership.recordExtends, ne_eq, Bool.and_eq_true, Bool.not_eq_true',
    Bool.or_eq_false_iff, Bool.and_eq_false_iff, decide_eq_false_iff_not, not_not] at h
  obtain ⟨⟨⟨⟨⟨hop, hindex⟩, hterm⟩, hjoint⟩, hfinal⟩, hlater⟩ := h
  refine ⟨fun id => ?_, hop, hjoint, ?_, ?_⟩
  · simp [first, hop, hindex, hterm, hjoint]
  · intro hsome
    rcases hfinal with hnone | hsame
    · exact absurd (Option.isSome_eq_false_iff.1 hnone) (by simpa using hsome)
    · exact hsame
  · intro hnone index hnew
    rcases hlater with hsome | hlater
    · simp [hnone] at hsome
    · simpa [hnew] using hlater

theorem CommittedMembership.extends_of_extension (hext : m'.isConsistentExtensionOf m = true) :
    Extends m m' := by
  unfold isConsistentExtensionOf at hext
  split at hext
  · cases hext
  next hok =>
    simp only [not_or, not_lt] at hok
    obtain ⟨hkept, hlater⟩ := Bool.and_eq_true_iff.1 hext
    refine ⟨hok.2.2.2.2.1, hok.2.2.2.2.2, ?_, ?_⟩
    · intro id old hold
      have hrec := List.all_eq_true.1 hkept (id, old)
        (Std.ExtTreeMap.mem_toList_iff_getElem?_eq_some.2 hold)
      dsimp only at hrec
      split at hrec
      · cases hrec
      · next new hnew => exact ⟨new, hnew, hrec⟩
    · intro id new hnew hfresh
      have hrec := List.all_eq_true.1 hlater (id, new)
        (Std.ExtTreeMap.mem_toList_iff_getElem?_eq_some.2 hnew)
      simpa [Std.ExtTreeMap.contains_eq_isSome_getElem?, hfresh] using hrec

/-- The events of an extension that lie at or before the position of the history it extends
are that history's own. -/
theorem mem_events_of_extension {evs' : List ConfigurationEvent} (hg : Genesis g)
    (h : Retains g evs m) (h' : Retains g evs' m') (hext : Extends m m')
    (e : ConfigurationEvent) : e ∈ evs ↔ e ∈ evs' ∧ e.1 ≤ m.index := by
  constructor
  · intro he
    refine ⟨?_, h.below e he⟩
    obtain ⟨id, old, hold, he⟩ := h.listed.1 he
    obtain ⟨new, hnew, hrec⟩ := hext.kept hold
    have hcont := AdminRecord.continues_of_extends hrec
    refine h'.listed.2 ⟨id, new, hnew, AdminRecord.mem_events.2 ?_⟩
    rcases AdminRecord.mem_events.1 he with rfl | ⟨hjoint, index, term, hindex, hterm, rfl⟩
    · exact Or.inl (hcont.first id).symm
    · obtain ⟨hi, ht⟩ := hcont.final (by simp [hindex])
      refine Or.inr ⟨hcont.joint.trans hjoint, index, term, hi.trans hindex, ht.trans hterm, ?_⟩
      rw [AdminRecord.last, AdminRecord.last, hcont.operation]
  · rintro ⟨he, hle⟩
    obtain ⟨id, new, hnew, he⟩ := h'.listed.1 he
    have hmem := AdminRecord.mem_events.1 he
    cases hold : m.state.records[id]? with
    | none =>
      -- an operation the older history does not know lies after its position
      have hlater := hext.later hnew hold
      rcases hmem with rfl | ⟨hjoint, index, term, hindex, hterm, rfl⟩
      · exact absurd hle (not_le.2 hlater)
      · have hlt := CommittedMembership.replay_first_lt_final hg h'.built hnew hjoint hindex
        exact absurd hle (not_le.2 (hlater.trans hlt))
    | some old =>
      obtain ⟨new', hnew', hrec⟩ := hext.kept hold
      rw [hnew] at hnew'
      cases hnew'
      have hcont := AdminRecord.continues_of_extends hrec
      refine h.listed.2 ⟨id, old, hold, AdminRecord.mem_events.2 ?_⟩
      rcases hmem with rfl | ⟨hjoint, index, term, hindex, hterm, rfl⟩
      · exact Or.inl (hcont.first id)
      · by_cases hnone : old.finalIndex = none
        · exact absurd hle (not_le.2 (hcont.later hnone index hindex))
        · obtain ⟨hi, ht⟩ := hcont.final hnone
          refine Or.inr ⟨hcont.joint.symm.trans hjoint, index, term, hi.symm.trans hindex,
            ht.symm.trans hterm, ?_⟩
          rw [AdminRecord.last, AdminRecord.last, hcont.operation]

/-- Of two lists in rising order, one is a prefix of the other if it has just the elements up
to some bound. -/
theorem isPrefix_of_mem_iff {α : Type} {key : α → Nat} {bound : Nat} {l l' : List α}
    (hl : l.Pairwise fun x y => key x < key y) (hl' : l'.Pairwise fun x y => key x < key y)
    (hmem : ∀ x, x ∈ l ↔ x ∈ l' ∧ key x ≤ bound) : l <+: l' := by
  induction l' generalizing l with
  | nil =>
    cases l with
    | nil => exact List.nil_prefix
    | cons x l => exact absurd ((hmem x).1 List.mem_cons_self).1 List.not_mem_nil
  | cons y l' ih =>
    cases l with
    | nil => exact List.nil_prefix
    | cons x l =>
      obtain ⟨hx, hxs⟩ := List.pairwise_cons.1 hl
      obtain ⟨hy, hys⟩ := List.pairwise_cons.1 hl'
      obtain ⟨hxmem, hxle⟩ := (hmem x).1 List.mem_cons_self
      -- the least elements agree: neither can lie behind the other
      have hxy : x = y := by
        rcases List.mem_cons.1 hxmem with rfl | hxl
        · rfl
        · have hlt := hy x hxl
          have hyl := (hmem y).2 ⟨List.mem_cons_self, hlt.le.trans hxle⟩
          rcases List.mem_cons.1 hyl with rfl | hyl
          · rfl
          · exact absurd (hx y hyl) hlt.asymm
      subst hxy
      refine List.cons_prefix_cons.2 ⟨rfl, ih hxs hys fun z => ?_⟩
      have hz := hmem z
      rw [List.mem_cons, List.mem_cons] at hz
      constructor
      · intro hzl
        obtain ⟨rfl | hz', hle⟩ := hz.1 (Or.inr hzl)
        · exact absurd (hx z hzl) (lt_irrefl _)
        · exact ⟨hz', hle⟩
      · rintro ⟨hz', hle⟩
        rcases hz.2 ⟨Or.inr hz', hle⟩ with rfl | hzl
        · exact absurd (hy z hz') (lt_irrefl _)
        · exact hzl

theorem Extends.of_replay {evs' : List ConfigurationEvent} (h : m.replay evs' = .ok m') :
    Extends m m' := by
  induction evs' using List.reverseRecOn generalizing m' with
  | nil =>
    cases h
    exact .refl m
  | append_singleton evs' e ih =>
    obtain ⟨m₁, hm₁, hadv⟩ := CommittedMembership.replay_concat_eq_ok.1 h
    exact (ih hm₁).advance hadv

/-- The events of a valid membership, in order. -/
def CommittedMembership.history (m : CommittedMembership) : List ConfigurationEvent :=
  m.events.toOption.getD []

/-- A valid membership is what its history builds. -/
theorem CommittedMembership.validate_history (h : m.validate = .ok ()) :
    ∃ g, bootstrapWithGroup m.state.groupId m.state.genesisVoters = .ok g ∧
      g.replay m.history = .ok m := by
  obtain ⟨g, evs, hg, hevs, hreplay⟩ := validate_eq_ok h
  refine ⟨g, hg, ?_⟩
  rw [history, hevs]
  exact hreplay

theorem extension_iff_isPrefix (ha : a.validate = .ok ()) (hb : b.validate = .ok ()) :
    a.isConsistentExtensionOf b = true ↔ a.Within b ∧ b.history <+: a.history := by
  obtain ⟨g, hga, hra⟩ := CommittedMembership.validate_history ha
  obtain ⟨g', hgb, hrb⟩ := CommittedMembership.validate_history hb
  constructor
  · intro hext
    obtain ⟨-, -, hwithin⟩ := CommittedMembership.extension_valid hext
    refine ⟨hwithin, ?_⟩
    rw [hwithin.1, hwithin.2, hgb] at hga
    cases hga
    have hra := Retains.of_replay ⟨_, _, hgb⟩ hra
    have hrb := Retains.of_replay ⟨_, _, hgb⟩ hrb
    exact isPrefix_of_mem_iff hrb.sorted hra.sorted
      (mem_events_of_extension ⟨_, _, hgb⟩ hrb hra
        (CommittedMembership.extends_of_extension hext))
  · rintro ⟨hwithin, rest, hrest⟩
    rw [hwithin.1, hwithin.2, hgb] at hga
    cases hga
    rw [← hrest, CommittedMembership.replay_append, hrb] at hra
    exact (Extends.of_replay hra).isConsistentExtensionOf hb ha hwithin.1 hwithin.2

/-- Valid memberships of one group with the same history are the same. -/
theorem eq_of_history_eq (ha : a.validate = .ok ()) (hb : b.validate = .ok ())
    (hwithin : a.Within b) (hhistory : a.history = b.history) : a = b := by
  obtain ⟨g, hga, hra⟩ := CommittedMembership.validate_history ha
  obtain ⟨g', hgb, hrb⟩ := CommittedMembership.validate_history hb
  rw [hwithin.1, hwithin.2, hgb] at hga
  cases hga
  rw [hhistory, hrb] at hra
  exact (Except.ok.inj hra).symm

/-- **History extension is the prefix order.** -/
theorem extension_prefix_order :
    (∀ a b : CommittedMembership, a.validate = .ok () → b.validate = .ok () →
      (a.isConsistentExtensionOf b = true ↔
        (a.state.groupId = b.state.groupId ∧ a.state.genesisVoters = b.state.genesisVoters) ∧
          b.history <+: a.history)) ∧
    (∀ a : CommittedMembership, a.validate = .ok () → a.isConsistentExtensionOf a = true) ∧
    (∀ a b : CommittedMembership, a.isConsistentExtensionOf b = true →
      b.isConsistentExtensionOf a = true → a = b) ∧
    (∀ a b c : CommittedMembership, a.isConsistentExtensionOf b = true →
      b.isConsistentExtensionOf c = true → a.isConsistentExtensionOf c = true) ∧
    (∀ a b c : CommittedMembership, c.isConsistentExtensionOf a = true →
      c.isConsistentExtensionOf b = true →
      a.isConsistentExtensionOf b = true ∨ b.isConsistentExtensionOf a = true) := by
  refine ⟨fun a b ha hb => extension_iff_isPrefix ha hb, ?_, ?_, ?_, ?_⟩
  · intro a ha
    exact (extension_iff_isPrefix ha ha).2 ⟨⟨rfl, rfl⟩, List.prefix_refl _⟩
  · intro a b hab hba
    obtain ⟨ha, hb, hwithin⟩ := CommittedMembership.extension_valid hab
    have hle := ((extension_iff_isPrefix ha hb).1 hab).2
    have hge := ((extension_iff_isPrefix hb ha).1 hba).2
    exact eq_of_history_eq ha hb hwithin (hge.eq_of_length_le hle.length_le)
  · intro a b c hab hbc
    obtain ⟨ha, hb, hwab⟩ := CommittedMembership.extension_valid hab
    obtain ⟨-, hc, hwbc⟩ := CommittedMembership.extension_valid hbc
    refine (extension_iff_isPrefix ha hc).2 ⟨⟨hwab.1.trans hwbc.1, hwab.2.trans hwbc.2⟩, ?_⟩
    exact ((extension_iff_isPrefix hb hc).1 hbc).2.trans ((extension_iff_isPrefix ha hb).1 hab).2
  · intro a b c hca hcb
    obtain ⟨hc, ha, hwca⟩ := CommittedMembership.extension_valid hca
    obtain ⟨-, hb, hwcb⟩ := CommittedMembership.extension_valid hcb
    have hpa := ((extension_iff_isPrefix hc ha).1 hca).2
    have hpb := ((extension_iff_isPrefix hc hb).1 hcb).2
    have hwithin : a.Within b := ⟨hwca.1.symm.trans hwcb.1, hwca.2.symm.trans hwcb.2⟩
    rcases List.prefix_or_prefix_of_prefix hpa hpb with h | h
    · exact Or.inr ((extension_iff_isPrefix hb ha).2 ⟨⟨hwithin.1.symm, hwithin.2.symm⟩, h⟩)
    · exact Or.inl ((extension_iff_isPrefix ha hb).2 ⟨hwithin, h⟩)

theorem replacement_grows :
    (trio.replay (replacement.take 1)).toOption.any (fun m =>
      (trio.replay replacement).toOption.any fun m' => m'.isConsistentExtensionOf m) = true := by
  decide +kernel

theorem extension_prefix_order_replacement :
    ∃ m m', trio.replay (replacement.take 1) = .ok m ∧ trio.replay replacement = .ok m' ∧
      m'.isConsistentExtensionOf m = true ∧ m.history <+: m'.history := by
  obtain ⟨m, hm, hext⟩ := (Option.any_eq_true _ _).1 replacement_grows
  obtain ⟨m', hm', hext⟩ := (Option.any_eq_true _ _).1 hext
  obtain ⟨hvalid', hvalid, -⟩ := CommittedMembership.extension_valid hext
  exact ⟨m, m', toOption_eq_some hm, toOption_eq_some hm', hext,
    ((extension_prefix_order.1 m' m hvalid' hvalid).1 hext).2⟩

end MicroRaft
