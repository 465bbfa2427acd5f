import MicroRaft.Group.Lineage

/-!
# What every membership of a group satisfies

The source keeps voters, learners and retired members apart without ever checking
it on a state: the checks at the first entry of an operation are enough, although
the voters and the retired change only at its last one.  `Lawful` says what holds
in between, and every configuration entry preserves it.
-/

namespace MicroRaft

variable {g m m' : CommittedMembership} {evs : List ConfigurationEvent}

/-! ## The first entry of an operation -/

/-- All a first entry can do, with the checks it passed. -/
inductive MembershipState.Begins (m : MembershipState) (index term : Nat) (requestId : String) :
    AdminOperation → ConfigurationPhase → MembershipState → Prop
  | addLearner {id : NodeId} {endpoints : MemberEndpoints} (hvalid : endpoints.validate = .ok ())
      (hretired : id ∉ m.retired) (hvoter : id ∉ m.voters.voters) (hlearner : id ∉ m.learners) :
      m.Begins index term requestId (.addLearner id endpoints) .apply
        { m with
          learners := m.learners.insert id
          endpoints := m.endpoints.insert id endpoints
          records := m.records.insert requestId
            (firstRecord index term ⟨requestId, .addLearner id endpoints, .apply⟩) }
  | dismiss {id : NodeId} (hlearner : id ∈ m.learners) :
      m.Begins index term requestId (.remove id) .apply
        { m with
          learners := m.learners.erase id
          retired := m.retired.insert id
          records := m.records.insert requestId
            (firstRecord index term ⟨requestId, .remove id, .apply⟩) }
  | change {operation : AdminOperation} {new : List NodeId}
      (htarget : m.targetVoters operation = .ok new)
      (hvalid : validateSet new = .ok ())
      (hknown : ∀ v ∈ new, v ∈ m.voters.voters ∨ v ∈ m.learners) :
      m.Begins index term requestId operation .joint
        { m with
          learners := m.learners.eraseMany new
          voters := .joint m.voters.voters.toList new
          records := m.records.insert requestId
            (firstRecord index term ⟨requestId, operation, .joint⟩) }

theorem forIn_any {α : Type} (p : α → Bool) (l : List α) :
    (Id.run do
      for a in l do
        if p a then return true
      return false) = l.any p := by
  induction l with
  | nil => rfl
  | cons a l ih =>
    cases h : p a
    · simpa [h] using ih
    · simp [h]

theorem any_eq_any_toList (t : BTreeSet NodeId) (p : NodeId → Bool) :
    t.any p = t.toList.any p := by
  obtain ⟨⟨t⟩⟩ := t
  induction t using Std.ExtDTreeMap.inductionOn with | _ t
  have hany : t.any (fun a _ => p a) = t.toList.any fun x => p x.1 := by
    rw [← forIn_any fun x : (_ : NodeId) × Unit => p x.1]
    show (Id.run do
      for x in t do
        if p x.1 then return true
      return false) = _
    rw [Std.DTreeMap.forIn_eq_forIn_toList]
  show t.any (fun a _ => p a) = t.keys.any p
  rw [hany, ← Std.DTreeMap.map_fst_toList_eq_keys, List.any_map]
  rfl

/-- What `firstPhase` has checked of an operation. -/
def MembershipState.Checked (m : MembershipState) :
    AdminOperation → ConfigurationPhase → Prop
  | .addLearner id endpoints, phase =>
      phase = .apply ∧ endpoints.validate = .ok () ∧ id ∉ m.retired ∧ id ∉ m.participants
  | .remove id, phase =>
      (phase = .apply ∧ id ∈ m.learners) ∨
        (phase = .joint ∧ id ∈ m.voters.voters ∧ m.voters.voters.size ≠ 1)
  | .setVoters voters, phase =>
      phase = .joint ∧ validateSet voters = .ok () ∧
        ∀ v ∈ voters, v ∈ m.voters.voters ∨ v ∈ m.learners

theorem MembershipState.firstPhase_checked {m : MembershipState} {id : String}
    {operation : AdminOperation} {phase : ConfigurationPhase}
    (h : m.firstPhase id operation = .ok phase) : m.Checked operation phase := by
  unfold firstPhase at h
  obtain ⟨⟨⟩, -, h⟩ := bind_eq_ok.1 h
  split at h
  · cases h
  split at h
  · split at h <;> cases h
  split at h
  · cases h
  split at h
  · cases h
  cases operation with
  | addLearner id endpoints =>
    obtain ⟨⟨⟩, hvalid, h⟩ := bind_eq_ok.1 h
    split at h
    · cases h
    next hretired =>
      split at h
      · cases h
      next hparticipant =>
        cases h
        exact ⟨rfl, hvalid, hretired, hparticipant⟩
  | remove id =>
    dsimp only at h
    split at h
    · next hlearner =>
        cases h
        exact Or.inl ⟨rfl, hlearner⟩
    split at h
    · cases h
    next hvoter =>
      split at h
      · cases h
      next hsize =>
        cases h
        exact Or.inr ⟨rfl, by simpa using hvoter, hsize⟩
  | setVoters voters =>
    obtain ⟨⟨⟩, hvalid, h⟩ := bind_eq_ok.1 h
    dsimp only at h
    split at h
    · cases h
    split at h
    · cases h
    next hany =>
      cases h
      refine ⟨rfl, hvalid, fun v hv => ?_⟩
      by_contra hnew
      rw [not_or] at hnew
      refine hany ?_
      rw [any_eq_any_toList, List.any_eq_true]
      refine ⟨v, ?_, ?_⟩
      · rw [Std.ExtTreeSet.mem_toList, Std.ExtTreeSet.mem_ofList, List.contains_iff_mem]
        exact hv
      · rw [Bool.and_eq_true, Bool.not_eq_true', Bool.not_eq_true', Bool.eq_false_iff,
          Bool.eq_false_iff]
        exact hnew

variable {entry : ConfigurationEntry} {index term : Nat} {l : List NodeId}

theorem validateSet_eq_ok :
    validateSet l = .ok () ↔ l ≠ [] ∧ l.length ≤ 256 ∧ l.IsChain (· < ·) := by
  refine ⟨validateSet_ok, fun h => ?_⟩
  unfold validateSet
  rw [if_neg]
  rw [not_or, not_or, not_not, not_lt]
  exact h

/-- The voters that are left when one of several goes are a valid set. -/
theorem validateSet_remove {voters : BTreeSet NodeId} {id : NodeId} (hid : id ∈ voters)
    (hsize : voters.size ≠ 1) (hmax : voters.size ≤ 256) :
    validateSet (voters.toList.filter (· ≠ id)) = .ok () := by
  have hsorted : voters.toList.Pairwise (· < ·) :=
    Std.ExtTreeSet.ordered_toList.imp compare_lt_iff_lt.1
  have hlength : voters.toList.length = voters.size := Std.ExtTreeSet.length_toList
  refine validateSet_eq_ok.2 ⟨?_, ?_, ?_⟩
  · intro hnil
    have hall : ∀ v ∈ voters.toList, v = id := by
      intro v hv
      by_contra hne
      exact absurd (List.mem_filter.2 ⟨hv, decide_eq_true hne⟩)
        (by rw [hnil]; exact List.not_mem_nil)
    have hone : voters.toList.length ≤ 1 := by
      match hl : voters.toList with
      | [] => exact Nat.zero_le _
      | [v] => exact le_rfl
      | v :: w :: l =>
        rw [hl] at hsorted hall
        have hlt := (List.pairwise_cons.1 hsorted).1 w List.mem_cons_self
        rw [hall v List.mem_cons_self, hall w (by simp)] at hlt
        exact absurd hlt (lt_irrefl _)
    have hpos : 0 < voters.toList.length :=
      List.length_pos_of_mem (Std.ExtTreeSet.mem_toList.2 hid)
    omega
  · have := List.length_filter_le (· ≠ id) voters.toList
    omega
  · exact List.isChain_iff_pairwise.2 (hsorted.filter _)

theorem size_ofList_le (h : validateSet l = .ok ()) :
    (Std.ExtTreeSet.ofList l compare).size ≤ 256 := by
  rw [← Std.ExtTreeSet.length_toList, toList_ofList (validateSet_ok h).2.2]
  exact (validateSet_ok h).2.1

theorem MembershipState.applyFirst_begins {m m' : MembershipState}
    (hvoters : m.voters.validate = .ok ()) (h : m.applyFirst index term entry = .ok m') :
    m.Begins index term entry.requestId entry.operation entry.phase m' := by
  obtain ⟨requestId, operation, phase⟩ := entry
  obtain ⟨expected, hphase, h⟩ := bind_eq_ok.1 h
  have hchecked := firstPhase_checked hphase
  obtain ⟨-, -, -, ⟨voters, hv⟩, -⟩ := firstPhase_eq_ok hphase
  split at h
  · cases h
  next heq =>
    obtain rfl : phase = expected := not_not.1 heq
    cases operation with
    | addLearner id endpoints =>
      obtain ⟨rfl, hvalid, hretired, hparticipant⟩ := hchecked
      rw [participants, Std.ExtTreeSet.mem_union_iff, not_or] at hparticipant
      cases h
      exact .addLearner hvalid hretired hparticipant.1 hparticipant.2
    | remove id =>
      rcases hchecked with ⟨rfl, hlearner⟩ | ⟨rfl, hvoter, hsize⟩
      · cases h
        exact .dismiss hlearner
      · cases h
        have hmax : m.voters.voters.size ≤ 256 := by
          rw [hv] at hvoters ⊢
          exact size_ofList_le hvoters
        refine .change rfl (validateSet_remove hvoter hsize hmax) fun v hv => Or.inl ?_
        exact Std.ExtTreeSet.mem_toList.1 (List.mem_of_mem_filter hv)
    | setVoters voters =>
      obtain ⟨rfl, hvalid, hknown⟩ := hchecked
      cases h
      exact .change rfl hvalid hknown

/-! ## Voters, learners and the retired -/

theorem mem_eraseMany_iff {t : BTreeSet NodeId} {v : NodeId} :
    v ∈ t.eraseMany l ↔ v ∈ t ∧ v ∉ l := by
  refine ⟨fun h => ?_, fun h => mem_eraseMany h.1 h.2⟩
  rw [eraseMany_eq_foldl] at h
  induction l generalizing t with
  | nil => exact ⟨h, List.not_mem_nil⟩
  | cons a l ih =>
    obtain ⟨hv, hl⟩ := ih h
    obtain ⟨hne, hv⟩ := Std.ExtTreeSet.mem_erase.1 hv
    refine ⟨hv, fun hmem => ?_⟩
    rcases List.mem_cons.1 hmem with rfl | hmem
    · exact hne (compare_eq_iff_eq.2 rfl)
    · exact hl hmem

theorem validate_joint {old new : List NodeId} :
    (VoterConfig.joint old new).validate = .ok () ↔
      validateSet old = .ok () ∧ validateSet new = .ok () := by
  rw [VoterConfig.validate, bind_eq_ok]
  constructor
  · rintro ⟨⟨⟩, hold, hnew⟩
    exact ⟨hold, hnew⟩
  · intro h
    exact ⟨(), h⟩

/-- Voters, learners and retired members are apart, and joint voters belong to an operation
that waits for its last entry. -/
structure MembershipState.Lawful (m : MembershipState) : Prop where
  voters : m.voters.validate = .ok ()
  apart : ∀ v ∈ m.learners, v ∉ m.voters.voters
  gone : ∀ v ∈ m.retired, v ∉ m.voters.voters ∧ v ∉ m.learners
  joint : m.voters.isJoint = true →
    ∃ (id : String) (r : AdminRecord), m.records[id]? = some r ∧ r.finalIndex = none

theorem Genesis.lawful (hg : Genesis g) : g.state.Lawful := by
  obtain ⟨groupId, voters, hg⟩ := hg
  obtain ⟨-, hvalid, rfl⟩ := CommittedMembership.bootstrapWithGroup_eq_ok hg
  refine ⟨hvalid, fun v hv => ?_, fun v hv => ?_, fun h => ?_⟩
  · exact absurd hv Std.ExtTreeSet.not_mem_empty
  · exact absurd hv Std.ExtTreeSet.not_mem_empty
  · cases h

theorem MembershipState.Lawful.begin {m m' : MembershipState}
    {requestId : String} {operation : AdminOperation} {phase : ConfigurationPhase}
    (h : m.Lawful) (hstable : m.voters.isJoint = false)
    (hbegins : m.Begins index term requestId operation phase m') : m'.Lawful := by
  cases hbegins with
  | @addLearner id endpoints hvalid hretired hvoter hlearner =>
    refine ⟨h.voters, ?_, ?_, fun hj => absurd (hstable.symm.trans hj) Bool.false_ne_true⟩
    · intro v hv
      rcases Std.ExtTreeSet.mem_insert.1 hv with heq | hv
      · rw [compare_eq_iff_eq] at heq
        exact heq ▸ hvoter
      · exact h.apart v hv
    · intro v hv
      refine ⟨(h.gone v hv).1, fun hl => ?_⟩
      rcases Std.ExtTreeSet.mem_insert.1 hl with heq | hl
      · rw [compare_eq_iff_eq] at heq
        exact hretired (heq ▸ hv)
      · exact (h.gone v hv).2 hl
  | @dismiss id hlearner =>
    refine ⟨h.voters, ?_, ?_, fun hj => absurd (hstable.symm.trans hj) Bool.false_ne_true⟩
    · intro v hv
      exact h.apart v (Std.ExtTreeSet.mem_erase.1 hv).2
    · intro v hv
      rcases Std.ExtTreeSet.mem_insert.1 hv with heq | hv
      · rw [compare_eq_iff_eq] at heq
        subst heq
        exact ⟨h.apart id hlearner, fun hl => (Std.ExtTreeSet.mem_erase.1 hl).1
          (compare_eq_iff_eq.2 rfl)⟩
      · exact ⟨(h.gone v hv).1, fun hl => (h.gone v hv).2 (Std.ExtTreeSet.mem_erase.1 hl).2⟩
  | @change operation new htarget hvalid hknown =>
    have hold : validateSet m.voters.voters.toList = .ok () := by
      have hv := h.voters
      cases hc : m.voters with
      | stable voters =>
        rw [hc] at hv
        rw [VoterConfig.voters, toList_ofList (validateSet_ok hv).2.2]
        exact hv
      | joint old new =>
        rw [hc] at hstable
        cases hstable
    refine ⟨validate_joint.2 ⟨hold, hvalid⟩, ?_, ?_, fun _ =>
      ⟨requestId, _, Std.ExtTreeMap.getElem?_insert_self, rfl⟩⟩
    · intro v hv
      obtain ⟨hv, hnew⟩ := mem_eraseMany_iff.1 hv
      rw [VoterConfig.mem_voters, not_or, Std.ExtTreeSet.mem_toList]
      exact ⟨h.apart v hv, hnew⟩
    · intro v hv
      obtain ⟨hvoter, hlearner⟩ := h.gone v hv
      rw [VoterConfig.mem_voters, not_or, Std.ExtTreeSet.mem_toList]
      refine ⟨⟨hvoter, fun hnew => ?_⟩, fun hl => hlearner (mem_eraseMany_iff.1 hl).1⟩
      exact (hknown v hnew).elim hvoter hlearner

theorem MembershipState.Lawful.final {m m' : MembershipState} (h : m.Lawful)
    (hfinal : m.applyFinal index term entry = .ok m') : m'.Lawful := by
  obtain ⟨record, old, new, -, -, -, -, hv, rfl⟩ := applyFinal_eq_ok hfinal
  have hvalid := h.voters
  rw [hv, validate_joint] at hvalid
  have hvoter : ∀ v, v ∈ m.voters.voters ↔ v ∈ old ∨ v ∈ new := by
    intro v
    rw [hv]
    exact VoterConfig.mem_voters
  refine ⟨hvalid.2, ?_, ?_, fun hj => by cases hj⟩
  · intro v hl hnew
    exact h.apart v hl ((hvoter v).2 (Or.inr (VoterConfig.mem_voters.1 hnew)))
  · intro v hr
    rw [VoterConfig.mem_voters]
    rcases Std.ExtTreeSet.mem_insertMany_list.1 hr with hr | hout
    · obtain ⟨hvot, hl⟩ := h.gone v hr
      exact ⟨fun hnew => hvot ((hvoter v).2 (Or.inr hnew)), hl⟩
    · rw [List.contains_iff_mem, List.mem_filter] at hout
      have hnew : v ∉ new := by simpa using hout.2
      exact ⟨hnew, fun hl => h.apart v hl ((hvoter v).2 (Or.inl hout.1))⟩

/-- **A configuration entry keeps a membership lawful.** -/
theorem CommittedMembership.lawful_advance
    (h : m.state.Lawful) (hadv : m.advanced index term entry = .ok m') : m'.state.Lawful := by
  obtain ⟨-, -, -, -, happly⟩ := advanced_eq_ok hadv
  obtain ⟨-, ⟨-, hfinal⟩ | ⟨-, hfirst⟩⟩ := MembershipState.applyEntry_eq_ok happly
  · exact h.final hfinal
  · obtain ⟨phase, hphase, -⟩ := bind_eq_ok.1 hfirst
    obtain ⟨-, -, -, ⟨voters, hv⟩, -⟩ := MembershipState.firstPhase_eq_ok hphase
    exact h.begin (by rw [hv]; rfl) (MembershipState.applyFirst_begins h.voters hfirst)

/-- What one entry preserves, a history preserves. -/
theorem CommittedMembership.replay_preserves {P : CommittedMembership → Prop}
    (hstep : ∀ {m m' : CommittedMembership} {index term : Nat} {entry : ConfigurationEntry},
      P m → m.advanced index term entry = .ok m' → P m')
    (hg : P g) (h : g.replay evs = .ok m) : P m := by
  induction evs using List.reverseRecOn generalizing m with
  | nil =>
    cases h
    exact hg
  | append_singleton evs e ih =>
    obtain ⟨m₁, hm₁, hadv⟩ := replay_concat_eq_ok.1 h
    exact hstep (ih hm₁) hadv

/-- All that a configuration entry can do to a lawful membership. -/
theorem CommittedMembership.advanced_cases
    (h : m.state.Lawful) (hadv : m.advanced index term entry = .ok m') :
    MembershipState.validateRequestId entry.requestId = .ok () ∧
      ((entry.phase = .final ∧ m.state.applyFinal index term entry = .ok m'.state) ∨
        m.state.Begins index term entry.requestId entry.operation entry.phase m'.state) := by
  obtain ⟨-, -, -, -, happly⟩ := advanced_eq_ok hadv
  refine ⟨MembershipState.applyEntry_requestId happly, ?_⟩
  obtain ⟨-, hfinal | ⟨-, hfirst⟩⟩ := MembershipState.applyEntry_eq_ok happly
  · exact Or.inl hfinal
  · exact Or.inr (MembershipState.applyFirst_begins h.voters hfirst)

theorem CommittedMembership.replay_lawful (hg : Genesis g) (h : g.replay evs = .ok m) :
    m.state.Lawful :=
  replay_preserves (P := fun m => m.state.Lawful) lawful_advance hg.lawful h

/-- Nobody leaves the retired. -/
theorem CommittedMembership.advanced_retired
    (h : m.state.Lawful) (hadv : m.advanced index term entry = .ok m') {v : NodeId}
    (hv : v ∈ m.state.retired) : v ∈ m'.state.retired := by
  obtain ⟨requestId, operation, phase⟩ := entry
  obtain ⟨-, ⟨-, hfinal⟩ | hbegins⟩ := advanced_cases h hadv
  · obtain ⟨record, old, new, -, -, -, -, -, heq⟩ := MembershipState.applyFinal_eq_ok hfinal
    rw [heq]
    exact Std.ExtTreeSet.mem_insertMany_list.2 (Or.inl hv)
  · generalize m'.state = s at hbegins
    cases hbegins with
    | addLearner => exact hv
    | dismiss => exact Std.ExtTreeSet.mem_insert.2 (Or.inr hv)
    | change => exact hv

/-- No endpoints are forgotten. -/
theorem CommittedMembership.advanced_endpoints
    (h : m.state.Lawful) (hadv : m.advanced index term entry = .ok m') {v : NodeId}
    (hv : v ∈ m.state.endpoints) : v ∈ m'.state.endpoints := by
  obtain ⟨requestId, operation, phase⟩ := entry
  obtain ⟨-, ⟨-, hfinal⟩ | hbegins⟩ := advanced_cases h hadv
  · obtain ⟨record, old, new, -, -, -, -, -, heq⟩ := MembershipState.applyFinal_eq_ok hfinal
    rw [heq]
    exact hv
  · generalize m'.state = s at hbegins
    cases hbegins with
    | addLearner => exact Std.ExtTreeMap.mem_insert.2 (Or.inr hv)
    | dismiss => exact hv
    | change => exact hv

/-! ## Admissions -/

/-- The entry admits this node as a learner. -/
def ConfigurationEntry.admits (entry : ConfigurationEntry) (id : NodeId) : Bool :=
  match entry.operation with
  | .addLearner learner _ => learner == id && entry.phase == .apply
  | _ => false

theorem CommittedMembership.advanced_admits
    (h : m.state.Lawful) (hadv : m.advanced index term entry = .ok m') {id : NodeId}
    (hadmits : entry.admits id = true) :
    id ∉ m.state.known ∧ id ∈ m'.state.known ∧ id ∈ m'.state.endpoints := by
  obtain ⟨requestId, operation, phase⟩ := entry
  cases operation with
  | addLearner learner endpoints =>
    obtain ⟨hlearner, hphase⟩ := Bool.and_eq_true_iff.1 hadmits
    obtain rfl := eq_of_beq hlearner
    obtain rfl := eq_of_beq hphase
    obtain ⟨-, ⟨hfinal, -⟩ | hbegins⟩ := advanced_cases h hadv
    · cases hfinal
    · generalize m'.state = s at hbegins
      cases hbegins with
      | addLearner hvalid hretired hvoter hlearner =>
        refine ⟨?_, MembershipState.mem_known.2 (Or.inl (Or.inr ?_)), ?_⟩
        · rw [MembershipState.mem_known, not_or, not_or]
          exact ⟨⟨hvoter, hlearner⟩, hretired⟩
        · exact Std.ExtTreeSet.mem_insert_self
        · exact Std.ExtTreeMap.mem_insert_self
  | remove id => cases hadmits
  | setVoters voters => cases hadmits

/-- **Every node is admitted at most once**, and its endpoints stay known. -/
theorem CommittedMembership.replay_admissions (hg : Genesis g) (h : g.replay evs = .ok m)
    (id : NodeId) :
    (evs.filter fun e => e.2.2.admits id).length ≤ 1 ∧
      ((∃ e ∈ evs, e.2.2.admits id = true) → id ∈ m.state.known ∧ id ∈ m.state.endpoints) := by
  induction evs using List.reverseRecOn generalizing m with
  | nil => exact ⟨Nat.zero_le _, fun ⟨e, he, _⟩ => absurd he List.not_mem_nil⟩
  | append_singleton evs e ih =>
    obtain ⟨m₁, hm₁, hadv⟩ := replay_concat_eq_ok.1 h
    have hlawful := replay_lawful hg hm₁
    obtain ⟨hcount, hknown⟩ := ih hm₁
    by_cases hadmits : e.2.2.admits id = true
    · obtain ⟨hnew, hin, hend⟩ := advanced_admits hlawful hadv hadmits
      have hnone : evs.filter (fun e => e.2.2.admits id) = [] :=
        List.filter_eq_nil_iff.2 fun x hx hxid => hnew (hknown ⟨x, hx, hxid⟩).1
      exact ⟨by simp [List.filter_append, hnone, hadmits], fun _ => ⟨hin, hend⟩⟩
    · refine ⟨by simpa [List.filter_append, hadmits] using hcount, ?_⟩
      rintro ⟨x, hx, hxid⟩
      rcases List.mem_append.1 hx with hx | hx
      · obtain ⟨hk, he⟩ := hknown ⟨x, hx, hxid⟩
        exact ⟨advanced_known hadv hk, advanced_endpoints hlawful hadv he⟩
      · cases List.mem_singleton.1 hx
        exact absurd hxid hadmits

end MicroRaft
