import MicroRaft.Group.History

/-!
# Memberships validate

A membership keeps a record of every administrative operation.  The records are
the history: replaying them in the order of their positions rebuilds the
membership, which is what `CommittedMembership.validate` checks.  Every membership
that replaying a log over a genesis leads to passes that check, and a later one is
a consistent extension of an earlier one.
-/

namespace MicroRaft

/-! ## Events of a record -/

/-- A configuration entry with its position. -/
abbrev ConfigurationEvent : Type := Nat × Nat × ConfigurationEntry

/-- The first entry of an operation. -/
def AdminRecord.first (r : AdminRecord) (id : String) : ConfigurationEvent :=
  (r.firstIndex, r.firstTerm,
    { requestId := id, operation := r.operation, phase := if r.joint then .joint else .apply })

/-- The entries of an operation that the log has. -/
def AdminRecord.events (r : AdminRecord) (id : String) : List ConfigurationEvent :=
  match r.joint, r.finalIndex, r.finalTerm with
  | true, some index, some term =>
      [r.first id, (index, term, { requestId := id, operation := r.operation, phase := .final })]
  | _, _, _ => [r.first id]

/-- A record as the code leaves it: a single-phase operation is complete at once, a joint one
has both positions of its end or neither. -/
inductive AdminRecord.Closed (r : AdminRecord) : Prop
  | single (hjoint : r.joint = false) (hindex : r.finalIndex = some r.firstIndex)
      (hterm : r.finalTerm = some r.firstTerm)
  | pending (hjoint : r.joint = true) (hindex : r.finalIndex = none) (hterm : r.finalTerm = none)
  | complete {index term : Nat} (hjoint : r.joint = true) (hindex : r.finalIndex = some index)
      (hterm : r.finalTerm = some term)

variable {entry : ConfigurationEntry} {index term : Nat} {r : AdminRecord}

theorem AdminRecord.Closed.recordEvents_eq (h : r.Closed) (id : String) :
    CommittedMembership.recordEvents id r = .ok (r.events id) := by
  cases h with
  | single hjoint hindex hterm =>
    simp [CommittedMembership.recordEvents, AdminRecord.events, AdminRecord.first, hjoint, hindex,
      hterm]
  | pending hjoint hindex hterm =>
    simp [CommittedMembership.recordEvents, AdminRecord.events, AdminRecord.first, hjoint, hindex,
      hterm]
  | complete hjoint hindex hterm =>
    simp [CommittedMembership.recordEvents, AdminRecord.events, AdminRecord.first, hjoint, hindex,
      hterm]

theorem AdminRecord.requestId_of_mem {id : String} {e : ConfigurationEvent}
    (h : e ∈ r.events id) : e.2.2.requestId = id := by
  unfold events at h
  split at h
  · rcases List.mem_cons.1 h with rfl | h
    · rfl
    · cases List.mem_singleton.1 h
      rfl
  · cases List.mem_singleton.1 h
    rfl

theorem AdminRecord.events_nodup (r : AdminRecord) (id : String) : (r.events id).Nodup := by
  unfold events
  split
  · next hjoint _ _ => simp [first, hjoint]
  · exact List.nodup_singleton _

theorem mapM_eq_ok {α β ε : Type} {f : α → Except ε β} {g : α → β} {l : List α}
    (h : ∀ x ∈ l, f x = .ok (g x)) : l.mapM f = .ok (l.map g) := by
  induction l with
  | nil => rfl
  | cons x l ih =>
    rw [List.mapM_cons, h x List.mem_cons_self, ih fun y hy => h y (List.mem_cons_of_mem _ hy)]
    rfl

/-! ## Histories -/

/-- `m` is what the configuration entries `evs` lead to, and its records retain them all. -/
structure Retains (g : CommittedMembership) (evs : List ConfigurationEvent)
    (m : CommittedMembership) : Prop where
  built : evs.foldlM (fun state e => state.advanced e.1 e.2.1 e.2.2) g = .ok m
  sorted : evs.Pairwise fun e e' => e.1 < e'.1
  below : ∀ e ∈ evs, e.1 ≤ m.index
  closed : ∀ {id : String} {r : AdminRecord}, m.state.records[id]? = some r → r.Closed
  listed : ∀ {e : ConfigurationEvent}, e ∈ evs ↔
    ∃ (id : String) (r : AdminRecord), m.state.records[id]? = some r ∧ e ∈ r.events id
  size : m.state.records.size ≤ maxAdminRecords
  version : m.state.version = 1
  group : m.state.groupId = g.state.groupId ∧ m.state.genesisVoters = g.state.genesisVoters

theorem Retains.genesis {g : CommittedMembership} (hg : Genesis g) : Retains g [] g where
  built := rfl
  sorted := List.Pairwise.nil
  below := by simp
  closed := by simp [hg.records]
  listed := by simp [hg.records]
  size := by simp [hg.records]
  version := by
    obtain ⟨groupId, voters, h⟩ := hg
    obtain ⟨-, -, rfl⟩ := CommittedMembership.bootstrapWithGroup_eq_ok h
    rfl
  group := ⟨rfl, rfl⟩

section

variable {g m m' : CommittedMembership} {evs : List ConfigurationEvent}

theorem Retains.events_perm (h : Retains g evs m) :
    (m.state.records.toList.flatMap fun p => p.2.events p.1).Perm evs := by
  refine (List.perm_ext_iff_of_nodup ?_ ?_).2 fun e => ?_
  · refine List.nodup_flatMap.2 ⟨fun p _ => p.2.events_nodup p.1, ?_⟩
    refine (Std.ExtTreeMap.distinct_keys_toList (t := m.state.records)).imp fun {p q} hne => ?_
    intro e he he'
    refine hne ?_
    rw [← AdminRecord.requestId_of_mem he, ← AdminRecord.requestId_of_mem he']
    exact Std.ReflCmp.compare_self
  · exact h.sorted.imp fun {e e'} hlt heq => by
      rw [heq] at hlt
      exact lt_irrefl _ hlt
  · rw [h.listed, List.mem_flatMap]
    constructor
    · rintro ⟨⟨id, r⟩, hmem, he⟩
      exact ⟨id, r, Std.ExtTreeMap.mem_toList_iff_getElem?_eq_some.1 hmem, he⟩
    · rintro ⟨id, r, hr, he⟩
      exact ⟨(id, r), Std.ExtTreeMap.mem_toList_iff_getElem?_eq_some.2 hr, he⟩

/-- The records list the history in order. -/
theorem Retains.events_eq (h : Retains g evs m) : m.events = .ok evs := by
  have hparts : m.state.records.toList.mapM (fun p => CommittedMembership.recordEvents p.1 p.2) =
      .ok (m.state.records.toList.map fun p => p.2.events p.1) := by
    refine mapM_eq_ok fun p hp => ?_
    exact (h.closed (Std.ExtTreeMap.mem_toList_iff_getElem?_eq_some.1 hp)).recordEvents_eq p.1
  have hsort : (m.state.records.toList.flatMap fun p => p.2.events p.1).insertionSort
      (fun a b => a.1 ≤ b.1) = evs := by
    have hperm := (List.perm_insertionSort (fun a b : ConfigurationEvent => a.1 ≤ b.1) _).trans
      h.events_perm
    refine List.Perm.eq_of_pairwise ?_ ?_
      (h.sorted.imp (S := fun a b : ConfigurationEvent => a.1 ≤ b.1) fun hlt => hlt.le) hperm
    · intro a b ha hb hab hba
      by_contra hne
      have : Std.Symm fun a b : ConfigurationEvent => a.1 ≠ b.1 := ⟨fun _ _ hab => hab.symm⟩
      have hkeys : evs.Pairwise fun a b => a.1 ≠ b.1 := h.sorted.imp fun hlt => hlt.ne
      exact hkeys.forall (hperm.subset ha) hb hne (le_antisymm hab hba)
    · have : Std.Total fun a b : ConfigurationEvent => a.1 ≤ b.1 := ⟨fun a b => le_total a.1 b.1⟩
      have : IsTrans ConfigurationEvent fun a b => a.1 ≤ b.1 := ⟨fun _ _ _ => le_trans⟩
      exact List.pairwise_insertionSort _ _
  unfold CommittedMembership.events
  rw [hparts]
  exact congrArg Except.ok hsort

/-- **Replayed memberships pass their check.** -/
theorem Retains.validate (hg : Genesis g) (h : Retains g evs m) : m.validate = .ok () := by
  have hsize := h.size
  unfold CommittedMembership.validate
  rw [if_neg (by simp only [h.version]; omega), h.group.1, h.group.2]
  exact bind_eq_ok.2 ⟨g, hg.rebuild, bind_eq_ok.2 ⟨evs, h.events_eq, bind_eq_ok.2
    ⟨m, h.built, if_neg (not_not.2 rfl)⟩⟩⟩

/-- How the records change when one entry is applied: a new operation starts, or the pending
one ends. -/
theorem advanced_records (h : m.advanced index term entry = .ok m') :
    ∃ r : AdminRecord, m'.state.records = m.state.records.insert entry.requestId r ∧
      ((m.state.records[entry.requestId]? = none ∧ m.state.records.size < maxAdminRecords ∧
          r = MembershipState.firstRecord index term entry ∧ entry.phase ≠ .final) ∨
        ∃ old, m.state.records[entry.requestId]? = some old ∧ old.finalIndex = none ∧
          old.operation = entry.operation ∧ entry.phase = .final ∧
          r = { old with finalIndex := some index, finalTerm := some term }) := by
  obtain ⟨-, -, -, -, happly⟩ := CommittedMembership.advanced_eq_ok h
  obtain ⟨-, ⟨hphase, hfinal⟩ | ⟨hphase, hfirst⟩⟩ := MembershipState.applyEntry_eq_ok happly
  · obtain ⟨record, old, new, hpending, hop, -, -, -, heq⟩ :=
      MembershipState.applyFinal_eq_ok hfinal
    have hmem := Std.ExtTreeMap.mem_toList_iff_getElem?_eq_some.1
      (List.mem_of_find?_eq_some hpending)
    have hnone := List.find?_some hpending
    rw [heq]
    exact ⟨_, rfl, Or.inr ⟨record, hmem, by simpa using hnone, hop, hphase, rfl⟩⟩
  · obtain ⟨phase, hok, hfirst⟩ := bind_eq_ok.1 hfirst
    obtain ⟨-, hfresh, -, -, hsize⟩ := MembershipState.firstPhase_eq_ok hok
    refine ⟨MembershipState.firstRecord index term entry, ?_,
      Or.inl ⟨hfresh, hsize, rfl, hphase⟩⟩
    split at hfirst
    · cases hfirst
    dsimp only at hfirst
    split at hfirst
    · obtain ⟨new, -, hfirst⟩ := bind_eq_ok.1 hfirst
      rw [← Except.ok.inj hfirst]
    · split at hfirst
      · rw [← Except.ok.inj hfirst]
      · rw [← Except.ok.inj hfirst]
      · cases hfirst

theorem firstRecord_closed : (MembershipState.firstRecord index term entry).Closed := by
  obtain ⟨requestId, operation, phase⟩ := entry
  cases phase with
  | apply => exact .single rfl rfl rfl
  | joint => exact .pending rfl rfl rfl
  | final => exact .single rfl rfl rfl

theorem firstRecord_events (h : entry.phase ≠ .final) :
    (MembershipState.firstRecord index term entry).events entry.requestId =
      [(index, term, entry)] := by
  obtain ⟨requestId, operation, phase⟩ := entry
  cases phase with
  | apply => rfl
  | joint => rfl
  | final => exact absurd rfl h

theorem AdminRecord.Closed.joint_of_pending (h : r.Closed)
    (hnone : r.finalIndex = none) : r.joint = true ∧ r.finalTerm = none := by
  cases h with
  | single _ hindex _ => cases hindex.symm.trans hnone
  | pending hjoint _ hterm => exact ⟨hjoint, hterm⟩
  | complete _ hindex _ => cases hindex.symm.trans hnone

theorem AdminRecord.events_pending (hnone : r.finalIndex = none) (id : String) :
    r.events id = [r.first id] := by
  unfold events
  rw [hnone]
  split
  · next h _ => cases h
  · rfl

/-- Applying one more entry. -/
theorem Retains.advance (h : Retains g evs m) (hadv : m.advanced index term entry = .ok m') :
    Retains g (evs ++ [(index, term, entry)]) m' := by
  obtain ⟨hlt, -, hindex, -, happly⟩ := CommittedMembership.advanced_eq_ok hadv
  obtain ⟨hid, hvoters, hversion⟩ := MembershipState.applyEntry_group happly
  obtain ⟨r, hrecords, hcase⟩ := advanced_records hadv
  -- one record is new; it lists what was listed under its name, and the new entry
  have hclosed : r.Closed := by
    rcases hcase with ⟨-, -, rfl, -⟩ | ⟨old, hold, hnone, -, -, rfl⟩
    · exact firstRecord_closed
    · exact .complete ((h.closed hold).joint_of_pending hnone).1 rfl rfl
  have hevents : ∀ e, e ∈ r.events entry.requestId ↔ e = (index, term, entry) ∨
      ∃ old, m.state.records[entry.requestId]? = some old ∧ e ∈ old.events entry.requestId := by
    intro e
    rcases hcase with ⟨hfresh, -, rfl, hphase⟩ | ⟨old, hold, hnone, hop, hphase, rfl⟩
    · simp [firstRecord_events hphase, hfresh]
    · have hjoint := ((h.closed hold).joint_of_pending hnone).1
      have hnew : (index, term, entry) = (index, term,
          { requestId := entry.requestId, operation := old.operation, phase := .final }) := by
        rw [hop, ← hphase]
      simp only [hold, Option.some.injEq, exists_eq_left', AdminRecord.events_pending hnone, hnew]
      simp [AdminRecord.events, AdminRecord.first, hjoint, or_comm]
  have hget (id : String) : m'.state.records[id]? =
      if entry.requestId = id then some r else m.state.records[id]? := by
    rw [hrecords, Std.ExtTreeMap.getElem?_insert]
    simp only [Std.LawfulEqCmp.compare_eq_iff_eq]
  refine ⟨?_, ?_, ?_, ?_, ?_, ?_, hversion.trans h.version, hid.trans h.group.1,
    hvoters.trans h.group.2⟩
  · rw [List.foldlM_append]
    exact bind_eq_ok.2 ⟨m, h.built, bind_eq_ok.2 ⟨m', hadv, rfl⟩⟩
  · refine List.pairwise_append.2 ⟨h.sorted, List.pairwise_singleton .., fun e he e' he' => ?_⟩
    cases List.mem_singleton.1 he'
    exact (h.below e he).trans_lt hlt
  · intro e he
    rw [hindex]
    rcases List.mem_append.1 he with he | he
    · exact (h.below e he).trans hlt.le
    · cases List.mem_singleton.1 he
      exact le_rfl
  · intro id r' hr'
    rw [hget] at hr'
    split at hr'
    · cases hr'
      exact hclosed
    · exact h.closed hr'
  · intro e
    rw [List.mem_append, List.mem_singleton, h.listed]
    constructor
    · rintro (⟨id, r', hr', he⟩ | he)
      · by_cases hid : entry.requestId = id
        · subst hid
          exact ⟨_, r, by rw [hget, if_pos rfl], (hevents e).2 (Or.inr ⟨r', hr', he⟩)⟩
        · exact ⟨id, r', by rw [hget, if_neg hid]; exact hr', he⟩
      · exact ⟨_, r, by rw [hget, if_pos rfl], (hevents e).2 (Or.inl he)⟩
    · rintro ⟨id, r', hr', he⟩
      rw [hget] at hr'
      split at hr'
      · next hid =>
          cases hr'
          subst hid
          rcases (hevents e).1 he with he | ⟨old, hold, he⟩
          · exact Or.inr he
          · exact Or.inl ⟨_, old, hold, he⟩
      · exact Or.inl ⟨id, r', hr', he⟩
  · rw [hrecords, Std.ExtTreeMap.size_insert]
    rcases hcase with ⟨-, hsize, -, -⟩ | ⟨old, hold, -⟩
    · have := h.size
      split
      · exact h.size
      · omega
    · have hmem : m.state.records.contains entry.requestId = true := by
        rw [Std.ExtTreeMap.contains_eq_isSome_getElem?, hold]
        rfl
      rw [if_pos hmem]
      exact h.size

/-- Every replayed membership retains its history. -/
theorem membershipAfter_retains (hg : Genesis g) {l : List Entry}
    (hm : membershipAfter g l = .ok m) : ∃ evs, Retains g evs m := by
  induction l using List.reverseRecOn generalizing m with
  | nil =>
    cases hm
    exact ⟨[], .genesis hg⟩
  | append_singleton l e ih =>
    rw [membershipAfter_concat, bind_eq_ok] at hm
    obtain ⟨m₁, hm₁, he⟩ := hm
    obtain ⟨evs, hevs⟩ := ih hm₁
    cases hc : e.command.isConfiguration with
    | false =>
      rw [replayEntry_of_not_conf hc] at he
      cases he
      exact ⟨evs, hevs⟩
    | true =>
      obtain ⟨change, heq⟩ := replayEntry_of_conf (m := m₁) hc
      rw [heq] at he
      exact ⟨_, hevs.advance he⟩

theorem membershipAfter_validate (hg : Genesis g) {l : List Entry}
    (hm : membershipAfter g l = .ok m) : m.validate = .ok () := by
  obtain ⟨evs, hevs⟩ := membershipAfter_retains hg hm
  exact hevs.validate hg

/-! ## Extensions -/

/-- `m'` knows all that `m` knows and adds only what came later. -/
structure Extends (m m' : CommittedMembership) : Prop where
  index : m.index ≤ m'.index
  term : m.term ≤ m'.term
  kept : ∀ {id : String} {old : AdminRecord}, m.state.records[id]? = some old →
    ∃ new, m'.state.records[id]? = some new ∧
      CommittedMembership.recordExtends m.index old new = true
  later : ∀ {id : String} {new : AdminRecord}, m'.state.records[id]? = some new →
    m.state.records[id]? = none → m.index < new.firstIndex

theorem Extends.refl (m : CommittedMembership) : Extends m m where
  index := le_rfl
  term := le_rfl
  kept {id old} h := by
    refine ⟨old, h, ?_⟩
    simp only [CommittedMembership.recordExtends]
    cases old.finalIndex <;> simp
  later h h' := by
    rw [h] at h'
    cases h'

theorem Extends.advance
    {m'' : CommittedMembership} (h : Extends m m') (hadv : m'.advanced index term entry = .ok m'') :
    Extends m m'' := by
  obtain ⟨hlt, hle, hindex, hterm, -⟩ := CommittedMembership.advanced_eq_ok hadv
  obtain ⟨r, hrecords, hcase⟩ := advanced_records hadv
  have hbase := h.index
  have hget (id : String) : m''.state.records[id]? =
      if entry.requestId = id then some r else m'.state.records[id]? := by
    rw [hrecords, Std.ExtTreeMap.getElem?_insert]
    simp only [Std.LawfulEqCmp.compare_eq_iff_eq]
  refine ⟨by omega, hterm ▸ h.term.trans hle, ?_, ?_⟩
  · intro id old hold
    obtain ⟨new, hnew, hext⟩ := h.kept hold
    rw [hget]
    split
    · next hid =>
        subst hid
        rcases hcase with ⟨hfresh, -⟩ | ⟨new', hnew', hnone, -, -, rfl⟩
        · rw [hfresh] at hnew
          cases hnew
        · rw [hnew] at hnew'
          cases hnew'
          refine ⟨_, rfl, ?_⟩
          have hpast : m.index < index := hbase.trans_lt hlt
          cases hfinal : old.finalIndex with
          | none =>
            simp only [CommittedMembership.recordExtends, hnone, hfinal] at hext ⊢
            simpa [hpast] using hext
          | some i => simp [CommittedMembership.recordExtends, hnone, hfinal] at hext
    · exact ⟨new, hnew, hext⟩
  · intro id new hnew hfresh
    rw [hget] at hnew
    split at hnew
    · next hid =>
        subst hid
        cases hnew
        rcases hcase with ⟨-, -, rfl, -⟩ | ⟨new', hnew', -, -, -, rfl⟩
        · exact hbase.trans_lt hlt
        · have hlater := h.later hnew' hfresh
          exact hlater
    · exact h.later hnew hfresh

/-- A longer log leads to an extension. -/
theorem membershipAfter_extends {l l' : List Entry} (hpre : l <+: l')
    (hm : membershipAfter g l = .ok m) (hm' : membershipAfter g l' = .ok m') : Extends m m' := by
  obtain ⟨t, rfl⟩ := hpre
  induction t using List.reverseRecOn generalizing m' with
  | nil =>
    rw [List.append_nil, hm] at hm'
    cases hm'
    exact .refl m
  | append_singleton t e ih =>
    rw [← List.append_assoc, membershipAfter_concat, bind_eq_ok] at hm'
    obtain ⟨m₁, hm₁, he⟩ := hm'
    cases hc : e.command.isConfiguration with
    | false =>
      rw [replayEntry_of_not_conf hc] at he
      cases he
      exact ih hm₁
    | true =>
      obtain ⟨change, heq⟩ := replayEntry_of_conf (m := m₁) hc
      rw [heq] at he
      exact (ih hm₁).advance he

theorem Extends.isConsistentExtensionOf (h : Extends m m') (hm : m.validate = .ok ())
    (hm' : m'.validate = .ok ()) (hid : m'.state.groupId = m.state.groupId)
    (hvoters : m'.state.genesisVoters = m.state.genesisVoters) :
    m'.isConsistentExtensionOf m = true := by
  have hindex := h.index
  have hterm := h.term
  unfold CommittedMembership.isConsistentExtensionOf
  rw [if_neg]
  · rw [Bool.and_eq_true, List.all_eq_true, List.all_eq_true]
    constructor
    · rintro ⟨id, old⟩ hold
      obtain ⟨new, hnew, hext⟩ := h.kept (Std.ExtTreeMap.mem_toList_iff_getElem?_eq_some.1 hold)
      simp only [hnew]
      exact hext
    · rintro ⟨id, new⟩ hnew
      have hnew := Std.ExtTreeMap.mem_toList_iff_getElem?_eq_some.1 hnew
      simp only [Bool.or_eq_true, decide_eq_true_eq]
      cases hold : m.state.records[id]? with
      | none => exact Or.inr (h.later hnew hold)
      | some old =>
        left
        rw [Std.ExtTreeMap.contains_eq_isSome_getElem?, hold]
        rfl
  · rw [hm, hm', hid, hvoters]
    simp only [Except.toBool, Bool.true_eq_false, ne_eq, not_true_eq_false, false_or]
    omega

/-- **A later membership of a group is a consistent extension of an earlier one.** -/
theorem membershipAfter_consistent (hg : Genesis g) {l l' : List Entry} (hpre : l <+: l')
    (hm : membershipAfter g l = .ok m) (hm' : membershipAfter g l' = .ok m') :
    m'.isConsistentExtensionOf m = true := by
  obtain ⟨hid, hvoters⟩ := membershipAfter_group hm
  obtain ⟨hid', hvoters'⟩ := membershipAfter_group hm'
  exact (membershipAfter_extends hpre hm hm').isConsistentExtensionOf
    (membershipAfter_validate hg hm) (membershipAfter_validate hg hm')
    (hid'.trans hid.symm) (hvoters'.trans hvoters.symm)

end

end MicroRaft
