import MicroRaft.Group.Records

/-!
# What a membership can grow into

A leader appends a configuration entry only after asking the committed membership
for it: the final entry of the operation that is pending, or the first entry of a
new one.  A membership that replaying a log leads to never refuses the entry it
asked for.  Nobody is forgotten on the way: who takes part stays a participant
or becomes a retired identity.
-/

namespace MicroRaft

/-! ## Erasing a list -/

theorem eraseMany_eq_foldl (t : BTreeSet NodeId) (l : List NodeId) :
    t.eraseMany l = l.foldl (fun t a => t.erase a) t := by
  -- the library folds over a subtype; only the first components matter
  have key : ∀ (P : Std.ExtDTreeMap NodeId (fun _ => Unit) compare → Prop)
      (h : ∀ t a, P t → P (t.erase a)) (b : { x // P x }) (t : BTreeSet NodeId),
      t.inner.inner = b.1 →
      (⟨⟨(l.foldl (fun (b : { x // P x }) a => ⟨b.1.erase a, h _ _ b.2⟩) b).1⟩⟩ : BTreeSet NodeId) =
        l.foldl (fun t a => t.erase a) t := by
    intro P h b t hb
    induction l generalizing b t with
    | nil =>
      obtain ⟨⟨t⟩⟩ := t
      subst hb
      rfl
    | cons a l ih =>
      rw [List.foldl_cons, List.foldl_cons]
      refine ih _ _ ?_
      show t.inner.inner.erase a = b.1.erase a
      rw [hb]
  unfold Std.ExtTreeSet.eraseMany Std.ExtTreeMap.eraseMany Std.ExtDTreeMap.eraseMany
  simp only [List.forIn_pure_yield_eq_foldl, pure_bind, Id.run_pure]
  exact key _ (fun t' a ht' P h₀ hs => hs _ _ (ht' P h₀ hs)) ⟨_, fun _ h _ => h⟩ t rfl

variable {entry : ConfigurationEntry} {index term : Nat} {g m m' : CommittedMembership} {p : NodeId}
  {id : String} {r : AdminRecord}

theorem mem_eraseMany {t : BTreeSet NodeId} {l : List NodeId} (hp : p ∈ t)
    (hl : p ∉ l) : p ∈ t.eraseMany l := by
  rw [eraseMany_eq_foldl]
  induction l generalizing t with
  | nil => exact hp
  | cons a l ih =>
    obtain ⟨hne, hl⟩ := not_or.1 (mt List.mem_cons.2 hl)
    refine ih (Std.ExtTreeSet.mem_erase.2 ⟨fun heq => hne ?_, hp⟩) hl
    exact (compare_eq_iff_eq.1 heq).symm

/-! ## Nobody is forgotten -/

/-- Everyone a leader replicates to. -/
def MembershipState.known (m : MembershipState) : BTreeSet NodeId := m.participants ∪ m.retired

theorem MembershipState.mem_known {m : MembershipState} :
    p ∈ m.known ↔ (p ∈ m.voters.voters ∨ p ∈ m.learners) ∨ p ∈ m.retired := by
  rw [known, participants, Std.ExtTreeSet.mem_union_iff, Std.ExtTreeSet.mem_union_iff]

theorem VoterConfig.mem_voters {c : VoterConfig} :
    p ∈ c.voters ↔ match c with
      | .stable voters => p ∈ voters
      | .joint old new => p ∈ old ∨ p ∈ new := by
  cases c with
  | stable l => rw [voters, Std.ExtTreeSet.mem_ofList, List.contains_iff_mem]
  | joint l l' =>
    rw [voters, Std.ExtTreeSet.mem_ofList, List.contains_iff_mem, List.mem_append]

theorem MembershipState.applyFirst_known {m m' : MembershipState}
    (h : m.applyFirst index term entry = .ok m') (hp : p ∈ m.known) : p ∈ m'.known := by
  rw [mem_known] at hp ⊢
  obtain ⟨phase, -, h⟩ := bind_eq_ok.1 h
  split at h
  · cases h
  dsimp only at h
  split at h
  · obtain ⟨new, -, h⟩ := bind_eq_ok.1 h
    cases h
    simp only [VoterConfig.mem_voters (c := .joint _ _), Std.ExtTreeSet.mem_toList]
    by_cases hnew : p ∈ new
    · exact Or.inl (Or.inl (Or.inr hnew))
    · exact hp.imp_left (Or.imp Or.inl fun hl => mem_eraseMany hl hnew)
  · split at h
    · cases h
      exact hp.imp_left (Or.imp_right fun hl => Std.ExtTreeSet.mem_insert.2 (Or.inr hl))
    · next id _ =>
        cases h
        simp only [Std.ExtTreeSet.mem_insert, Std.ExtTreeSet.mem_erase]
        by_cases hid : compare id p = .eq
        · exact Or.inr (Or.inl hid)
        · exact hp.imp (Or.imp_right fun hl => ⟨hid, hl⟩) Or.inr
    · cases h

theorem MembershipState.applyFinal_known {m m' : MembershipState}
    (h : m.applyFinal index term entry = .ok m') (hp : p ∈ m.known) : p ∈ m'.known := by
  obtain ⟨record, old, new, -, -, -, -, hv, rfl⟩ := applyFinal_eq_ok h
  simp only [mem_known, hv, VoterConfig.mem_voters, Std.ExtTreeSet.mem_insertMany_list,
    List.contains_iff_mem, List.mem_filter] at hp ⊢
  by_cases hnew : p ∈ new
  · exact Or.inl (Or.inl hnew)
  · rcases hp with ((hold | hn) | hl) | hr
    · exact Or.inr (Or.inr ⟨hold, by simpa using hnew⟩)
    · exact absurd hn hnew
    · exact Or.inl (Or.inr hl)
    · exact Or.inr (Or.inl hr)

/-- **A configuration entry forgets nobody.** -/
theorem CommittedMembership.advanced_known {m m' : CommittedMembership}
    (h : m.advanced index term entry = .ok m') (hp : p ∈ m.state.known) : p ∈ m'.state.known := by
  obtain ⟨-, -, -, -, happly⟩ := advanced_eq_ok h
  obtain ⟨-, ⟨-, hfinal⟩ | ⟨-, hfirst⟩⟩ := MembershipState.applyEntry_eq_ok happly
  · exact MembershipState.applyFinal_known hfinal hp
  · exact MembershipState.applyFirst_known hfirst hp

/-! ## Pending operations -/

/-- At most one operation is pending; it is joint, and its first entry is part of the
history. -/
structure CommittedMembership.Orderly (m : CommittedMembership) : Prop where
  pending : ∀ {id : String} {r : AdminRecord}, m.state.records[id]? = some r →
    r.finalIndex = none → (∃ old new, m.state.voters = .joint old new) ∧
      r.firstIndex ≤ m.index ∧ r.firstTerm ≤ m.term ∧
      MembershipState.validateRequestId id = .ok ()
  unique : ∀ {id id' : String} {r r' : AdminRecord}, m.state.records[id]? = some r →
    r.finalIndex = none → m.state.records[id']? = some r' → r'.finalIndex = none → id = id'

theorem Genesis.orderly {g : CommittedMembership} (h : Genesis g) : g.Orderly where
  pending := by simp [h.records]
  unique := by simp [h.records]

theorem MembershipState.pending_eq_some {m : MembershipState}
    (h : m.pending = some (id, r)) : m.records[id]? = some r ∧ r.finalIndex = none := by
  refine ⟨Std.ExtTreeMap.mem_toList_iff_getElem?_eq_some.1 (List.mem_of_find?_eq_some h), ?_⟩
  simpa using List.find?_some h

theorem MembershipState.pending_eq_none {m : MembershipState} (h : m.pending = none)
    (hr : m.records[id]? = some r) : r.finalIndex ≠ none := by
  have := List.find?_eq_none.1 h (id, r) (Std.ExtTreeMap.mem_toList_iff_getElem?_eq_some.2 hr)
  simpa using this

theorem MembershipState.applyEntry_requestId {m m' : MembershipState}
    (h : m.applyEntry index term entry = .ok m') : validateRequestId entry.requestId = .ok () := by
  unfold applyEntry at h
  split at h
  · cases h
  · obtain ⟨⟨⟩, hid, -⟩ := bind_eq_ok.1 h
    exact hid

/-- A first entry that leaves its operation pending leaves joint voters. -/
theorem MembershipState.applyFirst_joint {m m' : MembershipState}
    (h : m.applyFirst index term entry = .ok m')
    (hnone : (firstRecord index term entry).finalIndex = none) :
    ∃ old new, m'.voters = .joint old new := by
  have hjoint : entry.phase = .joint := by
    by_contra hne
    simp [firstRecord, hne] at hnone
  obtain ⟨phase, -, h⟩ := bind_eq_ok.1 h
  split at h
  · cases h
  obtain ⟨new, -, h⟩ := bind_eq_ok.1 h
  cases h
  exact ⟨_, _, rfl⟩

theorem CommittedMembership.Orderly.advance {m m' : CommittedMembership}
    (h : m.Orderly) (hadv : m.advanced index term entry = .ok m') : m'.Orderly := by
  obtain ⟨-, -, hindex, hterm, happly⟩ := advanced_eq_ok hadv
  have hid := MembershipState.applyEntry_requestId happly
  obtain ⟨r, hrecords, -⟩ := advanced_records hadv
  have hget (id : String) : m'.state.records[id]? =
      if entry.requestId = id then some r else m.state.records[id]? := by
    rw [hrecords, Std.ExtTreeMap.getElem?_insert]
    simp only [Std.LawfulEqCmp.compare_eq_iff_eq]
  -- only the entry's own operation can be pending afterwards
  have honly : ∀ {id : String} {x : AdminRecord}, m'.state.records[id]? = some x →
      x.finalIndex = none → id = entry.requestId ∧ (∃ old new, m'.state.voters = .joint old new) ∧
        x.firstIndex = index ∧ x.firstTerm = term := by
    intro id x hx hnone
    obtain ⟨-, ⟨-, hfinal⟩ | ⟨-, hfirst⟩⟩ := MembershipState.applyEntry_eq_ok happly
    · obtain ⟨record, old, new, hpending, -, -, -, -, heq⟩ :=
        MembershipState.applyFinal_eq_ok hfinal
      obtain ⟨hrecord, hopen⟩ := MembershipState.pending_eq_some hpending
      rw [heq, Std.ExtTreeMap.getElem?_insert] at hx
      split at hx
      · cases hx
        cases hnone
      · next hne =>
          exact absurd (compare_eq_iff_eq.2 (h.unique hrecord hopen hx hnone)) hne
    · obtain ⟨phase, hphase, -⟩ := bind_eq_ok.1 hfirst
      obtain ⟨-, -, hclear, -, -⟩ := MembershipState.firstPhase_eq_ok hphase
      obtain ⟨r', hrecords', ⟨-, -, rfl, -⟩ | ⟨old, hold, hopen, -⟩⟩ := advanced_records hadv
      · rw [hrecords', Std.ExtTreeMap.getElem?_insert] at hx
        split at hx
        · next heq =>
            cases hx
            exact ⟨(compare_eq_iff_eq.1 heq).symm, MembershipState.applyFirst_joint hfirst hnone,
              rfl, rfl⟩
        · exact absurd hnone (MembershipState.pending_eq_none hclear hx)
      · exact absurd hopen (MembershipState.pending_eq_none hclear hold)
  constructor
  · intro id x hx hnone
    obtain ⟨rfl, hjoint, hfirst, hterm'⟩ := honly hx hnone
    exact ⟨hjoint, by rw [hfirst, hindex], by rw [hterm', hterm], hid⟩
  · intro id id' x x' hx hnone hx' hnone'
    rw [(honly hx hnone).1, (honly hx' hnone').1]

/-! ## Memberships of a group -/

/-- `m` is what some log leads to from the genesis `g` of a group. -/
structure Grown (g m : CommittedMembership) : Prop where
  genesis : Genesis g
  replayed : ∃ l, membershipAfter g l = .ok m

theorem Genesis.grown {g : CommittedMembership} (h : Genesis g) : Grown g g := ⟨h, [], rfl⟩

theorem Grown.append (h : Grown g m) {l : List Entry}
    (hm : membershipAfter m l = .ok m') : Grown g m' := by
  obtain ⟨k, hk⟩ := h.replayed
  refine ⟨h.genesis, k ++ l, ?_⟩
  rw [membershipAfter_append, hk]
  exact hm

theorem Grown.orderly (h : Grown g m) : m.Orderly := by
  obtain ⟨l, hl⟩ := h.replayed
  induction l using List.reverseRecOn generalizing m with
  | nil =>
    cases hl
    exact h.genesis.orderly
  | append_singleton l e ih =>
    rw [membershipAfter_concat, bind_eq_ok] at hl
    obtain ⟨m', hm', he⟩ := hl
    have ih := ih ⟨h.genesis, l, hm'⟩ hm'
    cases hc : e.command.isConfiguration with
    | false =>
      rw [replayEntry_of_not_conf hc] at he
      cases he
      exact ih
    | true =>
      obtain ⟨change, heq⟩ := replayEntry_of_conf (m := m') hc
      rw [heq] at he
      exact ih.advance he

theorem Grown.legacy (h : Grown g m) (hlegacy : g.state.groupId = legacyGroupId) : m = g := by
  obtain ⟨l, hl⟩ := h.replayed
  exact h.genesis.membershipAfter_legacy hlegacy hl

/-- The membership belongs to the group of `g`. -/
def CommittedMembership.Within (m g : CommittedMembership) : Prop :=
  m.state.groupId = g.state.groupId ∧ m.state.genesisVoters = g.state.genesisVoters

theorem Grown.within (h : Grown g m) : m.Within g := by
  obtain ⟨l, hl⟩ := h.replayed
  exact membershipAfter_group hl

/-- **A membership that validates has grown from the genesis it names**: its records are the
log that led to it. -/
theorem CommittedMembership.validate_grown (hg : Genesis g)
    (h : m.validate = .ok ()) (hwithin : m.Within g) : Grown g m := by
  unfold validate at h
  split at h
  · cases h
  obtain ⟨genesis, hgenesis, h⟩ := bind_eq_ok.1 h
  obtain ⟨events, -, h⟩ := bind_eq_ok.1 h
  obtain ⟨rebuilt, hrebuilt, h⟩ := bind_eq_ok.1 h
  split at h
  · cases h
  next heq =>
    obtain rfl := not_not.1 heq
    rw [hwithin.1, hwithin.2, hg.rebuild] at hgenesis
    cases hgenesis
    refine ⟨hg, events.map fun e =>
      { index := e.1, term := e.2.1, command := .configuration e.2.2 }, ?_⟩
    rw [membershipAfter, List.foldlM_map]
    exact hrebuilt

/-- Both sides of a consistent extension validate and are of one group. -/
theorem CommittedMembership.extension_valid {m older : CommittedMembership}
    (h : m.isConsistentExtensionOf older = true) :
    m.validate = .ok () ∧ older.validate = .ok () ∧ m.Within older := by
  have hvalid : ∀ {x : CommittedMembership}, x.validate.toBool = true → x.validate = .ok () := by
    intro x hx
    cases hv : x.validate with
    | error e =>
      rw [hv] at hx
      cases hx
    | ok u => rfl
  unfold isConsistentExtensionOf at h
  split at h
  · cases h
  next hok =>
    simp only [not_or, Bool.not_eq_false, not_not] at hok
    exact ⟨hvalid hok.1, hvalid hok.2.1, hok.2.2.1, hok.2.2.2.1⟩

theorem Grown.of_extension (h : Grown g m)
    (hext : m'.isConsistentExtensionOf m = true) : Grown g m' := by
  obtain ⟨hvalid, -, hwithin⟩ := CommittedMembership.extension_valid hext
  exact CommittedMembership.validate_grown h.genesis hvalid
    ⟨hwithin.1.trans h.within.1, hwithin.2.trans h.within.2⟩

theorem Grown.of_extended (h : Grown g m')
    (hext : m'.isConsistentExtensionOf m = true) : Grown g m := by
  obtain ⟨-, hvalid, hwithin⟩ := CommittedMembership.extension_valid hext
  exact CommittedMembership.validate_grown h.genesis hvalid
    ⟨hwithin.1.symm.trans h.within.1, hwithin.2.symm.trans h.within.2⟩

/-! ## The entries a leader appends -/

theorem CommittedMembership.advanced_of_applyEntry
    (hindex : m.index < index) (hterm : m.term ≤ term)
    (h : ∃ state, m.state.applyEntry index term entry = .ok state) :
    ∃ m', m.advanced index term entry = .ok m' := by
  obtain ⟨state, h⟩ := h
  refine ⟨⟨index, term, state⟩, ?_⟩
  unfold advanced
  rw [if_neg (by omega), h]
  rfl

/-- **The final entry of a pending operation applies.** -/
theorem CommittedMembership.Orderly.finish (h : m.Orderly)
    (hpending : m.state.pending = some (id, r))
    (hindex : m.index < index) (hterm : m.term ≤ term) (hmax : index ≠ u64Max) (hpos : term ≠ 0) :
    ∃ m', m.advanced index term
      { requestId := id, operation := r.operation, phase := .final } = .ok m' := by
  obtain ⟨hr, hnone⟩ := MembershipState.pending_eq_some hpending
  obtain ⟨⟨old, new, hv⟩, hfirst, hterm', hid⟩ := h.pending hr hnone
  have happly : ∃ state, m.state.applyFinal index term
      { requestId := id, operation := r.operation, phase := .final } = .ok state := by
    unfold MembershipState.applyFinal
    rw [hpending]
    dsimp only
    rw [if_neg (by simp only [not_or, not_not]; exact ⟨trivial, trivial, by omega, by omega⟩), hv]
    exact ⟨_, rfl⟩
  obtain ⟨state, hstate⟩ := happly
  refine advanced_of_applyEntry hindex hterm ⟨state, ?_⟩
  unfold MembershipState.applyEntry
  rw [if_neg (by rw [not_or, not_or]; exact ⟨by omega, hmax, hpos⟩)]
  exact bind_eq_ok.2 ⟨(), hid, by rw [if_pos rfl]; exact hstate⟩

theorem MembershipState.firstPhase_target {m : MembershipState}
    {operation : AdminOperation} {phase : ConfigurationPhase}
    (h : m.firstPhase id operation = .ok phase) : validateRequestId id = .ok () ∧ phase ≠ .final ∧
      ((phase = .joint ∧ ∃ new, m.targetVoters operation = .ok new) ∨
        (phase = .apply ∧ ∀ voters, operation ≠ .setVoters voters)) := by
  unfold firstPhase at h
  obtain ⟨⟨⟩, hid, h⟩ := bind_eq_ok.1 h
  refine ⟨hid, ?_⟩
  split at h
  · cases h
  split at h
  · split at h <;> cases h
  split at h
  · cases h
  split at h
  · cases h
  split at h
  · obtain ⟨-, -, h⟩ := bind_eq_ok.1 h
    split at h
    · cases h
    split at h
    · cases h
    cases h
    exact ⟨by decide, Or.inr ⟨rfl, by simp⟩⟩
  · split at h
    · cases h
      exact ⟨by decide, Or.inr ⟨rfl, by simp⟩⟩
    split at h
    · cases h
    split at h
    · cases h
    cases h
    exact ⟨by decide, Or.inl ⟨rfl, _, rfl⟩⟩
  · obtain ⟨-, -, h⟩ := bind_eq_ok.1 h
    dsimp only at h
    split at h
    · cases h
    split at h
    · cases h
    cases h
    exact ⟨by decide, Or.inl ⟨rfl, _, rfl⟩⟩

/-- **The first entry of an admitted operation applies.** -/
theorem CommittedMembership.begin_advanced {operation : AdminOperation} {phase : ConfigurationPhase}
    (h : m.state.firstPhase id operation = .ok phase) (hindex : m.index < index)
    (hterm : m.term ≤ term) (hmax : index ≠ u64Max) (hpos : term ≠ 0) :
    ∃ m', m.advanced index term { requestId := id, operation, phase } = .ok m' := by
  obtain ⟨hid, hfinal, hcase⟩ := MembershipState.firstPhase_target h
  have happly : ∃ state, m.state.applyFirst index term { requestId := id, operation, phase } =
      .ok state := by
    unfold MembershipState.applyFirst
    simp only [h, bind, Except.bind, ne_eq, not_true_eq_false, if_false]
    rcases hcase with ⟨rfl, new, hnew⟩ | ⟨rfl, hop⟩
    · rw [if_pos rfl, hnew]
      exact ⟨_, rfl⟩
    · rw [if_neg (by decide)]
      cases operation with
      | addLearner id endpoints => exact ⟨_, rfl⟩
      | remove id => exact ⟨_, rfl⟩
      | setVoters voters => exact absurd rfl (hop voters)
  obtain ⟨state, hstate⟩ := happly
  refine advanced_of_applyEntry hindex hterm ⟨state, ?_⟩
  unfold MembershipState.applyEntry
  rw [if_neg (by rw [not_or, not_or]; exact ⟨by omega, hmax, hpos⟩)]
  refine bind_eq_ok.2 ⟨(), hid, ?_⟩
  rw [if_neg hfinal]
  exact hstate

end MicroRaft
