import MicroRaft.Group.Quorum

/-!
# Membership histories

What replaying a log over the genesis of a group can lead to.
-/

namespace MicroRaft

/-- The membership a group starts from. -/
def Genesis (g : CommittedMembership) : Prop :=
  ∃ groupId voters, CommittedMembership.bootstrapWithGroup groupId voters = .ok g

variable {g m : CommittedMembership} {l : List Entry}

theorem CommittedMembership.bootstrapWithGroup_eq_ok {groupId : String} {voters : List NodeId}
    (h : bootstrapWithGroup groupId voters = .ok g) :
    MembershipState.validateRequestId groupId = .ok () ∧ validateSet voters = .ok () ∧
      g = { index := 0, term := 0, state := {
        version := 1, groupId, genesisVoters := voters, voters := .stable voters,
        learners := ∅, retired := ∅, endpoints := ∅, records := ∅ } } := by
  obtain ⟨state, hstate, h⟩ := bind_eq_ok.1 h
  obtain ⟨⟨⟩, hid, hstate⟩ := bind_eq_ok.1 hstate
  obtain ⟨⟨⟩, hset, hstate⟩ := bind_eq_ok.1 hstate
  cases hstate
  cases h
  exact ⟨hid, hset, rfl⟩

/-- A group names itself: its genesis is rebuilt from its identity and its first voters. -/
theorem Genesis.rebuild (h : Genesis g) :
    CommittedMembership.bootstrapWithGroup g.state.groupId g.state.genesisVoters = .ok g := by
  obtain ⟨groupId, voters, hg⟩ := h
  obtain ⟨-, -, rfl⟩ := CommittedMembership.bootstrapWithGroup_eq_ok hg
  exact hg

theorem Genesis.records (h : Genesis g) : g.state.records = ∅ := by
  obtain ⟨groupId, voters, hg⟩ := h
  obtain ⟨-, -, rfl⟩ := CommittedMembership.bootstrapWithGroup_eq_ok hg
  rfl

/-! ## What never changes -/

theorem MembershipState.applyEntry_group {m m' : MembershipState} {index term : Nat}
    {entry : ConfigurationEntry} (h : m.applyEntry index term entry = .ok m') :
    m'.groupId = m.groupId ∧ m'.genesisVoters = m.genesisVoters ∧ m'.version = m.version := by
  obtain ⟨-, ⟨-, h⟩ | ⟨-, h⟩⟩ := applyEntry_eq_ok h
  · obtain ⟨record, old, new, -, -, -, -, -, rfl⟩ := applyFinal_eq_ok h
    exact ⟨rfl, rfl, rfl⟩
  · obtain ⟨phase, -, h⟩ := bind_eq_ok.1 h
    split at h
    · cases h
    dsimp only at h
    split at h
    · obtain ⟨new, -, h⟩ := bind_eq_ok.1 h
      cases h
      exact ⟨rfl, rfl, rfl⟩
    · split at h
      · cases h
        exact ⟨rfl, rfl, rfl⟩
      · cases h
        exact ⟨rfl, rfl, rfl⟩
      · cases h

/-- No entry changes the identity of the group or the voters it started with. -/
theorem membershipAfter_group (hm : membershipAfter g l = .ok m) :
    m.state.groupId = g.state.groupId ∧ m.state.genesisVoters = g.state.genesisVoters := by
  induction l using List.reverseRecOn generalizing m with
  | nil =>
    cases hm
    exact ⟨rfl, rfl⟩
  | append_singleton l e ih =>
    rw [membershipAfter_concat, bind_eq_ok] at hm
    obtain ⟨m', hm', he⟩ := hm
    obtain ⟨hid, hvoters⟩ := ih hm'
    cases hc : e.command.isConfiguration with
    | false =>
      rw [replayEntry_of_not_conf hc] at he
      cases he
      exact ⟨hid, hvoters⟩
    | true =>
      obtain ⟨change, heq⟩ := replayEntry_of_conf (m := m') hc
      rw [heq] at he
      obtain ⟨-, -, -, -, happly⟩ := CommittedMembership.advanced_eq_ok he
      obtain ⟨hid', hvoters', -⟩ := MembershipState.applyEntry_group happly
      exact ⟨hid'.trans hid, hvoters'.trans hvoters⟩

/-- A membership bears the position of the entry that last changed it. -/
theorem membershipAfter_origin (hm : membershipAfter g l = .ok m) :
    m = g ∨ ∃ e ∈ l, e.command.isConfiguration = true ∧ m.index = e.index ∧ m.term = e.term := by
  induction l using List.reverseRecOn generalizing m with
  | nil =>
    cases hm
    exact Or.inl rfl
  | append_singleton l e ih =>
    rw [membershipAfter_concat, bind_eq_ok] at hm
    obtain ⟨m', hm', he⟩ := hm
    cases hc : e.command.isConfiguration with
    | false =>
      rw [replayEntry_of_not_conf hc] at he
      cases he
      rcases ih hm' with rfl | ⟨x, hx, hrest⟩
      · exact Or.inl rfl
      · exact Or.inr ⟨x, List.mem_append_left _ hx, hrest⟩
    | true =>
      obtain ⟨change, heq⟩ := replayEntry_of_conf (m := m') hc
      rw [heq] at he
      obtain ⟨-, -, hindex, hterm, -⟩ := CommittedMembership.advanced_eq_ok he
      exact Or.inr ⟨e, by simp, hc, hindex, hterm⟩

theorem Genesis.position (h : Genesis g) : g.index = 0 ∧ g.term = 0 := by
  obtain ⟨groupId, voters, hg⟩ := h
  obtain ⟨-, -, rfl⟩ := CommittedMembership.bootstrapWithGroup_eq_ok hg
  exact ⟨rfl, rfl⟩

/-! ## Groups without an identity of their own -/

/-- Such a group accepts no configuration entry at all. -/
theorem Genesis.replayEntry_legacy (h : Genesis g)
    (hlegacy : g.state.groupId = legacyGroupId) {e : Entry} (he : replayEntry g e = .ok m) :
    m = g := by
  cases hc : e.command.isConfiguration with
  | false =>
    rw [replayEntry_of_not_conf hc] at he
    cases he
    rfl
  | true =>
    obtain ⟨change, heq⟩ := replayEntry_of_conf (m := g) hc
    rw [heq] at he
    obtain ⟨-, -, -, -, happly⟩ := CommittedMembership.advanced_eq_ok he
    obtain ⟨-, ⟨-, hfinal⟩ | ⟨-, hfirst⟩⟩ := MembershipState.applyEntry_eq_ok happly
    · obtain ⟨record, old, new, hpending, -⟩ := MembershipState.applyFinal_eq_ok hfinal
      have hmem := List.mem_of_find?_eq_some hpending
      rw [h.records, Std.ExtTreeMap.mem_toList_iff_getElem?_eq_some,
        Std.ExtTreeMap.getElem?_empty] at hmem
      cases hmem
    · obtain ⟨phase, hphase, -⟩ := bind_eq_ok.1 hfirst
      exact absurd hlegacy (MembershipState.firstPhase_eq_ok hphase).1

theorem Genesis.membershipAfter_legacy (h : Genesis g) (hlegacy : g.state.groupId = legacyGroupId)
    (hm : membershipAfter g l = .ok m) : m = g := by
  induction l using List.reverseRecOn generalizing m with
  | nil =>
    cases hm
    rfl
  | append_singleton l e ih =>
    rw [membershipAfter_concat, bind_eq_ok] at hm
    obtain ⟨m', hm', he⟩ := hm
    rw [ih hm'] at he
    exact h.replayEntry_legacy hlegacy he

end MicroRaft
