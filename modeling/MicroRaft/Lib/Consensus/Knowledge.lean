import MicroRaft.Lib.Consensus.Preserve

/-!
# What nodes know to be committed

A node's knowledge of what is committed survives every move, also the moves
that replace its log (`Inv.knows_move`).  The second half bounds that
knowledge from above: if a quorum of a leader has not yet left the leader's
term, no later leader exists (`Inv.no_later_leader`), and then nobody knows more
than that leader does (`Inv.knows_le`).
-/

namespace Consensus

namespace State

variable {ν ε : Type} {C : Scheme ν ε} {s s' : State ν ε}

theorem Knows.zero (v : ν) : s.Knows v 0 := ⟨Nat.zero_le _, Or.inl rfl⟩

theorem Knows.of_le {v : ν} {i j : ℕ} (hk : s.Knows v j) (hij : i ≤ j) : s.Knows v i := by
  obtain ⟨hlen, hT⟩ := hk
  refine ⟨hij.trans hlen, ?_⟩
  rcases hT with rfl | ⟨T, hT, hl, hi, hpre⟩
  · exact Or.inl (Nat.le_zero.1 hij)
  · exact Or.inr ⟨T, hT, hl, hij.trans hi, (List.take_prefix_take_left hij).trans hpre⟩

/-- Knowledge carries over to any state whose log still has the known prefix. -/
theorem Knows.mono {v : ν} {i : ℕ} (hle : Le s s') (hk : s.Knows v i)
    (hlog : (s.log v).take i <+: s'.log v) : s'.Knows v i := by
  obtain ⟨hlen, hT⟩ := hk
  have hlen' : ((s.log v).take i).length = i := by rw [List.length_take, min_eq_left hlen]
  have htake : (s'.log v).take i = (s.log v).take i := by
    rw [take_eq_of_isPrefix hlog hlen'.ge, List.take_take, min_self]
  refine ⟨hlen' ▸ hlog.length_le, ?_⟩
  rcases hT with h0 | ⟨T, hT, hl, hi, hpre⟩
  · exact Or.inl h0
  · exact Or.inr ⟨T, hT.trans (hle.term v), hle.led hl, hi.trans (hle.lcommit T),
      htake ▸ hpre.trans (hle.llog hl)⟩

section

variable [DecidableEq ν]

/-- A move keeps what a node knows to be committed, in its log and as knowledge. -/
theorem Inv.knows_move (h : s.Inv C) (hm : Move C s s') {v : ν} {i : ℕ} (hk : s.Knows v i) :
    (s.log v).take i <+: s'.log v ∧ s'.Knows v i := by
  have hlog : (s.log v).take i <+: s'.log v := by
    cases hm with
    | extend n e _ _ _ =>
      by_cases hv : v = n
      · subst hv
        dsimp only
        rw [Function.update_self]
        exact (List.take_prefix _ _).trans (List.prefix_append _ _)
      · dsimp only
        rw [Function.update_of_ne hv]
        exact List.take_prefix _ _
    | accept w m hlead hnot =>
      by_cases hv : v = w
      · -- the replacement is a prefix of the leader's log, which has what is committed
        subst hv
        dsimp only
        rw [Function.update_self]
        exact isPrefix_of_not (h.knows_prefix_llog hk le_rfl hlead) (List.take_prefix _ _)
          fun hcon => hnot (hcon.trans (List.take_prefix _ _))
      · dsimp only
        rw [Function.update_of_ne hv]
        exact List.take_prefix _ _
    | _ => exact List.take_prefix _ _
  exact ⟨hlog, hk.mono (h.move hm).1 hlog⟩

theorem Inv.knows_moves (h : s.Inv C) (hm : Moves C s s') {v : ν} {i : ℕ} (hk : s.Knows v i) :
    (s.log v).take i <+: s'.log v ∧ s'.Knows v i := by
  induction hm with
  | refl => exact ⟨List.take_prefix _ _, hk⟩
  | tail hmoves hstep ih =>
    have hlen : ((s.log v).take i).length = i := by rw [List.length_take, min_eq_left hk.1]
    have hstep' := (h.moves hmoves).2.knows_move hstep ih.2
    refine ⟨(List.prefix_take_iff.2 ⟨ih.1, hlen.le⟩).trans hstep'.1, hstep'.2⟩

end

/-! ## Bounding what is known -/

/-- If every member of some quorum of a leader was, at an earlier moment, not yet past the
leader's term, then at that moment no later term had a leader. -/
theorem Inv.no_later_leader (h : s.Inv C) (h' : s'.Inv C) (hle : Le s s') {T : ℕ}
    (hlead : s'.lead T ≠ none) {S : Set ν} (hq : C.Quorum (C.conf (s'.llog T)) S)
    (hS : ∀ v ∈ S, s.term v ≤ T) : ∀ U, T < U → s.lead U = none := by
  intro U
  induction U using Nat.strong_induction_on with
  | _ U ih =>
  intro hTU
  by_contra hU
  obtain ⟨n, hn⟩ := Option.ne_none_iff_exists'.1 hU
  obtain ⟨hcamp, S', hq', hS'⟩ := h.lead_won hn
  have hrc := h.camp_rooted hcamp
  have hU' := hle.led hU
  -- no leader in between: what lies under the election log comes from terms up to `T`
  have hcand : C.under (s.base U) <+: s'.llog T := by
    rcases h.under_covered hrc with hnil | ⟨T₀, i, k, Te, hc, hu, hTe, hled, hT₀⟩
    · rw [hnil]
      exact List.nil_prefix
    have hTeT : Te ≤ T := by
      by_contra hcon
      have hlast : C.lastTerm (s.base U) < U := by
        rcases List.eq_nil_or_concat' (s.base U) with hnil | ⟨p, e, hp⟩
        · rw [hnil, Scheme.lastTerm_nil]
          omega
        · rw [hp, Scheme.lastTerm_concat]
          exact h.camp_lt hcamp e (by rw [hp]; simp)
      exact hled (ih Te (by omega) (by omega))
    have hset : s.Settled C T (C.under (s.base U)) :=
      Or.inr ⟨T₀, i, k, hc, by omega, hu⟩
    exact h'.settled_prefix_llog (hset.mono hle le_rfl) le_rfl hlead
  have hlog : C.under (s'.llog T) <+: s.base U := by
    rcases h'.under_covered (h'.lead_rooted hlead) with hnil | ⟨T₀, i, k, Te, hc, hu, hTe, -, hT₀⟩
    · rw [hnil]
      exact List.nil_prefix
    have hTe' := hTe.trans (h'.lastTerm_le hlead List.prefix_rfl)
    rw [← hle.base hU]
    exact hu.trans (h'.chosen_prefix_base hU' T₀ i k (by omega) hc)
  obtain ⟨v, hv, hv'⟩ := Scheme.meet_of_under hcand hlog hq' hq
  have hterm := h.vote_le (hS' v hv).1
  have hbound := hS v hv'
  omega

/-- When there is no later leader, nobody knows more than a leader whose commit position is
of its own term. -/
theorem Inv.knows_le (h : s.Inv C) {T : ℕ} (hlead : s.lead T ≠ none)
    (hown : C.lastTerm ((s.llog T).take (s.lcommit T)) = T) (hlast : ∀ U, T < U → s.lead U = none)
    {v : ν} {i : ℕ} (hk : s.Knows v i) : i ≤ s.lcommit T := by
  obtain ⟨hlen, rfl | ⟨T₀, hT₀, hl₀, hi, hpre⟩⟩ := hk
  · exact Nat.zero_le _
  have hle₀ : T₀ ≤ T := by
    by_contra hcon
    exact hl₀ (hlast T₀ (by omega))
  rcases lt_or_eq_of_le hle₀ with hlt | rfl
  · have hX : (s.log v).take i <+: (s.llog T₀).take (s.lcommit T₀) :=
      List.prefix_take_iff.2 ⟨hpre, (List.length_take_le _ _).trans hi⟩
    have hbase : (s.log v).take i <+: s.base T := by
      rcases (h.lcommit_settled hl₀).2 with hnil | ⟨T', j, k, hc, hle, hpre'⟩
      · rw [hnil] at hX
        rw [List.prefix_nil.1 hX]
        exact List.nil_prefix
      · exact hX.trans (hpre'.trans (h.chosen_prefix_base hlead T' j k (by omega) hc))
    have hbi := hbase.length_le
    rw [List.length_take, min_eq_left hlen] at hbi
    have hbl : (s.base T).length < s.lcommit T := by
      by_contra hcon
      rw [not_lt] at hcon
      rw [take_eq_of_isPrefix (h.lead_base hlead).1 hcon] at hown
      have := h.lastTerm_take_base_lt hlead (s.lcommit T)
      omega
    omega
  · exact hi

end State

end Consensus
