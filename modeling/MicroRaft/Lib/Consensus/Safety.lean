import MicroRaft.Lib.Consensus.Protocol

/-!
# Election safety and leader completeness of the abstract protocol

`Inv` is the invariant of the protocol; that every move preserves it is shown
in the next module.  This module derives the two facts everything else rests
on from the invariant alone:

* `Inv.chosen_prefix_won`: whatever a term has committed is contained in the log
  of every winner of a later term;
* `Inv.won_unique`: a term has at most one winner.

Quorums of different logs are counted under different configurations, so both
proofs first show, with `Scheme.meet_of_under`, that the configurations involved
are close enough for their quorums to meet.
-/

namespace Consensus

namespace State

variable {ν ε : Type} {C : Scheme ν ε} {s : State ν ε}

/-! ## The invariant -/

variable (C) in
/-- Every entry was created by the leader of its term, and the log up to it is a prefix of
that leader's log. -/
def Rooted (s : State ν ε) (l : List ε) : Prop :=
  ∀ p e, p ++ [e] <+: l → s.lead (C.termOf e) ≠ none ∧ p ++ [e] <+: s.llog (C.termOf e)

variable (C) in
/-- The configuration entries under position `j` of the leader's log of term `T` were
committed before that position was written. -/
def Covered (s : State ν ε) (T j : ℕ) (u : List ε) : Prop :=
  u = [] ∨ ∃ T₀ i k, s.Chosen C T₀ i k ∧ u <+: (s.llog T₀).take i ∧ (T₀ < T ∨ T₀ = T ∧ k ≤ j)

variable (C) in
/-- The invariant of the protocol. -/
structure Inv (s : State ν ε) : Prop where
  vote_le : ∀ {v T n}, s.vote v T = some n → T ≤ s.term v
  vote_camp : ∀ {v T n}, s.vote v T = some n →
    ∃ c, s.camp n T = some c ∧ C.UpToDate c (s.voteLog v T)
  vote_rooted : ∀ {v T n}, s.vote v T = some n → s.Rooted C (s.voteLog v T)
  vote_early : ∀ {v T n}, s.vote v T = some n → s.lead T = none → s.early v T
  camp_le : ∀ {n T c}, s.camp n T = some c → 0 < T ∧ T ≤ s.term n
  camp_lt : ∀ {n T c}, s.camp n T = some c → ∀ e ∈ c, C.termOf e < T
  camp_rooted : ∀ {n T c}, s.camp n T = some c → s.Rooted C c
  lead_won : ∀ {T n}, s.lead T = some n → s.camp n T = some (s.base T) ∧
    ∃ S, C.Quorum (C.conf (s.base T)) S ∧ ∀ v ∈ S, s.vote v T = some n ∧ s.early v T
  lead_base : ∀ {T}, s.lead T ≠ none → s.base T <+: s.llog T ∧
    ∀ e ∈ (s.llog T).drop (s.base T).length, C.termOf e = T
  lead_rooted : ∀ {T}, s.lead T ≠ none → s.Rooted C (s.llog T)
  own : ∀ {n}, s.lead (s.term n) = some n → s.log n = s.llog (s.term n)
  log_le : ∀ {v}, ∀ e ∈ s.log v, C.termOf e ≤ s.term v
  log_rooted : ∀ v, s.Rooted C (s.log v)
  ack_le : ∀ {v T i}, s.ack v T i → T ≤ s.term v ∧ s.lead T ≠ none ∧ i ≤ (s.llog T).length
  /-- A node still holds what it acknowledged if all leaders since had it too. -/
  ack_hold : ∀ {v T i}, s.ack v T i →
    (∀ W, T < W → W ≤ s.term v → s.lead W ≠ none → (s.llog T).take i <+: s.base W) →
    (s.llog T).take i <+: s.log v
  /-- The same at the moment of a vote; the leader of the vote's own term counts only if it
  was there before the vote. -/
  vote_hold : ∀ {v T U n i}, s.vote v U = some n → s.ack v T i → T < U →
    (∀ W, T < W → (W < U ∨ W = U ∧ ¬ s.early v U) → s.lead W ≠ none →
      (s.llog T).take i <+: s.base W) →
    (s.llog T).take i <+: s.voteLog v U
  conf_covered : ∀ {T b e}, s.lead T ≠ none → b ++ [e] <+: s.llog T → C.isConf e = true →
    C.termOf e = T → s.Covered C T b.length (C.stem b)
  lcommit_settled : ∀ {T}, s.lead T ≠ none → s.lcommit T ≤ (s.llog T).length ∧
    s.Settled C T ((s.llog T).take (s.lcommit T))
  lcommit_none : ∀ {T}, s.lead T = none → s.lcommit T = 0

/-! ## Terms along a log -/

theorem Rooted.of_isPrefix {l l' : List ε} (h : s.Rooted C l') (hpre : l <+: l') : s.Rooted C l :=
  fun p e hpe => h p e (hpe.trans hpre)

/-- A nonempty rooted log is a prefix of the log of the leader of its last term. -/
theorem Rooted.prefix_llog {l : List ε} (h : s.Rooted C l) (hne : l ≠ []) :
    s.lead (C.lastTerm l) ≠ none ∧ l <+: s.llog (C.lastTerm l) := by
  obtain ⟨p, e, rfl⟩ := (List.eq_nil_or_concat' l).resolve_left hne
  simpa using h p e List.prefix_rfl

theorem Rooted.prefix_of_lastTerm {l : List ε} {T : ℕ} (hr : s.Rooted C l)
    (hT : C.lastTerm l = T) : l <+: s.llog T := by
  rcases eq_or_ne l [] with rfl | hne
  · simp
  · exact hT ▸ (hr.prefix_llog hne).2

/-- Log matching: rooted logs that end in entries of one term at one length are equal. -/
theorem Rooted.eq_of_lastTerm {l l' : List ε} (hr : s.Rooted C l) (hr' : s.Rooted C l')
    (hT : C.lastTerm l = C.lastTerm l') (hlen : l.length = l'.length) : l = l' :=
  (List.prefix_of_prefix_length_le (hr.prefix_of_lastTerm hT) (hr'.prefix_of_lastTerm rfl)
    hlen.le).eq_of_length hlen

variable (h : s.Inv C)

include h

theorem Inv.lead_pos {T : ℕ} (hl : s.lead T ≠ none) : 0 < T := by
  obtain ⟨n, hn⟩ := Option.ne_none_iff_exists'.1 hl
  exact (h.camp_le (h.lead_won hn).1).1

theorem Inv.base_lt {T : ℕ} (hl : s.lead T ≠ none) : ∀ e ∈ s.base T, C.termOf e < T := by
  obtain ⟨n, hn⟩ := Option.ne_none_iff_exists'.1 hl
  exact h.camp_lt (h.lead_won hn).1

theorem Inv.llog_le {T : ℕ} (hl : s.lead T ≠ none) : ∀ e ∈ s.llog T, C.termOf e ≤ T := by
  intro e he
  obtain ⟨hpre, hown⟩ := h.lead_base hl
  rw [← List.take_append_drop (s.base T).length (s.llog T),
    ← List.prefix_iff_eq_take.1 hpre, List.mem_append] at he
  rcases he with he | he
  · exact (h.base_lt hl e he).le
  · exact (hown e he).le

theorem Inv.lastTerm_le {T : ℕ} (hl : s.lead T ≠ none) {l : List ε} (hpre : l <+: s.llog T) :
    C.lastTerm l ≤ T := by
  rcases List.eq_nil_or_concat' l with rfl | ⟨p, e, rfl⟩
  · simp
  · rw [Scheme.lastTerm_concat]
    exact h.llog_le hl e (hpre.mem (by simp))

/-- Terms do not decrease along a rooted log. -/
theorem Inv.le_lastTerm {l : List ε} (hr : s.Rooted C l) : ∀ e ∈ l, C.termOf e ≤ C.lastTerm l := by
  intro e he
  have hne : l ≠ [] := List.ne_nil_of_mem he
  obtain ⟨hl, hpre⟩ := hr.prefix_llog hne
  exact h.llog_le hl e (hpre.mem he)

theorem Inv.lastTerm_mono {l l' : List ε} (hr : s.Rooted C l') (hpre : l <+: l') :
    C.lastTerm l ≤ C.lastTerm l' := by
  rcases List.eq_nil_or_concat' l with rfl | ⟨p, e, rfl⟩
  · simp
  · rw [Scheme.lastTerm_concat]
    exact h.le_lastTerm hr e (hpre.mem (by simp))

theorem Inv.chosen_rooted {T i k : ℕ} (hc : s.Chosen C T i k) :
    s.Rooted C ((s.llog T).take i) :=
  (h.lead_rooted hc.led).of_isPrefix (List.take_prefix _ _)

theorem Inv.lastTerm_take_base_lt {T : ℕ} (hl : s.lead T ≠ none) (i : ℕ) :
    C.lastTerm ((s.base T).take i) < T := by
  rcases List.eq_nil_or_concat' ((s.base T).take i) with hnil | ⟨p, e, hp⟩
  · rw [hnil, Scheme.lastTerm_nil]
    exact h.lead_pos hl
  · rw [hp, Scheme.lastTerm_concat]
    exact h.base_lt hl e (List.mem_of_mem_take (i := i) (by rw [hp]; simp))

/-- What a term commits reaches beyond the log its leader was elected with. -/
theorem Inv.base_lt_chosen {T i k : ℕ} (hc : s.Chosen C T i k) : (s.base T).length < i := by
  by_contra hle
  rw [not_lt] at hle
  have hown := hc.own
  rw [take_eq_of_isPrefix (h.lead_base hc.led).1 hle] at hown
  have hlt := h.lastTerm_take_base_lt hc.led i
  omega

/-- What lies under the newest configuration entry of a rooted log is committed, by a term
no later than that entry's. -/
theorem Inv.under_covered {l : List ε} (hr : s.Rooted C l) :
    C.under l = [] ∨ ∃ T i k Te, s.Chosen C T i k ∧ C.under l <+: (s.llog T).take i ∧
      Te ≤ C.lastTerm l ∧ s.lead Te ≠ none ∧ (T < Te ∨ T = Te ∧ k < l.length) := by
  rcases Scheme.stem_cases (C := C) l with hnil | ⟨b, e, hstem, he⟩
  · exact Or.inl (Scheme.under_of_stem_nil hnil)
  have hpre : b ++ [e] <+: l := hstem ▸ Scheme.stem_isPrefix l
  obtain ⟨hled, hroot⟩ := hr b e hpre
  rw [Scheme.under_of_stem_eq hstem]
  rcases h.conf_covered hled hroot he rfl with hnil | ⟨T, i, k, hc, hu, hT⟩
  · exact Or.inl hnil
  · refine Or.inr ⟨T, i, k, C.termOf e, hc, hu, h.le_lastTerm hr e (hpre.mem (by simp)), hled, ?_⟩
    have hlen := hpre.length_le
    rw [List.length_append, List.length_singleton] at hlen
    rcases hT with hT | ⟨hT, hk⟩
    · exact Or.inl hT
    · exact Or.inr ⟨hT, by omega⟩

/-! ## Leader completeness -/

/-- If a voter of a candidate had a committed prefix and found the candidate up to date, and
the candidate's last term is no later than the prefix's, the candidate has the prefix. -/
theorem Inv.prefix_of_upToDate {T i k : ℕ} {c l : List ε} (hc : s.Chosen C T i k)
    (hrc : s.Rooted C c) (hrl : s.Rooted C l) (hutd : C.UpToDate c l)
    (hle : C.lastTerm c ≤ T) (hpre : (s.llog T).take i <+: l) : (s.llog T).take i <+: c := by
  have hlast : T ≤ C.lastTerm l := by
    have := h.lastTerm_mono hrl hpre
    rwa [hc.own] at this
  rcases hutd with hlt | ⟨heq, hlen⟩
  · omega
  · have hl : l <+: s.llog T := hrl.prefix_of_lastTerm (by omega)
    have hc' : c <+: s.llog T := hrc.prefix_of_lastTerm (by omega)
    exact hpre.trans (List.prefix_of_prefix_length_le hl hc' hlen)

/-- The induction step of leader completeness. The winner's voters are assumed to have held,
when they voted, whatever they had acknowledged of a committed prefix. -/
theorem Inv.chosen_prefix_of_hold {U : ℕ} {n : ν} {c : List ε} {S : Set ν}
    (hcamp : s.camp n U = some c) (hq : C.Quorum (C.conf c) S)
    (hvote : ∀ v ∈ S, s.vote v U = some n)
    (ih : ∀ W < U, s.lead W ≠ none → ∀ T i k, T < W → s.Chosen C T i k →
      (s.llog T).take i <+: s.base W)
    (hold : ∀ T i k, T < U → s.Chosen C T i k → ∀ v ∈ S, s.ack v T i →
      (s.llog T).take i <+: s.voteLog v U) :
    ∀ T, T < U → ∀ k i, s.Chosen C T i k → (s.llog T).take i <+: c := by
  intro T
  -- lexicographic induction: on the committing term, then on the configuration's position
  induction T using Nat.strong_induction_on with
  | _ T ihT =>
  intro hTU k
  induction k using Nat.strong_induction_on with
  | _ k ihk =>
  intro i hc
  have hrc := h.camp_rooted hcamp
  rcases lt_or_ge T (C.lastTerm c) with hlast | hlast
  · -- the candidate's last entry comes from a later leader, which has the prefix
    have hne : c ≠ [] := by
      rintro rfl
      simp at hlast
    obtain ⟨hled, hpre⟩ := hrc.prefix_llog hne
    have hlastU : C.lastTerm c < U := by
      obtain ⟨p, e, rfl⟩ := (List.eq_nil_or_concat' c).resolve_left hne
      rw [Scheme.lastTerm_concat]
      exact h.camp_lt hcamp e (by simp)
    have hbase := (ih _ hlastU hled T i k hlast hc).trans (h.lead_base hled).1
    refine isPrefix_of_not hbase hpre fun hcon => ?_
    have hmono := h.lastTerm_mono (h.chosen_rooted hc) hcon
    rw [hc.own] at hmono
    omega
  by_cases hlong : C.lastTerm c = T ∧ i ≤ c.length
  · -- the candidate's log is a long enough prefix of the very same leader's log
    have hpre := hrc.prefix_of_lastTerm hlong.1
    rw [take_eq_of_isPrefix hpre hlong.2]
    exact List.take_prefix _ _
  have hroot : s.Rooted C ((s.llog T).take k) :=
    (h.lead_rooted hc.led).of_isPrefix (List.take_prefix _ _)
  have hlog : C.under ((s.llog T).take k) <+: c := by
    rcases h.under_covered hroot with hnil | ⟨T₀, i₀, k₀, Te, hc₀, hu, hTe, -, hT₀⟩
    · rw [hnil]
      exact List.nil_prefix
    have hTeT : Te ≤ T := hTe.trans (h.lastTerm_le hc.led (List.take_prefix _ _))
    have hk : ((s.llog T).take k).length = k := by
      rw [List.length_take, min_eq_left hc.le_length]
    rcases lt_or_ge T₀ T with hlt | hge
    · exact hu.trans (ihT T₀ hlt (hlt.trans hTU) k₀ i₀ hc₀)
    · obtain rfl : T₀ = T := by omega
      exact hu.trans (ihk k₀ (by omega) i₀ hc₀)
  have hcand : C.under c <+: (s.llog T).take k := by
    rcases eq_or_lt_of_le hlast with heq | hlt
    · have hpre := hrc.prefix_of_lastTerm heq
      have hshort : c.length ≤ k := by
        have := hc.le
        omega
      exact (Scheme.under_isPrefix c).trans (List.prefix_take_iff.2 ⟨hpre, hshort⟩)
    rcases h.under_covered hrc with hnil | ⟨T₀, i₀, k₀, Te, hc₀, hu, hTe, -, hT₀⟩
    · rw [hnil]
      exact List.nil_prefix
    have hbase := ih T hTU hc.led T₀ i₀ k₀ (by omega) hc₀
    have hbk : (s.base T).length ≤ k := (h.base_lt_chosen hc).le.trans hc.le
    exact (hu.trans hbase).trans (List.prefix_take_iff.2 ⟨(h.lead_base hc.led).1, hbk⟩)
  obtain ⟨S', hq', hS'⟩ := hc.quorum
  obtain ⟨v, hv, hv'⟩ := Scheme.meet_of_under hcand hlog hq hq'
  obtain ⟨c', hc', hutd⟩ := h.vote_camp (hvote v hv)
  rw [hcamp] at hc'
  cases hc'
  exact h.prefix_of_upToDate hc hrc (h.vote_rooted (hvote v hv)) hutd hlast
    (hold T i k hTU hc v hv (hS' v hv'))

/-- **Leader completeness.** What a term has committed is contained in the log that any later
leader was elected with. -/
theorem Inv.chosen_prefix_base {U : ℕ} (hl : s.lead U ≠ none) :
    ∀ T i k, T < U → s.Chosen C T i k → (s.llog T).take i <+: s.base U := by
  induction U using Nat.strong_induction_on with
  | _ U ih =>
  obtain ⟨n, hn⟩ := Option.ne_none_iff_exists'.1 hl
  obtain ⟨hcamp, S, hq, hS⟩ := h.lead_won hn
  intro T i k hT hc
  refine h.chosen_prefix_of_hold hcamp hq (fun v hv => (hS v hv).1) (fun W hW hlW => ih W hW hlW)
    ?_ T hT k i hc
  intro T i k hT hc v hv hack
  -- the electing votes were cast before the term had a leader
  refine h.vote_hold (hS v hv).1 hack hT fun W hTW hWU hlW => ?_
  rcases hWU with hWU | ⟨-, hlate⟩
  · exact ih W hWU hlW T i k hTW hc
  · exact absurd (hS v hv).2 hlate

/-- What a term has committed is contained in the log of every winner of a later term, also
of one that is not (yet) its leader. -/
theorem Inv.chosen_prefix_won {U T i k : ℕ} {n : ν} {c : List ε} (hw : s.Won C U n c) (hT : T < U)
    (hc : s.Chosen C T i k) : (s.llog T).take i <+: c := by
  obtain ⟨hcamp, S, hq, hS⟩ := hw
  refine h.chosen_prefix_of_hold hcamp hq hS
    (fun W _ hlW => h.chosen_prefix_base hlW) ?_ T hT k i hc
  intro T i k hT hc v hv hack
  exact h.vote_hold (hS v hv) hack hT fun W hTW _ hlW => h.chosen_prefix_base hlW T i k hTW hc

/-! ## Election safety -/

theorem Inv.under_prefix_won {U : ℕ} {n n' : ν} {c c' : List ε} (hw : s.Won C U n c)
    (hw' : s.Won C U n' c') : C.under c <+: c' := by
  have hrc := h.camp_rooted hw.1
  rcases h.under_covered hrc with hnil | ⟨T, i, k, Te, hc, hu, hTe, hled, hT⟩
  · rw [hnil]
    exact List.nil_prefix
  · have hlast : C.lastTerm c < U := by
      rcases List.eq_nil_or_concat' c with rfl | ⟨p, e, rfl⟩
      · exact (h.camp_le hw.1).1
      · rw [Scheme.lastTerm_concat]
        exact h.camp_lt hw.1 e (by simp)
    exact hu.trans (h.chosen_prefix_won hw' (by omega) hc)

/-- **Election safety.** A term has at most one winner. -/
theorem Inv.won_unique {U : ℕ} {n n' : ν} {c c' : List ε} (hw : s.Won C U n c)
    (hw' : s.Won C U n' c') : n = n' := by
  obtain ⟨v, hv, hv'⟩ := Scheme.meet_of_under (h.under_prefix_won hw hw')
    (h.under_prefix_won hw' hw) hw.2.choose_spec.1 hw'.2.choose_spec.1
  have hn := hw.2.choose_spec.2 v hv
  have hn' := hw'.2.choose_spec.2 v hv'
  rw [hn] at hn'
  exact Option.some.inj hn'

theorem Inv.won_of_lead {T : ℕ} {n : ν} (hl : s.lead T = some n) : s.Won C T n (s.base T) := by
  obtain ⟨hcamp, S, hq, hS⟩ := h.lead_won hl
  exact ⟨hcamp, S, hq, fun v hv => (hS v hv).1⟩

/-! ## Agreement on what is committed -/

/-- What a term up to `T` has committed, every leader of a later term was elected with. -/
theorem Inv.settled_prefix_base {T U : ℕ} {l : List ε} (hs : s.Settled C T l) (hT : T < U)
    (hl : s.lead U ≠ none) : l <+: s.base U := by
  rcases hs with rfl | ⟨T', i, k, hc, hle, hpre⟩
  · exact List.nil_prefix
  · exact hpre.trans (h.chosen_prefix_base hl T' i k (hle.trans_lt hT) hc)

/-- What a term up to `T` has committed is a prefix of the log of the leader of `T`. -/
theorem Inv.settled_prefix_llog {T U : ℕ} {l : List ε} (hs : s.Settled C T l) (hT : T ≤ U)
    (hl : s.lead U ≠ none) : l <+: s.llog U := by
  rcases hs with rfl | ⟨T', i, k, hc, hle, hpre⟩
  · exact List.nil_prefix
  · rcases lt_or_ge T' U with hlt | hge
    · exact hpre.trans ((h.chosen_prefix_base hl T' i k hlt hc).trans (h.lead_base hl).1)
    · obtain rfl : T' = U := by omega
      exact hpre.trans (List.take_prefix _ _)

/-- Two committed logs are comparable. -/
theorem Inv.settled_comparable {T T' : ℕ} {l l' : List ε} (hs : s.Settled C T l)
    (hs' : s.Settled C T' l') : l <+: l' ∨ l' <+: l := by
  rcases hs with rfl | ⟨T₀, i, k, hc, -, hpre⟩
  · exact Or.inl List.nil_prefix
  rcases hs' with rfl | ⟨T₀', i', k', hc', -, hpre'⟩
  · exact Or.inr List.nil_prefix
  have hset : s.Settled C (max T₀ T₀') l := Or.inr ⟨T₀, i, k, hc, le_max_left .., hpre⟩
  have hset' : s.Settled C (max T₀ T₀') l' := Or.inr ⟨T₀', i', k', hc', le_max_right .., hpre'⟩
  have hled : s.lead (max T₀ T₀') ≠ none := by
    rcases max_choice T₀ T₀' with hm | hm <;> rw [hm]
    · exact hc.led
    · exact hc'.led
  exact List.prefix_or_prefix_of_prefix (h.settled_prefix_llog hset le_rfl hled)
    (h.settled_prefix_llog hset' le_rfl hled)

/-- Committed logs of one length are equal. -/
theorem Inv.settled_eq {T T' : ℕ} {l l' : List ε} (hs : s.Settled C T l)
    (hs' : s.Settled C T' l') (hlen : l.length = l'.length) : l = l' := by
  rcases h.settled_comparable hs hs' with hpre | hpre
  · exact hpre.eq_of_length hlen
  · exact (hpre.eq_of_length hlen.symm).symm

/-- Committed logs agree at every position both have. -/
theorem Inv.settled_getElem? {T T' i : ℕ} {l l' : List ε} {e e' : ε} (hs : s.Settled C T l)
    (hs' : s.Settled C T' l') (he : l[i]? = some e) (he' : l'[i]? = some e') : e = e' := by
  rcases h.settled_comparable hs hs' with ⟨t, rfl⟩ | ⟨t, rfl⟩
  · rw [List.getElem?_append_left (List.getElem?_eq_some_iff.1 he).1, he] at he'
    exact Option.some_inj.1 he'
  · rw [List.getElem?_append_left (List.getElem?_eq_some_iff.1 he').1, he'] at he
    exact (Option.some_inj.1 he).symm

/-- What a node knows to be committed is committed. -/
theorem Inv.knows_settled {v : ν} {i : ℕ} (hk : s.Knows v i) :
    s.Settled C (s.term v) ((s.log v).take i) := by
  obtain ⟨hlen, rfl | ⟨T, hT, hl, hi, hpre⟩⟩ := hk
  · exact Or.inl (List.take_zero)
  · have htake : (s.log v).take i <+: (s.llog T).take (s.lcommit T) :=
      List.prefix_take_iff.2 ⟨hpre, (List.length_take_le _ _).trans hi⟩
    rcases (h.lcommit_settled hl).2 with hnil | ⟨T', j, k, hc, hle, hpre'⟩
    · rw [hnil] at htake
      exact Or.inl (List.prefix_nil.1 htake)
    · exact Or.inr ⟨T', j, k, hc, hle.trans hT, htake.trans hpre'⟩

/-- What a node knows to be committed is a prefix of the log of the leader of its term. -/
theorem Inv.knows_prefix_llog {v : ν} {i U : ℕ} (hk : s.Knows v i) (hT : s.term v ≤ U)
    (hl : s.lead U ≠ none) : (s.log v).take i <+: s.llog U :=
  h.settled_prefix_llog (h.knows_settled hk) hT hl

end State

end Consensus
