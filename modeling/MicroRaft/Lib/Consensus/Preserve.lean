import MicroRaft.Lib.Consensus.Safety

/-!
# Every move preserves the invariant

One lemma for each move, and from them the invariant of every reachable state
(`Inv.moves`).  Moves only add history, so whatever is stated about committed
prefixes and about the origin of entries carries over by `State.Le`; what is left
for each move is the part of the invariant that speaks about what it changes.
-/

namespace Consensus

namespace State

variable {ν ε : Type} {C : Scheme ν ε} {s s' : State ν ε}

theorem Rooted.mono (hle : Le s s') {l : List ε} (hr : s.Rooted C l) : s'.Rooted C l := by
  intro p e hpe
  obtain ⟨hl, hpre⟩ := hr p e hpe
  exact ⟨hle.led hl, hpre.trans (hle.llog hl)⟩

theorem Covered.mono (hle : Le s s') {T j : ℕ} {u : List ε} (hc : s.Covered C T j u) :
    s'.Covered C T j u := by
  rcases hc with hnil | ⟨T₀, i, k, hch, hu, hT⟩
  · exact Or.inl hnil
  · exact Or.inr ⟨T₀, i, k, hch.mono hle, by rwa [Chosen.take_eq hle hch hch.le], hT⟩

theorem Rooted.nil : s.Rooted C [] := by
  intro p e hpe
  simp at hpe

/-! ## The initial state -/

theorem Inv.init : (State.init : State ν ε).Inv C where
  vote_le hv := by simp [State.init] at hv
  vote_camp hv := by simp [State.init] at hv
  vote_rooted hv := by simp [State.init] at hv
  vote_early hv := by simp [State.init] at hv
  camp_le hc := by simp [State.init] at hc
  camp_lt hc := by simp [State.init] at hc
  camp_rooted hc := by simp [State.init] at hc
  lead_won hl := by simp [State.init] at hl
  lead_base hl := by simp [State.init] at hl
  lead_rooted hl := by simp [State.init] at hl
  own hl := by simp [State.init] at hl
  log_le e he := by simp [State.init] at he
  log_rooted v := Rooted.nil
  ack_le ha := by simp [State.init] at ha
  ack_hold ha := by simp [State.init] at ha
  vote_hold hv := by simp [State.init] at hv
  conf_covered hl := by simp [State.init] at hl
  lcommit_settled hl := by simp [State.init] at hl
  lcommit_none _ := rfl

section

variable (h : s.Inv C)

include h

theorem Inv.lead_ne_of_lt {v : ν} {T : ℕ} (hT : s.term v < T) : s.lead T ≠ some v := by
  intro hl
  exact absurd (h.camp_le (h.lead_won hl).1).2 (by omega)

/-- A term that is being won has no leader yet. -/
theorem Inv.lead_none_of_won {n : ν} (hwon : s.Won C (s.term n) n (s.log n))
    (hnew : s.lead (s.term n) ≠ some n) : s.lead (s.term n) = none := by
  cases hl : s.lead (s.term n) with
  | none => rfl
  | some m =>
    obtain rfl := h.won_unique hwon (h.won_of_lead hl)
    exact absurd hl hnew

end

variable [DecidableEq ν] (h : s.Inv C)

include h

/-! ## Terms and votes -/

theorem Inv.adopt {v : ν} {T : ℕ} (hT : s.term v < T) :
    Le s { s with term := Function.update s.term v T } ∧
      Inv C { s with term := Function.update s.term v T } := by
  have hterm : ∀ w, s.term w ≤ Function.update s.term v T w := by
    intro w
    rw [Function.update_apply]
    split
    · next hw => exact hw ▸ hT.le
    · exact le_rfl
  have hle : Le s { s with term := Function.update s.term v T } :=
    { Le.refl s with term := hterm }
  refine ⟨hle, ?_⟩
  exact
    { h with
      vote_le := fun hv => (h.vote_le hv).trans (hterm _)
      vote_rooted := fun hv => (h.vote_rooted hv).mono hle
      camp_le := fun hc => ⟨(h.camp_le hc).1, (h.camp_le hc).2.trans (hterm _)⟩
      camp_rooted := fun hc => (h.camp_rooted hc).mono hle
      lead_rooted := fun hl => (h.lead_rooted hl).mono hle
      own := by
        intro n hl
        dsimp only at hl ⊢
        rw [Function.update_apply] at hl ⊢
        split at hl
        · next hn => exact absurd hl (hn ▸ h.lead_ne_of_lt hT)
        · next hn =>
            rw [if_neg hn]
            exact h.own hl
      log_le := fun e he => (h.log_le e he).trans (hterm _)
      log_rooted := fun w => (h.log_rooted w).mono hle
      ack_le := fun ha => ⟨(h.ack_le ha).1.trans (hterm _), (h.ack_le ha).2⟩
      ack_hold := fun ha hW => h.ack_hold ha fun W h₁ h₂ h₃ => hW W h₁ (h₂.trans (hterm _)) h₃
      conf_covered := fun hl hb he ht => (h.conf_covered hl hb he ht).mono hle
      lcommit_settled := fun hl =>
        ⟨(h.lcommit_settled hl).1, (h.lcommit_settled hl).2.mono hle le_rfl⟩ }

theorem Inv.stand {n : ν} (hpos : 0 < s.term n) (hnone : s.camp n (s.term n) = none)
    (hlt : ∀ e ∈ s.log n, C.termOf e < s.term n) :
    Le s { s with camp := record s.camp n (s.term n) (some (s.log n)) } ∧
      Inv C { s with camp := record s.camp n (s.term n) (some (s.log n)) } := by
  have hkeep : ∀ {m T c}, s.camp m T = some c →
      record s.camp n (s.term n) (some (s.log n)) m T = some c := by
    intro m T c hc
    rw [record_of_ne _ _ fun hmT => by rw [hmT.1, hmT.2, hnone] at hc; cases hc]
    exact hc
  have hle : Le s { s with camp := record s.camp n (s.term n) (some (s.log n)) } :=
    { Le.refl s with camp := hkeep }
  -- the one new record is about the node that stands
  have hnew : ∀ {m T c}, record s.camp n (s.term n) (some (s.log n)) m T = some c →
      s.camp m T = some c ∨ (m = n ∧ T = s.term n ∧ c = s.log n) := by
    intro m T c hc
    by_cases hmT : m = n ∧ T = s.term n
    · obtain ⟨rfl, rfl⟩ := hmT
      rw [record_self] at hc
      exact Or.inr ⟨rfl, rfl, (Option.some.inj hc).symm⟩
    · rw [record_of_ne _ _ hmT] at hc
      exact Or.inl hc
  refine ⟨hle, ?_⟩
  exact
    { h with
      vote_camp := fun hv => by
        obtain ⟨c, hc, hu⟩ := h.vote_camp hv
        exact ⟨c, hkeep hc, hu⟩
      vote_rooted := fun hv => (h.vote_rooted hv).mono hle
      camp_le := fun hc => by
        rcases hnew hc with hc | ⟨rfl, rfl, -⟩
        · exact h.camp_le hc
        · exact ⟨hpos, le_rfl⟩
      camp_lt := fun hc => by
        rcases hnew hc with hc | ⟨rfl, rfl, rfl⟩
        · exact h.camp_lt hc
        · exact hlt
      camp_rooted := fun hc => by
        rcases hnew hc with hc | ⟨rfl, rfl, rfl⟩
        · exact (h.camp_rooted hc).mono hle
        · exact (h.log_rooted _).mono hle
      lead_won := fun hl => ⟨hkeep (h.lead_won hl).1, (h.lead_won hl).2⟩
      lead_rooted := fun hl => (h.lead_rooted hl).mono hle
      log_rooted := fun w => (h.log_rooted w).mono hle
      conf_covered := fun hl hb he ht => (h.conf_covered hl hb he ht).mono hle
      lcommit_settled := fun hl =>
        ⟨(h.lcommit_settled hl).1, (h.lcommit_settled hl).2.mono hle le_rfl⟩ }

theorem Inv.grant {v n : ν} {c : List ε} (hfree : s.vote v (s.term v) = none)
    (hcamp : s.camp n (s.term v) = some c) (hutd : C.UpToDate c (s.log v)) :
    Le s { s with
        vote := record s.vote v (s.term v) (some n)
        voteLog := record s.voteLog v (s.term v) (s.log v)
        early := record s.early v (s.term v) (s.lead (s.term v) = none) } ∧
      Inv C { s with
        vote := record s.vote v (s.term v) (some n)
        voteLog := record s.voteLog v (s.term v) (s.log v)
        early := record s.early v (s.term v) (s.lead (s.term v) = none) } := by
  have hslot : ∀ {w T m}, s.vote w T = some m → ¬ (w = v ∧ T = s.term v) := by
    rintro w T m hw ⟨rfl, rfl⟩
    rw [hfree] at hw
    cases hw
  have hkeep : ∀ {w T m}, s.vote w T = some m →
      record s.vote v (s.term v) (some n) w T = some m := by
    intro w T m hw
    rw [record_of_ne _ _ (hslot hw)]
    exact hw
  have hle : Le s { s with
      vote := record s.vote v (s.term v) (some n)
      voteLog := record s.voteLog v (s.term v) (s.log v)
      early := record s.early v (s.term v) (s.lead (s.term v) = none) } :=
    { Le.refl s with
      vote := fun hw => ⟨hkeep hw, record_of_ne _ _ (hslot hw), fun he => by
        dsimp only
        rwa [record_of_ne _ _ (hslot hw)]⟩ }
  have hnew : ∀ {w T m}, record s.vote v (s.term v) (some n) w T = some m →
      (¬ (w = v ∧ T = s.term v) ∧ s.vote w T = some m) ∨ (w = v ∧ T = s.term v ∧ m = n) := by
    intro w T m hw
    by_cases hwT : w = v ∧ T = s.term v
    · obtain ⟨rfl, rfl⟩ := hwT
      rw [record_self] at hw
      exact Or.inr ⟨rfl, rfl, (Option.some.inj hw).symm⟩
    · rw [record_of_ne _ _ hwT] at hw
      exact Or.inl ⟨hwT, hw⟩
  refine ⟨hle, ?_⟩
  exact
    { h with
      vote_le := fun hw => by
        rcases hnew hw with ⟨-, hw⟩ | ⟨rfl, rfl, -⟩
        · exact h.vote_le hw
        · exact le_rfl
      vote_camp := fun hw => by
        dsimp only
        rcases hnew hw with ⟨hne, hw⟩ | ⟨rfl, rfl, rfl⟩
        · rw [record_of_ne _ _ hne]
          exact h.vote_camp hw
        · rw [record_self]
          exact ⟨c, hcamp, hutd⟩
      vote_rooted := fun hw => by
        dsimp only
        rcases hnew hw with ⟨hne, hw⟩ | ⟨rfl, rfl, rfl⟩
        · rw [record_of_ne _ _ hne]
          exact (h.vote_rooted hw).mono hle
        · rw [record_self]
          exact (h.log_rooted _).mono hle
      vote_early := fun hw hl => by
        dsimp only at hl ⊢
        rcases hnew hw with ⟨hne, hw⟩ | ⟨rfl, rfl, rfl⟩
        · rw [record_of_ne _ _ hne]
          exact h.vote_early hw hl
        · rw [record_self]
          exact hl
      camp_rooted := fun hc => (h.camp_rooted hc).mono hle
      lead_won := fun hl => by
        obtain ⟨hc, S, hq, hS⟩ := h.lead_won hl
        refine ⟨hc, S, hq, fun w hw => ?_⟩
        obtain ⟨hvote, hearly⟩ := hS w hw
        exact ⟨(hle.vote hvote).1, (hle.vote hvote).2.2 hearly⟩
      lead_rooted := fun hl => (h.lead_rooted hl).mono hle
      log_rooted := fun w => (h.log_rooted w).mono hle
      vote_hold := fun hw ha hT hW => by
        dsimp only at hW ⊢
        rcases hnew hw with ⟨hne, hw⟩ | ⟨rfl, rfl, rfl⟩
        · rw [record_of_ne _ _ hne] at hW ⊢
          exact h.vote_hold hw ha hT hW
        · -- the voter votes with the log it has; its own term counts only if it is led
          rw [record_self] at hW ⊢
          refine h.ack_hold ha fun W h₁ h₂ h₃ => hW W h₁ ?_ h₃
          rcases lt_or_eq_of_le h₂ with h₂ | rfl
          · exact Or.inl h₂
          · exact Or.inr ⟨rfl, h₃⟩
      conf_covered := fun hl hb he ht => (h.conf_covered hl hb he ht).mono hle
      lcommit_settled := fun hl =>
        ⟨(h.lcommit_settled hl).1, (h.lcommit_settled hl).2.mono hle le_rfl⟩ }

/-! ## Leaders -/

omit [DecidableEq ν] in
theorem Inv.win {n : ν} (hwon : s.Won C (s.term n) n (s.log n))
    (hnew : s.lead (s.term n) ≠ some n) :
    Le s { s with
        lead := Function.update s.lead (s.term n) (some n)
        base := Function.update s.base (s.term n) (s.log n)
        llog := Function.update s.llog (s.term n) (s.log n) } ∧
      Inv C { s with
        lead := Function.update s.lead (s.term n) (some n)
        base := Function.update s.base (s.term n) (s.log n)
        llog := Function.update s.llog (s.term n) (s.log n) } := by
  have hnone := h.lead_none_of_won hwon hnew
  have hled : ∀ {T}, s.lead T ≠ none → T ≠ s.term n := by
    rintro T hl rfl
    exact hl hnone
  have hle : Le s { s with
      lead := Function.update s.lead (s.term n) (some n)
      base := Function.update s.base (s.term n) (s.log n)
      llog := Function.update s.llog (s.term n) (s.log n) } :=
    { Le.refl s with
      lead := fun {T m} hl => by
        have hT := hled (T := T) (by rw [hl]; simp)
        dsimp only
        rw [Function.update_of_ne hT, Function.update_of_ne hT, Function.update_of_ne hT]
        exact ⟨hl, rfl, List.prefix_rfl⟩ }
  refine ⟨hle, ?_⟩
  exact
    { h with
      vote_rooted := fun hv => (h.vote_rooted hv).mono hle
      vote_early := fun {w T m} hv hl => by
        dsimp only at hl
        by_cases hT : T = s.term n
        · rw [hT, Function.update_self] at hl
          cases hl
        · rw [Function.update_of_ne hT] at hl
          exact h.vote_early hv hl
      camp_rooted := fun hc => (h.camp_rooted hc).mono hle
      lead_won := fun {T m} hl => by
        dsimp only at hl ⊢
        by_cases hT : T = s.term n
        · subst hT
          rw [Function.update_self] at hl
          cases hl
          obtain ⟨hc, S, hq, hS⟩ := hwon
          rw [Function.update_self]
          exact ⟨hc, S, hq, fun w hw => ⟨hS w hw, h.vote_early (hS w hw) hnone⟩⟩
        · rw [Function.update_of_ne hT] at hl ⊢
          exact h.lead_won hl
      lead_base := fun {T} hl => by
        dsimp only at hl ⊢
        by_cases hT : T = s.term n
        · subst hT
          rw [Function.update_self, Function.update_self, List.drop_length]
          exact ⟨List.prefix_rfl, by simp⟩
        · rw [Function.update_of_ne hT] at hl
          rw [Function.update_of_ne hT, Function.update_of_ne hT]
          exact h.lead_base hl
      lead_rooted := fun {T} hl => by
        dsimp only at hl ⊢
        by_cases hT : T = s.term n
        · subst hT
          rw [Function.update_self]
          exact (h.log_rooted n).mono hle
        · rw [Function.update_of_ne hT] at hl ⊢
          exact (h.lead_rooted hl).mono hle
      own := fun {m} hl => by
        dsimp only at hl ⊢
        by_cases hT : s.term m = s.term n
        · rw [hT, Function.update_self] at hl ⊢
          cases hl
          rfl
        · rw [Function.update_of_ne hT] at hl ⊢
          exact h.own hl
      log_rooted := fun w => (h.log_rooted w).mono hle
      ack_le := fun {w T i} ha => by
        obtain ⟨h₁, h₂, h₃⟩ := h.ack_le ha
        exact ⟨h₁, hle.led h₂, h₃.trans (hle.llog h₂).length_le⟩
      ack_hold := fun {w T i} ha hW => by
        dsimp only at hW ⊢
        rw [Function.update_of_ne (hled (h.ack_le ha).2.1)] at hW ⊢
        refine h.ack_hold ha fun W h₁ h₂ h₃ => ?_
        have := hW W h₁ h₂ (hle.led h₃)
        rwa [Function.update_of_ne (hled h₃)] at this
      vote_hold := fun {w T U m i} hv ha hT hW => by
        dsimp only at hW ⊢
        rw [Function.update_of_ne (hled (h.ack_le ha).2.1)] at hW ⊢
        refine h.vote_hold hv ha hT fun W h₁ h₂ h₃ => ?_
        have := hW W h₁ h₂ (hle.led h₃)
        rwa [Function.update_of_ne (hled h₃)] at this
      conf_covered := fun {T b e} hl hb he ht => by
        dsimp only at hl hb
        by_cases hT : T = s.term n
        · subst hT
          rw [Function.update_self] at hb
          have := h.camp_lt hwon.1 e (hb.mem (by simp))
          omega
        · rw [Function.update_of_ne hT] at hl hb
          exact (h.conf_covered hl hb he ht).mono hle
      lcommit_settled := fun {T} hl => by
        dsimp only at hl ⊢
        by_cases hT : T = s.term n
        · subst hT
          rw [h.lcommit_none hnone]
          exact ⟨Nat.zero_le _, Or.inl List.take_zero⟩
        · rw [Function.update_of_ne hT] at hl ⊢
          exact ⟨(h.lcommit_settled hl).1, (h.lcommit_settled hl).2.mono hle le_rfl⟩
      lcommit_none := fun {T} hl => by
        dsimp only at hl
        by_cases hT : T = s.term n
        · rw [hT, Function.update_self] at hl
          cases hl
        · rw [Function.update_of_ne hT] at hl
          exact h.lcommit_none hl }

theorem Inv.extend {n : ν} {e : ε} (hlead : s.lead (s.term n) = some n)
    (hterm : C.termOf e = s.term n)
    (hconf : C.isConf e = true → s.Settled C (s.term n) (C.stem (s.log n))) :
    Le s { s with
        log := Function.update s.log n (s.log n ++ [e])
        llog := Function.update s.llog (s.term n) (s.log n ++ [e]) } ∧
      Inv C { s with
        log := Function.update s.log n (s.log n ++ [e])
        llog := Function.update s.llog (s.term n) (s.log n ++ [e]) } := by
  have hled : s.lead (s.term n) ≠ none := by rw [hlead]; simp
  have hown := h.own hlead
  have hgrow : ∀ T, s.llog T <+: Function.update s.llog (s.term n) (s.log n ++ [e]) T := by
    intro T
    rw [Function.update_apply]
    split
    · next hT =>
        rw [hT, ← hown]
        exact List.prefix_append _ _
    · exact List.prefix_rfl
  have hle : Le s { s with
      log := Function.update s.log n (s.log n ++ [e])
      llog := Function.update s.llog (s.term n) (s.log n ++ [e]) } :=
    { Le.refl s with lead := fun {T m} hl => ⟨hl, rfl, hgrow T⟩ }
  have hroot : Rooted C { s with
      log := Function.update s.log n (s.log n ++ [e])
      llog := Function.update s.llog (s.term n) (s.log n ++ [e]) } (s.log n ++ [e]) := by
    intro p x hpx
    rcases List.prefix_concat_iff.1 hpx with heq | hpre
    · obtain ⟨rfl, rfl⟩ := List.append_singleton_inj.1 heq
      dsimp only
      rw [hterm, Function.update_self]
      exact ⟨hled, List.prefix_rfl⟩
    · exact (h.log_rooted n).mono hle p x hpre
  have htake : ∀ {w T i}, s.ack w T i →
      (Function.update s.llog (s.term n) (s.log n ++ [e]) T).take i = (s.llog T).take i :=
    fun ha => take_eq_of_isPrefix (hgrow _) (h.ack_le ha).2.2
  refine ⟨hle, ?_⟩
  exact
    { h with
      vote_rooted := fun hv => (h.vote_rooted hv).mono hle
      camp_rooted := fun hc => (h.camp_rooted hc).mono hle
      lead_base := fun {T} hl => by
        obtain ⟨hpre, hown'⟩ := h.lead_base hl
        refine ⟨hpre.trans (hgrow T), fun x hx => ?_⟩
        dsimp only at hx
        by_cases hT : T = s.term n
        · subst hT
          rw [Function.update_self, hown, List.drop_append_of_le_length hpre.length_le,
            List.mem_append] at hx
          rcases hx with hx | hx
          · exact hown' x hx
          · rw [List.mem_singleton.1 hx, hterm]
        · rw [Function.update_of_ne hT] at hx
          exact hown' x hx
      lead_rooted := fun {T} hl => by
        dsimp only
        by_cases hT : T = s.term n
        · rw [hT, Function.update_self]
          exact hroot
        · rw [Function.update_of_ne hT]
          exact (h.lead_rooted hl).mono hle
      own := fun {m} hl => by
        dsimp only at hl ⊢
        by_cases hm : m = n
        · rw [hm, Function.update_self, Function.update_self]
        · have hT : s.term m ≠ s.term n := by
            intro hT
            rw [hT, hlead] at hl
            exact hm (Option.some.inj hl).symm
          rw [Function.update_of_ne hm, Function.update_of_ne hT]
          exact h.own hl
      log_le := fun {w} x hx => by
        dsimp only at hx ⊢
        by_cases hw : w = n
        · subst hw
          rw [Function.update_self, List.mem_append, List.mem_singleton] at hx
          rcases hx with hx | rfl
          · exact h.log_le x hx
          · exact hterm.le
        · rw [Function.update_of_ne hw] at hx
          exact h.log_le x hx
      log_rooted := fun w => by
        dsimp only
        by_cases hw : w = n
        · rw [hw, Function.update_self]
          exact hroot
        · rw [Function.update_of_ne hw]
          exact (h.log_rooted w).mono hle
      ack_le := fun {w T i} ha => by
        obtain ⟨h₁, h₂, h₃⟩ := h.ack_le ha
        exact ⟨h₁, h₂, h₃.trans (hgrow T).length_le⟩
      ack_hold := fun {w T i} ha hW => by
        dsimp only at ha hW ⊢
        rw [htake ha] at hW ⊢
        refine (h.ack_hold ha hW).trans ?_
        by_cases hw : w = n
        · rw [hw, Function.update_self]
          exact List.prefix_append _ _
        · rw [Function.update_of_ne hw]
      vote_hold := fun {w T U m i} hv ha hT hW => by
        dsimp only at ha hW ⊢
        rw [htake ha] at hW ⊢
        exact h.vote_hold hv ha hT hW
      conf_covered := fun {T b x} hl hb hx ht => by
        dsimp only at hl hb
        by_cases hT : T = s.term n
        · subst hT
          rw [Function.update_self] at hb
          rcases List.prefix_concat_iff.1 hb with heq | hpre
          · -- the new entry: older configuration entries are committed by assumption
            obtain ⟨rfl, rfl⟩ := List.append_singleton_inj.1 heq
            refine Covered.mono hle ?_
            rcases hconf hx with hnil | ⟨T₀, i, k, hc, hT₀, hpre⟩
            · exact Or.inl hnil
            · refine Or.inr ⟨T₀, i, k, hc, hpre, ?_⟩
              rcases lt_or_eq_of_le hT₀ with hlt | rfl
              · exact Or.inl hlt
              · exact Or.inr ⟨rfl, hown ▸ hc.le_length⟩
          · exact (h.conf_covered hl (hown ▸ hpre) hx ht).mono hle
        · rw [Function.update_of_ne hT] at hb
          exact (h.conf_covered hl hb hx ht).mono hle
      lcommit_settled := fun {T} hl => by
        obtain ⟨hlen, hset⟩ := h.lcommit_settled hl
        refine ⟨hlen.trans (hgrow T).length_le, ?_⟩
        dsimp only
        rw [take_eq_of_isPrefix (hgrow T) hlen]
        exact hset.mono hle le_rfl }

/-! ## Followers -/

theorem Inv.accept {v : ν} {m : ℕ} (hlead : s.lead (s.term v) ≠ none)
    (hnot : ¬ (s.llog (s.term v)).take m <+: s.log v) :
    Le s { s with log := Function.update s.log v ((s.llog (s.term v)).take m) } ∧
      Inv C { s with log := Function.update s.log v ((s.llog (s.term v)).take m) } := by
  have hle : Le s { s with log := Function.update s.log v ((s.llog (s.term v)).take m) } :=
    { Le.refl s with }
  refine ⟨hle, ?_⟩
  exact
    { h with
      vote_rooted := fun hv => (h.vote_rooted hv).mono hle
      camp_rooted := fun hc => (h.camp_rooted hc).mono hle
      lead_rooted := fun hl => (h.lead_rooted hl).mono hle
      own := fun {n} hl => by
        dsimp only at hl ⊢
        by_cases hn : n = v
        · -- the leader itself already has every prefix of its log
          subst hn
          rw [h.own hl] at hnot
          exact absurd (List.take_prefix _ _) hnot
        · rw [Function.update_of_ne hn]
          exact h.own hl
      log_le := fun {w} e he => by
        dsimp only at he ⊢
        by_cases hw : w = v
        · subst hw
          rw [Function.update_self] at he
          exact h.llog_le hlead e (List.mem_of_mem_take he)
        · rw [Function.update_of_ne hw] at he
          exact h.log_le e he
      log_rooted := fun w => by
        dsimp only
        by_cases hw : w = v
        · rw [hw, Function.update_self]
          exact ((h.lead_rooted hlead).of_isPrefix (List.take_prefix _ _)).mono hle
        · rw [Function.update_of_ne hw]
          exact (h.log_rooted w).mono hle
      ack_hold := fun {w T i} ha hW => by
        dsimp only at ha hW ⊢
        have hold := h.ack_hold ha hW
        by_cases hw : w = v
        · subst hw
          rw [Function.update_self]
          have hpre : (s.llog T).take i <+: s.llog (s.term w) := by
            rcases lt_or_eq_of_le (h.ack_le ha).1 with hlt | heq
            · exact (hW _ hlt le_rfl hlead).trans (h.lead_base hlead).1
            · exact heq ▸ List.take_prefix _ _
          exact isPrefix_of_not hpre (List.take_prefix _ _) fun hcon => hnot (hcon.trans hold)
        · rw [Function.update_of_ne hw]
          exact hold
      conf_covered := fun hl hb he ht => (h.conf_covered hl hb he ht).mono hle
      lcommit_settled := fun hl =>
        ⟨(h.lcommit_settled hl).1, (h.lcommit_settled hl).2.mono hle le_rfl⟩ }

theorem Inv.acknowledge {v : ν} {m : ℕ} (hlead : s.lead (s.term v) ≠ none)
    (hm : m ≤ (s.llog (s.term v)).length) (hpre : (s.llog (s.term v)).take m <+: s.log v) :
    Le s { s with ack := record s.ack v (s.term v) fun i => s.ack v (s.term v) i ∨ i ≤ m } ∧
      Inv C { s with
        ack := record s.ack v (s.term v) fun i => s.ack v (s.term v) i ∨ i ≤ m } := by
  have hle : Le s { s with
      ack := record s.ack v (s.term v) fun i => s.ack v (s.term v) i ∨ i ≤ m } :=
    { Le.refl s with
      ack := fun {w T i} ha => by
        dsimp only
        by_cases hwT : w = v ∧ T = s.term v
        · obtain ⟨rfl, rfl⟩ := hwT
          rw [record_self]
          exact Or.inl ha
        · rwa [record_of_ne _ _ hwT] }
  have hnew : ∀ {w T i}, record s.ack v (s.term v) (fun i => s.ack v (s.term v) i ∨ i ≤ m) w T i →
      s.ack w T i ∨ (w = v ∧ T = s.term v ∧ i ≤ m) := by
    intro w T i ha
    by_cases hwT : w = v ∧ T = s.term v
    · obtain ⟨rfl, rfl⟩ := hwT
      rw [record_self] at ha
      exact ha.imp id fun hi => ⟨rfl, rfl, hi⟩
    · rw [record_of_ne _ _ hwT] at ha
      exact Or.inl ha
  refine ⟨hle, ?_⟩
  exact
    { h with
      vote_rooted := fun hv => (h.vote_rooted hv).mono hle
      camp_rooted := fun hc => (h.camp_rooted hc).mono hle
      lead_rooted := fun hl => (h.lead_rooted hl).mono hle
      log_rooted := fun w => (h.log_rooted w).mono hle
      ack_le := fun ha => by
        rcases hnew ha with ha | ⟨rfl, rfl, hi⟩
        · exact h.ack_le ha
        · exact ⟨le_rfl, hlead, hi.trans hm⟩
      ack_hold := fun {w T i} ha hW => by
        rcases hnew ha with ha | ⟨rfl, rfl, hi⟩
        · exact h.ack_hold ha hW
        · exact (List.take_prefix_take_left hi).trans hpre
      vote_hold := fun {w T U n i} hv ha hT hW => by
        rcases hnew ha with ha | ⟨rfl, rfl, -⟩
        · exact h.vote_hold hv ha hT hW
        · exact absurd (h.vote_le hv) (by omega)
      conf_covered := fun hl hb he ht => (h.conf_covered hl hb he ht).mono hle
      lcommit_settled := fun hl =>
        ⟨(h.lcommit_settled hl).1, (h.lcommit_settled hl).2.mono hle le_rfl⟩ }

omit [DecidableEq ν] in
theorem Inv.settle {T i : ℕ} (hlead : s.lead T ≠ none) (hi : s.lcommit T ≤ i)
    (hlen : i ≤ (s.llog T).length) (hset : s.Settled C T ((s.llog T).take i)) :
    Le s { s with lcommit := Function.update s.lcommit T i } ∧
      Inv C { s with lcommit := Function.update s.lcommit T i } := by
  have hle : Le s { s with lcommit := Function.update s.lcommit T i } :=
    { Le.refl s with
      lcommit := fun U => by
        dsimp only
        rw [Function.update_apply]
        split
        · next hU => exact hU ▸ hi
        · exact le_rfl }
  refine ⟨hle, ?_⟩
  exact
    { h with
      vote_rooted := fun hv => (h.vote_rooted hv).mono hle
      camp_rooted := fun hc => (h.camp_rooted hc).mono hle
      lead_rooted := fun hl => (h.lead_rooted hl).mono hle
      log_rooted := fun w => (h.log_rooted w).mono hle
      conf_covered := fun hl hb he ht => (h.conf_covered hl hb he ht).mono hle
      lcommit_settled := fun {U} hl => by
        dsimp only at hl ⊢
        by_cases hU : U = T
        · subst hU
          rw [Function.update_self]
          exact ⟨hlen, hset.mono hle le_rfl⟩
        · rw [Function.update_of_ne hU]
          exact ⟨(h.lcommit_settled hl).1, (h.lcommit_settled hl).2.mono hle le_rfl⟩
      lcommit_none := fun {U} hl => by
        dsimp only at hl ⊢
        by_cases hU : U = T
        · exact absurd (hU ▸ hl) hlead
        · rw [Function.update_of_ne hU]
          exact h.lcommit_none hl }

/-! ## Whole runs -/

theorem Inv.move (hm : Move C s s') : Le s s' ∧ s'.Inv C := by
  cases hm with
  | adopt v T hT => exact h.adopt hT
  | stand n hpos hnone hlt => exact h.stand hpos hnone hlt
  | grant v n c hfree hcamp hutd => exact h.grant hfree hcamp hutd
  | win n hwon hnew => exact h.win hwon hnew
  | extend n e hlead hterm hconf => exact h.extend hlead hterm hconf
  | accept v m hlead hnot => exact h.accept hlead hnot
  | acknowledge v m hlead hm hpre => exact h.acknowledge hlead hm hpre
  | settle T i hlead hi hlen hset => exact h.settle hlead hi hlen hset

/-- **The invariant of every run**, and what every run only adds to. -/
theorem Inv.moves (hm : Moves C s s') : Le s s' ∧ s'.Inv C := by
  induction hm with
  | refl => exact ⟨Le.refl s, h⟩
  | tail _ hstep ih =>
    obtain ⟨hle, hinv⟩ := ih.2.move hstep
    exact ⟨ih.1.trans hle, hinv⟩

end State

end Consensus
