import MicroRaft.Lib.Consensus.Knowledge

/-!
# Moves of one node

A run of moves made by one node leaves the state of every other node alone
(`Untouched`).  `By` bundles such a run with what all runs give: a larger
history, and that only the node itself has begun to lead or has extended a
leader's log, in the term it is in then.  There is one lemma for each move,
naming the node that makes it.
-/

namespace Consensus

namespace State

variable {ν ε : Type} {C : Scheme ν ε} {s s' s'' : State ν ε}

/-- The own state of `v` is the same, and so is its claim to lead. -/
structure Untouched (s s' : State ν ε) (v : ν) : Prop where
  term : s'.term v = s.term v
  log : s'.log v = s.log v
  vote : ∀ T, s'.vote v T = s.vote v T
  lead : s'.lead (s.term v) = some v → s.lead (s.term v) = some v
  lcommit : s.lead (s.term v) = some v → s'.lcommit (s.term v) = s.lcommit (s.term v)

theorem Untouched.refl (s : State ν ε) (v : ν) : Untouched s s v :=
  ⟨rfl, rfl, fun _ => rfl, id, fun _ => rfl⟩

theorem Untouched.trans {v : ν} (hle : Le s s') (h : Untouched s s' v) (h' : Untouched s' s'' v) :
    Untouched s s'' v where
  term := h'.term.trans h.term
  log := h'.log.trans h.log
  vote T := (h'.vote T).trans (h.vote T)
  lead hl := h.lead (by
    have := h'.lead
    rw [h.term] at this
    exact this hl)
  lcommit hl := by
    have hstep := h'.lcommit
    rw [h.term] at hstep
    exact (hstep (hle.lead hl).1).trans (h.lcommit hl)

section

variable [DecidableEq ν]

variable (C) in
/-- A run of moves of node `i`. -/
structure By (i : ν) (s s' : State ν ε) : Prop where
  moves : Moves C s s'
  le : Le s s'
  others : ∀ v, v ≠ i → Untouched s s' v
  led : ∀ {T : ℕ} {v : ν}, s'.lead T = some v →
    (s.lead T = some v ∧ s'.llog T = s.llog T) ∨ (v = i ∧ s'.term i = T)

theorem By.refl (i : ν) (s : State ν ε) : By C i s s :=
  ⟨Relation.ReflTransGen.refl, Le.refl s, fun v _ => Untouched.refl s v, fun hl => .inl ⟨hl, rfl⟩⟩

/-- After a node has led, it stays in the term. -/
theorem By.trans {i : ν} (h : By C i s s') (h' : By C i s' s'')
    (hstays : s''.term i = s'.term i ∨ (s'.lead = s.lead ∧ s'.llog = s.llog)) :
    By C i s s'' where
  moves := h.moves.trans h'.moves
  le := h.le.trans h'.le
  others v hv := (h.others v hv).trans h.le (h'.others v hv)
  led hl := by
    rcases h'.led hl with ⟨hl', hllog⟩ | hnew
    · rcases hstays with hterm | ⟨hlead, hsame⟩
      · rw [hllog, hterm]
        exact h.led hl'
      · rw [hllog, hsame]
        exact .inl ⟨hlead ▸ hl', rfl⟩
    · exact .inr hnew

theorem By.inv {i : ν} (h : By C i s s') (hinv : s.Inv C) : s'.Inv C := (hinv.moves h.moves).2

theorem By.knows {i v : ν} {k : ℕ} (h : By C i s s') (hinv : s.Inv C) (hk : s.Knows v k) :
    s'.Knows v k :=
  (hinv.knows_moves h.moves hk).2

variable (hinv : s.Inv C)

include hinv

theorem Inv.by_move {i : ν} (hm : Move C s s') (hothers : ∀ v, v ≠ i → Untouched s s' v)
    (hled : ∀ {T : ℕ} {v : ν}, s'.lead T = some v →
      (s.lead T = some v ∧ s'.llog T = s.llog T) ∨ (v = i ∧ s'.term i = T)) :
    By C i s s' :=
  ⟨Relation.ReflTransGen.single hm, (hinv.move hm).1, hothers, hled⟩

open Function

theorem Inv.by_adopt {v : ν} {T : ℕ} (hT : s.term v < T) :
    By C v s { s with term := update s.term v T } :=
  hinv.by_move (Move.adopt s v T hT)
    (fun _ hw => ⟨update_of_ne hw _ _, rfl, fun _ => rfl, id, fun _ => rfl⟩)
    fun hl => .inl ⟨hl, rfl⟩

theorem Inv.by_stand {n : ν} (hpos : 0 < s.term n) (hnone : s.camp n (s.term n) = none)
    (hlt : ∀ e ∈ s.log n, C.termOf e < s.term n) :
    By C n s { s with camp := record s.camp n (s.term n) (some (s.log n)) } :=
  hinv.by_move (Move.stand s n hpos hnone hlt)
    (fun _ _ => ⟨rfl, rfl, fun _ => rfl, id, fun _ => rfl⟩) fun hl => .inl ⟨hl, rfl⟩

theorem Inv.by_grant {v n : ν} {c : List ε} (hfree : s.vote v (s.term v) = none)
    (hcamp : s.camp n (s.term v) = some c) (hutd : C.UpToDate c (s.log v)) :
    By C v s { s with
      vote := record s.vote v (s.term v) (some n)
      voteLog := record s.voteLog v (s.term v) (s.log v)
      early := record s.early v (s.term v) (s.lead (s.term v) = none) } :=
  hinv.by_move (Move.grant s v n c hfree hcamp hutd)
    (fun _ hw => ⟨rfl, rfl, fun _ => record_of_ne _ _ fun hcon => hw hcon.1, id, fun _ => rfl⟩)
    fun hl => .inl ⟨hl, rfl⟩

theorem Inv.by_win {n : ν} (hwon : s.Won C (s.term n) n (s.log n))
    (hnew : s.lead (s.term n) ≠ some n) :
    By C n s { s with
      lead := update s.lead (s.term n) (some n)
      base := update s.base (s.term n) (s.log n)
      llog := update s.llog (s.term n) (s.log n) } := by
  refine hinv.by_move (Move.win s n hwon hnew)
    (fun w hw => ⟨rfl, rfl, fun _ => rfl, fun hl => ?_, fun _ => rfl⟩) fun {T v} hl => ?_
  · dsimp only at hl
    by_cases hT : s.term w = s.term n
    · rw [hT, update_self, Option.some_inj] at hl
      exact absurd hl.symm hw
    · rwa [update_of_ne hT] at hl
  · dsimp only at hl ⊢
    by_cases hT : T = s.term n
    · rw [hT, update_self, Option.some_inj] at hl
      exact .inr ⟨hl.symm, hT.symm⟩
    · rw [update_of_ne hT] at hl ⊢
      exact .inl ⟨hl, rfl⟩

theorem Inv.by_extend {n : ν} {e : ε} (hlead : s.lead (s.term n) = some n)
    (hterm : C.termOf e = s.term n)
    (hconf : C.isConf e = true → s.Settled C (s.term n) (C.stem (s.log n))) :
    By C n s { s with
      log := update s.log n (s.log n ++ [e])
      llog := update s.llog (s.term n) (s.log n ++ [e]) } := by
  refine hinv.by_move (Move.extend s n e hlead hterm hconf)
    (fun _ hw => ⟨rfl, update_of_ne hw _ _, fun _ => rfl, id, fun _ => rfl⟩) fun {T v} hl => ?_
  dsimp only at hl ⊢
  by_cases hT : T = s.term n
  · rw [hT, hlead, Option.some_inj] at hl
    exact .inr ⟨hl.symm, hT.symm⟩
  · rw [update_of_ne hT]
    exact .inl ⟨hl, rfl⟩

theorem Inv.by_accept {v : ν} {m : ℕ} (hlead : s.lead (s.term v) ≠ none)
    (hnot : ¬ (s.llog (s.term v)).take m <+: s.log v) :
    By C v s { s with log := update s.log v ((s.llog (s.term v)).take m) } :=
  hinv.by_move (Move.accept s v m hlead hnot)
    (fun _ hw => ⟨rfl, update_of_ne hw _ _, fun _ => rfl, id, fun _ => rfl⟩)
    fun hl => .inl ⟨hl, rfl⟩

theorem Inv.by_acknowledge {v : ν} {m : ℕ} (hlead : s.lead (s.term v) ≠ none)
    (hm : m ≤ (s.llog (s.term v)).length) (hpre : (s.llog (s.term v)).take m <+: s.log v) :
    By C v s { s with
      ack := record s.ack v (s.term v) fun i => s.ack v (s.term v) i ∨ i ≤ m } :=
  hinv.by_move (Move.acknowledge s v m hlead hm hpre)
    (fun _ _ => ⟨rfl, rfl, fun _ => rfl, id, fun _ => rfl⟩) fun hl => .inl ⟨hl, rfl⟩

theorem Inv.by_settle {n : ν} {T i : ℕ} (hlead : s.lead T = some n) (hi : s.lcommit T ≤ i)
    (hlen : i ≤ (s.llog T).length) (hset : s.Settled C T ((s.llog T).take i)) :
    By C n s { s with lcommit := update s.lcommit T i } := by
  have hled : s.lead T ≠ none := by simp [hlead]
  refine hinv.by_move (Move.settle s T i hled hi hlen hset)
    (fun w hw => ⟨rfl, rfl, fun _ => rfl, id, fun hl => ?_⟩) fun hl => .inl ⟨hl, rfl⟩
  refine update_of_ne (fun hT => hw ?_) _ _
  rw [hT, hlead, Option.some_inj] at hl
  exact hl.symm

/-! ## Several moves at once -/

omit hinv in
/-- What a node knows to be committed stays where it is in its log. -/
theorem By.take_known (hinv : s.Inv C) {i v : ν} {j : ℕ} (h : By C i s s') (hk : s.Knows v j) :
    (s'.log v).take j = (s.log v).take j := by
  have hpre := (hinv.knows_moves h.moves hk).1
  have hlen : ((s.log v).take j).length = j := by rw [List.length_take, min_eq_left hk.1]
  rw [take_eq_of_isPrefix hpre hlen.ge, List.take_take, min_self]

/-- A node enters a newer term as a candidate that votes for itself. -/
theorem Inv.by_campaign {v : ν} {T : ℕ} (hT : s.term v < T) :
    ∃ s', By C v s s' ∧ s'.term v = T ∧ s'.log = s.log ∧ s'.camp v T = some (s.log v) ∧
      s'.vote v T = some v ∧ s'.lead = s.lead ∧ s'.llog = s.llog := by
  have hadopt := hinv.by_adopt hT
  have hterm : update s.term v T v = T := update_self ..
  have hstand := (hadopt.inv hinv).by_stand (n := v)
    (by dsimp only; rw [hterm]; omega)
    (by
      dsimp only
      rw [hterm]
      cases hc : s.camp v T with
      | none => rfl
      | some c =>
        have := (hinv.camp_le hc).2
        omega)
    (by
      intro e he
      dsimp only
      rw [hterm]
      exact (hinv.log_le e he).trans_lt hT)
  have hgrant := (hstand.inv (hadopt.inv hinv)).by_grant (v := v) (n := v) (c := s.log v)
    (by
      dsimp only
      rw [hterm]
      cases hv : s.vote v T with
      | none => rfl
      | some m =>
        have := hinv.vote_le hv
        omega)
    (record_self _ _ _ _) (Scheme.upToDate_refl _)
  refine ⟨_, (hadopt.trans hstand (.inl rfl)).trans hgrant (.inl rfl), hterm, rfl, ?_, ?_, rfl, rfl⟩
  · dsimp only
    rw [hterm, record_self]
  · dsimp only
    rw [hterm, record_self]

/-- A candidate that has won leads, appends an ordinary entry, and takes over what it knows
to be committed. -/
theorem Inv.by_elect {n : ν} {e : ε} {i : ℕ} (hwon : s.Won C (s.term n) n (s.log n))
    (hnew : s.lead (s.term n) ≠ some n) (hterm : C.termOf e = s.term n)
    (hconf : C.isConf e = false) (hk : s.Knows n i) :
    ∃ s', By C n s s' ∧ s'.term = s.term ∧ s'.vote = s.vote ∧
      s'.log = update s.log n (s.log n ++ [e]) ∧
      s'.lead = update s.lead (s.term n) (some n) ∧
      s'.llog = update s.llog (s.term n) (s.log n ++ [e]) ∧ s'.lcommit (s.term n) = i := by
  have hzero := hinv.lcommit_none (hinv.lead_none_of_won hwon hnew)
  have hwin := hinv.by_win hwon hnew
  have hext := (hwin.inv hinv).by_extend (n := n) (e := e) (update_self _ _ _) hterm fun he => by
    rw [hconf] at he
    cases he
  have hboth := hwin.trans hext (.inl rfl)
  have hset := hinv.knows_settled hk
  have hsettle := (hboth.inv hinv).by_settle (n := n) (T := s.term n) (i := i)
    (update_self _ _ _)
    (by dsimp only; omega)
    (by
      dsimp only
      rw [update_self, List.length_append]
      exact hk.1.trans (Nat.le_add_right _ _))
    (by
      refine Settled.mono hboth.le le_rfl ?_
      dsimp only
      rw [update_self, List.take_append_of_le_length hk.1]
      exact hset)
  refine ⟨_, hboth.trans hsettle (.inl rfl), rfl, rfl, rfl, rfl, ?_, update_self _ _ _⟩
  dsimp only
  rw [update_idem]

omit hinv in
/-- A leader extends its log by ordinary entries. -/
theorem Inv.by_extends {n : ν} {es : List ε} (hinv : s.Inv C)
    (hlead : s.lead (s.term n) = some n) (hterm : ∀ e ∈ es, C.termOf e = s.term n)
    (hconf : ∀ e ∈ es, C.isConf e = false) :
    ∃ s', By C n s s' ∧ s'.log = update s.log n (s.log n ++ es) ∧
      s'.llog = update s.llog (s.term n) (s.log n ++ es) ∧ s'.term = s.term ∧
      s'.vote = s.vote ∧ s'.lead = s.lead ∧ s'.lcommit = s.lcommit := by
  induction es generalizing s with
  | nil =>
    refine ⟨s, By.refl n s, ?_, ?_, rfl, rfl, rfl, rfl⟩
    · rw [List.append_nil, update_eq_self]
    · rw [List.append_nil, hinv.own hlead, update_eq_self]
  | cons e es ih =>
    have hby := hinv.by_extend hlead (hterm e (List.mem_cons_self ..)) fun he => by
      rw [hconf e (List.mem_cons_self ..)] at he
      cases he
    obtain ⟨s', hby', hlog, hllog, ht, hv, hl, hc⟩ := ih (hby.inv hinv) hlead
      (fun e' he' => hterm e' (List.mem_cons_of_mem _ he'))
      fun e' he' => hconf e' (List.mem_cons_of_mem _ he')
    dsimp only at hlog hllog
    refine ⟨s', hby.trans hby' (.inl (congrFun ht n)), ?_, ?_, ht, hv, hl, hc⟩
    · rw [hlog, update_self, update_idem, List.append_assoc]
      rfl
    · rw [hllog, update_self, update_idem, List.append_assoc]
      rfl

end

theorem Settled.of_isPrefix {T : ℕ} {l l' : List ε} (hs : s.Settled C T l') (hpre : l <+: l') :
    s.Settled C T l := by
  rcases hs with rfl | ⟨T', i, k, hc, hle, hpre'⟩
  · exact Or.inl (List.prefix_nil.1 hpre)
  · exact Or.inr ⟨T', i, k, hc, hle, hpre.trans hpre'⟩

end State

end Consensus
