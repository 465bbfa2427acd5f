import MicroRaft.Lib.Consensus.Scheme

/-!
# The abstract protocol

Election and replication over arbitrary nodes `ν` and entries `ε`, with the
history a proof needs as part of the state: who voted for whom in which term
and with which log, the log every candidate campaigned with, the growing log of
every leader, and which prefix of a leader's log every node has acknowledged.
Logs are never compacted here and nothing is forgotten, so each of these
components only grows (`State.Le`).

A log prefix is *committed* by a term when a quorum of the configuration of some
prefix of the leader's log has acknowledged an entry of that term
(`State.Chosen`).
-/

namespace Consensus

/-- The state of the protocol together with its history. -/
structure State (ν ε : Type) where
  term : ν → ℕ
  log : ν → List ε
  vote : ν → ℕ → Option ν
  /-- The log a node held when it voted. -/
  voteLog : ν → ℕ → List ε
  /-- The vote was cast before the term had a leader. -/
  early : ν → ℕ → Prop
  /-- The log a node campaigned with. -/
  camp : ν → ℕ → Option (List ε)
  lead : ℕ → Option ν
  /-- The log the leader of a term was elected with. -/
  base : ℕ → List ε
  /-- The log of the leader of a term. -/
  llog : ℕ → List ε
  /-- The node has held this long a prefix of the leader's log in that term. -/
  ack : ν → ℕ → ℕ → Prop
  /-- How much of its log the leader of a term knows to be committed. -/
  lcommit : ℕ → ℕ

namespace State

variable {ν ε : Type} (C : Scheme ν ε)

/-- Nothing has happened. -/
def init : State ν ε where
  term _ := 0
  log _ := []
  vote _ _ := none
  voteLog _ _ := []
  early _ _ := False
  camp _ _ := none
  lead _ := none
  base _ := []
  llog _ := []
  ack _ _ _ := False
  lcommit _ := 0

/-! ## Commitment -/

/-- A quorum has acknowledged the first `i` entries of the leader's log of term `T`, the
last of which is of that term; the quorum is one of the leader's first `k` entries. -/
structure Chosen (s : State ν ε) (T i k : ℕ) : Prop where
  led : s.lead T ≠ none
  le : i ≤ k
  le_length : k ≤ (s.llog T).length
  own : C.lastTerm ((s.llog T).take i) = T
  quorum : ∃ S, C.Quorum (C.conf ((s.llog T).take k)) S ∧ ∀ v ∈ S, s.ack v T i

/-- A log that lies within what some term up to `T` has committed. -/
def Settled (s : State ν ε) (T : ℕ) (l : List ε) : Prop :=
  l = [] ∨ ∃ T' i k, s.Chosen C T' i k ∧ T' ≤ T ∧ l <+: (s.llog T').take i

/-- Node `v` knows its first `i` entries to be committed. -/
def Knows (s : State ν ε) (v : ν) (i : ℕ) : Prop :=
  i ≤ (s.log v).length ∧
    (i = 0 ∨ ∃ T, T ≤ s.term v ∧ s.lead T ≠ none ∧ i ≤ s.lcommit T ∧
      (s.log v).take i <+: s.llog T)

/-- Node `n` has won the votes of a quorum of the log it campaigned with. -/
def Won (s : State ν ε) (T : ℕ) (n : ν) (c : List ε) : Prop :=
  s.camp n T = some c ∧ ∃ S, C.Quorum (C.conf c) S ∧ ∀ v ∈ S, s.vote v T = some n

/-! ## Growth of the history -/

/-- The history of `s` is contained in that of `s'`. -/
structure Le (s s' : State ν ε) : Prop where
  term : ∀ v, s.term v ≤ s'.term v
  vote : ∀ {v T n}, s.vote v T = some n →
    s'.vote v T = some n ∧ s'.voteLog v T = s.voteLog v T ∧ (s.early v T → s'.early v T)
  camp : ∀ {n T c}, s.camp n T = some c → s'.camp n T = some c
  lead : ∀ {T n}, s.lead T = some n →
    s'.lead T = some n ∧ s'.base T = s.base T ∧ s.llog T <+: s'.llog T
  ack : ∀ {v T i}, s.ack v T i → s'.ack v T i
  lcommit : ∀ T, s.lcommit T ≤ s'.lcommit T

variable {C} {s s' s'' : State ν ε}

theorem Le.refl (s : State ν ε) : Le s s where
  term _ := le_rfl
  vote h := ⟨h, rfl, id⟩
  camp h := h
  lead h := ⟨h, rfl, List.prefix_rfl⟩
  ack h := h
  lcommit _ := le_rfl

theorem Le.trans (h : Le s s') (h' : Le s' s'') : Le s s'' where
  term v := (h.term v).trans (h'.term v)
  vote hv := by
    obtain ⟨h₁, h₂, h₃⟩ := h.vote hv
    obtain ⟨h₁', h₂', h₃'⟩ := h'.vote h₁
    exact ⟨h₁', h₂'.trans h₂, fun he => h₃' (h₃ he)⟩
  camp hc := h'.camp (h.camp hc)
  lead hl := by
    obtain ⟨h₁, h₂, h₃⟩ := h.lead hl
    obtain ⟨h₁', h₂', h₃'⟩ := h'.lead h₁
    exact ⟨h₁', h₂'.trans h₂, h₃.trans h₃'⟩
  ack ha := h'.ack (h.ack ha)
  lcommit T := (h.lcommit T).trans (h'.lcommit T)

theorem Le.led (h : Le s s') {T : ℕ} (hl : s.lead T ≠ none) : s'.lead T ≠ none := by
  obtain ⟨n, hn⟩ := Option.ne_none_iff_exists'.1 hl
  rw [(h.lead hn).1]
  simp

theorem Le.llog (h : Le s s') {T : ℕ} (hl : s.lead T ≠ none) : s.llog T <+: s'.llog T := by
  obtain ⟨n, hn⟩ := Option.ne_none_iff_exists'.1 hl
  exact (h.lead hn).2.2

theorem Le.base (h : Le s s') {T : ℕ} (hl : s.lead T ≠ none) : s'.base T = s.base T := by
  obtain ⟨n, hn⟩ := Option.ne_none_iff_exists'.1 hl
  exact (h.lead hn).2.1

theorem Chosen.take_eq (h : Le s s') {T i k j : ℕ} (hc : s.Chosen C T i k) (hj : j ≤ k) :
    (s'.llog T).take j = (s.llog T).take j :=
  take_eq_of_isPrefix (h.llog hc.led) (hj.trans hc.le_length)

theorem Chosen.mono (h : Le s s') {T i k : ℕ} (hc : s.Chosen C T i k) : s'.Chosen C T i k where
  led := h.led hc.led
  le := hc.le
  le_length := hc.le_length.trans (h.llog hc.led).length_le
  own := by rw [Chosen.take_eq h hc hc.le]; exact hc.own
  quorum := by
    obtain ⟨S, hq, hS⟩ := hc.quorum
    rw [Chosen.take_eq h hc le_rfl]
    exact ⟨S, hq, fun v hv => h.ack (hS v hv)⟩

theorem Settled.mono (h : Le s s') {T T' : ℕ} (hT : T ≤ T') {l : List ε}
    (hs : s.Settled C T l) : s'.Settled C T' l := by
  rcases hs with rfl | ⟨T₀, i, k, hc, hle, hpre⟩
  · exact Or.inl rfl
  · exact Or.inr ⟨T₀, i, k, hc.mono h, hle.trans hT, by rwa [Chosen.take_eq h hc hc.le]⟩

/-! ## Moves -/

variable (C) [DecidableEq ν]

/-- A history with one more record. -/
def record {α : Type} (f : ν → ℕ → α) (v : ν) (T : ℕ) (x : α) : ν → ℕ → α :=
  fun v' T' => if v' = v ∧ T' = T then x else f v' T'

theorem record_self {α : Type} (f : ν → ℕ → α) (v : ν) (T : ℕ) (x : α) :
    record f v T x v T = x := by
  simp [record]

theorem record_of_ne {α : Type} (f : ν → ℕ → α) {v v' : ν} {T T' : ℕ} (x : α)
    (h : ¬ (v' = v ∧ T' = T)) : record f v T x v' T' = f v' T' := by
  rw [record, if_neg h]

open Function

/-- What can happen. Restarting a node changes nothing here: all of its state is durable. -/
inductive Move : State ν ε → State ν ε → Prop
  /-- A node hears of a newer term. -/
  | adopt (s : State ν ε) (v : ν) (T : ℕ) (hT : s.term v < T) :
      Move s { s with term := update s.term v T }
  /-- A node stands for election with its log, none of which is of the new term. -/
  | stand (s : State ν ε) (n : ν) (hpos : 0 < s.term n) (hnone : s.camp n (s.term n) = none)
      (hlt : ∀ e ∈ s.log n, C.termOf e < s.term n) :
      Move s { s with camp := record s.camp n (s.term n) (some (s.log n)) }
  /-- A node gives its free vote to a candidate that is up to date. -/
  | grant (s : State ν ε) (v n : ν) (c : List ε) (hfree : s.vote v (s.term v) = none)
      (hcamp : s.camp n (s.term v) = some c) (hutd : C.UpToDate c (s.log v)) :
      Move s { s with
        vote := record s.vote v (s.term v) (some n)
        voteLog := record s.voteLog v (s.term v) (s.log v)
        early := record s.early v (s.term v) (s.lead (s.term v) = none) }
  /-- A candidate that has won becomes the leader of its term. -/
  | win (s : State ν ε) (n : ν) (hwon : s.Won C (s.term n) n (s.log n))
      (hnew : s.lead (s.term n) ≠ some n) :
      Move s { s with
        lead := update s.lead (s.term n) (some n)
        base := update s.base (s.term n) (s.log n)
        llog := update s.llog (s.term n) (s.log n) }
  /-- A leader extends its log; a configuration entry waits until the older ones are
  committed. -/
  | extend (s : State ν ε) (n : ν) (e : ε) (hlead : s.lead (s.term n) = some n)
      (hterm : C.termOf e = s.term n)
      (hconf : C.isConf e = true → s.Settled C (s.term n) (C.stem (s.log n))) :
      Move s { s with
        log := update s.log n (s.log n ++ [e])
        llog := update s.llog (s.term n) (s.log n ++ [e]) }
  /-- A node replaces its log by a prefix of the leader's that its log does not contain. -/
  | accept (s : State ν ε) (v : ν) (m : ℕ) (hlead : s.lead (s.term v) ≠ none)
      (hnot : ¬ (s.llog (s.term v)).take m <+: s.log v) :
      Move s { s with log := update s.log v ((s.llog (s.term v)).take m) }
  /-- A node acknowledges a prefix of the leader's log that its log contains. -/
  | acknowledge (s : State ν ε) (v : ν) (m : ℕ) (hlead : s.lead (s.term v) ≠ none)
      (hm : m ≤ (s.llog (s.term v)).length) (hpre : (s.llog (s.term v)).take m <+: s.log v) :
      Move s { s with
        ack := record s.ack v (s.term v) fun i => s.ack v (s.term v) i ∨ i ≤ m }
  /-- A leader learns that a prefix of its log is committed. -/
  | settle (s : State ν ε) (T i : ℕ) (hlead : s.lead T ≠ none) (hi : s.lcommit T ≤ i)
      (hlen : i ≤ (s.llog T).length) (hset : s.Settled C T ((s.llog T).take i)) :
      Move s { s with lcommit := update s.lcommit T i }

/-- Finitely many moves. -/
abbrev Moves : State ν ε → State ν ε → Prop := Relation.ReflTransGen (Move C)

end State

end Consensus
