import MicroRaft.Cluster.Merge
import MicroRaft.Lib.Table

/-!
# Conflict backtracking

A follower that lacks the leader's anchor answers with a hint: the conflicting term
and the first index it has of it.  The leader looks the term up in its own log and
moves its retry cursor.  Both sides search by `partition_point` in logs whose terms
never decrease, and a snapshot boundary stands in for the entries below it, so the
results are stated over the uncompacted logs (`RaftNode.Whole`).
-/

namespace MicroRaft

open EffectM

/-! ## Whole logs -/

/-- The term at an index of an uncompacted log; index `0` stands before the log. -/
def termOf (H : List Entry) (i : Nat) : Nat := if i = 0 then 0 else (H[i - 1]?).elim 0 Entry.term

/-- The terms of a log never decrease. -/
def Ascending (H : List Entry) : Prop := H.Pairwise fun a b => a.term ≤ b.term

/-- The uncompacted log of a node. -/
structure RaftNode.Whole (n : RaftNode) (H : List Entry) : Prop where
  numbered : Numbered 0 H
  boundary : n.snapshotIndex ≤ H.length
  log : n.log = H.drop n.snapshotIndex
  term : n.snapshotTerm = termOf H n.snapshotIndex
  ascending : Ascending H
  current : ∀ e ∈ H, e.term ≤ n.hard.currentTerm

section Terms

variable {H : List Entry} {i j : Nat}

theorem termOf_succ {e : Entry} (h : H[i]? = some e) : termOf H (i + 1) = e.term := by
  simp [termOf, h]

theorem exists_entry (hpos : 0 < i) (hle : i ≤ H.length) :
    ∃ e, H[i - 1]? = some e ∧ e ∈ H ∧ termOf H i = e.term := by
  have hget := List.getElem?_eq_getElem (show i - 1 < H.length by omega)
  refine ⟨_, hget, List.mem_of_getElem? hget, ?_⟩
  rw [termOf, if_neg (by omega), hget]
  rfl

theorem Ascending.termOf_mono (h : Ascending H) (hij : i ≤ j) (hj : j ≤ H.length) :
    termOf H i ≤ termOf H j := by
  rcases Nat.eq_zero_or_pos i with rfl | hi
  · simp [termOf]
  rcases hij.eq_or_lt with rfl | hlt
  · exact le_rfl
  obtain ⟨e, he, -, hterm⟩ := exists_entry (H := H) hi (by omega)
  obtain ⟨e', he', -, hterm'⟩ := exists_entry (H := H) (i := j) (by omega) hj
  rw [hterm, hterm']
  have hsorted := List.pairwise_iff_getElem.1 h (i - 1) (j - 1) (by omega) (by omega)
    (by omega)
  rwa [(List.getElem?_eq_some_iff.1 he).2, (List.getElem?_eq_some_iff.1 he').2] at hsorted

end Terms

namespace RaftNode.Whole

variable {n : RaftNode} {H : List Entry}

theorem contiguous (h : n.Whole H) : n.Contiguous := by
  unfold Contiguous
  rw [h.log]
  simpa using h.numbered.drop n.snapshotIndex

theorem lastLogIndex (h : n.Whole H) : n.lastLogIndex = H.length := by
  have hb := h.boundary
  rw [h.contiguous.lastLogIndex, h.log, List.length_drop]
  omega

/-- Terms are available from the boundary to the end of the log. -/
theorem logTerm_eq (h : n.Whole H) (i : Nat) :
    n.logTerm i =
      if n.snapshotIndex ≤ i ∧ i ≤ H.length then some (termOf H i) else none := by
  have hb := h.boundary
  unfold logTerm entryAt
  by_cases hi : i = n.snapshotIndex
  · rw [if_pos hi, if_pos (by omega), hi, h.term]
  rw [if_neg hi]
  by_cases hlt : n.snapshotIndex < i
  · rw [if_pos hlt, h.log, List.getElem?_drop,
      show n.snapshotIndex + (i - n.snapshotIndex - 1) = i - 1 by omega]
    by_cases hle : i ≤ H.length
    · obtain ⟨e, he, -, hterm⟩ := exists_entry (H := H) (i := i) (by omega) hle
      rw [if_pos ⟨hlt.le, hle⟩, he, hterm]
      rfl
    · rw [if_neg (by omega), List.getElem?_eq_none (by omega)]
      rfl
  · rw [if_neg hlt, if_neg (by omega)]
    rfl

theorem termOf_le (h : n.Whole H) {i : Nat} (hle : i ≤ H.length) :
    termOf H i ≤ n.hard.currentTerm := by
  rcases Nat.eq_zero_or_pos i with rfl | hpos
  · simp [termOf]
  · obtain ⟨e, -, hmem, hterm⟩ := exists_entry hpos hle
    rw [hterm]
    exact h.current e hmem

theorem termAt_eq (h : n.Whole H) {i : Nat} (hret : n.snapshotIndex ≤ i) (hle : i ≤ H.length) :
    n.termAt i = termOf H i := by
  rw [termAt, h.logTerm_eq, if_pos ⟨hret, hle⟩]
  rfl

end RaftNode.Whole

/-! ## Binary searches -/

namespace RaftNode.Whole

variable {n : RaftNode} {H : List Entry}

theorem log_getElem? (h : n.Whole H) (k : Nat) : n.log[k]? = H[n.snapshotIndex + k]? := by
  rw [h.log, List.getElem?_drop]

/-- Where the leader's search for a term ends. -/
def stopOf (n : RaftNode) (t : Nat) : Nat := partitionPoint (fun e => decide (e.term ≤ t)) n.log

/-- Everything behind the search point has a later term. -/
theorem lt_termOf (h : n.Whole H) {t i : Nat} (hi : n.snapshotIndex + stopOf n t < i)
    (hle : i ≤ H.length) : t < termOf H i := by
  have hlen : n.log.length = H.length - n.snapshotIndex := by rw [h.log, List.length_drop]
  obtain ⟨e, he⟩ : ∃ e, n.log[stopOf n t]? = some e :=
    ⟨_, List.getElem?_eq_getElem (by omega)⟩
  have hterm := partitionPoint_stop he
  rw [h.log_getElem?] at he
  have hmono := h.ascending.termOf_mono (i := n.snapshotIndex + stopOf n t + 1) (j := i)
    (by omega) hle
  rw [termOf_succ he] at hmono
  simp only [decide_eq_false_iff_not, not_le] at hterm
  omega

/-- The entry right before the search point is the last one that is not later. -/
theorem entry_before (h : n.Whole H) {t : Nat} (hpos : 0 < stopOf n t) :
    ∃ e, n.log[stopOf n t - 1]? = some e ∧ e.index = n.snapshotIndex + stopOf n t ∧
      e.index ≤ H.length ∧ termOf H e.index = e.term ∧ e.term ≤ t := by
  have hlen : n.log.length = H.length - n.snapshotIndex := by rw [h.log, List.length_drop]
  have hle : stopOf n t ≤ n.log.length := partitionPoint_le
  obtain ⟨e, he⟩ : ∃ e, n.log[stopOf n t - 1]? = some e :=
    ⟨_, List.getElem?_eq_getElem (by omega)⟩
  have hterm := partitionPoint_lt (show stopOf n t - 1 < stopOf n t by omega) he
  have hget := he
  rw [h.log_getElem?] at hget
  have hindex := h.numbered _ _ hget
  have hof := termOf_succ hget
  rw [show n.snapshotIndex + (stopOf n t - 1) + 1 = e.index by omega] at hof
  exact ⟨e, he, by omega, by omega, hof, by simpa using hterm⟩

theorem lastIndexInTerm_eq (n : RaftNode) (t : Nat) : n.lastIndexInTerm t =
    match (if stopOf n t = 0 then none else n.log[stopOf n t - 1]?) with
    | some e => if e.term = t then some e.index
        else if n.snapshotTerm = t then some n.snapshotIndex else none
    | none => if n.snapshotTerm = t then some n.snapshotIndex else none := rfl

/-- The leader's search finds the last index of a term, boundary included. -/
theorem lastIndexInTerm_some (h : n.Whole H) {t j : Nat} (hj : n.lastIndexInTerm t = some j) :
    n.snapshotIndex ≤ j ∧ j ≤ H.length ∧ termOf H j = t ∧
      ∀ i, j < i → i ≤ H.length → t < termOf H i := by
  have hb := h.boundary
  rw [lastIndexInTerm_eq] at hj
  rcases Nat.eq_zero_or_pos (stopOf n t) with hzero | hpos
  · simp only [hzero, if_true] at hj
    split at hj
    · next hterm =>
        cases hj
        refine ⟨le_rfl, hb, by rw [← h.term, hterm], fun i hi hle => h.lt_termOf ?_ hle⟩
        omega
    · cases hj
  · obtain ⟨e, he, hindex, hlen, hof, hle⟩ := h.entry_before hpos
    simp only [he, if_neg hpos.ne'] at hj
    split at hj
    · next hterm =>
        cases hj
        exact ⟨by omega, hlen, by rw [hof, hterm], fun i hi hle => h.lt_termOf (by omega) hle⟩
    · next hne =>
        split at hj
        · next hterm =>
            -- the boundary cannot have the term when the entry behind it is older
            have hmono := h.ascending.termOf_mono (i := n.snapshotIndex) (j := e.index)
              (by omega) hlen
            rw [hof, ← h.term, hterm] at hmono
            exact absurd (le_antisymm hle hmono) hne
        · cases hj

/-- A term the search does not find is nowhere in what the node retains. -/
theorem lastIndexInTerm_none (h : n.Whole H) {t : Nat} (hj : n.lastIndexInTerm t = none) {i : Nat}
    (hret : n.snapshotIndex ≤ i) (hle : i ≤ H.length) : termOf H i ≠ t := by
  rw [lastIndexInTerm_eq] at hj
  by_cases habove : n.snapshotIndex + stopOf n t < i
  · exact (h.lt_termOf habove hle).ne'
  rcases Nat.eq_zero_or_pos (stopOf n t) with hzero | hpos
  · simp only [hzero, if_true] at hj
    split at hj
    · cases hj
    · next hne =>
        rwa [show i = n.snapshotIndex by omega, ← h.term]
  · obtain ⟨e, he, hindex, hlen, hof, hterm⟩ := h.entry_before hpos
    simp only [he, if_neg hpos.ne'] at hj
    split at hj
    · cases hj
    · next hne =>
        have hmono := h.ascending.termOf_mono (i := i) (j := e.index) (by omega) hlen
        rw [hof] at hmono
        omega

theorem appendConflictHint_of_term {p t : Nat} (hterm : n.logTerm p = some (t + 1)) :
    n.appendConflictHint p =
      if n.snapshotTerm = t + 1 then some (some ⟨p, some (t + 1), n.snapshotIndex⟩)
      else (n.log[partitionPoint (fun e => decide (e.term < t + 1)) n.log]?).map fun e =>
        some ⟨p, some (t + 1), e.index⟩ := by
  unfold appendConflictHint
  rw [hterm]
  rfl

/-- The follower's hint names the conflicting term and the first index it has of it, or the end
of a log that is too short.  There is none for an entry of term `0`, which no election makes. -/
theorem appendConflictHint_spec (h : n.Whole H) {p : Nat} (hpos : 0 < p) (hmax : p ≤ u64Max)
    (hret : n.snapshotIndex ≤ p) :
    (p ≤ H.length ∧ 0 < termOf H p ∧
      ∃ f, n.appendConflictHint p = some (some ⟨p, some (termOf H p), f⟩) ∧ 0 < f ∧
        f ≤ p ∧ termOf H f = termOf H p ∧
        (f = n.snapshotIndex ∨ ∀ i < f, termOf H i < termOf H p)) ∨
    (H.length < p ∧ n.appendConflictHint p = some (some ⟨p, none, H.length + 1⟩)) ∨
    (p ≤ H.length ∧ termOf H p = 0 ∧ n.appendConflictHint p = some none) := by
  by_cases hle : p ≤ H.length
  · have hterm : n.logTerm p = some (termOf H p) := by rw [h.logTerm_eq, if_pos ⟨hret, hle⟩]
    cases ht : termOf H p with
    | zero =>
      refine Or.inr (Or.inr ⟨hle, rfl, ?_⟩)
      rw [appendConflictHint, hterm, ht]
      rfl
    | succ t =>
    refine Or.inl ⟨hle, Nat.succ_pos t, ?_⟩
    rw [ht] at hterm
    rw [appendConflictHint_of_term hterm]
    by_cases hsnap : n.snapshotTerm = t + 1
    · rw [if_pos hsnap]
      have hof : termOf H n.snapshotIndex = t + 1 := by rw [← h.term, hsnap]
      refine ⟨n.snapshotIndex, rfl, ?_, hret, hof, Or.inl rfl⟩
      rcases Nat.eq_zero_or_pos n.snapshotIndex with hzero | hpos
      · rw [hzero] at hof
        simp [termOf] at hof
      · exact hpos
    · rw [if_neg hsnap]
      have hne : p ≠ n.snapshotIndex := by
        rintro rfl
        exact hsnap (by rw [h.term, ht])
      -- the entry at the rejected index itself bounds the search
      obtain ⟨e, he, -, heterm⟩ := exists_entry (H := H) hpos hle
      have hget : n.log[p - n.snapshotIndex - 1]? = some e := by
        rw [h.log_getElem?, show n.snapshotIndex + (p - n.snapshotIndex - 1) = p - 1 by omega, he]
      have hstop : partitionPoint (fun e => decide (e.term < t + 1)) n.log ≤
          p - n.snapshotIndex - 1 := partitionPoint_le_of hget (by simp; omega)
      have hlen := (List.getElem?_eq_some_iff.1 hget).1
      obtain ⟨first, hfirst⟩ : ∃ first,
          n.log[partitionPoint (fun e => decide (e.term < t + 1)) n.log]? = some first :=
        ⟨_, List.getElem?_eq_getElem (by omega)⟩
      have hnot := partitionPoint_stop hfirst
      simp only [decide_eq_false_iff_not, not_lt] at hnot
      have hin := hfirst
      rw [h.log_getElem?] at hin
      have hindex := h.numbered _ _ hin
      have hof := termOf_succ hin
      rw [show n.snapshotIndex + partitionPoint (fun e => decide (e.term < t + 1)) n.log + 1 =
        first.index by omega] at hof
      have hfle : first.index ≤ p := by omega
      have hmono := h.ascending.termOf_mono hfle hle
      refine ⟨first.index, by rw [hfirst]; rfl, by omega, hfle, by omega, Or.inr ?_⟩
      intro i hi
      rcases Nat.lt_or_ge n.snapshotIndex i with hlt | hge
      · obtain ⟨e', he', -, heterm'⟩ := exists_entry (H := H) (i := i) (by omega) (by omega)
        have hget' : n.log[i - n.snapshotIndex - 1]? = some e' := by
          rw [h.log_getElem?,
            show n.snapshotIndex + (i - n.snapshotIndex - 1) = i - 1 by omega, he']
        have hpass := partitionPoint_lt (show i - n.snapshotIndex - 1 <
          partitionPoint (fun e => decide (e.term < t + 1)) n.log by omega) hget'
        simp only [decide_eq_true_eq] at hpass
        omega
      · have hbound := h.ascending.termOf_mono hge h.boundary
        have hbelow := h.ascending.termOf_mono hret hle
        rw [← h.term] at hbound hbelow
        omega
  · refine Or.inr (Or.inl ⟨not_le.1 hle, ?_⟩)
    have hterm : n.logTerm p = none := by rw [h.logTerm_eq, if_neg (by omega)]
    unfold appendConflictHint
    rw [hterm, h.lastLogIndex]
    simp [checkedAdd, show H.length + 1 ≤ u64Max by omega]

end RaftNode.Whole

/-! ## Common prefixes -/

/-- How far two logs agree. -/
def commonPrefix : List Entry → List Entry → Nat
  | a :: l, b :: l' => if a = b then commonPrefix l l' + 1 else 0
  | _, _ => 0

section Prefixes

variable {H H' K : List Entry} {i : Nat}

theorem commonPrefix_le (H H' : List Entry) :
    commonPrefix H H' ≤ H.length ∧ commonPrefix H H' ≤ H'.length := by
  induction H generalizing H' with
  | nil => simp [commonPrefix]
  | cons a l ih =>
    cases H' with
    | nil => simp [commonPrefix]
    | cons b l' =>
      have := ih l'
      simp only [commonPrefix, List.length_cons]
      split <;> omega

theorem take_commonPrefix (H H' : List Entry) :
    H.take (commonPrefix H H') = H'.take (commonPrefix H H') := by
  induction H generalizing H' with
  | nil => simp [commonPrefix]
  | cons a l ih =>
    cases H' with
    | nil => simp [commonPrefix]
    | cons b l' =>
      simp only [commonPrefix]
      split
      · next heq => rw [List.take_succ_cons, List.take_succ_cons, ih, heq]
      · simp

/-- It is the longest prefix on which they agree. -/
theorem le_commonPrefix (hi : i ≤ H.length) (hi' : i ≤ H'.length) (h : H.take i = H'.take i) :
    i ≤ commonPrefix H H' := by
  induction H generalizing H' i with
  | nil => simp_all
  | cons a l ih =>
    cases H' with
    | nil => simp_all
    | cons b l' =>
      cases i with
      | zero => exact Nat.zero_le _
      | succ i =>
        rw [List.take_succ_cons, List.take_succ_cons, List.cons.injEq] at h
        rw [commonPrefix, if_pos h.1]
        have := ih (by simpa using hi) (by simpa using hi') h.2
        omega

theorem commonPrefix_mono (h : H <+: K) (H' : List Entry) :
    commonPrefix H H' ≤ commonPrefix K H' := by
  obtain ⟨hle, hle'⟩ := commonPrefix_le H H'
  obtain ⟨rest, rfl⟩ := h
  refine le_commonPrefix ?_ hle' ?_
  · rw [List.length_append]
    omega
  · rw [List.take_append_of_le_length hle, take_commonPrefix]

theorem termOf_of_take {m : Nat} (h : H.take m = H'.take m) (hi : i ≤ m) :
    termOf H i = termOf H' i := by
  rcases Nat.eq_zero_or_pos i with rfl | hpos
  · simp [termOf]
  · have hget : H[i - 1]? = H'[i - 1]? := by
      have hsame : (H.take m)[i - 1]? = (H'.take m)[i - 1]? := by rw [h]
      rwa [List.getElem?_take, List.getElem?_take, if_pos (by omega), if_pos (by omega)] at hsame
    rw [termOf, termOf, hget]

end Prefixes

/-! ## The leader's answer to a hint -/

section Retreat

variable {L F : RaftNode} {HL HF : List Entry} {p : Nat} {hint : AppendConflictHint}

/-- The follower lacks the leader's anchor. -/
structure Lacks (F : RaftNode) (HL : List Entry) (p : Nat) : Prop where
  anchored : p ≤ HL.length
  retained : F.snapshotIndex ≤ p
  lacking : F.logTerm p ≠ some (termOf HL p)
  bounded : p ≤ u64Max

theorem Lacks.pos (h : Lacks F HL p) (hF : F.Whole HF) : 0 < p := by
  rcases Nat.eq_zero_or_pos p with rfl | hpos
  · have hret := h.retained
    refine absurd ?_ h.lacking
    rw [hF.logTerm_eq, if_pos ⟨hret, Nat.zero_le _⟩]
    simp [termOf]
  · exact hpos

/-- The anchor lies behind the common prefix. -/
theorem Lacks.prefix_lt (h : Lacks F HL p) (hF : F.Whole HF) : commonPrefix HL HF < p := by
  by_contra hle
  have hbound := (commonPrefix_le HL HF).2
  refine h.lacking ?_
  rw [hF.logTerm_eq, if_pos ⟨h.retained, by omega⟩,
    termOf_of_take (take_commonPrefix HL HF) (not_lt.1 hle)]

/-- Every hint the follower gives passes the leader's checks. -/
theorem Lacks.valid (h : Lacks F HL p) (hL : L.Whole HL) (hF : F.Whole HF)
    (hsame : F.hard.currentTerm = L.hard.currentTerm)
    (hhint : F.appendConflictHint p = some (some hint)) :
    L.validHint L.hard.currentTerm false F.lastLogIndex hint = true := by
  have hpos := h.pos hF
  rcases hF.appendConflictHint_spec hpos h.bounded h.retained with
    ⟨hle, hterm0, f, hspec, hf, hfp, hterm, -⟩ | ⟨hlt, hspec⟩ | ⟨-, -, hspec⟩ <;>
  rw [hspec] at hhint <;> cases hhint
  · have hlack := h.lacking
    rw [hF.logTerm_eq, if_pos ⟨h.retained, hle⟩] at hlack
    have hother : L.logTerm p ≠ some (termOf HF p) := by
      rw [hL.logTerm_eq]
      split
      · exact fun hcon => hlack hcon.symm
      · simp
    have hcurrent := hF.termOf_le hle
    rw [hsame] at hcurrent
    simp [RaftNode.validHint, hf, hfp, hterm0, hcurrent, hF.lastLogIndex, hle, hother]
  · have hadd : checkedAdd HF.length 1 = some (HF.length + 1) := by
      have := h.bounded
      simp only [checkedAdd]
      rw [if_pos (by omega)]
    simp [RaftNode.validHint, hF.lastLogIndex, hadd]
    omega

/-- Where the cursor of a peer goes after a rejected probe. -/
def retreat (candidate next matched : Nat) : Nat :=
  max (min candidate (next - 1)) (max (saturatingAdd matched 1) 1)

/-- The cursor strictly decreases, stays above what is confirmed, and does not pass the common
prefix unless the leader has compacted it. -/
theorem Lacks.retreats (h : Lacks F HL p) (hL : L.Whole HL) (hF : F.Whole HF) {m : Nat}
    (hm : m < p) (hhint : F.appendConflictHint p = some (some hint)) :
    retreat (L.hintedNext hint) (p + 1) m < p + 1 ∧
      m + 1 ≤ retreat (L.hintedNext hint) (p + 1) m ∧
      (commonPrefix HL HF + 1 ≤ retreat (L.hintedNext hint) (p + 1) m ∨
        retreat (L.hintedNext hint) (p + 1) m ≤ L.snapshotIndex) := by
  have hpos := h.pos hF
  have hbounded := h.bounded
  have hbelow := h.prefix_lt hF
  obtain ⟨hcL, hcF⟩ := commonPrefix_le HL HF
  have hfloor : saturatingAdd m 1 = m + 1 := min_eq_left (hm.trans_le hbounded)
  unfold retreat
  rw [hfloor, Nat.add_sub_cancel]
  refine ⟨by omega, by omega, ?_⟩
  rcases hF.appendConflictHint_spec hpos hbounded h.retained with
    ⟨hle, -, f, hspec, hf, hfp, hterm, -⟩ | ⟨hlt, hspec⟩ | ⟨-, -, hspec⟩ <;>
  rw [hspec] at hhint <;> cases hhint
  · -- the last entry both logs share is not newer than the conflicting one
    have hshared : termOf HL (commonPrefix HL HF) = termOf HF (commonPrefix HL HF) :=
      termOf_of_take (take_commonPrefix HL HF) le_rfl
    have hmono := hF.ascending.termOf_mono hbelow.le hle
    cases hlast : L.lastIndexInTerm (termOf HF p) with
    | some j =>
      obtain ⟨hret, hjle, hjterm, hnewer⟩ := hL.lastIndexInTerm_some hlast
      have hj : commonPrefix HL HF ≤ j := by
        by_contra hcon
        have := hnewer _ (not_le.1 hcon) hcL
        omega
      have hnext : L.hintedNext ⟨p, some (termOf HF p), f⟩ = saturatingAdd j 1 := by
        simp [RaftNode.hintedNext, hlast]
      have hfar : commonPrefix HL HF + 1 ≤ saturatingAdd j 1 :=
        le_min (by omega) (hbelow.trans_le hbounded)
      rw [hnext]
      left
      omega
    | none =>
      have hnext : L.hintedNext ⟨p, some (termOf HF p), f⟩ = f := by
        simp [RaftNode.hintedNext, hlast]
      rw [hnext]
      by_cases hfc : commonPrefix HL HF < f
      · left
        omega
      · -- the leader shares the term, so it can only lack it below its boundary
        have hmono' := hF.ascending.termOf_mono (not_lt.1 hfc) hcF
        have hcompacted : commonPrefix HL HF < L.snapshotIndex := by
          by_contra hcon
          exact hL.lastIndexInTerm_none hlast (not_lt.1 hcon) hcL (by omega)
        by_cases hmc : commonPrefix HL HF ≤ m
        · left
          omega
        · right
          omega
  · have hnext : L.hintedNext ⟨p, none, HF.length + 1⟩ = HF.length + 1 := rfl
    rw [hnext]
    left
    omega

/-- A hint answers the anchor it was asked about. -/
theorem Lacks.rejected (h : Lacks F HL p) (hF : F.Whole HF)
    (hhint : F.appendConflictHint p = some (some hint)) : hint.rejectedIndex = p := by
  rcases hF.appendConflictHint_spec (h.pos hF) h.bounded h.retained with
    ⟨-, -, f, hspec, -⟩ | ⟨-, hspec⟩ | ⟨-, -, hspec⟩ <;>
  rw [hspec] at hhint <;> cases hhint <;> rfl

end Retreat

/-! ## The reply at the leader -/

/-- The leader's next and match index for a peer it tracks. -/
def RaftNode.cursor (n : RaftNode) (peer : NodeId) : Option (Nat × Nat) :=
  match n.role with
  | .leader next matched => (next[peer]?).bind fun k => (matched[peer]?).map fun m => (k, m)
  | _ => none

theorem RaftNode.cursor_eq_some {n : RaftNode} {peer : NodeId} {k m : Nat} :
    n.cursor peer = some (k, m) ↔ ∃ next matched, n.role = .leader next matched ∧
      next[peer]? = some k ∧ matched[peer]? = some m := by
  unfold cursor
  cases hrole : n.role with
  | leader next matched =>
    cases hk : next[peer]? with
    | none => simp [hk]
    | some k' => cases hm : matched[peer]? <;> simp [hk, hm]
  | _ => simp

section Reply

variable {L L' : RaftNode} {peer : NodeId} {term matchIndex round : Nat} {es : List Effect}
variable {hint : AppendConflictHint} {k m : Nat}

/-- A valid hint for the current anchor moves the cursor, and nothing else of the progress. -/
theorem onAppendEntriesReply_hint (hterm : term = L.hard.currentTerm)
    (hcursor : L.cursor peer = some (k, m))
    (hvalid : L.validHint term false matchIndex hint = true) (hanchor : hint.rejectedIndex = k - 1)
    (habove : m < k - 1)
    (h : onAppendEntriesReply peer term false matchIndex round (some hint) L =
      some ((), L', es)) :
    L'.cursor peer = some (retreat (L.hintedNext hint) k m, m) ∧
      L'.hard = L.hard ∧ L'.log = L.log ∧ L'.snapshot = L.snapshot ∧ es = [] := by
  obtain ⟨next, matched, hrole, hk, hm⟩ := RaftNode.cursor_eq_some.1 hcursor
  unfold onAppendEntriesReply at h
  rw [peek_bind, if_neg (not_not.2 hterm), if_neg (by simp), if_neg (by simp [hvalid])] at h
  simp only [hrole, hk, hm] at h
  rw [if_neg (by simp [hanchor]; omega), update_bind] at h
  cases h
  refine ⟨RaftNode.cursor_eq_some.2 ⟨_, matched, rfl, ?_, hm⟩, rfl, rfl, rfl, rfl⟩
  rw [Table.getElem?_insert, if_pos rfl]
  rfl

/-- A malformed hint, or one for another anchor, changes nothing at all. -/
theorem onAppendEntriesReply_ignored {success : Bool}
    (hbad : L.validHint term success matchIndex hint = false ∨
      ∀ k m, L.cursor peer = some (k, m) → hint.rejectedIndex ≠ k - 1 ∨ hint.rejectedIndex ≤ m) :
    onAppendEntriesReply peer term success matchIndex round (some hint) L = some ((), L, []) := by
  unfold onAppendEntriesReply
  rw [peek_bind]
  split
  · rfl
  split
  · rfl
  split
  · rfl
  next hvalid =>
  cases hrole : L.role with
  | leader next matched =>
    cases hk : next[peer]? with
    | none => simp only [hk]; rfl
    | some k =>
    cases hm : matched[peer]? with
    | none => simp only [hk, hm]; rfl
    | some m =>
    simp only [hk, hm]
    rcases hbad with hinvalid | hother
    · simp [hinvalid] at hvalid
    · rw [if_pos]
      · rfl
      · rcases hother k m (RaftNode.cursor_eq_some.2 ⟨next, matched, hrole, hk, hm⟩) with h | h
        · simp [h]
        · simp [h]
  | _ => rfl

end Reply

/-! ## Rejected probes -/

/-- The leader probes a peer at its current anchor, the peer rejects the anchor, and the leader
takes the rejection. -/
inductive Exchange (peer : NodeId) (F F' L L' : RaftNode) : Prop
  | mk {k m last commit round : Nat} {entries : List Entry} {es es' : List Effect}
      {conflict : Option AppendConflictHint}
      (hcursor : L.cursor peer = some (k, m)) (hsends : L.snapshotIndex < k)
      (hreach : k ≤ L.lastLogIndex + 1) (habove : m < k - 1)
      (hanswer : onAppendEntries L.hard.currentTerm L.id (k - 1) (L.termAt (k - 1)) entries last
        commit round F = some ((), F', es))
      (hlack : F.logTerm (k - 1) ≠ some (L.termAt (k - 1)))
      (hreply : .send L.id (.appendEntriesReply F.hard.currentTerm false F.lastLogIndex round
        conflict) ∈ es)
      (hreturn : onAppendEntriesReply peer F.hard.currentTerm false F.lastLogIndex round conflict
        L = some ((), L', es'))

/-- Log matching across a term: entries of one term are from one log, so two logs that have such
entries agree up to the lower of the two. -/
def SharedTerms (H H' : List Entry) : Prop :=
  ∀ i j e e', H[i]? = some e → H'[j]? = some e' → e.term = e'.term →
    H.take (min i j + 1) = H'.take (min i j + 1)

/-- Log matching: an entry at one index with one term in both logs makes them agree up to it. -/
def LogMatching (H H' : List Entry) : Prop :=
  ∀ i e e', H[i]? = some e → H'[i]? = some e' → e.term = e'.term →
    H.take (i + 1) = H'.take (i + 1)

/-- Rejected probes in a row, with a relation that all along holds between the two logs.  Of the
follower only the log stays: answering a probe renews its timers, and between two probes it may
compact, as the leader may append to its log and compact it. -/
inductive ProbeRun (Match : List Entry → List Entry → Prop) (peer : NodeId) (HF : List Entry) :
    RaftNode → RaftNode → List Entry → Nat → Prop
  | done {F L : RaftNode} {HL : List Entry} : ProbeRun Match peer HF F L HL 0
  | reject {F F₁ F₂ L L₁ L₂ : RaftNode} {HL HL₂ : List Entry} {count : Nat}
      (hexchange : Exchange peer F F₁ L L₁)
      (hfollower : F₂.Whole HF) (hcompact : F₁.snapshotIndex ≤ F₂.snapshotIndex)
      (hstay : F₂.hard.currentTerm = F₁.hard.currentTerm)
      (hcursor : L₂.cursor peer = L₁.cursor peer)
      (hterm : L₂.hard.currentTerm = L₁.hard.currentTerm) (hgrow : HL <+: HL₂)
      (hwhole : L₂.Whole HL₂) (hmatch : Match HL₂ HF) (hmax : HL₂.length ≤ u64Max)
      (hrest : ProbeRun Match peer HF F₂ L₂ HL₂ count) :
      ProbeRun Match peer HF F L HL (count + 1)

/-- A term the leader also has ends, in its log, before the conflict and on common ground. -/
theorem SharedTerms.lastIndex_lt {F : RaftNode} {HL HF : List Entry} {p j : Nat}
    (hshared : SharedTerms HL HF) (hlacks : Lacks F HL p) (hF : F.Whole HF) (hjle : j ≤ HL.length)
    (hterm : 0 < termOf HF p) (hjterm : termOf HL j = termOf HF p) (hle : p ≤ HF.length) :
    j < p ∧ termOf HL j = termOf HF j := by
  have hpos := hlacks.pos hF
  have hjpos : 0 < j := by
    rcases Nat.eq_zero_or_pos j with rfl | hjpos
    · rw [← hjterm] at hterm
      simp [termOf] at hterm
    · exact hjpos
  obtain ⟨e, he, -, heterm⟩ := exists_entry hjpos hjle
  obtain ⟨e', he', -, heterm'⟩ := exists_entry hpos hle
  have htake := hshared (j - 1) (p - 1) e e' he he' (by omega)
  have hlt : j < p := by
    by_contra hcon
    refine hlacks.lacking ?_
    rw [hF.logTerm_eq, if_pos ⟨hlacks.retained, hle⟩, termOf_of_take htake (by omega)]
  exact ⟨hlt, termOf_of_take htake (by omega)⟩

section Probing

variable {Match : List Entry → List Entry → Prop} {peer : NodeId} {F F' L L' : RaftNode}
variable {HF HL : List Entry}

/-- A rejected anchor is one the follower lacks; the rejection leaves its log as it was. -/
theorem Exchange.lacks (h : Exchange peer F F' L L') (hL : L.Whole HL)
    (hsame : F.hard.currentTerm = L.hard.currentTerm) (hmax : HL.length ≤ u64Max) :
    ∃ k m round conflict es', L.cursor peer = some (k, m) ∧ m < k - 1 ∧ Lacks F HL (k - 1) ∧
      F.appendConflictHint (k - 1) = some conflict ∧
      onAppendEntriesReply peer F.hard.currentTerm false F.lastLogIndex round conflict L =
        some ((), L', es') ∧
      F'.log = F.log ∧ F'.snapshot = F.snapshot ∧ F'.hard = F.hard := by
  obtain ⟨hcursor, hsends, hreach, habove, hanswer, hlack, hreply, hreturn⟩ := h
  rename_i k m last commit round entries es es' conflict
  rw [hL.lastLogIndex] at hreach
  have hterm : L.termAt (k - 1) = termOf HL (k - 1) := hL.termAt_eq (by omega) (by omega)
  -- the only reply of this form is the one that rejects the anchor
  rcases onAppendEntries_inv hanswer with
    ⟨ha, -⟩ | ⟨hlog, hsnapshot, hhard, notes, reply, rfl, hnotes, hrefusal⟩
  · exact absurd ha.anchored hlack
  have hmem : .send L.id (.appendEntriesReply F.hard.currentTerm false F.lastLogIndex round
      conflict) = reply := by
    rcases List.mem_append.1 hreply with hmem | hmem
    · cases (hnotes _ hmem).2
    · exact List.mem_singleton.1 hmem
  rw [← hmem] at hrefusal
  cases hrefusal with
  | anchor hret hne hhint =>
    exact ⟨k, m, round, conflict, es', hcursor, habove, ⟨by omega, hret, hterm ▸ hlack, by omega⟩,
      hhint, hreturn, hlog, hsnapshot, hhard⟩
  | plain hother =>
    rcases hother with hstale | hhas
    · omega
    · exact absurd hhas hlack

/-- What one exchange does to the leader's cursor, for a follower whose entries all have a
term. -/
theorem Exchange.spec (h : Exchange peer F F' L L') (hL : L.Whole HL) (hF : F.Whole HF)
    (hpositive : ∀ e ∈ HF, 0 < e.term) (hsame : F.hard.currentTerm = L.hard.currentTerm)
    (hmax : HL.length ≤ u64Max) :
    ∃ k m hint, L.cursor peer = some (k, m) ∧ m < k - 1 ∧
      Lacks F HL (k - 1) ∧ F.appendConflictHint (k - 1) = some (some hint) ∧
      L'.cursor peer = some (retreat (L.hintedNext hint) k m, m) ∧ L'.hard = L.hard ∧
      F'.snapshot = F.snapshot ∧ F'.hard = F.hard := by
  obtain ⟨k, m, round, conflict, es', hcursor, habove, hlacks, hhint, hreturn, -, hsnapshot,
    hhard⟩ := h.lacks hL hsame hmax
  obtain ⟨hint, rfl⟩ : ∃ hint, conflict = some hint := by
    rcases hF.appendConflictHint_spec (hlacks.pos hF) hlacks.bounded hlacks.retained with
      ⟨-, -, f, hspec, -⟩ | ⟨-, hspec⟩ | ⟨hle, hzero, -⟩
    · exact ⟨_, Option.some.inj (hhint.symm.trans hspec)⟩
    · exact ⟨_, Option.some.inj (hhint.symm.trans hspec)⟩
    · obtain ⟨e, -, hmem, hterm⟩ := exists_entry (hlacks.pos hF) hle
      have := hpositive e hmem
      omega
  have hvalid := hlacks.valid hL hF hsame hhint
  rw [← hsame] at hvalid
  obtain ⟨hmoved, hhard', -⟩ :=
    onAppendEntriesReply_hint hsame hcursor hvalid (hlacks.rejected hF hhint) habove hreturn
  exact ⟨k, m, hint, hcursor, habove, hlacks, hhint, hmoved, hhard', hsnapshot, hhard⟩

/-- Nothing is probed at an anchor that is already confirmed. -/
theorem ProbeRun.eq_zero_of_confirmed {count k m : Nat} (h : ProbeRun Match peer HF F L HL count)
    (hcursor : L.cursor peer = some (k, m)) (hle : k - 1 ≤ m) : count = 0 := by
  cases h with
  | done => rfl
  | reject hexchange =>
    obtain ⟨hcursor', -, -, habove, -⟩ := hexchange
    rw [hcursor] at hcursor'
    cases hcursor'
    omega

/-- Nothing is rejected at an anchor the follower has, or has compacted. -/
theorem ProbeRun.eq_zero_of_matched {count k m : Nat} (h : ProbeRun Match peer HF F L HL count)
    (hL : L.Whole HL) (hF : F.Whole HF) (hsame : F.hard.currentTerm = L.hard.currentTerm)
    (hmax : HL.length ≤ u64Max) (hcursor : L.cursor peer = some (k, m))
    (hagree : F.snapshotIndex ≤ k - 1 →
      k - 1 ≤ HF.length ∧ termOf HF (k - 1) = termOf HL (k - 1)) :
    count = 0 := by
  cases h with
  | done => rfl
  | reject hexchange =>
    obtain ⟨k', m', -, -, -, hcursor', -, hlacks, -⟩ := hexchange.lacks hL hsame hmax
    rw [hcursor] at hcursor'
    cases hcursor'
    obtain ⟨hle, hterm⟩ := hagree hlacks.retained
    refine absurd ?_ hlacks.lacking
    rw [hF.logTerm_eq, if_pos ⟨hlacks.retained, hle⟩, hterm]

/-- The terms of a log between two indices. -/
def termsBetween (H : List Entry) (c p : Nat) : Finset Nat :=
  (Finset.Ioc c (min p H.length)).image (termOf H)

theorem mem_termsBetween {H : List Entry} {c p i : Nat} (hc : c < i) (hp : i ≤ p)
    (hlen : i ≤ H.length) : termOf H i ∈ termsBetween H c p :=
  Finset.mem_image_of_mem _ (Finset.mem_Ioc.2 ⟨hc, le_min hp hlen⟩)

theorem termsBetween_subset {H : List Entry} {c p q : Nat} (h : q ≤ p) :
    termsBetween H c q ⊆ termsBetween H c p :=
  Finset.image_subset_image (Finset.Ioc_subset_Ioc_right (min_le_min_right _ h))

/-- Below the first index of a term there are strictly fewer terms. -/
theorem card_termsBetween_lt {H : List Entry} {c p f : Nat} (hcp : c < p) (hlen : p ≤ H.length)
    (hf : 0 < f) (hfp : f ≤ p) (hfirst : ∀ i < f, termOf H i < termOf H p) :
    (termsBetween H c (f - 1)).card < (termsBetween H c p).card := by
  refine Finset.card_lt_card (Finset.ssubset_iff_of_subset ?_ |>.2 ?_)
  · exact termsBetween_subset (by omega)
  · refine ⟨termOf H p, mem_termsBetween hcp le_rfl hlen, fun hcon => ?_⟩
    obtain ⟨i, hi, heq⟩ := Finset.mem_image.1 hcon
    have := hfirst i (by rw [Finset.mem_Ioc] at hi; omega)
    omega

/-- **Rejected probes.** One for a log that is too short, and one for each term behind the common
prefix. -/
theorem ProbeRun.count_le {count k m c : Nat} (h : ProbeRun SharedTerms peer HF F L HL count)
    (hL : L.Whole HL) (hF : F.Whole HF) (hpositive : ∀ e ∈ HF, 0 < e.term)
    (hsame : F.hard.currentTerm = L.hard.currentTerm)
    (hshared : SharedTerms HL HF) (hmax : HL.length ≤ u64Max) (hc : c ≤ commonPrefix HL HF)
    (hcursor : L.cursor peer = some (k, m)) :
    count ≤ (if HF.length < k - 1 then 1 else 0) + (termsBetween HF c (k - 1)).card := by
  induction h generalizing k m with
  | done => exact Nat.zero_le _
  | @reject F F₁ F₂ L L₁ L₂ HL HL₂ count hexchange hF₂ hcompact hstay hcursor₂ hterm hgrow hwhole
      hshared₂ hmax₂ hrest ih =>
    obtain ⟨k', m', hint, hcursor', habove, hlacks, hhint, hmoved, hhard₁, hsnapshot, hhard⟩ :=
      hexchange.spec hL hF hpositive hsame hmax
    rw [hcursor] at hcursor'
    cases hcursor'
    set p := k - 1 with hp
    have hkp : k = p + 1 := by omega
    have hbelow := hlacks.prefix_lt hF
    have hpos := hlacks.pos hF
    have hfloor : saturatingAdd m 1 = m + 1 := min_eq_left (habove.trans_le hlacks.bounded)
    have hsame₂ : F₂.hard.currentTerm = L₂.hard.currentTerm := by
      rw [hterm, hhard₁, hstay, hhard, hsame]
    rw [RaftNode.snapshotIndex_congr hsnapshot] at hcompact
    rw [hmoved] at hcursor₂
    -- the leader's log only grew, so the common prefix did not shrink
    have hrest_le := ih hwhole hF₂ hsame₂ hshared₂ hmax₂ (hc.trans (commonPrefix_mono hgrow HF))
      hcursor₂
    have hconfirmed := hrest.eq_zero_of_confirmed hcursor₂
    rcases hF.appendConflictHint_spec hpos hlacks.bounded hlacks.retained with
      ⟨hle, hterm0, f, hspec, hf, hfp, hfterm, hfirst⟩ | ⟨hlt, hspec⟩ | ⟨-, -, hspec⟩ <;>
    rw [hspec] at hhint <;> cases hhint
    · -- a conflicting term: what is left lies in front of it
      have hmem := mem_termsBetween (H := HF) (hc.trans_lt hbelow) le_rfl hle
      have hcard : 0 < (termsBetween HF c p).card := Finset.card_pos.2 ⟨_, hmem⟩
      rw [if_neg (by omega)]
      cases hlast : L.lastIndexInTerm (termOf HF p) with
      | some j =>
        -- the leader has the term, and its last entry of it is one the follower has
        obtain ⟨-, hjle, hjterm, -⟩ := hL.lastIndexInTerm_some hlast
        obtain ⟨hjp, hagree⟩ := hshared.lastIndex_lt hlacks hF hjle hterm0 hjterm hle
        have hnext : L.hintedNext ⟨p, some (termOf HF p), f⟩ = j + 1 := by
          have hsat : saturatingAdd j 1 = j + 1 := min_eq_left (hjp.trans_le hlacks.bounded)
          simp [RaftNode.hintedNext, hlast, hsat]
        rw [hnext, retreat, hfloor] at hcursor₂ hconfirmed
        by_cases hm : j ≤ m
        · have := hconfirmed (by omega)
          omega
        · have hk : max (min (j + 1) (k - 1)) (max (m + 1) 1) - 1 = j := by omega
          have hzero := hrest.eq_zero_of_matched hwhole hF₂ hsame₂ hmax₂ hcursor₂ (by
            rw [hk]
            intro _
            refine ⟨by omega, hagree.symm.trans ?_⟩
            obtain ⟨rest, rfl⟩ := hgrow
            exact termOf_of_take (m := j) (by rw [List.take_append_of_le_length hjle]) le_rfl)
          omega
      | none =>
        have hnext : L.hintedNext ⟨p, some (termOf HF p), f⟩ = f := by
          simp [RaftNode.hintedNext, hlast]
        rw [hnext, retreat, hfloor] at hcursor₂ hconfirmed hrest_le
        by_cases hm : f ≤ m + 1
        · have := hconfirmed (by omega)
          omega
        have hk : max (min f (k - 1)) (max (m + 1) 1) - 1 = f - 1 := by omega
        rcases hfirst with hboundary | hfirst
        · have hzero := hrest.eq_zero_of_matched hwhole hF₂ hsame₂ hmax₂ hcursor₂ (by
            rw [hk]
            omega)
          omega
        · have hfewer := card_termsBetween_lt (hc.trans_lt hbelow) hle hf hfp hfirst
          rw [hk, if_neg (by omega)] at hrest_le
          omega
    · -- the follower's log is too short: the next anchor is inside it
      have hnext : L.hintedNext ⟨p, none, HF.length + 1⟩ = HF.length + 1 := rfl
      rw [hnext, retreat, hfloor] at hrest_le hconfirmed
      rw [if_pos hlt]
      by_cases hm : m ≤ HF.length
      · have hcursor' : max (min (HF.length + 1) (k - 1)) (max (m + 1) 1) - 1 = HF.length := by
          omega
        rw [hcursor', if_neg (by omega)] at hrest_le
        have hsub := Finset.card_le_card (termsBetween_subset (H := HF) (c := c) hlt.le)
        omega
      · have := hconfirmed (by omega)
        omega

theorem card_termsBetween_le (H : List Entry) (c p : Nat) :
    (termsBetween H c p).card ≤ ((H.drop c).map Entry.term).toFinset.card := by
  refine Finset.card_le_card fun t ht => ?_
  obtain ⟨i, hi, rfl⟩ := Finset.mem_image.1 ht
  rw [Finset.mem_Ioc] at hi
  obtain ⟨e, he, -, hterm⟩ := exists_entry (H := H) (i := i) (by omega) (by omega)
  rw [hterm, List.mem_toFinset]
  refine List.mem_map_of_mem (List.mem_of_getElem? (i := i - 1 - c) ?_)
  rw [List.getElem?_drop, show c + (i - 1 - c) = i - 1 by omega, he]

/-- The effect sends a conflict hint. -/
def Effect.hints : Effect → Bool
  | .send _ (.appendEntriesReply _ _ _ _ conflict) => conflict.isSome
  | _ => false

theorem Effect.Mute.not_hints {e : Effect} (h : e.Mute) : e.hints = false := by
  cases e with
  | send => cases h.2
  | _ => rfl

/-- An accepted request is never answered with a hint. -/
theorem acceptEntries_not_hints (leaderId : NodeId) (entries : List Entry)
    (payloadLast leaderCommit round : Nat) :
    Emits (Only fun e => e.hints = false)
      (acceptEntries leaderId entries payloadLast leaderCommit round) :=
  Emits.peek fun _ => Emits.seq (Emits.when (Emits.update (Emits.emit (Only.single rfl))) Only.nil)
    fun _ => Emits.seq ((followCommit_mute _).mono fun _ hes e he => (hes e he).not_hints)
      fun _ => Emits.peek fun _ => Emits.emit (Only.single rfl)

/-- Where a hint in a follower's answer comes from. -/
theorem onAppendEntries_hint {lid dest : NodeId} {p t last commit round : Nat}
    {term matchIndex round' : Nat} {entries : List Entry} {F' : RaftNode} {es : List Effect}
    {ok : Bool} {hint : AppendConflictHint}
    (h : onAppendEntries L.hard.currentTerm lid p t entries last commit round F =
      some ((), F', es))
    (hreply : .send dest (.appendEntriesReply term ok matchIndex round' (some hint)) ∈ es) :
    F'.log = F.log ∧ term = F.hard.currentTerm ∧ ok = false ∧ matchIndex = F.lastLogIndex ∧
      F.snapshotIndex ≤ p ∧ F.logTerm p ≠ some t ∧
      F.appendConflictHint p = some (some hint) := by
  rcases onAppendEntries_inv h with ⟨ha, e₂, haccept, rfl⟩ |
    ⟨hlog, -, -, notes, reply, rfl, hnotes, hrefusal⟩
  · rcases List.mem_append.1 hreply with hmem | hmem
    · cases (stepDownNotes_mute F _ hmem).2
    · cases acceptEntries_not_hints _ _ _ _ _ haccept _ hmem
  · rcases List.mem_append.1 hreply with hmem | hmem
    · cases (hnotes _ hmem).2
    · rw [← List.mem_singleton.1 hmem] at hrefusal
      cases hrefusal with
      | anchor hret hne hhint => exact ⟨hlog, rfl, rfl, rfl, hret, hne, hhint⟩

end Probing

/-! ## The results -/

/-- **Conflict backtracking.** For a leader and a follower of one term: every hint of the follower
passes the leader's checks; a hint for the current anchor strictly lowers the cursor, keeps it
above what is confirmed, and leaves it behind the common prefix or at a snapshot; a hint that is
malformed or answers another anchor is ignored.  Where moreover the two logs agree up to the lower
of any two entries of one term, and the follower's entries have positive terms, rejected probes are
bounded by the follower's terms behind the common prefix. -/
theorem conflict_backtracking {L F : RaftNode} {HL HF : List Entry} (peer : NodeId)
    (hL : L.Whole HL) (hF : F.Whole HF) (hsame : F.hard.currentTerm = L.hard.currentTerm)
    (hmax : HL.length ≤ u64Max) :
    (∀ (p last commit round term matchIndex round' : Nat) (entries : List Entry) (F' : RaftNode)
      (es : List Effect) (dest : NodeId) (ok : Bool) (hint : AppendConflictHint), p ≤ HL.length →
      onAppendEntries L.hard.currentTerm L.id p (termOf HL p) entries last commit round F =
        some ((), F', es) →
      .send dest (.appendEntriesReply term ok matchIndex round' (some hint)) ∈ es →
      F'.log = F.log ∧ L.validHint term ok matchIndex hint = true ∧
      ∀ (k m : Nat) (L' : RaftNode) (es' : List Effect), L.cursor peer = some (k, m) →
        hint.rejectedIndex = k - 1 → m < k - 1 →
        onAppendEntriesReply peer term ok matchIndex round' (some hint) L = some ((), L', es') →
        ∃ k', L'.cursor peer = some (k', m) ∧ k' < k ∧ m + 1 ≤ k' ∧
          (commonPrefix HL HF + 1 ≤ k' ∨ k' ≤ L.snapshotIndex)) ∧
    (SharedTerms HL HF → (∀ e ∈ HF, 0 < e.term) →
      ∀ count, ProbeRun SharedTerms peer HF F L HL count →
        count ≤ 1 + ((HF.drop (commonPrefix HL HF)).map Entry.term).toFinset.card) ∧
    (∀ (term matchIndex round : Nat) (ok : Bool) (hint : AppendConflictHint),
      (L.validHint term ok matchIndex hint = false ∨ ∀ k m, L.cursor peer = some (k, m) →
        hint.rejectedIndex ≠ k - 1 ∨ hint.rejectedIndex ≤ m) →
      onAppendEntriesReply peer term ok matchIndex round (some hint) L = some ((), L, [])) := by
  refine ⟨?_, ?_, fun term matchIndex round ok hint => onAppendEntriesReply_ignored⟩
  · intro p last commit round term matchIndex round' entries F' es dest ok hint hp hanswer hreply
    obtain ⟨hlog, rfl, rfl, rfl, hret, hlack, hhint⟩ := onAppendEntries_hint hanswer hreply
    have hlacks : Lacks F HL p := ⟨hp, hret, hlack, hp.trans hmax⟩
    have hvalid := hlacks.valid hL hF hsame hhint
    rw [← hsame] at hvalid
    refine ⟨hlog, hvalid, fun k m L' es' hcursor hanchor habove hreturn => ?_⟩
    have hrejected := hlacks.rejected hF hhint
    obtain ⟨hmoved, -⟩ := onAppendEntriesReply_hint hsame hcursor hvalid hanchor habove hreturn
    have hk : k = p + 1 := by omega
    subst hk
    exact ⟨_, hmoved, hlacks.retreats hL hF (by omega) hhint⟩
  · intro hshared hpositive count h
    cases hcursor : L.cursor peer with
    | none =>
        cases h with
        | done => exact Nat.zero_le _
        | reject hexchange =>
            obtain ⟨hcursor', -⟩ := hexchange
            rw [hcursor] at hcursor'
            cases hcursor'
    | some km =>
        have hcount := h.count_le hL hF hpositive hsame hshared hmax le_rfl hcursor
        have hterms := card_termsBetween_le HF (commonPrefix HL HF) (km.1 - 1)
        split at hcount <;> omega

/-! ## Concrete probes -/

instance (H H' : List Entry) : Decidable (SharedTerms H H') :=
  decidable_of_iff (∀ i : Fin H.length, ∀ j : Fin H'.length, H[i].term = H'[j].term →
      H.take (min i.1 j.1 + 1) = H'.take (min i.1 j.1 + 1)) <| by
    refine ⟨fun h i j e e' he he' hterm => ?_, fun h i j hterm => ?_⟩
    · obtain ⟨hi, rfl⟩ := List.getElem?_eq_some_iff.1 he
      obtain ⟨hj, rfl⟩ := List.getElem?_eq_some_iff.1 he'
      exact h ⟨i, hi⟩ ⟨j, hj⟩ hterm
    · exact h i j _ _ (List.getElem?_eq_getElem i.2) (List.getElem?_eq_getElem j.2) hterm

instance (H H' : List Entry) : Decidable (LogMatching H H') :=
  decidable_of_iff (∀ (i : Fin H.length) (hi : i < H'.length), H[i].term = H'[i].term →
      H.take (i + 1) = H'.take (i + 1)) <| by
    refine ⟨fun h i e e' he he' hterm => ?_, fun h i hi hterm => ?_⟩
    · obtain ⟨hi, rfl⟩ := List.getElem?_eq_some_iff.1 he
      obtain ⟨hj, rfl⟩ := List.getElem?_eq_some_iff.1 he'
      exact h ⟨i, hi⟩ hj hterm
    · exact h i _ _ (List.getElem?_eq_getElem i.2) (List.getElem?_eq_getElem hi) hterm

/-- One exchange, run: the leader probes with an empty batch.  Returned are the two nodes after
it. -/
def probeOnce (peer : NodeId) (F L : RaftNode) : Option (RaftNode × RaftNode) := do
  let (k, m) ← L.cursor peer
  let conflict ← F.appendConflictHint (k - 1)
  let answer ← onAppendEntries L.hard.currentTerm L.id (k - 1) (L.termAt (k - 1)) [] (k - 1) 0 0 F
  let after ← onAppendEntriesReply peer F.hard.currentTerm false F.lastLogIndex 0 conflict L
  if L.snapshotIndex < k ∧ k ≤ L.lastLogIndex + 1 ∧ m < k - 1 ∧
      F.logTerm (k - 1) ≠ some (L.termAt (k - 1)) ∧
      .send L.id (.appendEntriesReply F.hard.currentTerm false F.lastLogIndex 0 conflict) ∈
        answer.2.2 ∧
      after.2.1.hard = L.hard ∧ after.2.1.log = L.log ∧ after.2.1.snapshot = L.snapshot then
    some (answer.2.1, after.2.1)
  else none

theorem probeOnce_exchange {peer : NodeId} {F F' L L' : RaftNode}
    (h : probeOnce peer F L = some (F', L')) :
    Exchange peer F F' L L' ∧ L'.hard = L.hard ∧ L'.log = L.log ∧ L'.snapshot = L.snapshot := by
  unfold probeOnce at h
  simp only [Option.bind_eq_bind, Option.bind_eq_some_iff] at h
  obtain ⟨⟨k, m⟩, hcursor, conflict, -, ⟨⟨⟩, F', es⟩, hanswer, ⟨⟨⟩, L₁, es'⟩, hreturn, h⟩ := h
  split at h
  · next hguard =>
      cases h
      obtain ⟨hsends, hreach, habove, hlack, hreply, hsame⟩ := hguard
      exact ⟨⟨hcursor, hsends, hreach, habove, hanswer, hlack, hreply, hreturn⟩, hsame⟩
  · cases h

/-- Probe again and again. -/
def probeTimes (peer : NodeId) : Nat → RaftNode → RaftNode → Option (RaftNode × RaftNode)
  | 0, F, L => some (F, L)
  | count + 1, F, L => (probeOnce peer F L).bind fun (F', L') => probeTimes peer count F' L'

/-- A node is described by the log of another one that has the same durable state. -/
theorem RaftNode.Whole.congr {n n' : RaftNode} {H : List Entry} (h : n.Whole H)
    (hlog : n'.log = n.log) (hsnapshot : n'.snapshot = n.snapshot) (hhard : n'.hard = n.hard) :
    n'.Whole H := by
  have hindex := RaftNode.snapshotIndex_congr hsnapshot
  refine ⟨h.numbered, hindex ▸ h.boundary, by rw [hlog, hindex, h.log], ?_, h.ascending,
    hhard ▸ h.current⟩
  rw [hindex, ← h.term, RaftNode.snapshotTerm, RaftNode.snapshotTerm, hsnapshot]

theorem probeTimes_probes {Match : List Entry → List Entry → Prop} {peer : NodeId}
    {F L : RaftNode} {HL HF : List Entry} {count : Nat} (hL : L.Whole HL) (hF : F.Whole HF)
    (hsame : F.hard.currentTerm = L.hard.currentTerm) (hmatch : Match HL HF)
    (hmax : HL.length ≤ u64Max) (h : (probeTimes peer count F L).isSome) :
    ProbeRun Match peer HF F L HL count := by
  induction count generalizing F L with
  | zero => exact .done
  | succ count ih =>
    rw [probeTimes, Option.isSome_bind, Option.any_eq_true] at h
    obtain ⟨⟨F₁, L₁⟩, hprobe, hrest⟩ := h
    obtain ⟨hexchange, hhard, hlog, hsnapshot⟩ := probeOnce_exchange hprobe
    obtain ⟨-, -, -, -, -, -, -, -, -, -, hlog', hsnapshot', hhard'⟩ :=
      hexchange.lacks hL hsame hmax
    have hL₁ := hL.congr hlog hsnapshot hhard
    have hF₁ := hF.congr hlog' hsnapshot' hhard'
    exact .reject hexchange hF₁ le_rfl rfl rfl rfl (List.prefix_refl HL) hL₁ hmatch hmax
      (ih hL₁ hF₁ (by rw [hhard, hhard', hsame]) hrest)

/-- A node with nothing compacted is described by its own log. -/
theorem RaftNode.Whole.of_log {n : RaftNode} (hsnapshot : n.snapshot = none)
    (hnum : Numbered 0 n.log) (hasc : Ascending n.log)
    (hcurrent : ∀ e ∈ n.log, e.term ≤ n.hard.currentTerm) : n.Whole n.log := by
  have hindex : n.snapshotIndex = 0 := by rw [snapshotIndex, hsnapshot]; rfl
  refine ⟨hnum, by omega, by rw [hindex, List.drop_zero], ?_, hasc, hcurrent⟩
  rw [hindex, snapshotTerm, hsnapshot]
  rfl

/-- A leader and a follower of term 3 with the given logs. -/
def probing (leaderLog followerLog : List Entry) : Option (RaftNode × RaftNode) := do
  let L ← RaftNode.new 1 [2, 3] 7
  let F ← RaftNode.new 2 [1, 3] 8
  let next := leaderLog.length + 1
  some ({ L with
      hard := { L.hard with currentTerm := 3 }
      log := leaderLog
      role := .leader (.ofList [(2, next), (3, next)]) (.ofList [(2, 0), (3, 0)]) },
    { F with hard := { F.hard with currentTerm := 3 }, log := followerLog })

/-- Both nodes have the given logs, and so many probes are rejected in a row. -/
def rejectsTimes (leaderLog followerLog : List Entry) (count : Nat) : Bool :=
  (probing leaderLog followerLog).any fun (L, F) =>
    L.log == leaderLog && F.log == followerLog && L.snapshot == none && F.snapshot == none &&
      L.hard.currentTerm == 3 && F.hard.currentTerm == 3 && (probeTimes 2 count F L).isSome

theorem rejectsTimes_probes (Match : List Entry → List Entry → Prop) {HL HF : List Entry}
    {count : Nat} (h : rejectsTimes HL HF count = true) (hnum : Numbered 0 HL)
    (hnum' : Numbered 0 HF) (hasc : Ascending HL) (hasc' : Ascending HF)
    (hle : ∀ e ∈ HL ++ HF, e.term ≤ 3) (hmatch : Match HL HF) (hmax : HL.length ≤ u64Max) :
    ∃ L F : RaftNode, L.Whole HL ∧ F.Whole HF ∧ F.hard.currentTerm = L.hard.currentTerm ∧
      ProbeRun Match 2 HF F L HL count := by
  obtain ⟨⟨L, F⟩, -, hfacts⟩ := (Option.any_eq_true _ _).1 h
  simp only [Bool.and_eq_true, beq_iff_eq] at hfacts
  obtain ⟨⟨⟨⟨⟨⟨rfl, rfl⟩, hsnap⟩, hsnap'⟩, hterm⟩, hterm'⟩, hprobes⟩ := hfacts
  have hL : L.Whole L.log := .of_log hsnap hnum hasc fun e he => by
    rw [hterm]
    exact hle e (List.mem_append_left _ he)
  have hF : F.Whole F.log := .of_log hsnap' hnum' hasc' fun e he => by
    rw [hterm']
    exact hle e (List.mem_append_right _ he)
  have hsame : F.hard.currentTerm = L.hard.currentTerm := by rw [hterm, hterm']
  exact ⟨L, F, hL, hF, hsame, probeTimes_probes hL hF hsame hmatch hmax hprobes⟩

/-- Logs that match index by index, in which one term begins at two different places. -/
def crossedLeader : List Entry :=
  [⟨1, 1, .noOp⟩, ⟨2, 1, .noOp⟩, ⟨3, 1, .noOp⟩, ⟨4, 1, .noOp⟩, ⟨5, 2, .noOp⟩]

def crossedFollower : List Entry :=
  [⟨1, 1, .noOp⟩, ⟨2, 2, .noOp⟩, ⟨3, 2, .noOp⟩, ⟨4, 2, .noOp⟩]

/-- Logs without a common term, the follower's of term `0`. -/
def datedLeader : List Entry := [⟨1, 1, .noOp⟩, ⟨2, 1, .noOp⟩, ⟨3, 1, .noOp⟩]

def undatedFollower : List Entry := [⟨1, 0, .noOp⟩, ⟨2, 0, .noOp⟩, ⟨3, 0, .noOp⟩]

/-- Log matching alone does not bound the probes: three of them are rejected although there is one
term behind the common prefix.  Nor does the stronger matching when that term is `0`, for which
the follower has no hint. -/
theorem log_matching_probes :
    (∃ (L F : RaftNode), L.Whole crossedLeader ∧ F.Whole crossedFollower ∧
      F.hard.currentTerm = L.hard.currentTerm ∧ LogMatching crossedLeader crossedFollower ∧
      ProbeRun LogMatching 2 crossedFollower F L crossedLeader 3 ∧
      ¬ 3 ≤ 1 + ((crossedFollower.drop (commonPrefix crossedLeader crossedFollower)).map
        Entry.term).toFinset.card) ∧
    (∃ (L F : RaftNode), L.Whole datedLeader ∧ F.Whole undatedFollower ∧
      F.hard.currentTerm = L.hard.currentTerm ∧ SharedTerms datedLeader undatedFollower ∧
      ProbeRun SharedTerms 2 undatedFollower F L datedLeader 3 ∧
      ¬ 3 ≤ 1 + ((undatedFollower.drop (commonPrefix datedLeader undatedFollower)).map
        Entry.term).toFinset.card) := by
  constructor
  · have hmatch : LogMatching crossedLeader crossedFollower := by decide
    have hruns : rejectsTimes crossedLeader crossedFollower 3 = true := by decide +kernel
    obtain ⟨L, F, hL, hF, hsame, hprobes⟩ := rejectsTimes_probes LogMatching hruns
      (by simp [crossedLeader, Numbered.cons_iff, Numbered.nil])
      (by simp [crossedFollower, Numbered.cons_iff, Numbered.nil])
      (by simp [crossedLeader, Ascending]) (by simp [crossedFollower, Ascending])
      (by simp [crossedLeader, crossedFollower]) hmatch (by decide)
    exact ⟨L, F, hL, hF, hsame, hmatch, hprobes, by decide⟩
  · have hshared : SharedTerms datedLeader undatedFollower := by decide
    have hruns : rejectsTimes datedLeader undatedFollower 3 = true := by decide +kernel
    obtain ⟨L, F, hL, hF, hsame, hprobes⟩ := rejectsTimes_probes SharedTerms hruns
      (by simp [datedLeader, Numbered.cons_iff, Numbered.nil])
      (by simp [undatedFollower, Numbered.cons_iff, Numbered.nil])
      (by simp [datedLeader, Ascending]) (by simp [undatedFollower, Ascending])
      (by simp [datedLeader, undatedFollower]) hshared (by decide)
    exact ⟨L, F, hL, hF, hsame, hshared, hprobes, by decide⟩

/-- A follower with the entries of a leader that lost: its log is too short, then conflicts. -/
def divergedLeader : List Entry := [⟨1, 1, .noOp⟩, ⟨2, 1, .noOp⟩, ⟨3, 3, .noOp⟩]

def divergedFollower : List Entry := [⟨1, 1, .noOp⟩, ⟨2, 2, .noOp⟩]

theorem conflict_backtracking_diverged :
    ∃ (L F : RaftNode), L.Whole divergedLeader ∧ F.Whole divergedFollower ∧
      ProbeRun SharedTerms 2 divergedFollower F L divergedLeader 2 ∧
      2 ≤ 1 + ((divergedFollower.drop (commonPrefix divergedLeader divergedFollower)).map
        Entry.term).toFinset.card := by
  have hshared : SharedTerms divergedLeader divergedFollower := by decide
  have hruns : rejectsTimes divergedLeader divergedFollower 2 = true := by decide +kernel
  obtain ⟨L, F, hL, hF, hsame, hprobes⟩ := rejectsTimes_probes SharedTerms hruns
    (by simp [divergedLeader, Numbered.cons_iff, Numbered.nil])
    (by simp [divergedFollower, Numbered.cons_iff, Numbered.nil])
    (by simp [divergedLeader, Ascending]) (by simp [divergedFollower, Ascending])
    (by simp [divergedLeader, divergedFollower]) hshared (by decide)
  exact ⟨L, F, hL, hF, hprobes,
    (conflict_backtracking 2 hL hF hsame (by decide)).2.1 hshared
      (by simp [divergedFollower]) 2 hprobes⟩

end MicroRaft
