import MicroRaft.Node.Commit

/-!
# What an append request leaves of the log

The repair loop, the candidate log that is checked before it, and the log that
results: everything up to the first payload entry the log does not have, then
the rest of the payload.
-/

namespace MicroRaft

variable {n : RaftNode} {prev prevTerm : Nat} {entries : List Entry}

/-! ## Partition points -/

section Partition

variable {p : Entry → Bool} {log : List Entry} {i : Nat} {e : Entry}

theorem partitionPoint_eq (p : Entry → Bool) (log : List Entry) :
    partitionPoint p log = log.findIdx fun e => !p e := by
  rw [partitionPoint, List.takeWhile_eq_take_findIdx_not, List.length_take,
    min_eq_left List.findIdx_le_length]

theorem partitionPoint_lt (hi : i < partitionPoint p log) (he : log[i]? = some e) : p e = true := by
  rw [partitionPoint_eq] at hi
  have hpass := List.not_of_lt_findIdx hi
  rw [(List.getElem?_eq_some_iff.1 he).2] at hpass
  simpa using hpass

theorem partitionPoint_stop (he : log[partitionPoint p log]? = some e) : p e = false := by
  rw [partitionPoint_eq] at he
  obtain ⟨hlt, rfl⟩ := List.getElem?_eq_some_iff.1 he
  simpa using List.findIdx_getElem (w := hlt)

theorem partitionPoint_le : partitionPoint p log ≤ log.length :=
  (List.takeWhile_sublist _).length_le

/-- The search stops at or before the first entry that fails. -/
theorem partitionPoint_le_of (he : log[i]? = some e) (hp : p e = false) :
    partitionPoint p log ≤ i := by
  by_contra hlt
  rw [partitionPoint_lt (not_le.1 hlt) he] at hp
  cases hp

end Partition

/-! ## The entries already held -/

/-- The log has the entry's position with the entry's term. -/
def RaftNode.Holds (n : RaftNode) (e : Entry) : Prop := n.logTerm e.index = some e.term

instance (n : RaftNode) : DecidablePred n.Holds := fun e =>
  inferInstanceAs (Decidable (n.logTerm e.index = some e.term))

/-- How many leading payload entries the log already has. -/
def RaftNode.held (n : RaftNode) (entries : List Entry) : Nat :=
  (entries.takeWhile fun e => decide (n.Holds e)).length

namespace RaftNode

theorem held_le : n.held entries ≤ entries.length := partitionPoint_le

theorem holds_of_lt_held {i : Nat} {e : Entry} (hi : i < n.held entries)
    (he : entries[i]? = some e) : n.Holds e :=
  of_decide_eq_true (partitionPoint_lt hi he)

theorem not_holds_held {e : Entry} (he : entries[n.held entries]? = some e) : ¬ n.Holds e :=
  of_decide_eq_false (partitionPoint_stop he)

theorem held_cons_of_holds {e : Entry} (he : n.Holds e) :
    n.held (e :: entries) = n.held entries + 1 := by
  rw [held, List.takeWhile_cons_of_pos (by simpa using he), List.length_cons, held]

theorem held_cons_of_not_holds {e : Entry} (he : ¬ n.Holds e) : n.held (e :: entries) = 0 := by
  rw [held, List.takeWhile_cons_of_neg (by simpa using he), List.length_nil]

/-- The log after the request. -/
def merged (n : RaftNode) (prev : Nat) (entries : List Entry) : List Entry :=
  if n.held entries = entries.length then n.log
  else n.log.take (prev - n.snapshotIndex + n.held entries) ++ entries.drop (n.held entries)

/-- Above the boundary, having an entry is having it in the retained log. -/
theorem holds_iff {e : Entry} (hgt : n.snapshotIndex < e.index) :
    n.Holds e ↔ ∃ old, n.log[e.index - n.snapshotIndex - 1]? = some old ∧ old.term = e.term := by
  rw [Holds, logTerm, if_neg (by omega), Option.map_eq_some_iff]
  simp only [entryAt_eq_some, hgt, true_and]

end RaftNode

/-! ## The candidate log -/

/-- Entries numbered from the end of a log are appended as they are. -/
theorem candidateLog_append {start : Nat} {log : List Entry}
    (h : Numbered (start + log.length) entries) :
      candidateLog start log entries = log ++ entries := by
  induction entries generalizing log with
  | nil => simp [candidateLog]
  | cons e es ih =>
    obtain ⟨he, hes⟩ := Numbered.cons_iff.1 h
    have hoff : e.index - start - 1 = log.length := by omega
    rw [candidateLog]
    rw [hoff, List.getElem?_eq_none le_rfl, Option.any_none, if_neg (by simp), List.take_length,
      ih]
    · simp
    · rw [List.length_append, List.length_singleton]
      exact hes

theorem candidateLog_eq (hret : n.snapshotIndex ≤ prev)
    (hfit : prev ≤ n.snapshotIndex + n.log.length) (h : Numbered prev entries) :
    candidateLog n.snapshotIndex n.log entries = n.merged prev entries := by
  induction entries generalizing prev with
  | nil => simp [candidateLog, RaftNode.merged, RaftNode.held]
  | cons e es ih =>
    obtain ⟨he, hes⟩ := Numbered.cons_iff.1 h
    have hiff := n.holds_iff (e := e) (by omega)
    rw [candidateLog]
    by_cases hheld : n.Holds e
    · obtain ⟨old, hold, hterm⟩ := hiff.1 hheld
      have hlt := (List.getElem?_eq_some_iff.1 hold).1
      rw [if_pos (by simp [hold, hterm]), ih (by omega) (by omega) hes, RaftNode.merged,
        RaftNode.merged, RaftNode.held_cons_of_holds hheld, List.length_cons,
        List.drop_succ_cons]
      simp only [Nat.add_right_cancel_iff]
      rw [show prev + 1 - n.snapshotIndex + n.held es =
        prev - n.snapshotIndex + (n.held es + 1) by omega]
    · have hnone : ¬ (n.log[e.index - n.snapshotIndex - 1]?).any (fun old => old.term = e.term) =
          true := by
        simp only [Option.any_eq_true, decide_eq_true_eq]
        exact fun hcon => hheld (hiff.2 hcon)
      have hoff : e.index - n.snapshotIndex - 1 = prev - n.snapshotIndex := by omega
      rw [if_neg hnone, candidateLog_append, RaftNode.merged,
        RaftNode.held_cons_of_not_holds hheld, if_neg (by simp), hoff]
      · simp
      · rw [List.length_append, List.length_take, List.length_singleton, hoff,
          min_eq_left (by omega),
          show n.snapshotIndex + (prev - n.snapshotIndex + 1) = prev + 1 by omega]
        exact hes

/-! ## The repair loop -/

/-- Once the loop is past the end of its log, it collects the rest of the payload. -/
theorem foldl_repairEntry {r : Repair}
    (h : ∀ e ∈ entries, { n with log := r.log }.lastLogIndex < e.index) :
    entries.foldl (repairEntry n) r = { r with appended := r.appended ++ entries } := by
  induction entries generalizing r with
  | nil => simp
  | cons e es ih =>
    rw [List.foldl_cons, repairEntry, if_pos (h e (List.mem_cons_self ..)), ih]
    · simp
    · exact fun e' he' => h e' (List.mem_cons_of_mem _ he')

theorem repairLog_eq (hc : n.Contiguous) (hret : n.snapshotIndex ≤ prev)
    (hfit : prev ≤ n.snapshotIndex + n.log.length) (h : Numbered prev entries) :
    repairLog n entries =
      let kept := prev - n.snapshotIndex + n.held entries
      { log := n.log.take (if n.held entries = entries.length then n.log.length else kept)
        truncateFrom :=
          if n.held entries < entries.length ∧ kept < n.log.length then
            some (prev + n.held entries + 1) else none
        appended := entries.drop (n.held entries) } := by
  unfold repairLog
  induction entries generalizing prev with
  | nil => simp [RaftNode.held]
  | cons e es ih =>
    obtain ⟨he, hes⟩ := Numbered.cons_iff.1 h
    have hlast := hc.lastLogIndex
    have hiff := n.holds_iff (e := e) (by omega)
    rw [List.foldl_cons, repairEntry]
    dsimp only
    by_cases hbeyond : e.index > n.lastLogIndex
    · -- the payload continues the log
      have hheld : ¬ n.Holds e := fun hcon => by
        have := (hc.logTerm_bounds hcon).2
        omega
      rw [if_pos hbeyond, foldl_repairEntry, RaftNode.held_cons_of_not_holds hheld]
      · have hoff : prev - n.snapshotIndex = n.log.length := by omega
        simp [hoff]
      · intro e' he'
        have hb := (hes.mem_bounds he').1
        show n.lastLogIndex < e'.index
        omega
    · rw [if_neg hbeyond]
      obtain ⟨old, hold⟩ : ∃ old, n.log[e.index - n.snapshotIndex - 1]? = some old :=
        ⟨_, List.getElem?_eq_getElem (by omega)⟩
      have hterm : n.termAt e.index = old.term := by
        rw [RaftNode.termAt, RaftNode.logTerm, if_neg (by omega),
          RaftNode.entryAt_eq_some.2 ⟨by omega, hold⟩]
        rfl
      by_cases hheld : n.Holds e
      · obtain ⟨old', hold', hterm'⟩ := hiff.1 hheld
        rw [hold] at hold'
        cases hold'
        rw [if_pos (hterm.trans hterm'), ih (by omega) (by omega) hes,
          RaftNode.held_cons_of_holds hheld]
        simp only [List.length_cons, Nat.add_right_cancel_iff, List.drop_succ_cons,
          Nat.add_lt_add_iff_right]
        rw [show prev + 1 - n.snapshotIndex + n.held es =
            prev - n.snapshotIndex + (n.held es + 1) by omega,
          show prev + 1 + n.held es + 1 = prev + (n.held es + 1) + 1 by omega]
      · -- the first conflict: cut here and take the rest of the payload
        have hne : ¬ n.termAt e.index = e.term := fun hcon =>
          hheld (hiff.2 ⟨old, hold, hterm.symm.trans hcon⟩)
        have hoff : e.index - n.snapshotIndex - 1 = prev - n.snapshotIndex := by omega
        rw [if_neg hne, foldl_repairEntry, RaftNode.held_cons_of_not_holds hheld]
        · have hlt : prev - n.snapshotIndex < n.log.length := by omega
          have hcut : prev + 1 - n.snapshotIndex - 1 = prev - n.snapshotIndex := by omega
          simp [hcut, hlt, he]
        · intro e' he'
          have hb := (hes.mem_bounds he').1
          have hcut : RaftNode.Contiguous { n with
              log := n.log.take (e.index - n.snapshotIndex - 1) } := Numbered.take hc _
          rw [hcut.lastLogIndex]
          show n.snapshotIndex + (n.log.take (e.index - n.snapshotIndex - 1)).length < e'.index
          rw [List.length_take, hoff]
          omega

/-- The loop's log and what it appends are the merged log. -/
theorem repairLog_merged (hc : n.Contiguous) (hret : n.snapshotIndex ≤ prev)
    (hfit : prev ≤ n.snapshotIndex + n.log.length) (h : Numbered prev entries) :
    (repairLog n entries).log ++ (repairLog n entries).appended = n.merged prev entries := by
  rw [repairLog_eq hc hret hfit h, RaftNode.merged]
  dsimp only
  split
  · next hall => simp [hall]
  · rfl

/-- The merged log has every entry of the payload. -/
theorem RaftNode.merged_holds {m : RaftNode} (hret : n.snapshotIndex ≤ prev)
    (h : Numbered prev entries)
    (hkept : prev - n.snapshotIndex + n.held entries ≤ n.log.length)
    (hlog : m.log = n.merged prev entries) (hsnapshot : m.snapshot = n.snapshot) {e : Entry}
    (he : e ∈ entries) : m.Holds e := by
  obtain ⟨k, hk⟩ := List.mem_iff_getElem?.1 he
  have hidx := h k e hk
  have hsnap : m.snapshotIndex = n.snapshotIndex := by
    unfold RaftNode.snapshotIndex
    rw [hsnapshot]
  rw [m.holds_iff (by omega), hsnap, hlog, merged]
  have hpos : e.index - n.snapshotIndex - 1 = prev - n.snapshotIndex + k := by omega
  split
  · next hall =>
      have hlt : k < entries.length := (List.getElem?_eq_some_iff.1 hk).1
      exact (n.holds_iff (by omega)).1 (holds_of_lt_held (by omega) hk)
  · by_cases hlt : k < n.held entries
    · obtain ⟨old, hold, hterm⟩ := (n.holds_iff (by omega)).1 (holds_of_lt_held hlt hk)
      refine ⟨old, ?_, hterm⟩
      rw [List.getElem?_append_left (by rw [List.length_take]; omega), List.getElem?_take,
        if_pos (by omega), hold]
    · refine ⟨e, ?_, rfl⟩
      rw [List.getElem?_append_right (by rw [List.length_take]; omega), List.length_take,
        min_eq_left hkept, List.getElem?_drop, hpos,
        show n.held entries + (prev - n.snapshotIndex + k -
          (prev - n.snapshotIndex + n.held entries)) = k by omega]
      exact hk

/-! ## What a merge keeps -/

/-- The payload fits behind the anchor it was checked against. -/
structure RaftNode.Fits (n : RaftNode) (prev : Nat) (entries : List Entry) : Prop where
  contiguous : n.Contiguous
  retained : n.snapshotIndex ≤ prev
  reached : prev ≤ n.snapshotIndex + n.log.length
  numbered : Numbered prev entries

variable {n' : RaftNode}

theorem RaftNode.snapshotIndex_congr (h : n'.snapshot = n.snapshot) :
    n'.snapshotIndex = n.snapshotIndex := by
  unfold snapshotIndex
  rw [h]

/-- The payload entries found in the log lie one after the other behind the anchor. -/
theorem RaftNode.Fits.kept_le (hf : n.Fits prev entries) :
    prev - n.snapshotIndex + n.held entries ≤ n.log.length := by
  have hret := hf.retained
  have hreached := hf.reached
  have hle : n.held entries ≤ entries.length := held_le
  rcases Nat.eq_zero_or_pos (n.held entries) with hzero | hpos
  · omega
  · have hget : entries[n.held entries - 1]? = some entries[n.held entries - 1] :=
      List.getElem?_eq_getElem (by omega)
    have hindex := hf.numbered _ _ hget
    have hlast := (hf.contiguous.logTerm_bounds (holds_of_lt_held (by omega) hget)).2
    rw [hf.contiguous.lastLogIndex] at hlast
    omega

/-- What the merge leaves behind still fits the request. -/
theorem RaftNode.Fits.after_merge (hf : n.Fits prev entries) (hlog : n'.log = n.merged prev entries)
    (hsnapshot : n'.snapshot = n.snapshot) : n'.Fits prev entries := by
  have hboundary := snapshotIndex_congr hsnapshot
  have hkept := hf.kept_le
  have hret := hf.retained
  have hreached := hf.reached
  refine ⟨?_, by omega, ?_, hf.numbered⟩
  · unfold Contiguous
    rw [hboundary, hlog, RaftNode.merged]
    split
    · exact hf.contiguous
    · refine (Numbered.take hf.contiguous _).append ?_
      rw [List.length_take, min_eq_left hkept, show n.snapshotIndex +
        (prev - n.snapshotIndex + n.held entries) = prev + n.held entries by omega]
      exact hf.numbered.drop _
  · rw [hboundary, hlog, RaftNode.merged]
    split
    · exact hreached
    · rw [List.length_append, List.length_take, min_eq_left hkept]
      omega

/-- The first entry the log lacks is not committed, so the cut is above the commit index. -/
theorem RaftNode.Fits.commit_le_kept (hf : n.Fits prev entries)
    (hcommitted : n.conflictsCommitted entries = false) (hheld : n.held entries < entries.length) :
    n.commitIndex ≤ prev + n.held entries := by
  have hget := List.getElem?_eq_getElem hheld
  have hindex := hf.numbered _ _ hget
  have hlack : ¬ n.Holds entries[n.held entries] := not_holds_held hget
  by_contra hcon
  have hconflict : n.conflictsCommitted entries = true := by
    rw [conflictsCommitted, List.any_eq_true]
    refine ⟨_, List.mem_of_getElem? hget, ?_⟩
    rw [Bool.and_eq_true, decide_eq_true_eq, decide_eq_true_eq]
    exact ⟨by omega, hlack⟩
  rw [hcommitted] at hconflict
  cases hconflict

/-- Nothing at or below the commit index is part of what a merge replaces. -/
theorem RaftNode.Fits.merged_committed (hf : n.Fits prev entries)
    (hcommitted : n.conflictsCommitted entries = false) (hlog : n'.log = n.merged prev entries)
    (hsnapshot : n'.snapshot = n.snapshot) {i : Nat} (hi : i ≤ n.commitIndex) :
    n'.entryAt i = n.entryAt i := by
  unfold entryAt
  rw [snapshotIndex_congr hsnapshot, hlog, merged]
  split
  · next hlt =>
      split
      · rfl
      · next hne =>
          have hcut := hf.commit_le_kept hcommitted (lt_of_le_of_ne held_le hne)
          have hret := hf.retained
          have hkept := hf.kept_le
          rw [List.getElem?_append_left (by rw [List.length_take]; omega), List.getElem?_take,
            if_pos (by omega)]
  · rfl

/-- The merged log reaches the end of the payload. -/
theorem RaftNode.Fits.payload_le (hf : n.Fits prev entries) :
    prev + entries.length ≤ n.snapshotIndex + (n.merged prev entries).length := by
  have hkept := hf.kept_le
  have hret := hf.retained
  have hle : n.held entries ≤ entries.length := held_le
  rw [merged]
  split
  · omega
  · rw [List.length_append, List.length_take, List.length_drop]
    omega

end MicroRaft
