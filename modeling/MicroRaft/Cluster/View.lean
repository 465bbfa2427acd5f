import MicroRaft.Cluster.System
import MicroRaft.Node.Replay

/-!
# A node's log as part of a whole log

A node retains a suffix of the log it would have without compaction.  `Views`
says how the two fit together, and the lemmas read every question a handler asks
of the node as a question about the whole log.
-/

namespace MicroRaft

open Consensus

/-- The term of the last entry, `0` for the empty log. -/
def lastTerm (l : List Entry) : Nat := l.getLast?.elim 0 Entry.term

theorem scheme_lastTerm (g : CommittedMembership) (l : List Entry) :
    (scheme g).lastTerm l = lastTerm l := rfl

@[simp] theorem lastTerm_nil : lastTerm [] = 0 := rfl

@[simp] theorem lastTerm_concat (l : List Entry) (e : Entry) : lastTerm (l ++ [e]) = e.term := by
  simp [lastTerm]

/-- The term of a prefix is the term of the entry it ends in. -/
theorem lastTerm_take {l : List Entry} {i : Nat} {e : Entry} (h : l[i]? = some e) :
    lastTerm (l.take (i + 1)) = e.term := by
  rw [List.take_add_one, h, Option.toList_some, lastTerm_concat]

/-! ## Views -/

/-- `n` retains what comes after `k` in the whole log `l`. -/
structure Views (g : CommittedMembership) (k l : List Entry) (n : RaftNode) : Prop where
  log : l = k ++ n.log
  boundary : k.length = n.snapshotIndex
  boundaryTerm : lastTerm k = n.snapshotTerm
  base : membershipAfter g k = .ok n.baseMembership
  numbered : Numbered 0 l
  bounded : l.length < u64Max

namespace Views

variable {g : CommittedMembership} {k l : List Entry} {n : RaftNode} (h : Views g k l n)

include h

theorem length_eq : l.length = n.snapshotIndex + n.log.length := by
  rw [h.log, List.length_append, h.boundary]

theorem take_boundary : l.take n.snapshotIndex = k := by
  rw [h.log, ← h.boundary, List.take_left]

theorem drop_boundary : l.drop n.snapshotIndex = n.log := by
  rw [h.log, ← h.boundary, List.drop_left]

theorem contiguous : n.Contiguous := by
  have := h.numbered.drop n.snapshotIndex
  rwa [h.drop_boundary, Nat.zero_add] at this

theorem lastLogIndex : n.lastLogIndex = l.length := by
  rw [h.contiguous.lastLogIndex, h.length_eq]

theorem entries_le : ∀ e ∈ n.log, e.index ≤ u64Max := by
  intro e he
  have hlen := h.length_eq
  have hb := h.bounded
  have := (Numbered.mem_bounds h.contiguous he).2
  omega

theorem lastLogTerm : n.lastLogTerm = lastTerm l := by
  rw [h.log]
  rcases List.eq_nil_or_concat' n.log with hnil | ⟨p, e, hp⟩
  · rw [hnil, List.append_nil, h.boundaryTerm, RaftNode.lastLogTerm, hnil]
    rfl
  · rw [hp, ← List.append_assoc, lastTerm_concat, RaftNode.lastLogTerm, hp, List.getLast?_concat]
    rfl

/-- An entry of the retained log, by its position in the whole log. -/
theorem getElem? {i : Nat} (hi : n.snapshotIndex < i) :
    n.log[i - n.snapshotIndex - 1]? = l[i - 1]? := by
  rw [← h.drop_boundary, List.getElem?_drop,
    show n.snapshotIndex + (i - n.snapshotIndex - 1) = i - 1 by omega]

theorem entryAt {i : Nat} {e : Entry} (he : n.entryAt i = some e) :
    n.snapshotIndex < i ∧ l[i - 1]? = some e := by
  obtain ⟨hlt, hget⟩ := RaftNode.entryAt_eq_some.1 he
  exact ⟨hlt, by rwa [← h.getElem? hlt]⟩

/-- The node knows the term of a position exactly when it is neither compacted away nor
beyond the end. -/
theorem logTerm_iff {i t : Nat} : n.logTerm i = some t ↔
    n.snapshotIndex ≤ i ∧ i ≤ l.length ∧ lastTerm (l.take i) = t := by
  have hlen := h.length_eq
  unfold RaftNode.logTerm
  by_cases hb : i = n.snapshotIndex
  · subst hb
    rw [if_pos rfl, h.take_boundary, h.boundaryTerm, Option.some_inj]
    exact ⟨fun ht => ⟨le_rfl, by omega, ht⟩, fun ht => ht.2.2⟩
  rw [if_neg hb, Option.map_eq_some_iff]
  constructor
  · rintro ⟨e, he, rfl⟩
    obtain ⟨hlt, hget⟩ := h.entryAt he
    have hpos := (List.getElem?_eq_some_iff.1 hget).1
    have hterm := lastTerm_take hget
    rw [show i - 1 + 1 = i by omega] at hterm
    exact ⟨hlt.le, by omega, hterm⟩
  · rintro ⟨hge, hle, hterm⟩
    have hget : l[i - 1]? = some l[i - 1] := List.getElem?_eq_getElem (by omega)
    refine ⟨l[i - 1], RaftNode.entryAt_eq_some.2 ⟨by omega, ?_⟩, ?_⟩
    · rw [h.getElem? (by omega), hget]
    · have hlast := lastTerm_take hget
      rw [show i - 1 + 1 = i by omega, hterm] at hlast
      exact hlast.symm

theorem membershipAt {i : Nat} (hi : n.snapshotIndex ≤ i) :
    n.membershipAt i = membershipAfter g (l.take i) := by
  rw [RaftNode.membershipAt, if_neg (by omega), replay_eq h.contiguous,
    membershipAfter_split h.base, h.log, List.take_append, h.boundary,
    List.take_of_length_le (l := k) (by rw [h.boundary]; exact hi)]

theorem replay_all : replay n.baseMembership n.log u64Max = membershipAfter g l := by
  have hlen := h.length_eq
  have hb := h.bounded
  rw [replay_eq h.contiguous, List.take_of_length_le (by omega), membershipAfter_split h.base,
    ← h.log]

/-- What the refresh computes is the membership of the whole log. -/
theorem effectiveAfter {m : CommittedMembership} {commit : Nat}
    (hm : membershipAfter g (l.take commit) = .ok m) (hfloor : n.snapshotIndex ≤ commit)
    {next : MembershipState} :
    effectiveAfter m n.log commit = .ok next ↔
      ∃ m', membershipAfter g l = .ok m' ∧ m'.state = next := by
  rw [effectiveAfter_eq h.contiguous hfloor h.entries_le, bind_eq_ok, ← h.drop_boundary,
    List.drop_drop, show n.snapshotIndex + (commit - n.snapshotIndex) = commit by omega,
    membershipAfter_split hm, List.take_append_drop]
  simp only [Except.ok.injEq]

/-- The same node with another log over the same prefix. -/
theorem setLog (log' : List Entry) (hnum : Numbered 0 (k ++ log'))
    (hlen : (k ++ log').length < u64Max) : Views g k (k ++ log') { n with log := log' } where
  log := rfl
  boundary := h.boundary
  boundaryTerm := h.boundaryTerm
  base := h.base
  numbered := hnum
  bounded := hlen

/-- The batch a leader sends is a slice of the whole log. -/
theorem appendBatch {next : Nat} (hlow : n.snapshotIndex < next) (hhigh : next ≤ l.length + 1) :
    ∃ entries, n.appendBatch next = .appendEntries n.hard.currentTerm n.id (next - 1)
        (lastTerm (l.take (next - 1))) entries n.commitIndex n.contactRound ∧
      next - 1 + entries.length ≤ l.length ∧
      entries = (l.drop (next - 1)).take entries.length := by
  have hterm : n.termAt (next - 1) = lastTerm (l.take (next - 1)) := by
    rw [RaftNode.termAt, h.logTerm_iff.2 ⟨by omega, by omega, rfl⟩]
    rfl
  have hdrop : n.log.drop (next - 1 - n.snapshotIndex) = l.drop (next - 1) := by
    rw [← h.drop_boundary, List.drop_drop,
      show n.snapshotIndex + (next - 1 - n.snapshotIndex) = next - 1 by omega]
  refine ⟨(l.drop (next - 1)).take maxAppendEntries, ?_, ?_, ?_⟩
  · rw [RaftNode.appendBatch, hterm, ← hdrop]
  · rw [List.length_take, List.length_drop]
    omega
  · rw [List.length_take, List.take_eq_take_iff]
    omega

end Views

end MicroRaft
