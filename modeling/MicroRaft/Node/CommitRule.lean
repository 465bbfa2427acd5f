import MicroRaft.Core.Restore
import MicroRaft.Node.Commit

/-!
# The commit rule

`quorum_commit_candidate` sorts the watermarks of the voters and searches the log
from its end; `commit_advance` counts watermarks entry by entry.  Both find the
greatest index of the current term that a quorum has reached (`Committable`).
-/

namespace MicroRaft

/-! ## The order statistic as a count -/

/-- Fewer than `k + 1` elements reach `i` if the one at position `k + 1` from the end of a
sorted list does not. -/
theorem countP_le_of_sorted {l : List Nat} (hs : l.Pairwise (· ≤ ·)) {k x i : Nat}
    (hk : l[l.length - (k + 1)]? = some x) (hlen : k < l.length) (hi : x < i) :
    l.countP (i ≤ ·) ≤ k := by
  have hbelow : ∀ y ∈ l.take (l.length - k), ¬ i ≤ y := by
    intro y hy
    obtain ⟨j, hj⟩ := List.mem_iff_getElem?.1 hy
    rw [List.getElem?_take] at hj
    split at hj
    · rename_i hlt
      obtain ⟨h₁, e₁⟩ := List.getElem?_eq_some_iff.1 hk
      obtain ⟨h₂, e₂⟩ := List.getElem?_eq_some_iff.1 hj
      rcases Nat.lt_or_ge j (l.length - (k + 1)) with hlt' | hge
      · have hle := List.pairwise_iff_getElem.1 hs _ _ h₂ h₁ hlt'
        rw [e₁, e₂] at hle
        omega
      · have hj' : j = l.length - (k + 1) := by omega
        subst hj'
        rw [e₁] at e₂
        omega
    · cases hj
  have htake : (l.take (l.length - k)).countP (i ≤ ·) = 0 :=
    List.countP_eq_zero.2 fun y hy => by simpa using hbelow y hy
  have hdrop : (l.drop (l.length - k)).countP (i ≤ ·) ≤ k := by
    refine (List.countP_le_length).trans ?_
    rw [List.length_drop]
    omega
  have hsplit : l.countP (i ≤ ·) = (l.take (l.length - k)).countP (i ≤ ·) +
      (l.drop (l.length - k)).countP (i ≤ ·) := by
    rw [← List.countP_append, List.take_append_drop]
  omega

variable {matched : BTreeMap NodeId Nat} {c : VoterConfig} {voters : List NodeId} {i : Nat}

/-- A positive index is below the majority index exactly when a majority has reached it. -/
theorem le_majorityIndex_iff (hpos : 0 < i) :
    i ≤ majorityIndex voters matched ↔
      voters.length / 2 < voters.countP fun v => i ≤ (matched[v]?).getD 0 := by
  unfold majorityIndex
  split
  · rename_i hnil
    subst hnil
    simp
    omega
  rename_i hne
  dsimp only
  set sorted := (voters.map fun id => (matched[id]?).getD 0).insertionSort (· ≤ ·) with hsorted
  have hlen : sorted.length = voters.length := by
    rw [hsorted, List.length_insertionSort, List.length_map]
  have hvlen : 0 < voters.length := List.length_pos_iff.2 hne
  have hpair : sorted.Pairwise (· ≤ ·) := List.pairwise_insertionSort (· ≤ ·) _
  have hcount : sorted.countP (i ≤ ·) = voters.countP fun v => i ≤ (matched[v]?).getD 0 := by
    rw [hsorted, (List.perm_insertionSort (· ≤ ·) _).countP_eq, List.countP_map]
    rfl
  obtain ⟨x, hx⟩ : ∃ x, sorted[sorted.length - (sorted.length / 2 + 1)]? = some x :=
    ⟨_, List.getElem?_eq_getElem (by omega)⟩
  rw [hx, Option.getD_some, ← hcount, ← hlen]
  constructor
  · exact lt_countP_of_sorted hpair hx (by omega)
  · intro hlt
    by_contra hgt
    have := countP_le_of_sorted hpair hx (by omega) (Nat.not_le.1 hgt)
    omega

namespace VoterConfig

/-- The voters whose watermark has reached `i`. -/
def reached (c : VoterConfig) (matched : BTreeMap NodeId Nat) (i : Nat) : BTreeSet NodeId :=
  .ofList (c.voters.toList.filter fun v => i ≤ (matched[v]?).getD 0)

theorem mem_reached {v : NodeId} :
    v ∈ c.reached matched i ↔ v ∈ c.voters ∧ i ≤ (matched[v]?).getD 0 := by
  rw [reached, Std.ExtTreeSet.mem_ofList, List.contains_iff_mem, List.mem_filter,
    decide_eq_true_eq, Std.ExtTreeSet.mem_toList]

/-- Only the votes of voters count. -/
theorem hasQuorum_congr {votes votes' : BTreeSet NodeId}
    (h : ∀ v ∈ c.voters, v ∈ votes ↔ v ∈ votes') : c.hasQuorum votes = c.hasQuorum votes' := by
  have hmajority {voters : List NodeId} (hsub : ∀ v ∈ voters, v ∈ c.voters) :
      majority voters votes = majority voters votes' := by
    unfold majority
    congr 3
    refine List.filter_congr fun v hv => ?_
    rw [Bool.eq_iff_iff]
    exact h v (hsub v hv)
  unfold hasQuorum
  cases hvalid : c.validate with
  | error e => rfl
  | ok u =>
    cases c with
    | stable voters => exact hmajority fun v hv => by simpa [VoterConfig.voters] using hv
    | joint old new =>
      dsimp only
      rw [hmajority fun v hv => by simp [VoterConfig.voters, hv],
        hmajority fun v hv => by simp [VoterConfig.voters, hv]]

theorem majority_reached
    (hsub : ∀ v ∈ voters, v ∈ c.voters) (matched : BTreeMap NodeId Nat) (i : Nat) :
    majority voters (c.reached matched i) = true ↔
      voters.length / 2 < voters.countP fun v => i ≤ (matched[v]?).getD 0 := by
  rw [majority, decide_eq_true_eq, ← List.countP_eq_length_filter, gt_iff_lt]
  have hcount : voters.countP (fun id => (c.reached matched i).contains id) =
      voters.countP fun v => i ≤ (matched[v]?).getD 0 := by
    refine List.countP_congr fun v hv => ?_
    rw [decide_eq_true_eq]
    exact mem_reached.trans (and_iff_right (hsub v hv))
  rw [hcount]

/-- The replicated index is exactly what a quorum has reached. -/
theorem le_replicatedIndex_iff (hpos : 0 < i) :
    i ≤ c.replicatedIndex matched ↔ c.hasQuorum (c.reached matched i) = true := by
  unfold replicatedIndex hasQuorum
  cases hvalid : c.validate with
  | error e =>
    simp only [Bool.false_eq_true, iff_false, Nat.not_le]
    exact hpos
  | ok u =>
    cases c with
    | stable voters =>
      dsimp only
      rw [le_majorityIndex_iff hpos, majority_reached fun v hv => by
        simpa [VoterConfig.voters] using hv]
    | joint old new =>
      dsimp only
      rw [Nat.le_min, le_majorityIndex_iff hpos, le_majorityIndex_iff hpos, Bool.and_eq_true,
        majority_reached fun v hv => by simp [VoterConfig.voters, hv],
        majority_reached fun v hv => by simp [VoterConfig.voters, hv]]

end VoterConfig

/-! ## The candidate -/

/-- `commit_advance`: the rule over a plain list of watermarks. -/
def commitAdvance (current currentTerm : Nat) (log : List Entry) (matchIndexes : List Nat) :
    Option Nat :=
  let majority := matchIndexes.length / 2 + 1
  ((log.reverse.takeWhile fun e => current < e.index).find? fun e =>
    decide (majority ≤ (matchIndexes.filter fun m => e.index ≤ m).length) &&
      decide (e.term = currentTerm)).map Entry.index

namespace RaftNode

/-- Index `i` may be committed: it is new, of the current term, and a quorum has it. -/
def Committable (n : RaftNode) (matched : BTreeMap NodeId Nat) (i : Nat) : Prop :=
  n.commitIndex < i ∧ (∃ e, n.entryAt i = some e ∧ e.term = n.hard.currentTerm) ∧
    n.voterConfig.hasQuorum (n.voterConfig.reached (n.watermarks matched) i) = true

variable {n : RaftNode} {next matched : BTreeMap NodeId Nat}

/-- Searching a numbered list from its end finds the greatest number. -/
theorem find?_reverse_greatest {start : Nat} {l : List Entry} {p : Entry → Bool}
    (h : Numbered start l) : (l.reverse.find? p).map Entry.index = some i ↔
      (∃ e ∈ l, e.index = i ∧ p e = true) ∧ ∀ e ∈ l, p e = true → e.index ≤ i := by
  induction l using List.reverseRecOn with
  | nil => simp
  | append_singleton l e ih =>
    have hl : Numbered start l := by simpa using h.take l.length
    have hlast : ∀ x ∈ l, x.index < e.index := by
      intro x hx
      have := (hl.mem_bounds hx).2
      have := h l.length e (by simp)
      omega
    rw [List.reverse_append, List.reverse_singleton, List.singleton_append, List.find?_cons]
    cases hp : p e with
    | true =>
      simp only [Option.map_some, Option.some.injEq, List.mem_append, List.mem_singleton]
      constructor
      · rintro rfl
        refine ⟨⟨e, .inr rfl, rfl, hp⟩, ?_⟩
        rintro x (hx | rfl) -
        · exact (hlast x hx).le
        · exact le_rfl
      · rintro ⟨⟨x, hx, rfl, -⟩, hmax⟩
        have hle := hmax e (.inr rfl) hp
        rcases hx with hx | rfl
        · have := hlast x hx
          omega
        · rfl
    | false =>
      simp only [ih hl, List.mem_append, List.mem_singleton]
      constructor
      · rintro ⟨⟨x, hx, hxi, hpx⟩, hmax⟩
        refine ⟨⟨x, .inl hx, hxi, hpx⟩, ?_⟩
        rintro y (hy | rfl) hpy
        · exact hmax y hy hpy
        · rw [hp] at hpy
          cases hpy
      · rintro ⟨⟨x, hx, hxi, hpx⟩, hmax⟩
        rcases hx with hx | rfl
        · exact ⟨⟨x, hx, hxi, hpx⟩, fun y hy hpy => hmax y (.inl hy) hpy⟩
        · rw [hp] at hpx
          cases hpx

/-- What the search of the candidate looks for. -/
theorem committable_iff (hc : n.Contiguous) :
    n.Committable matched i ↔ ∃ e ∈ n.log, e.index = i ∧
      (decide (n.commitIndex < e.index) &&
        decide (e.index ≤ n.voterConfig.replicatedIndex (n.watermarks matched)) &&
        decide (e.term = n.hard.currentTerm)) = true := by
  simp only [Bool.and_eq_true, decide_eq_true_eq, Committable]
  constructor
  · rintro ⟨hlt, ⟨e, he, hterm⟩, hquorum⟩
    obtain ⟨rfl, hmem⟩ := hc.index_of_entryAt he
    exact ⟨e, hmem, rfl, ⟨hlt, (VoterConfig.le_replicatedIndex_iff (by omega)).2 hquorum⟩, hterm⟩
  · rintro ⟨e, he, rfl, ⟨hlt, hle⟩, hterm⟩
    exact ⟨hlt, ⟨e, hc.entryAt_of_mem he, hterm⟩,
      (VoterConfig.le_replicatedIndex_iff (by omega)).1 hle⟩

theorem candidate_eq_some_iff (hc : n.Contiguous) (hrole : n.role = .leader next matched)
    : n.quorumCommitCandidate = some i ↔
      n.Committable matched i ∧ ∀ j, n.Committable matched j → j ≤ i := by
  unfold quorumCommitCandidate
  rw [hrole]
  dsimp only
  rw [find?_reverse_greatest hc, committable_iff hc]
  refine and_congr_right fun _ => ?_
  constructor
  · intro hmax j hj
    obtain ⟨e, he, rfl, hp⟩ := (committable_iff hc).1 hj
    exact hmax e he hp
  · intro hmax e he hp
    exact hmax e.index ((committable_iff hc).2 ⟨e, he, rfl, hp⟩)

theorem candidate_eq_none_iff (hc : n.Contiguous) (hrole : n.role = .leader next matched) :
    n.quorumCommitCandidate = none ↔ ∀ i, ¬ n.Committable matched i := by
  unfold quorumCommitCandidate
  rw [hrole]
  dsimp only
  rw [Option.map_eq_none_iff, List.find?_eq_none]
  constructor
  · intro hnone i hi
    obtain ⟨e, he, -, hp⟩ := (committable_iff hc).1 hi
    exact hnone e (List.mem_reverse.2 he) hp
  · intro hnone e he hp
    exact hnone e.index ((committable_iff hc).2 ⟨e, List.mem_reverse.1 he, rfl, hp⟩)

/-- Below the first old entry of a numbered log there are only old ones. -/
theorem takeWhile_reverse_eq {start current : Nat} {l : List Entry} (h : Numbered start l) :
    (l.reverse.takeWhile fun e => decide (current < e.index)) =
      l.reverse.filter fun e => current < e.index := by
  induction l using List.reverseRecOn with
  | nil => rfl
  | append_singleton l e ih =>
    have hl : Numbered start l := by simpa using h.take l.length
    rw [List.reverse_append, List.reverse_singleton, List.singleton_append, List.takeWhile_cons,
      List.filter_cons]
    split
    · rw [ih hl]
    · rename_i hold
      symm
      rw [List.filter_eq_nil_iff]
      intro x hx
      have := (hl.mem_bounds (List.mem_reverse.1 hx)).2
      have := h l.length e (by simp)
      simp only [decide_eq_true_eq] at hold ⊢
      omega

/-- With a stable configuration both implementations of the rule agree. -/
theorem candidate_eq_commitAdvance (hc : n.Contiguous) (hrole : n.role = .leader next matched)
    (hconfig : n.voterConfig = .stable voters)
    (hvalid : (VoterConfig.stable voters).validate = .ok ()) :
    n.quorumCommitCandidate = commitAdvance n.commitIndex n.hard.currentTerm n.log
      (voters.map fun v => ((n.watermarks matched)[v]?).getD 0) := by
  have hindex : n.voterConfig.replicatedIndex (n.watermarks matched) =
      majorityIndex voters (n.watermarks matched) := by
    simp only [hconfig, VoterConfig.replicatedIndex, hvalid]
  unfold quorumCommitCandidate commitAdvance
  rw [hrole, takeWhile_reverse_eq hc]
  dsimp only
  rw [hindex, List.find?_filter]
  congr 2
  funext e
  by_cases hlt : n.commitIndex < e.index
  · have hcount : (decide (e.index ≤ majorityIndex voters (n.watermarks matched))) =
        decide ((voters.map fun v => ((n.watermarks matched)[v]?).getD 0).length / 2 + 1 ≤
          ((voters.map fun v => ((n.watermarks matched)[v]?).getD 0).filter fun m =>
            e.index ≤ m).length) := by
      rw [decide_eq_decide, le_majorityIndex_iff (by omega), List.length_map,
        ← List.countP_eq_length_filter, List.countP_map]
      rfl
    simp only [hlt, decide_true, Bool.true_and, hcount, true_and, Bool.decide_eq_true]
  · simp only [hlt, decide_false, Bool.false_and, Bool.false_eq_true, false_and]

/-- The commit rule, exactly. -/
theorem commit_rule (hc : n.Contiguous) (hrole : n.role = .leader next matched) :
    (∀ i, n.quorumCommitCandidate = some i ↔
      n.Committable matched i ∧ ∀ j, n.Committable matched j → j ≤ i) ∧
    (n.quorumCommitCandidate = none ↔ ∀ i, ¬ n.Committable matched i) ∧
    (∀ votes votes' : BTreeSet NodeId,
      (∀ v ∈ n.voterConfig.voters, v ∈ votes ↔ v ∈ votes') →
        n.voterConfig.hasQuorum votes = n.voterConfig.hasQuorum votes') ∧
    (∀ voters, n.voterConfig = .stable voters → (VoterConfig.stable voters).validate = .ok () →
      n.quorumCommitCandidate = commitAdvance n.commitIndex n.hard.currentTerm n.log
        (voters.map fun v => ((n.watermarks matched)[v]?).getD 0)) :=
  ⟨fun _ => candidate_eq_some_iff hc hrole, candidate_eq_none_iff hc hrole,
    fun _ _ => VoterConfig.hasQuorum_congr, fun _ => candidate_eq_commitAdvance hc hrole⟩

/-- A leader of three whose first entry has reached one follower. -/
def sampleLeader : Option RaftNode :=
  (RaftNode.new 1 [2, 3] 7).map fun n =>
    { n with
      hard := { n.hard with currentTerm := 1 }
      log := [⟨1, 1, .noOp⟩]
      role := .leader (.ofList [(2, 2), (3, 1)]) (.ofList [(2, 1), (3, 0)]) }

theorem sampleLeader_facts :
    sampleLeader.any (fun n => n.quorumCommitCandidate == some 1 &&
      n.log == [⟨1, 1, .noOp⟩] && n.snapshot == none && n.isLeader) = true := by
  decide +kernel

theorem commit_rule_sampleLeader :
    ∃ (n : RaftNode) (next matched : BTreeMap NodeId Nat), n.Contiguous ∧
      n.role = .leader next matched ∧
      n.Committable matched 1 ∧ ∀ j, n.Committable matched j → j ≤ 1 := by
  obtain ⟨n, -, hfacts⟩ := (Option.any_eq_true _ _).1 sampleLeader_facts
  simp only [Bool.and_eq_true, beq_iff_eq] at hfacts
  obtain ⟨⟨⟨hcandidate, hlog⟩, hsnapshot⟩, hleader⟩ := hfacts
  have hcontiguous : n.Contiguous := by
    intro k e hk
    rw [hlog] at hk
    cases k with
    | zero =>
      cases hk
      simp [snapshotIndex, hsnapshot]
    | succ k => simp at hk
  obtain ⟨next, matched, hrole⟩ : ∃ next matched, n.role = .leader next matched := by
    unfold isLeader at hleader
    cases hrole : n.role <;> simp_all
  exact ⟨n, next, matched, hcontiguous, hrole,
    ((commit_rule hcontiguous hrole).1 1).1 hcandidate⟩

end RaftNode

end MicroRaft
