import MicroRaft.Node.Frame

/-!
# The shape of a node's log

Entries are numbered without gaps from the snapshot boundary on.  Every move
preserves this, whatever the node is told, so the positions that handlers
compute always hit the entries they mean.
-/

namespace MicroRaft

open EffectM

/-! ## Numbered lists of entries -/

/-- The entries are numbered `start + 1`, `start + 2`, and so on. -/
def Numbered (start : Nat) (l : List Entry) : Prop :=
  ∀ k e, l[k]? = some e → e.index = start + k + 1

variable {e : Entry} {entries : List Entry} {c : Cause} {es : List Effect} {n n' : RaftNode}

namespace Numbered

variable {start : Nat} {l l' : List Entry}

theorem nil : Numbered start [] := by
  intro k e h
  simp at h

theorem cons_iff : Numbered start (e :: l) ↔ e.index = start + 1 ∧ Numbered (start + 1) l := by
  constructor
  · intro h
    refine ⟨h 0 e rfl, fun k e' hk => ?_⟩
    have := h (k + 1) e' hk
    omega
  · rintro ⟨he, hl⟩ k e' hk
    cases k with
    | zero =>
      cases hk
      exact he
    | succ k =>
      have := hl k e' hk
      omega

theorem append (h : Numbered start l) (h' : Numbered (start + l.length) l') :
    Numbered start (l ++ l') := by
  intro k e hk
  by_cases hlt : k < l.length
  · rw [List.getElem?_append_left hlt] at hk
    exact h k e hk
  · rw [List.getElem?_append_right (by omega)] at hk
    have := h' _ e hk
    omega

theorem take (h : Numbered start l) (m : Nat) : Numbered start (l.take m) := by
  intro k e hk
  rw [List.getElem?_take] at hk
  split at hk
  · exact h k e hk
  · cases hk

theorem drop (h : Numbered start l) (m : Nat) : Numbered (start + m) (l.drop m) := by
  intro k e hk
  rw [List.getElem?_drop] at hk
  have := h _ e hk
  omega

theorem mem_bounds (h : Numbered start l) (he : e ∈ l) :
    start < e.index ∧ e.index ≤ start + l.length := by
  obtain ⟨k, hk⟩ := List.mem_iff_getElem?.1 he
  obtain ⟨hlt, -⟩ := List.getElem?_eq_some_iff.1 hk
  have := h k e hk
  omega

theorem getElem?_of_mem (h : Numbered start l) (he : e ∈ l) : l[e.index - start - 1]? = some e := by
  obtain ⟨k, hk⟩ := List.mem_iff_getElem?.1 he
  have := h k e hk
  rwa [show e.index - start - 1 = k by omega]

/-- Cutting by number is cutting by position. -/
theorem filter_gt (h : Numbered start l) {b : Nat} (hb : start ≤ b) :
    (l.filter fun e => b < e.index) = l.drop (b - start) := by
  induction l generalizing start with
  | nil => simp
  | cons e l ih =>
    obtain ⟨he, hl⟩ := cons_iff.1 h
    by_cases hlt : b < e.index
    · have hall : ∀ x ∈ l, b < x.index := fun x hx => by
        have := (hl.mem_bounds hx).1
        omega
      rw [List.filter_cons_of_pos (by simpa using hlt), show b - start = 0 by omega,
        List.drop_zero, List.filter_eq_self.2 (by simpa using hall)]
    · rw [List.filter_cons_of_neg (by simpa using hlt), ih hl (by omega),
        show b - start = (b - (start + 1)) + 1 by omega, List.drop_succ_cons]

theorem filter_lt (h : Numbered start l) {b : Nat} (hb : start < b) :
    (l.filter fun e => e.index < b) = l.take (b - start - 1) := by
  induction l generalizing start with
  | nil => simp
  | cons e l ih =>
    obtain ⟨he, hl⟩ := cons_iff.1 h
    by_cases hlt : e.index < b
    · rw [List.filter_cons_of_pos (by simpa using hlt), ih hl (by omega),
        show b - start - 1 = (b - (start + 1) - 1) + 1 by omega, List.take_succ_cons]
    · have hall : ∀ x ∈ l, ¬ x.index < b := fun x hx => by
        have := (hl.mem_bounds hx).1
        omega
      rw [List.filter_cons_of_neg (by simpa using hlt), show b - start - 1 = 0 by omega,
        List.take_zero, List.filter_eq_nil_iff.2 (by simpa using hall)]

end Numbered

theorem proposedEntries_length (last : Nat) (term : Nat) (commands : List Command) :
    (proposedEntries last term commands).length = commands.length := by
  induction commands generalizing last with
  | nil => rfl
  | cons command commands ih => rw [proposedEntries, List.length_cons, ih, List.length_cons]

theorem proposedEntries_numbered (last : Nat) (term : Nat) (commands : List Command) :
    Numbered last (proposedEntries last term commands) := by
  induction commands generalizing last with
  | nil => exact Numbered.nil
  | cons command commands ih => exact Numbered.cons_iff.2 ⟨rfl, ih _⟩

theorem proposedEntries_mem {last : Nat} {term : Nat} {commands : List Command}
    (he : e ∈ proposedEntries last term commands) : e.term = term ∧ e.command ∈ commands := by
  induction commands generalizing last with
  | nil => cases he
  | cons command commands ih =>
    rw [proposedEntries, List.mem_cons] at he
    rcases he with rfl | he
    · exact ⟨rfl, List.mem_cons_self ..⟩
    · exact ⟨(ih he).1, List.mem_cons_of_mem _ (ih he).2⟩

theorem validEntries_numbered {messageTerm : Nat} {prev : Nat} {prevTerm : Nat}
    (h : validEntries messageTerm prev prevTerm entries = true) : Numbered prev entries := by
  induction entries generalizing prev prevTerm with
  | nil => exact Numbered.nil
  | cons e es ih =>
    simp only [validEntries, Bool.and_eq_true, decide_eq_true_eq] at h
    obtain ⟨⟨⟨he, -⟩, -⟩, hes⟩ := h
    exact Numbered.cons_iff.2 ⟨he, he ▸ ih hes⟩

theorem validateAppendEntries_eq_some {messageTerm : Nat} {prev : Nat} {prevTerm : Nat} {last : Nat}
    (h : validateAppendEntries messageTerm prev prevTerm entries = some last) :
    last = prev + entries.length ∧ last ≤ u64Max ∧ Numbered prev entries := by
  unfold validateAppendEntries at h
  split at h
  · cases h
  · split at h
    · cases h
    · next hadd =>
        split at h
        · next hvalid =>
            cases h
            exact ⟨(checkedAdd_eq_some hadd).1, (checkedAdd_eq_some hadd).2,
              validEntries_numbered hvalid⟩
        · cases h

/-! ## The log of a node -/

namespace RaftNode

variable {n n' : RaftNode}

/-- The node's log is numbered from its snapshot boundary. -/
def Contiguous (n : RaftNode) : Prop := Numbered n.snapshotIndex n.log

theorem Contiguous.lastLogIndex (h : n.Contiguous) :
    n.lastLogIndex = n.snapshotIndex + n.log.length := by
  unfold RaftNode.lastLogIndex
  rcases List.eq_nil_or_concat' n.log with hnil | ⟨l, e, hl⟩
  · simp [hnil]
  · have := h l.length e (by simp [hl])
    simp [hl, this]
    omega

theorem entryAt_eq_some {index : Nat} : n.entryAt index = some e ↔ n.snapshotIndex < index ∧
      n.log[index - n.snapshotIndex - 1]? = some e := by
  unfold entryAt
  split <;> simp_all

theorem Contiguous.entryAt_of_mem (h : n.Contiguous) (he : e ∈ n.log) :
    n.entryAt e.index = some e :=
  entryAt_eq_some.2 ⟨(h.mem_bounds he).1, Numbered.getElem?_of_mem h he⟩

theorem Contiguous.index_of_entryAt (h : n.Contiguous) {index : Nat}
    (he : n.entryAt index = some e) : e.index = index ∧ e ∈ n.log := by
  obtain ⟨hlt, hget⟩ := entryAt_eq_some.1 he
  have := h _ e hget
  exact ⟨by omega, List.mem_of_getElem? hget⟩

theorem Contiguous.logTerm_of_mem (h : n.Contiguous) (he : e ∈ n.log) :
    n.logTerm e.index = some e.term := by
  have := (h.mem_bounds he).1
  rw [logTerm, if_neg (by omega), h.entryAt_of_mem he, Option.map_some]

theorem Contiguous.logTerm_bounds (h : n.Contiguous) {index : Nat} {term : Nat}
    (ht : n.logTerm index = some term) : n.snapshotIndex ≤ index ∧ index ≤ n.lastLogIndex := by
  rw [h.lastLogIndex]
  unfold logTerm at ht
  split at ht
  · omega
  · obtain ⟨e, he, -⟩ := Option.map_eq_some_iff.1 ht
    obtain ⟨rfl, hmem⟩ := h.index_of_entryAt he
    have := h.mem_bounds hmem
    omega

/-- What is retained after a boundary the log knows is the log above it. -/
theorem Contiguous.retainedSuffix_eq (h : n.Contiguous) {d : SnapshotDescriptor}
    (hb : n.logTerm d.metadata.lastIncludedIndex = some d.metadata.lastIncludedTerm) :
    n.retainedSuffix d = n.log.drop (d.metadata.lastIncludedIndex - n.snapshotIndex) := by
  unfold retainedSuffix
  rw [if_pos hb]
  exact Numbered.filter_gt h (h.logTerm_bounds hb).1

theorem Contiguous.retainedSuffix_numbered (h : n.Contiguous) (d : SnapshotDescriptor) :
    Numbered d.metadata.lastIncludedIndex (n.retainedSuffix d) := by
  by_cases hb : n.logTerm d.metadata.lastIncludedIndex = some d.metadata.lastIncludedTerm
  · rw [h.retainedSuffix_eq hb]
    have := Numbered.drop h (d.metadata.lastIncludedIndex - n.snapshotIndex)
    rwa [show n.snapshotIndex + (d.metadata.lastIncludedIndex - n.snapshotIndex) =
      d.metadata.lastIncludedIndex by
        have := (h.logTerm_bounds hb).1
        omega] at this
  · unfold retainedSuffix
    rw [if_neg hb]
    exact Numbered.nil

/-- The log, and the one waiting behind a publication, are numbered; a publication that ends
a transfer still has its transfer. -/
structure Sound (n : RaftNode) : Prop where
  contiguous : n.Contiguous
  retained : ∀ {p : PublishingSnapshot}, n.publishingSnapshot = some p →
    Numbered p.descriptor.metadata.lastIncludedIndex p.retained
  pending : ∀ {p : PublishingSnapshot} {t : SnapshotTransferId}, n.publishingSnapshot = some p →
    p.transfer = some t → t.term = n.hard.currentTerm ∧ ∃ i, n.incomingSnapshot = some i ∧
      i.transfer = t ∧ i.descriptor = p.descriptor

theorem Sound.of_idle (hc : n.Contiguous) (hidle : n.publishingSnapshot = none) : n.Sound where
  contiguous := hc
  retained hp := by
    rw [hidle] at hp
    cases hp
  pending hp := by
    rw [hidle] at hp
    cases hp

end RaftNode

/-! ## Moves preserve the shape -/

/-- Appending numbered entries at the end. -/
theorem RaftNode.Contiguous.append (h : n.Contiguous) {l : List Entry}
    (hl : Numbered n.lastLogIndex l) : Numbered n.snapshotIndex (n.log ++ l) :=
  Numbered.append h (h.lastLogIndex ▸ hl)

theorem Numbered.singleton {start : Nat} (h : e.index = start + 1) : Numbered start [e] :=
  Numbered.cons_iff.2 ⟨h, Numbered.nil⟩

/-- Taking over a payload from a position inside its anchor's reach. -/
theorem RaftNode.Anchors.merged_numbered {sender : NodeId}
    {prev leaderCommit payloadLast : Nat} {kept : Nat}
    (h : n.Contiguous) (ha : n.Anchors c sender prev entries leaderCommit payloadLast)
    (hfit : prev - n.snapshotIndex + kept ≤ n.log.length) : Numbered n.snapshotIndex
      (n.log.take (prev - n.snapshotIndex + kept) ++ entries.drop kept) := by
  obtain ⟨prevTerm, round, -, hvalid, -⟩ := ha.heard
  have hnum := (validateAppendEntries_eq_some hvalid).2.2
  refine (Numbered.take h _).append ?_
  rw [List.length_take, min_eq_left hfit]
  have := hnum.drop kept
  rwa [show prev + kept = n.snapshotIndex + (prev - n.snapshotIndex + kept) by
    have := ha.retained
    omega] at this

/-- The payload entries found in the log lie one after the other behind the anchor. -/
theorem RaftNode.Anchors.kept_le {sender : NodeId}
    {prev leaderCommit payloadLast : Nat} {kept : Nat}
    (h : n.Contiguous) (ha : n.Anchors c sender prev entries leaderCommit payloadLast)
    (hlt : kept ≤ entries.length)
    (hkept : ∀ i < kept, ∀ e, entries[i]? = some e → n.logTerm e.index = some e.term) :
    prev - n.snapshotIndex + kept ≤ n.log.length := by
  obtain ⟨prevTerm, round, -, hvalid, hprev⟩ := ha.heard
  have hret := ha.retained
  have hlast := h.lastLogIndex
  rcases Nat.eq_zero_or_pos kept with rfl | hpos
  · have := (h.logTerm_bounds hprev).2
    omega
  · have hnum := (validateAppendEntries_eq_some hvalid).2.2
    have hget : entries[kept - 1]? = some entries[kept - 1] := List.getElem?_eq_getElem (by omega)
    have hidx := hnum _ _ hget
    have := (h.logTerm_bounds (hkept (kept - 1) (by omega) _ hget)).2
    omega

theorem Move.contiguous (hm : Move c n es n') (h : n.Contiguous) : n'.Contiguous := by
  cases hm with
  | weaken hw =>
    unfold RaftNode.Contiguous RaftNode.snapshotIndex
    rw [hw.snapshot, hw.log]
    exact h
  | win hrole hquorum hindex =>
    exact h.append (Numbered.singleton (nextIndex_eq_some hindex).1)
  | extend hlead hconf hlast => exact h.append (proposedEntries_numbered _ _ _)
  | extendConf hlead hclear hindex hnext =>
    exact h.append (Numbered.singleton (nextIndex_eq_some hindex).1)
  | merge hrole hanchor hcommitted hkept hlt hstop hmembership =>
    exact hanchor.merged_numbered h (hanchor.kept_le h hlt.le hkept)
  | _ => exact h

theorem Step.sound (hs : Step c n es n') (h : n.Sound) : n'.Sound := by
  cases hs with
  | move hidle hm =>
    have hc := hm.contiguous h.contiguous
    cases hm with
    | weaken hw => exact .of_idle hc (hw.publishing.trans hidle)
    | @publish transfer descriptor _ hpub =>
      refine ⟨hc, ?_, ?_⟩
      · intro p hp
        cases hp
        exact h.contiguous.retainedSuffix_numbered _
      · intro p t hp ht
        cases hp
        dsimp only at ht
        subst ht
        obtain ⟨hterm, -, -, -, i, hi⟩ := hpub
        exact ⟨hterm, i, hi⟩
    | _ => exact .of_idle hc hidle
  | land hl =>
    cases hl with
    | compacted hp htransfer => exact .of_idle (h.retained hp) rfl
    | installed hp htransfer hhard hnext => exact .of_idle (h.retained hp) rfl

/-- **The shape of the log along every run of moves.** -/
theorem Steps.sound (hs : Steps c n es n') (h : n.Sound) : n'.Sound :=
  Run.invariant (P := RaftNode.Sound) Step.sound hs h

end MicroRaft
