import MicroRaft.Application.Items
import MicroRaft.Store.Logical

/-!
# Coalesced cells

Entries that are committed together are merged into one set of changed cells, of which the
last write to a key is kept.  `mergeCells` counts the bytes and the records of the set it
would make without making it: the counts are those of the set, which is one the engine
takes (`Accumulated.merged`).
-/

namespace MicroRaft.Application

open Store (Key Value Mutation IoError invalid maxBatchBytes maxBatchRecords valueLength
  batchBytes overlay)

/-! ## `merge_cells` -/

/-- The changed cells of the entries prepared so far. -/
abbrev CellMap := BTreeMap Key (Option Value)

/-- What the loop of `merge_cells` keeps. -/
structure Tally where
  size : Nat
  seen : BTreeSet Key
  count : Nat

/-- The bytes of a cell. -/
def cellBytes (key : Key) (value : Option Value) : Nat := key.length + valueLength value

/-- The size and the count without the cell that is replaced, if there is one. -/
def Tally.release (current : CellMap) (t : Tally) (change : Mutation) :
    Except IoError (Nat × Nat) :=
  match current[change.key]? with
  | some previous =>
      if t.size < cellBytes change.key previous then
        .error (invalid "inconsistent accumulated cell size")
      else .ok (t.size - cellBytes change.key previous, t.count)
  | none => .ok (t.size, t.count + 1)

def Tally.add (current : CellMap) (t : Tally) (change : Mutation) : Except IoError Tally :=
  if change.key ∈ t.seen ∨ change.key = [] ∨ change.key.length > Store.maxKeyBytes ∨
      ∃ v ∈ change.value, v.length > Store.maxValueBytes then
    .error (invalid "application cell exceeds engine bounds")
  else do
    let (size, count) ← t.release current change
    match checkedAdd size (cellBytes change.key change.value) with
    | none => .error (invalid "cell byte count overflow")
    | some size => .ok ⟨size, t.seen.insert change.key, count⟩

/-- The cells after the changes. -/
def insertCells (current : CellMap) (changes : List Mutation) : CellMap :=
  changes.foldl (fun cells change => cells.insert change.key change.value) current

/-- `merge_cells`; `none` is `Ok(false)`, which leaves the cells and their count as they are. -/
def mergeCells (current : CellMap) (bytes : Nat) (changes : List Mutation) :
    Except IoError (Option (CellMap × Nat)) := do
  let t ← changes.foldlM (Tally.add current) ⟨bytes, ∅, current.size⟩
  if t.size > maxBatchBytes ∨ t.count > maxBatchRecords then return none
  return some (insertCells current changes, t.size)

/-- The batch that is handed to the engine. -/
def mutations (cells : CellMap) : List Mutation :=
  cells.toList.map fun cell => ⟨cell.1, cell.2⟩

/-! ## The accumulated cells -/

/-- The bytes of the accumulated cells. -/
def weight (cells : CellMap) : Nat := Table.total cellBytes cells

theorem batchBytes_mutations (cells : CellMap) : batchBytes (mutations cells) = weight cells := by
  rw [batchBytes, mutations, List.map_map]
  rfl

theorem length_mutations (cells : CellMap) : (mutations cells).length = cells.size := by
  rw [mutations, List.length_map, Std.ExtTreeMap.length_toList]

theorem mem_mutations {cells : CellMap} {m : Mutation} :
    m ∈ mutations cells ↔ cells[m.key]? = some m.value := by
  rw [mutations, List.mem_map]
  constructor
  · rintro ⟨cell, hcell, rfl⟩
    exact Table.mem_toList.1 hcell
  · intro h
    exact ⟨(m.key, m.value), Table.mem_toList.2 h, rfl⟩

theorem nodup_mutations (cells : CellMap) : ((mutations cells).map Mutation.key).Nodup := by
  rw [mutations, List.map_map]
  exact Table.nodup_keys cells

/-- What a key holds after the accumulated cells are written over a map. -/
theorem overlay_mutations (base : Key → Option Value) (cells : CellMap) (k : Key) :
    overlay base (mutations cells) k = (cells[k]?).getD (base k) := by
  rw [overlay]
  cases hget : cells[k]? with
  | none =>
    rw [Store.changeOf_eq_none.2]
    · rfl
    · intro m hm heq
      rw [mem_mutations, heq, hget] at hm
      cases hm
  | some value =>
    rw [(Store.changeOf_eq_some (c := ⟨k, value⟩) (nodup_mutations cells)).2
      ⟨mem_mutations.2 hget, rfl⟩]
    rfl

/-! ## The cells after some changes -/

variable {cells current : CellMap} {changes : List Mutation} {bytes : Nat}

theorem insertCells_cons (cells : CellMap) (m : Mutation) (changes : List Mutation) :
    insertCells cells (m :: changes) = insertCells (cells.insert m.key m.value) changes := rfl

/-- Changes of distinct keys are all there at the end. -/
theorem getElem?_insertCells (h : (changes.map Mutation.key).Nodup) (cells : CellMap) (k : Key) :
    (insertCells cells changes)[k]? =
      match Store.changeOf changes k with
      | some m => some m.value
      | none => cells[k]? := by
  induction changes generalizing cells with
  | nil => rfl
  | cons m rest ih =>
    obtain ⟨hnew, hrest⟩ := List.nodup_cons.1 h
    rw [insertCells_cons, ih hrest, Table.getElem?_insert]
    by_cases hk : k = m.key
    · have hnone : Store.changeOf rest k = none :=
        Store.changeOf_eq_none.2 fun c hc heq => hnew (List.mem_map.2 ⟨c, hc, heq.trans hk⟩)
      have hsome : Store.changeOf (m :: rest) k = some m := by simp [Store.changeOf, hk]
      rw [hnone, hsome, if_pos hk]
    · have hsame : Store.changeOf (m :: rest) k = Store.changeOf rest k := by
        simp [Store.changeOf, Ne.symm hk]
      rw [hsame, if_neg hk]

/-- **Last writer wins**: the merged cells say what the changes say over the earlier cells. -/
theorem overlay_insertCells (base : Key → Option Value) (h : (changes.map Mutation.key).Nodup)
    (cells : CellMap) :
    overlay base (mutations (insertCells cells changes)) =
      overlay (overlay base (mutations cells)) changes := by
  funext k
  rw [overlay_mutations, getElem?_insertCells h, overlay, overlay_mutations]
  cases Store.changeOf changes k <;> rfl

theorem mem_insertCells (h : (changes.map Mutation.key).Nodup) {m : Mutation} (hm : m ∈ changes) :
    m ∈ mutations (insertCells cells changes) := by
  rw [mem_mutations, getElem?_insertCells h, (Store.changeOf_eq_some h).2 ⟨hm, rfl⟩]

/-- A cell that is there at the end was there before or is one of the changes. -/
theorem of_mem_insertCells (h : (changes.map Mutation.key).Nodup) {m : Mutation}
    (hm : m ∈ mutations (insertCells cells changes)) : m ∈ mutations cells ∨ m ∈ changes := by
  rw [mem_mutations, getElem?_insertCells h] at hm
  cases hc : Store.changeOf changes m.key with
  | none =>
    rw [hc] at hm
    exact .inl (mem_mutations.2 hm)
  | some c =>
    rw [hc] at hm
    obtain ⟨hmem, hkey⟩ := (Store.changeOf_eq_some h).1 hc
    have heq : c = m := by
      obtain ⟨key, value⟩ := c
      obtain ⟨key', value'⟩ := m
      cases hkey
      cases hm
      rfl
    exact .inr (heq ▸ hmem)

/-- The changes are among the cells at the end. -/
theorem subperm_insertCells (h : (changes.map Mutation.key).Nodup) (cells : CellMap) :
    changes.Subperm (mutations (insertCells cells changes)) :=
  List.Nodup.subperm (List.Nodup.of_map _ h) fun _ hm => mem_insertCells h hm

theorem batchBytes_le_weight (h : (changes.map Mutation.key).Nodup) (cells : CellMap) :
    batchBytes changes ≤ weight (insertCells cells changes) := by
  obtain ⟨part, hperm, hsub⟩ := subperm_insertCells h cells
  rw [← batchBytes_mutations, batchBytes, batchBytes, ← (hperm.map _).sum_eq]
  exact (hsub.map _).sum_le_sum fun _ _ => Nat.zero_le _

theorem length_le_size (h : (changes.map Mutation.key).Nodup) (cells : CellMap) :
    changes.length ≤ (insertCells cells changes).size := by
  rw [← length_mutations]
  exact (subperm_insertCells h cells).length_le

/-- From no cells at all, the cells at the end are the changes. -/
theorem perm_insertCells_empty (h : (changes.map Mutation.key).Nodup) :
    (mutations (insertCells ∅ changes)).Perm changes := by
  refine (List.perm_ext_iff_of_nodup (List.Nodup.of_map _ (nodup_mutations _))
    (List.Nodup.of_map _ h)).2 fun m => ⟨fun hm => ?_, mem_insertCells h⟩
  rcases of_mem_insertCells h hm with hnone | hmem
  · rw [mem_mutations, Std.ExtTreeMap.getElem?_empty] at hnone
    cases hnone
  · exact hmem

theorem weight_insertCells_empty (h : (changes.map Mutation.key).Nodup) :
    weight (insertCells ∅ changes) = batchBytes changes := by
  rw [← batchBytes_mutations]
  exact ((perm_insertCells_empty h).map _).sum_eq

theorem size_insertCells_empty (h : (changes.map Mutation.key).Nodup) :
    (insertCells ∅ changes).size = changes.length := by
  rw [← length_mutations]
  exact (perm_insertCells_empty h).length_eq

/-! ## The counts of the loop -/

/-- The counts are those of the cells with the changes seen so far. -/
structure Tally.Counts (current cells : CellMap) (t : Tally) : Prop where
  size : t.size = weight cells
  count : t.count = cells.size
  unseen : ∀ k, k ∉ t.seen → cells[k]? = current[k]?

theorem Tally.Counts.start (current : CellMap) :
    Tally.Counts current current ⟨weight current, ∅, current.size⟩ :=
  ⟨rfl, rfl, fun _ _ => rfl⟩

variable {t t' : Tally} {m : Mutation}

/-- Without the cell that is replaced, the counts are those of the other cells. -/
theorem Tally.Counts.release (h : Tally.Counts current cells t) (hseen : m.key ∉ t.seen) :
    ∃ size count, t.release current m = .ok (size, count) ∧ size ≤ weight cells ∧
      weight (cells.insert m.key m.value) = size + cellBytes m.key m.value ∧
      (cells.insert m.key m.value).size = count := by
  have hsame := h.unseen m.key hseen
  rw [Tally.release]
  cases hget : current[m.key]? with
  | none =>
    rw [hget] at hsame
    refine ⟨_, _, rfl, h.size.le, ?_, ?_⟩
    · rw [h.size]
      exact Table.total_insert_of_none _ hsame
    · rw [h.count, Table.size_insert_of_none hsame]
  | some previous =>
    rw [hget] at hsame
    have hle : cellBytes m.key previous ≤ weight cells := Table.le_total _ hsame
    have hinsert : weight (cells.insert m.key m.value) + cellBytes m.key previous =
        weight cells + cellBytes m.key m.value := Table.total_insert_of_some _ hsame
    simp only [h.size, if_neg (not_lt.2 hle)]
    refine ⟨_, _, rfl, Nat.sub_le _ _, by omega, ?_⟩
    rw [h.count, Table.size_insert_of_some hsame]

/-- **One change** that is counted is within the bounds, and the counts follow it. -/
theorem Tally.Counts.add (h : Tally.Counts current cells t) (hadd : t.add current m = .ok t') :
    m.Bounded ∧ m.key ∉ t.seen ∧ t'.seen = t.seen.insert m.key ∧
      Tally.Counts current (cells.insert m.key m.value) t' := by
  rw [Tally.add] at hadd
  split at hadd
  · cases hadd
  · rename_i hfine
    obtain ⟨hseen, hbounded⟩ := not_or.1 hfine
    obtain ⟨size, count, hrelease, -, hsize, hcount⟩ := h.release hseen
    rw [hrelease, Store.ok_bind] at hadd
    dsimp only at hadd
    rw [checkedAdd] at hadd
    split at hadd
    · cases hadd
    · rename_i hsome
      split at hsome
      · cases hsome
        cases hadd
        refine ⟨not_not.1 fun hn => hbounded (Store.not_bounded_iff.2 hn), hseen, rfl, hsize.symm,
          hcount.symm, fun k hk => ?_⟩
        rw [Std.ExtTreeSet.mem_insert, not_or, Std.compare_eq_iff_eq] at hk
        rw [Table.getElem?_insert, if_neg (Ne.symm hk.1)]
        exact h.unseen k hk.2
      · cases hsome

/-- A change within the bounds whose key is new is counted. -/
theorem Tally.Counts.add_ok (h : Tally.Counts current cells t) (hbounded : m.Bounded)
    (hseen : m.key ∉ t.seen) (hroom : weight cells + cellBytes m.key m.value ≤ u64Max) :
    ∃ t', t.add current m = .ok t' := by
  obtain ⟨size, count, hrelease, hle, -, -⟩ := h.release hseen
  have hfine : ¬ (m.key ∈ t.seen ∨ m.key = [] ∨ m.key.length > Store.maxKeyBytes ∨
      ∃ v ∈ m.value, v.length > Store.maxValueBytes) := by
    rw [not_or, Store.not_bounded_iff, not_not]
    exact ⟨hseen, hbounded⟩
  rw [Tally.add, if_neg hfine, hrelease, Store.ok_bind]
  dsimp only
  rw [checkedAdd, if_pos (le_trans (Nat.add_le_add_right hle _) hroom)]
  exact ⟨_, rfl⟩

/-- **The loop** counts what the changes leave. -/
theorem Tally.Counts.foldlM (h : Tally.Counts current cells t)
    (hfold : changes.foldlM (Tally.add current) t = .ok t') :
    (∀ m ∈ changes, m.Bounded) ∧ (changes.map Mutation.key).Nodup ∧
      (∀ m ∈ changes, m.key ∉ t.seen) ∧ Tally.Counts current (insertCells cells changes) t' := by
  induction changes generalizing t cells with
  | nil =>
    cases hfold
    exact ⟨by simp, List.nodup_nil, by simp, h⟩
  | cons m rest ih =>
    rw [List.foldlM_cons] at hfold
    obtain ⟨t₁, hadd, hrest⟩ := bind_eq_ok.1 hfold
    obtain ⟨hbounded, hseen, hseen', hcounts⟩ := h.add hadd
    obtain ⟨hall, hnodup, hunseen, hcounts'⟩ := ih hcounts hrest
    have hnew : ∀ c ∈ rest, c.key ≠ m.key ∧ c.key ∉ t.seen := fun c hc => by
      have hc' := hunseen c hc
      rw [hseen', Std.ExtTreeSet.mem_insert, not_or, Std.compare_eq_iff_eq] at hc'
      exact ⟨Ne.symm hc'.1, hc'.2⟩
    refine ⟨List.forall_mem_cons.2 ⟨hbounded, hall⟩, List.nodup_cons.2 ⟨fun hin => ?_, hnodup⟩,
      List.forall_mem_cons.2 ⟨hseen, fun c hc => (hnew c hc).2⟩, hcounts'⟩
    obtain ⟨c, hc, heq⟩ := List.mem_map.1 hin
    exact (hnew c hc).1 heq

/-- Changes within the bounds are counted while their sizes can be added up. -/
theorem Tally.Counts.foldlM_ok (h : Tally.Counts current cells t)
    (hbounded : ∀ m ∈ changes, m.Bounded) (hnodup : (changes.map Mutation.key).Nodup)
    (hseen : ∀ m ∈ changes, m.key ∉ t.seen) (hroom : weight cells + batchBytes changes ≤ u64Max) :
    ∃ t', changes.foldlM (Tally.add current) t = .ok t' := by
  induction changes generalizing t cells with
  | nil => exact ⟨t, rfl⟩
  | cons m rest ih =>
    obtain ⟨hbounded₀, hbounded⟩ := List.forall_mem_cons.1 hbounded
    obtain ⟨hseen₀, hseen⟩ := List.forall_mem_cons.1 hseen
    obtain ⟨hnew, hnodup⟩ := List.nodup_cons.1 hnodup
    have hsplit : batchBytes (m :: rest) = cellBytes m.key m.value + batchBytes rest := by
      simp [batchBytes, cellBytes]
    obtain ⟨t₁, hadd⟩ := h.add_ok hbounded₀ hseen₀ (by omega)
    obtain ⟨-, -, hseen', hcounts⟩ := h.add hadd
    obtain ⟨size, count, -, hle, hsize, -⟩ := h.release hseen₀
    have hunseen : ∀ c ∈ rest, c.key ∉ t₁.seen := fun c hc => by
      rw [hseen', Std.ExtTreeSet.mem_insert, not_or, Std.compare_eq_iff_eq]
      exact ⟨fun heq => hnew (List.mem_map.2 ⟨c, hc, heq.symm⟩), hseen c hc⟩
    obtain ⟨t', hrest⟩ := ih hcounts hbounded hnodup hunseen (by omega)
    exact ⟨t', by rw [List.foldlM_cons, hadd, Store.ok_bind, hrest]⟩

/-! ## Merging -/

/-- The cells prepared so far, and their count: a batch the engine takes. -/
structure Accumulated (cells : CellMap) (bytes : Nat) : Prop where
  bytes : bytes = weight cells
  admitted : Store.Admitted (mutations cells) maxBatchRecords maxBatchBytes

theorem Accumulated.empty : Accumulated ∅ 0 where
  bytes := (Table.total_empty _).symm
  admitted := by
    have hnil : mutations ∅ = [] := by
      rw [mutations, Std.ExtTreeMap.toList_eq_nil_iff.2 rfl, List.map_nil]
    rw [hnil]
    exact ⟨Nat.zero_le _, by simp, List.nodup_nil, Nat.zero_le _⟩

/-- Only changes within the bounds are merged or left for the next group. -/
theorem Accumulated.bounded {result : Option (CellMap × Nat)} (h : Accumulated current bytes)
    (hmerge : mergeCells current bytes changes = .ok result) : ∀ m ∈ changes, m.Bounded := by
  rw [mergeCells, h.bytes] at hmerge
  obtain ⟨t, hfold, -⟩ := bind_eq_ok.1 hmerge
  exact ((Tally.Counts.start current).foldlM hfold).1

/-- **Cells that are merged**: the changes are within the bounds, the set is that of the last
writes, and its count is its size. -/
theorem Accumulated.merged {result : CellMap × Nat} (h : Accumulated current bytes)
    (hmerge : mergeCells current bytes changes = .ok (some result)) :
    Store.Admitted changes maxBatchRecords maxBatchBytes ∧ result.1 = insertCells current changes ∧
      Accumulated result.1 result.2 := by
  rw [mergeCells, h.bytes] at hmerge
  obtain ⟨t, hfold, hrest⟩ := bind_eq_ok.1 hmerge
  obtain ⟨hbounded, hnodup, -, hcounts⟩ := (Tally.Counts.start current).foldlM hfold
  split at hrest
  · cases hrest
  · rename_i hfits
    obtain ⟨hsize, hcount⟩ := not_or.1 hfits
    cases hrest
    rw [not_lt, hcounts.size] at hsize
    rw [not_lt, hcounts.count] at hcount
    refine ⟨⟨?_, hbounded, hnodup, ?_⟩, rfl, hcounts.size, ⟨?_, fun m hm => ?_, ?_, ?_⟩⟩
    · exact (length_le_size hnodup current).trans hcount
    · exact (batchBytes_le_weight hnodup current).trans hsize
    · rwa [length_mutations]
    · rcases of_mem_insertCells hnodup hm with hold | hnew
      · exact h.admitted.bounded m hold
      · exact hbounded m hnew
    · exact nodup_mutations _
    · rwa [batchBytes_mutations]

theorem two_maxBatchBytes_le : maxBatchBytes + maxBatchBytes ≤ u64Max := by decide

/-- Changes that the engine takes on their own are merged or put off, and put off only when there is
something to commit first. -/
theorem Accumulated.merge (h : Accumulated current bytes)
    (hchanges : Store.Admitted changes maxBatchRecords maxBatchBytes) :
    ∃ result, mergeCells current bytes changes = .ok result ∧ (current = ∅ → result ≠ none) := by
  have hroom : weight current + batchBytes changes ≤ u64Max :=
    (Nat.add_le_add (batchBytes_mutations current ▸ h.admitted.bytes) hchanges.bytes).trans
      two_maxBatchBytes_le
  obtain ⟨t, hfold⟩ := (Tally.Counts.start current).foldlM_ok hchanges.bounded hchanges.distinct
    (fun _ _ => Std.ExtTreeSet.not_mem_empty) hroom
  obtain ⟨-, -, -, hcounts⟩ := (Tally.Counts.start current).foldlM hfold
  rw [mergeCells, h.bytes, hfold, Store.ok_bind]
  by_cases hover : t.size > maxBatchBytes ∨ t.count > maxBatchRecords
  · rw [if_pos hover]
    refine ⟨none, rfl, fun hempty => absurd hover (not_or.2 ⟨?_, ?_⟩)⟩
    · subst hempty
      rw [not_lt, hcounts.size]
      exact (weight_insertCells_empty hchanges.distinct).le.trans hchanges.bytes
    · subst hempty
      rw [not_lt, hcounts.count]
      exact (size_insertCells_empty hchanges.distinct).le.trans hchanges.count
  · rw [if_neg hover]
    exact ⟨_, rfl, fun _ => by simp⟩

end MicroRaft.Application
