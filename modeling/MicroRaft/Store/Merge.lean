import MicroRaft.Lib.Fallible
import MicroRaft.Store.Basic

/-!
# The merge of ordered runs

`Merge` reads any number of runs, each in ascending key order, and yields one
record for each key.  It keeps the next record of every unfinished run in a
priority queue; the queue puts the least key first and, under one key, the
greatest sequence number.  The queue is a list in that order.

What a merge state stands for is the list of the runs that are left (`Stands`):
taking the first head and advancing its run removes one record from one of them,
and draining a key removes it from all of them (`drain_spec`).
`merge_exact` follows by induction on the records that are left.
-/

namespace MicroRaft.Store

open Fallible

/-! ## The queue -/

/-- The next record of the run with the given number. -/
structure Head where
  source : Nat
  record : Record
  deriving DecidableEq, Repr

/-- The order of the queue: what is greater is taken first. -/
def Head.cmp (a b : Head) : Ordering :=
  (compare b.record.key a.record.key).then
    ((compare a.record.sequence b.record.sequence).then (compare b.source a.source))

/-- `BinaryHeap::push`; the queue is kept in descending order. -/
def pushHead (x : Head) : List Head → List Head
  | [] => [x]
  | y :: ys => if x.cmp y = .gt then x :: y :: ys else y :: pushHead x ys

/-! ## The merge -/

abbrev Source := List (Except IoError Record)

structure Merge where
  sources : List Source
  heap : List Head
  failed : Bool

namespace Merge

/-- Put the next record of a run into the queue. -/
def advance (source : Nat) : EStateM IoError Merge Unit := do
  let m ← get
  match m.sources[source]? with
  | some (item :: rest) =>
      set { m with sources := m.sources.set source rest }
      match item with
      | .ok record => modify fun m => { m with heap := pushHead ⟨source, record⟩ m.heap }
      | .error e => throw e
  | _ => pure ()

/-- `advance` for the runs from `source` on. -/
def fill (source : Nat) : Nat → EStateM IoError Merge Unit
  | 0 => pure ()
  | rounds + 1 => do
      advance source
      fill (source + 1) rounds

/-- `Merge::new`. -/
def new (sources : List Source) : Except IoError Merge :=
  match (fill 0 sources.length).run { sources, heap := [], failed := false } with
  | .ok _ m => .ok m
  | .error e _ => .error e

/-- The records in the queue and behind it. -/
def remaining (m : Merge) : Nat := m.heap.length + (m.sources.map List.length).sum

/-- Is the duplicate newer than the winner, or of the same sequence with another value? -/
def contradicts (winner duplicate : Record) : Bool :=
  decide (duplicate.sequence > winner.sequence) ||
    decide (duplicate.sequence = winner.sequence ∧ duplicate.value ≠ winner.value)

/-- The loop that drops the other records of the winner's key; the first argument bounds its
rounds. -/
def drain : Nat → Record → EStateM IoError Merge Unit
  | 0, _ => pure ()
  | rounds + 1, winner => do
      let m ← get
      match m.heap with
      | [] => pure ()
      | head :: rest =>
          if head.record.key = winner.key then do
            set { m with heap := rest }
            if contradicts winner head.record then
              throw (invalid "conflicting equal-sequence record or unsorted source")
            else do
              advance head.source
              drain rounds winner
          else pure ()

def take : EStateM IoError Merge (Option Record) := do
  let m ← get
  match m.heap with
  | [] => pure none
  | head :: rest => do
      set { m with heap := rest }
      advance head.source
      let m ← get
      drain m.remaining head.record
      pure (some head.record)

/-- `Iterator::next`. -/
def next (m : Merge) : Option (Except IoError Record) × Merge :=
  if m.failed then (none, m)
  else
    match take.run m with
    | .ok none m => (none, m)
    | .ok (some record) m => (some (.ok record), m)
    | .error e m => (some (.error e), { m with failed := true })

/-- What the iterator returns at its call number `j`, counted from zero. -/
def call : Nat → Merge → Option (Except IoError Record)
  | 0, m => m.next.1
  | j + 1, m => call j m.next.2

end Merge

/-! ## The order of the queue -/

theorem Head.cmp_eq_gt {a b : Head} :
    a.cmp b = .gt ↔ a.record.key < b.record.key ∨ a.record.key = b.record.key ∧
      (b.record.sequence < a.record.sequence ∨
        b.record.sequence = a.record.sequence ∧ a.source < b.source) := by
  unfold Head.cmp
  rw [Ordering.then_eq_gt, Ordering.then_eq_gt, compare_gt_iff_gt, compare_eq_iff_eq,
    compare_gt_iff_gt, compare_eq_iff_eq, compare_gt_iff_gt]
  constructor
  · rintro (h | ⟨h, h' | ⟨h', h''⟩⟩)
    · exact Or.inl h
    · exact Or.inr ⟨h.symm, Or.inl h'⟩
    · exact Or.inr ⟨h.symm, Or.inr ⟨h'.symm, h''⟩⟩
  · rintro (h | ⟨h, h' | ⟨h', h''⟩⟩)
    · exact Or.inl h
    · exact Or.inr ⟨h.symm, Or.inl h'⟩
    · exact Or.inr ⟨h.symm, Or.inr ⟨h'.symm, h''⟩⟩

theorem Head.cmp_trans {a b c : Head} (hab : a.cmp b = .gt) (hbc : b.cmp c = .gt) :
    a.cmp c = .gt := by
  rw [Head.cmp_eq_gt] at *
  rcases hab with hab | ⟨hab, hab'⟩ <;> rcases hbc with hbc | ⟨hbc, hbc'⟩
  · exact Or.inl (hab.trans hbc)
  · exact Or.inl (hbc ▸ hab)
  · exact Or.inl (hab ▸ hbc)
  · exact Or.inr ⟨hab.trans hbc, by omega⟩

/-- Heads of different runs are never equal in the queue. -/
theorem Head.cmp_total {a b : Head} (h : a.source ≠ b.source) (hab : a.cmp b ≠ .gt) :
    b.cmp a = .gt := by
  rw [ne_eq, Head.cmp_eq_gt] at hab
  rw [Head.cmp_eq_gt]
  push Not at hab
  rcases lt_or_eq_of_le hab.1 with hlt | heq
  · exact Or.inl hlt
  · have hrest := hab.2 heq.symm
    exact Or.inr ⟨heq, by omega⟩

theorem mem_pushHead {x y : Head} {l : List Head} : y ∈ pushHead x l ↔ y = x ∨ y ∈ l := by
  induction l with
  | nil => simp [pushHead]
  | cons z zs ih =>
    unfold pushHead
    split
    · simp
    · simp only [List.mem_cons, ih]
      tauto

theorem length_pushHead (x : Head) (l : List Head) : (pushHead x l).length = l.length + 1 := by
  induction l with
  | nil => rfl
  | cons z zs ih =>
    unfold pushHead
    split
    · rfl
    · simp [ih]

/-- The queue in order. -/
abbrev Ordered (heap : List Head) : Prop := heap.Pairwise fun a b => a.cmp b = .gt

theorem Ordered.push {x : Head} {l : List Head} (h : Ordered l)
    (hnew : ∀ y ∈ l, x.source ≠ y.source) : Ordered (pushHead x l) := by
  induction l with
  | nil => simp [pushHead, Ordered]
  | cons z zs ih =>
    obtain ⟨hz, hzs⟩ := List.pairwise_cons.1 h
    unfold pushHead
    split
    · next hgt =>
        refine List.pairwise_cons.2 ⟨fun y hy => ?_, h⟩
        rcases List.mem_cons.1 hy with rfl | hy
        · exact hgt
        · exact Head.cmp_trans hgt (hz y hy)
    · next hle =>
        refine List.pairwise_cons.2 ⟨fun y hy => ?_, ih hzs fun y hy => ?_⟩
        · rcases mem_pushHead.1 hy with rfl | hy
          · exact Head.cmp_total (hnew z List.mem_cons_self) hle
          · exact hz y hy
        · exact hnew y (List.mem_cons_of_mem _ hy)

/-! ## What a merge stands for -/

variable {rest : List Head} {r : Record} {key : Key} {h : Head}

namespace Merge

/-- The merge stands for the runs `runs`, where the first record of a run is in the queue if
the run is loaded and still with the source otherwise. -/
structure Loads (loaded : Nat → Bool) (m : Merge) (runs : List (List Record)) : Prop where
  sources : ∀ i, m.sources[i]? =
    runs[i]?.map fun run : List Record => (if loaded i then run.tail else run).map Except.ok
  ordered : Ordered m.heap
  heads : ∀ h, h ∈ m.heap ↔ loaded h.source = true ∧ ∃ t, runs[h.source]? = some (h.record :: t)
  sound : m.failed = false

/-- Between two calls every run is loaded. -/
abbrev Stands (m : Merge) (runs : List (List Record)) : Prop := m.Loads (fun _ => true) runs

variable {m : Merge} {runs : List (List Record)} {loaded : Nat → Bool}

theorem sum_set_add_one {l : List Nat} {i x : Nat} (h : l[i]? = some (x + 1)) :
    (l.set i x).sum + 1 = l.sum := by
  induction l generalizing i with
  | nil => cases h
  | cons y ys ih =>
    cases i with
    | zero =>
      cases h
      simp only [List.set_cons_zero, List.sum_cons]
      omega
    | succ i =>
      have hrest := ih h
      simp only [List.set_cons_succ, List.sum_cons]
      omega

/-- Loading a run moves its first record into the queue, if there is one. -/
theorem advance_spec {i : Nat} (h : m.Loads loaded runs) (hi : loaded i = false) :
    wp (advance i) (fun _ m' => m'.Loads (fun j => loaded j || j == i) runs ∧
      m'.remaining = m.remaining) (fun _ _ => False) m := by
  have hsource := h.sources i
  rw [hi] at hsource
  simp only [advance, wp_bind, wp_get]
  cases hrun : runs[i]? with
  | none =>
    rw [hrun] at hsource
    simp only [Option.map_none] at hsource
    rw [hsource]
    simp only [wp_pure, and_true]
    refine ⟨fun j => ?_, h.ordered, fun x => ?_, h.sound⟩
    · by_cases hj : j = i
      · subst hj
        rw [hrun, hsource]
        rfl
      · simp [h.sources j, hj]
    · rw [h.heads x]
      by_cases hx : x.source = i
      · simp [hx, hrun]
      · simp [hx]
  | some run =>
    rw [hrun] at hsource
    cases run with
    | nil =>
      simp only [Option.map_some, Bool.false_eq_true, if_false, List.map_nil] at hsource
      rw [hsource]
      simp only [wp_pure, and_true]
      refine ⟨fun j => ?_, h.ordered, fun x => ?_, h.sound⟩
      · by_cases hj : j = i
        · subst hj
          rw [hrun, hsource]
          simp
        · simp [h.sources j, hj]
      · rw [h.heads x]
        by_cases hx : x.source = i
        · simp [hx, hrun]
        · simp [hx]
    | cons r t =>
      simp only [Option.map_some, Bool.false_eq_true, if_false, List.map_cons] at hsource
      rw [hsource]
      simp only [wp_bind, wp_set, wp_modify]
      have hlt : i < m.sources.length := (List.getElem?_eq_some_iff.1 hsource).1
      refine ⟨⟨fun j => ?_, ?_, fun x => ?_, h.sound⟩, ?_⟩
      · by_cases hj : j = i
        · subst hj
          simp [hrun, hlt]
        · simp only [List.getElem?_set_ne (Ne.symm hj), h.sources j]
          simp [hj]
      · refine h.ordered.push fun y hy heq => ?_
        have hloaded := ((h.heads y).1 hy).1
        rw [← heq, hi] at hloaded
        cases hloaded
      · rw [mem_pushHead, h.heads x]
        by_cases hx : x.source = i
        · obtain ⟨source, record⟩ := x
          simp only at hx
          subst hx
          simp [hi, hrun, eq_comm]
        · have hne : x ≠ ⟨i, r⟩ := fun heq => hx (by rw [heq])
          simp [hx, hne]
      · have hget : (m.sources.map List.length)[i]? = some (t.length + 1) := by
          rw [List.getElem?_map, hsource]
          simp
        have hsum := sum_set_add_one hget
        simp only [remaining, length_pushHead, List.map_set, List.length_map]
        omega

theorem Loads.congr {loaded' : Nat → Bool} (h : m.Loads loaded runs)
    (heq : ∀ i < runs.length, loaded' i = loaded i) : m.Loads loaded' runs where
  sources i := by
    rw [h.sources i]
    by_cases hi : i < runs.length
    · rw [heq i hi]
    · simp [List.getElem?_eq_none (not_lt.1 hi)]
  ordered := h.ordered
  heads x := by
    rw [h.heads x]
    by_cases hi : x.source < runs.length
    · rw [heq _ hi]
    · simp [List.getElem?_eq_none (not_lt.1 hi)]
  sound := h.sound

theorem fill_spec {i : Nat} (rounds : Nat) (h : m.Loads (fun j => decide (j < i)) runs) :
    wp (fill i rounds) (fun _ m' => m'.Loads (fun j => decide (j < i + rounds)) runs)
      (fun _ _ => False) m := by
  induction rounds generalizing i m with
  | zero => exact h
  | succ rounds ih =>
    simp only [fill, wp_bind]
    refine wp_mono (advance_spec h (by simp)) (fun _ m' hm' => ?_) fun _ _ => id
    have hnext : m'.Loads (fun j => decide (j < i + 1)) runs :=
      hm'.1.congr fun j _ => by
        rw [Bool.eq_iff_iff]
        simp only [decide_eq_true_eq, Bool.or_eq_true, beq_iff_eq]
        omega
    have hrest := ih hnext
    rwa [Nat.add_right_comm, Nat.add_assoc] at hrest

/-- A merge of runs starts, and stands for them. -/
theorem new_stands (runs : List (List Record)) :
    ∃ m, new (runs.map fun run => run.map Except.ok) = .ok m ∧ m.Stands runs := by
  have hstart : Loads (fun j => decide (j < 0))
      { sources := runs.map fun run => run.map Except.ok, heap := [], failed := false } runs := by
    refine ⟨fun i => by simp, List.Pairwise.nil, fun x => by simp, rfl⟩
  have hfill := fill_spec runs.length hstart
  obtain ⟨u, m, hm, hloads⟩ := eq_ok_of_wp hfill
  refine ⟨m, ?_, hloads.congr fun i hi => by simpa using hi⟩
  rw [new, List.length_map, hm]

/-- Taking the first head leaves its run to be loaded again. -/
theorem Stands.pop (hm : m.Stands runs) (hheap : m.heap = h :: rest) :
    ∃ t, runs[h.source]? = some (h.record :: t) ∧
      Loads (fun j => j != h.source) { m with heap := rest } (runs.set h.source t) := by
  obtain ⟨-, t, ht⟩ := (hm.heads h).1 (hheap ▸ List.mem_cons_self)
  have hlt : h.source < runs.length := (List.getElem?_eq_some_iff.1 ht).1
  have hordered := hm.ordered
  rw [hheap] at hordered
  obtain ⟨hfirst, hrest⟩ := List.pairwise_cons.1 hordered
  refine ⟨t, ht, fun i => ?_, hrest, fun x => ?_, hm.sound⟩
  · by_cases hi : i = h.source
    · subst hi
      rw [List.getElem?_set_self hlt, hm.sources, ht]
      simp
    · simp [hm.sources, hi, Ne.symm hi]
  · by_cases hx : x.source = h.source
    · -- another head of the same run would be the same head
      simp only [hx, bne_self_eq_false, Bool.false_eq_true, false_and, iff_false]
      intro hmem
      obtain ⟨-, t', ht'⟩ := (hm.heads x).1 (hheap ▸ List.mem_cons_of_mem _ hmem)
      rw [hx, ht, Option.some_inj, List.cons.injEq] at ht'
      have hgt := hfirst x hmem
      rw [Head.cmp_eq_gt, ht'.1, hx] at hgt
      simp at hgt
    · have hmem : x ∈ m.heap ↔ x ∈ rest := by
        rw [hheap, List.mem_cons]
        exact or_iff_right fun heq => hx (by rw [heq])
      rw [← hmem, hm.heads x]
      simp [hx, Ne.symm hx]

/-- The first head is taken and its run loaded again. -/
theorem Stands.pop_advance (hm : m.Stands runs)
    (hheap : m.heap = h :: rest) : ∃ t, runs[h.source]? = some (h.record :: t) ∧
      wp (advance h.source) (fun _ m' => m'.Stands (runs.set h.source t) ∧
        m'.remaining + 1 = m.remaining) (fun _ _ => False) { m with heap := rest } := by
  obtain ⟨t, ht, hloads⟩ := hm.pop hheap
  refine ⟨t, ht, wp_mono (advance_spec hloads (by simp)) (fun _ m' hm' => ⟨?_, ?_⟩) fun _ _ => id⟩
  · exact hm'.1.congr fun j _ => by
      by_cases hj : j = h.source <;> simp [hj]
  · rw [hm'.2]
    simp only [remaining, hheap, List.length_cons]
    omega

/-! ## Draining a key -/

/-- The runs are in ascending key order. -/
def Ascending (runs : List (List Record)) : Prop :=
  ∀ run ∈ runs, run.Pairwise fun a b => a.key < b.key

/-- Some run has the record. -/
def Held (runs : List (List Record)) (r : Record) : Prop := ∃ run ∈ runs, r ∈ run

/-- The runs without a key. -/
def without (key : Key) (runs : List (List Record)) : List (List Record) :=
  runs.map fun run => run.filter fun r => decide (r.key ≠ key)

theorem held_without : Held (without key runs) r ↔ Held runs r ∧ r.key ≠ key := by
  simp only [Held, without, List.mem_map, exists_exists_and_eq_and, List.mem_filter,
    decide_eq_true_eq, ← and_assoc]
  exact ⟨fun ⟨run, h⟩ => ⟨⟨run, h.1⟩, h.2⟩, fun ⟨⟨run, h⟩, hne⟩ => ⟨run, h, hne⟩⟩

theorem Ascending.without (h : Ascending runs) (key : Key) : Ascending (without key runs) := by
  intro run hrun
  obtain ⟨run', hrun', rfl⟩ := List.mem_map.1 hrun
  exact (h run' hrun').filter _

/-- One record less in one run. -/
structure Removes (runs : List (List Record)) (r : Record) (runs' : List (List Record)) : Prop where
  held : ∀ x, Held runs x ↔ x = r ∨ Held runs' x
  ascending : Ascending runs → Ascending runs'
  without : without r.key runs' = without r.key runs

theorem removes_set {i : Nat} {t : List Record} (h : runs[i]? = some (r :: t)) :
    Removes runs r (runs.set i t) := by
  obtain ⟨hlt, hget⟩ := List.getElem?_eq_some_iff.1 h
  refine ⟨fun x => ⟨?_, ?_⟩, ?_, ?_⟩
  · rintro ⟨run, hrun, hx⟩
    obtain ⟨j, hj, rfl⟩ := List.getElem_of_mem hrun
    by_cases hji : j = i
    · subst hji
      rw [hget, List.mem_cons] at hx
      exact hx.imp_right fun hx => ⟨t, List.mem_set hlt t, hx⟩
    · refine Or.inr ⟨runs[j], ?_, hx⟩
      rw [List.mem_iff_getElem?]
      exact ⟨j, by rw [List.getElem?_set_ne (Ne.symm hji), List.getElem?_eq_getElem hj]⟩
  · rintro (rfl | ⟨run, hrun, hx⟩)
    · exact ⟨_, List.mem_of_getElem? h, List.mem_cons_self⟩
    · rcases List.mem_or_eq_of_mem_set hrun with hold | rfl
      · exact ⟨run, hold, hx⟩
      · exact ⟨_, List.mem_of_getElem? h, List.mem_cons_of_mem _ hx⟩
  · intro hasc run hrun
    rcases List.mem_or_eq_of_mem_set hrun with hold | rfl
    · exact hasc run hold
    · exact (List.pairwise_cons.1 (hasc _ (List.mem_of_getElem? h))).2
  · unfold Merge.without
    rw [List.map_set]
    refine List.ext_getElem? fun j => ?_
    by_cases hji : j = i
    · subst hji
      rw [List.getElem?_set_self (by simpa using hlt), List.getElem?_map, h]
      simp
    · rw [List.getElem?_set_ne (Ne.symm hji)]

/-- Every head is held, and every run that is not empty has a head before its records. -/
theorem Stands.head_le (hm : m.Stands runs) (hasc : Ascending runs)
    (hr : Held runs r) : ∃ h ∈ m.heap, h.record = r ∨ h.record.key < r.key := by
  obtain ⟨run, hrun, hmem⟩ := hr
  obtain ⟨i, hi⟩ := List.getElem?_of_mem hrun
  cases run with
  | nil => cases hmem
  | cons x t =>
    refine ⟨⟨i, x⟩, (hm.heads _).2 ⟨rfl, t, hi⟩, ?_⟩
    rcases List.mem_cons.1 hmem with rfl | ht
    · exact Or.inl rfl
    · exact Or.inr ((List.pairwise_cons.1 (hasc _ hrun)).1 r ht)

theorem Stands.head_held (hm : m.Stands runs) (hh : h ∈ m.heap) : Held runs h.record := by
  obtain ⟨-, t, ht⟩ := (hm.heads h).1 hh
  exact ⟨_, List.mem_of_getElem? ht, List.mem_cons_self⟩

/-- Nothing to drop from runs that do not have the key. -/
theorem without_eq_self (h : ∀ r, Held runs r → r.key ≠ key) : without key runs = runs := by
  unfold without
  conv_rhs => rw [← List.map_id runs]
  refine List.map_congr_left fun run hrun => List.filter_eq_self.2 fun r hr => ?_
  exact decide_eq_true (h r ⟨run, hrun, hr⟩)

/-- Nothing is left of the key once no head has it. -/
theorem Stands.drained (hm : m.Stands runs) (hasc : Ascending runs)
    (hleast : ∀ r, Held runs r → key ≤ r.key) (hnone : ∀ h ∈ m.heap, h.record.key ≠ key) :
    ∀ r, Held runs r → r.key ≠ key := by
  intro r hr
  obtain ⟨h, hh, heq | hlt⟩ := hm.head_le hasc hr
  · exact heq ▸ hnone h hh
  · exact ((hleast _ (hm.head_held hh)).trans_lt hlt).ne'

/-- No head behind one of another key has the key. -/
theorem Stands.heads_ne (hm : m.Stands runs)
    (hleast : ∀ r, Held runs r → key ≤ r.key) (hheap : m.heap = h :: rest)
    (hkey : h.record.key ≠ key) : ∀ x ∈ m.heap, x.record.key ≠ key := by
  have hfirst : h ∈ m.heap := hheap ▸ List.mem_cons_self
  have hlt : key < h.record.key := (hleast _ (hm.head_held hfirst)).lt_of_ne' hkey
  intro x hx
  rw [hheap, List.mem_cons] at hx
  rcases hx with rfl | hx
  · exact hkey
  · have hordered := hm.ordered
    rw [hheap] at hordered
    have hgt := (List.pairwise_cons.1 hordered).1 x hx
    rw [Head.cmp_eq_gt] at hgt
    rcases hgt with hgt | ⟨heq, -⟩
    · exact (hlt.trans hgt).ne'
    · exact heq ▸ hlt.ne'

/-- The loop drops one key from all runs, and fails exactly when it meets a record that
contradicts the winner. -/
theorem drain_spec {rounds : Nat} {winner : Record} (hm : m.Stands runs) (hasc : Ascending runs)
    (hleast : ∀ r, Held runs r → winner.key ≤ r.key) (hrounds : m.remaining ≤ rounds) :
    wp (drain rounds winner)
      (fun _ m' => m'.Stands (without winner.key runs) ∧
        ∀ r, Held runs r → r.key = winner.key → contradicts winner r = false)
      (fun e _ => e = invalid "conflicting equal-sequence record or unsorted source" ∧
        ∃ r, Held runs r ∧ r.key = winner.key ∧ contradicts winner r = true) m := by
  have hdone {m : Merge} {runs : List (List Record)} (hm : m.Stands runs) (hasc : Ascending runs)
      (hleast : ∀ r, Held runs r → winner.key ≤ r.key)
      (hnone : ∀ h ∈ m.heap, h.record.key ≠ winner.key) :
      m.Stands (without winner.key runs) ∧
        ∀ r, Held runs r → r.key = winner.key → contradicts winner r = false := by
    have hkeys := hm.drained hasc hleast hnone
    rw [without_eq_self hkeys]
    exact ⟨hm, fun r hr heq => absurd heq (hkeys r hr)⟩
  induction rounds generalizing m runs with
  | zero =>
    have hempty : m.heap = [] := by
      rw [← List.length_eq_zero_iff]
      simp only [remaining] at hrounds
      omega
    exact hdone hm hasc hleast (by simp [hempty])
  | succ rounds ih =>
    simp only [drain, wp_bind, wp_get]
    cases hheap : m.heap with
    | nil => exact hdone hm hasc hleast (by simp [hheap])
    | cons h rest =>
      dsimp only
      rw [wp_ite]
      refine ⟨fun hkey => ?_, fun hkey => ?_⟩
      · have hheld := hm.head_held (hheap ▸ List.mem_cons_self : h ∈ m.heap)
        obtain ⟨t, ht, hadvance⟩ := hm.pop_advance hheap
        have hremoves := removes_set ht
        simp only [wp_bind, wp_set]
        rw [wp_ite]
        refine ⟨fun hbad => ⟨rfl, h.record, hheld, hkey, hbad⟩, fun hgood => ?_⟩
        simp only [wp_bind]
        refine wp_mono hadvance (fun _ m' hm' => ?_) fun _ _ => False.elim
        have hsub : ∀ r, Held (runs.set h.source t) r → Held runs r :=
          fun r hr => (hremoves.held r).2 (Or.inr hr)
        have hrest := ih hm'.1 (hremoves.ascending hasc) (fun r hr => hleast r (hsub r hr))
          (by omega)
        rw [← hkey, hremoves.without, hkey] at hrest
        refine wp_mono hrest (fun _ m'' hm'' => ⟨hm''.1, fun r hr heq => ?_⟩) ?_
        · rcases (hremoves.held r).1 hr with rfl | hr
          · exact Bool.eq_false_iff.2 hgood
          · exact hm''.2 r hr heq
        · rintro e _ ⟨he, r, hr, hrest⟩
          exact ⟨he, r, hsub r hr, hrest⟩
      · exact hdone hm hasc hleast (hm.heads_ne hleast hheap hkey)

/-! ## The records that win -/

/-- The record has the greatest sequence number under its key. -/
def Newest (runs : List (List Record)) (r : Record) : Prop :=
  Held runs r ∧ ∀ x, Held runs x → x.key = r.key → x.sequence ≤ r.sequence

/-- Two runs have the key with the same greatest sequence number and different values. -/
def Conflict (runs : List (List Record)) (key : Key) : Prop :=
  ∃ r x, Newest runs r ∧ Newest runs x ∧ r.key = key ∧ x.key = key ∧ r.value ≠ x.value

theorem newest_without (hr : r.key ≠ key) : Newest (without key runs) r ↔ Newest runs r := by
  simp only [Newest, held_without, hr, not_false_iff, and_true, ne_eq]
  refine and_congr_right fun _ => forall_congr' fun x => ?_
  constructor
  · intro h hx heq
    exact h ⟨hx, heq ▸ hr⟩ heq
  · intro h hx heq
    exact h hx.1 heq

theorem conflict_without {key k : Key} (hk : k ≠ key) :
    Conflict (without key runs) k ↔ Conflict runs k := by
  unfold Conflict
  refine exists_congr fun r => exists_congr fun x => ?_
  constructor
  · rintro ⟨hr, hx, rfl, hxk, hv⟩
    exact ⟨(newest_without hk).1 hr, (newest_without (hxk ▸ hk)).1 hx, rfl, hxk, hv⟩
  · rintro ⟨hr, hx, rfl, hxk, hv⟩
    exact ⟨(newest_without hk).2 hr, (newest_without (hxk ▸ hk)).2 hx, rfl, hxk, hv⟩

/-- The first head has the least key and is the newest under it. -/
theorem Stands.first_newest (hm : m.Stands runs)
    (hasc : Ascending runs) (hheap : m.heap = h :: rest) :
    (∀ r, Held runs r → h.record.key ≤ r.key) ∧ Newest runs h.record := by
  have hfirst : ∀ x ∈ m.heap, x = h ∨ h.cmp x = .gt := by
    intro x hx
    have hordered := hm.ordered
    rw [hheap] at hordered hx
    exact (List.mem_cons.1 hx).imp_right ((List.pairwise_cons.1 hordered).1 x)
  have hle : ∀ x ∈ m.heap, h.record.key ≤ x.record.key ∧
      (x.record.key = h.record.key → x.record.sequence ≤ h.record.sequence) := by
    intro x hx
    rcases hfirst x hx with rfl | hgt
    · exact ⟨le_rfl, fun _ => le_rfl⟩
    · rw [Head.cmp_eq_gt] at hgt
      rcases hgt with hlt | ⟨heq, hseq⟩
      · exact ⟨hlt.le, fun heq => absurd heq hlt.ne'⟩
      · exact ⟨heq.le, fun _ => by omega⟩
  refine ⟨fun r hr => ?_, hm.head_held (hheap ▸ List.mem_cons_self), fun r hr heq => ?_⟩
  · obtain ⟨x, hx, rfl | hlt⟩ := hm.head_le hasc hr
    · exact (hle x hx).1
    · exact (hle x hx).1.trans hlt.le
  · obtain ⟨x, hx, rfl | hlt⟩ := hm.head_le hasc hr
    · exact (hle x hx).2 heq
    · -- a record behind its head has a greater key
      exact absurd ((hle x hx).1.trans_lt hlt) (by rw [heq]; exact lt_irrefl _)

/-- Among the records of a key, only an equally new one with another value contradicts the
newest. -/
theorem Newest.contradicts_iff {w r : Record} (hw : Newest runs w) (hr : Held runs r)
    (hkey : r.key = w.key) :
    contradicts w r = true ↔ Newest runs r ∧ w.value ≠ r.value := by
  have hle := hw.2 r hr hkey
  simp only [contradicts, Bool.or_eq_true, decide_eq_true_eq]
  constructor
  · rintro (hlt | ⟨hseq, hvalue⟩)
    · omega
    · refine ⟨⟨hr, fun x hx heq => ?_⟩, Ne.symm hvalue⟩
      exact (hw.2 x hx (heq.trans hkey)).trans hseq.ge
  · rintro ⟨hnew, hvalue⟩
    exact Or.inr ⟨le_antisymm hle (hnew.2 w hw.1 hkey.symm), Ne.symm hvalue⟩

/-- One call: the newest record of the least key, or an error if there is a conflict about it. -/
theorem take_spec (hm : m.Stands runs) (hasc : Ascending runs) :
    wp take
      (fun o m' => match o with
        | none => m' = m ∧ ∀ r, ¬ Held runs r
        | some w => (∀ r, Held runs r → w.key ≤ r.key) ∧ Newest runs w ∧
            ¬ Conflict runs w.key ∧ m'.Stands (without w.key runs))
      (fun e _ => e = invalid "conflicting equal-sequence record or unsorted source" ∧
        ∃ k, Conflict runs k ∧ ∀ r, Held runs r → k ≤ r.key) m := by
  simp only [take, wp_bind, wp_get]
  cases hheap : m.heap with
  | nil =>
    refine ⟨rfl, fun r hr => ?_⟩
    obtain ⟨h, hh, -⟩ := hm.head_le hasc hr
    rw [hheap] at hh
    cases hh
  | cons h rest =>
    obtain ⟨hleast, hnewest⟩ := hm.first_newest hasc hheap
    obtain ⟨t, ht, hadvance⟩ := hm.pop_advance hheap
    have hremoves := removes_set ht
    have hsub : ∀ r, Held (runs.set h.source t) r → Held runs r :=
      fun r hr => (hremoves.held r).2 (Or.inr hr)
    simp only [wp_bind, wp_set]
    refine wp_mono hadvance (fun _ m₁ hm₁ => ?_) fun _ _ => False.elim
    simp only [wp_bind, wp_get]
    have hdrain := drain_spec hm₁.1 (hremoves.ascending hasc)
      (fun r hr => hleast r (hsub r hr)) le_rfl
    rw [hremoves.without] at hdrain
    refine wp_mono hdrain (fun _ m₂ hm₂ => ?_) ?_
    · refine ⟨hleast, hnewest, ?_, hm₂.1⟩
      rintro ⟨r, x, hr, hx, hrk, hxk, hne⟩
      -- every newest record of the key has the value of the winner
      have hsame : ∀ y, Newest runs y → y.key = h.record.key → h.record.value = y.value := by
        intro y hy hyk
        by_contra hvalue
        have hcontra := (hnewest.contradicts_iff hy.1 hyk).2 ⟨hy, hvalue⟩
        rcases (hremoves.held y).1 hy.1 with rfl | hheld
        · exact hvalue rfl
        · rw [hm₂.2 y hheld hyk] at hcontra
          cases hcontra
      exact hne ((hsame r hr hrk).symm.trans (hsame x hx hxk))
    · rintro e _ ⟨he, r, hr, hrk, hcontra⟩
      obtain ⟨hnew, hvalue⟩ := (hnewest.contradicts_iff (hsub r hr) hrk).1 hcontra
      exact ⟨he, h.record.key, ⟨h.record, r, hnewest, hnew, rfl, hrk, hvalue⟩, hleast⟩

/-! ## All calls -/

/-- The records `out`, then what `last` says, are what the merge of the runs yields: the
newest record of every key, in ascending order, up to the first conflict. -/
structure Yields (runs : List (List Record)) (out : List Record)
    (last : Option IoError) : Prop where
  ascending : out.Pairwise fun a b => a.key < b.key
  newest : ∀ r ∈ out, Newest runs r ∧ ¬ Conflict runs r.key
  complete : last = none → ∀ r, Held runs r → ∃ x ∈ out, x.key = r.key
  conflict : ∀ e, last = some e →
    e = invalid "conflicting equal-sequence record or unsorted source" ∧
      ∃ k, Conflict runs k ∧ ∀ r, Held runs r → (r.key < k ↔ ∃ x ∈ out, x.key = r.key)

theorem Yields.cons {w : Record} {out : List Record} {last : Option IoError}
    (hleast : ∀ r, Held runs r → w.key ≤ r.key) (hnewest : Newest runs w)
    (hclear : ¬ Conflict runs w.key) (h : Yields (without w.key runs) out last) :
    Yields runs (w :: out) last := by
  have hout : ∀ r ∈ out, Held runs r ∧ r.key ≠ w.key := by
    intro r hr
    exact held_without.1 (h.newest r hr).1.1
  refine ⟨?_, ?_, ?_, ?_⟩
  · refine List.pairwise_cons.2 ⟨fun r hr => ?_, h.ascending⟩
    exact (hleast r (hout r hr).1).lt_of_ne' (hout r hr).2
  · intro r hr
    rcases List.mem_cons.1 hr with rfl | hr
    · exact ⟨hnewest, hclear⟩
    · have hne := (hout r hr).2
      exact ⟨(newest_without hne).1 (h.newest r hr).1,
        fun hc => (h.newest r hr).2 ((conflict_without hne).2 hc)⟩
  · intro hlast r hr
    by_cases hk : r.key = w.key
    · exact ⟨w, List.mem_cons_self, hk.symm⟩
    · obtain ⟨x, hx, hxk⟩ := h.complete hlast r (held_without.2 ⟨hr, hk⟩)
      exact ⟨x, List.mem_cons_of_mem _ hx, hxk⟩
  · intro e hlast
    obtain ⟨he, k, hc, hbelow⟩ := h.conflict e hlast
    have hkw : k ≠ w.key := by
      obtain ⟨r, -, hr, -, rfl, -⟩ := hc
      exact (held_without.1 hr.1).2
    have hwk : w.key < k := by
      obtain ⟨r, -, hr, -, rfl, -⟩ := hc
      exact (hleast r (held_without.1 hr.1).1).lt_of_ne' hkw
    refine ⟨he, k, (conflict_without hkw).1 hc, fun r hr => ?_⟩
    by_cases hk : r.key = w.key
    · exact ⟨fun _ => ⟨w, List.mem_cons_self, hk.symm⟩, fun _ => hk ▸ hwk⟩
    · rw [hbelow r (held_without.2 ⟨hr, hk⟩)]
      constructor
      · rintro ⟨x, hx, hxk⟩
        exact ⟨x, List.mem_cons_of_mem _ hx, hxk⟩
      · rintro ⟨x, hx, hxk⟩
        rcases List.mem_cons.1 hx with rfl | hx
        · exact absurd hxk.symm hk
        · exact ⟨x, hx, hxk⟩

theorem call_of_failed (h : m.failed = true) (j : Nat) : m.call j = none := by
  have hnext : m.next = (none, m) := by
    rw [next, if_pos h]
  induction j with
  | zero => rw [call, hnext]
  | succ j ih => rw [call, hnext, ih]

/-- The number of records of the runs. -/
def total (runs : List (List Record)) : Nat := (runs.map List.length).sum

theorem total_without_lt (h : Held runs r) : total (without r.key runs) < total runs := by
  obtain ⟨run, hrun, hr⟩ := h
  simp only [total, without, List.map_map]
  refine List.sum_lt_sum _ _ (fun run _ => List.length_filter_le ..) ⟨run, hrun, ?_⟩
  refine List.length_filter_lt_length_iff_exists.2 ⟨r, hr, ?_⟩
  simp

/-- A merge that stands for some runs yields their records. -/
theorem Stands.yields (hm : m.Stands runs) (hasc : Ascending runs) :
    ∃ out last, Yields runs out last ∧
      ∀ j, m.call j = (out.map Except.ok ++ last.toList.map Except.error)[j]? := by
  induction hn : total runs using Nat.strong_induction_on generalizing m runs with
  | _ n ih =>
    have htake := take_spec hm hasc
    have hnext : m.next = match take.run m with
        | .ok none m => (none, m)
        | .ok (some record) m => (some (.ok record), m)
        | .error e m => (some (.error e), { m with failed := true }) := by
      rw [next, if_neg (by simp [hm.sound])]
    cases hrun : take.run m with
    | ok o m' =>
      rw [hrun] at hnext
      have hpost := of_wp_ok htake hrun
      cases o with
      | none =>
        obtain ⟨rfl, hempty⟩ := hpost
        refine ⟨[], none, ⟨List.Pairwise.nil, by simp, fun _ r hr => absurd hr (hempty r),
          by simp⟩, fun j => ?_⟩
        induction j with
        | zero => rw [call, hnext]; rfl
        | succ j ihj =>
          rw [call, hnext]
          exact ihj
      | some w =>
        obtain ⟨hleast, hnewest, hclear, hstands⟩ := hpost
        obtain ⟨out, last, hyields, hcalls⟩ :=
          ih _ (hn ▸ total_without_lt hnewest.1) hstands (hasc.without _) rfl
        refine ⟨w :: out, last, hyields.cons hleast hnewest hclear, fun j => ?_⟩
        cases j with
        | zero => rw [call, hnext]; rfl
        | succ j =>
          rw [call, hnext]
          exact hcalls j
    | error e m' =>
      rw [hrun] at hnext
      obtain ⟨he, k, hconflict, hleast⟩ := of_wp_error htake hrun
      refine ⟨[], some e, ⟨List.Pairwise.nil, by simp, by simp, ?_⟩, fun j => ?_⟩
      · intro e' he'
        cases he'
        refine ⟨he, k, hconflict, fun r hr => ?_⟩
        simp [hleast r hr]
      · cases j with
        | zero => rw [call, hnext]; rfl
        | succ j =>
          rw [call, hnext]
          exact call_of_failed rfl j

/-- A merge ends without an error exactly when there is no conflict. -/
theorem Yields.last_eq_none {out : List Record} {last : Option IoError}
    (h : Yields runs out last) : last = none ↔ ∀ k, ¬ Conflict runs k := by
  constructor
  · rintro hlast k ⟨r, x, hr, hx, rfl, hxk, hne⟩
    obtain ⟨y, hy, hyk⟩ := h.complete hlast r hr.1
    exact (h.newest y hy).2 ⟨r, x, hr, hx, hyk.symm, hxk.trans hyk.symm, hne⟩
  · intro hnone
    cases hlast : last with
    | none => rfl
    | some e =>
      obtain ⟨-, k, hk, -⟩ := h.conflict e hlast
      exact absurd hk (hnone k)

/-- **The merge is exact.**  It yields the newest record of every key of the runs once and in
ascending order; it reports an error at the first key two runs disagree about in their
greatest sequence number, and nothing after that. -/
theorem merge_exact (hasc : Ascending runs) :
    ∃ m out last, new (runs.map fun run => run.map Except.ok) = .ok m ∧ Yields runs out last ∧
      (last = none ↔ ∀ k, ¬ Conflict runs k) ∧
      ∀ j, m.call j = (out.map Except.ok ++ last.toList.map Except.error)[j]? := by
  obtain ⟨m, hm, hstands⟩ := new_stands runs
  obtain ⟨out, last, hyields, hcalls⟩ := hstands.yields hasc
  exact ⟨m, out, last, hm, hyields, hyields.last_eq_none, hcalls⟩

/-- Three runs over one key, two of which go on. -/
def sampleRuns : List (List Record) :=
  [[⟨[1], some [1], 1⟩, ⟨[3], some [1], 1⟩], [⟨[1], some [2], 2⟩, ⟨[2], some [2], 2⟩],
    [⟨[1], none, 3⟩]]

instance : Decidable (Ascending runs) :=
  inferInstanceAs (Decidable (∀ run ∈ runs, run.Pairwise fun a b => a.key < b.key))

theorem merge_exact_sampleRuns :
    ∃ m out last, new (sampleRuns.map fun run => run.map Except.ok) = .ok m ∧
      Yields sampleRuns out last ∧ (last = none ↔ ∀ k, ¬ Conflict sampleRuns k) ∧
      ∀ j, m.call j = (out.map Except.ok ++ last.toList.map Except.error)[j]? :=
  have hasc : Ascending sampleRuns := by decide
  merge_exact hasc

end Merge

end MicroRaft.Store
