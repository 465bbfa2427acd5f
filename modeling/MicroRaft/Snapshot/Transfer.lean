import MicroRaft.Snapshot.Receiver

/-!
# Whole transfers

What a receiver reports is what was sent to it (`Session.completed_eq_some`), calls that do
not fit leave the staged prefix alone (`SnapshotReceiver.stage_keeps`), and the chunks of an
image, in order and with any repetitions, complete it (`completed_of_schedule`).
-/

namespace MicroRaft.Snapshot

open Store (Digest IoError)

variable {active : ActiveTransfer} {r : SnapshotReceiver} {m : Nat}

section Results

variable {sha : Digest} {format : Json.Format Payload} {image : SnapshotImage}
  {identity : SnapshotTransferId} {c : Chunk}

/-! ## What is reported -/

theorem SnapshotReceiver.completed_eq_some (h : r.completed identity = some image) :
    r.poisoned = false ∧ ∃ active, r.active = some active ∧ active.identity = identity ∧
      active.complete = some image := by
  unfold completed at h
  split at h
  · cases h
  rename_i hsound
  obtain ⟨active, hfilter, hcomplete⟩ := Option.bind_eq_some_iff.1 h
  obtain ⟨hactive, hidentity⟩ := Option.filter_eq_some_iff.1 hfilter
  exact ⟨by simpa using hsound, active, hactive, by simpa using hidentity, hcomplete⟩

/-- An image that a run reports for a transfer consists of chunks that were accepted for it,
laid one after another, all announced with the image's own descriptor. -/
theorem Session.completed_eq_some {calls : List Call}
    (h : (Session.run sha format calls).receiver.completed identity = some image) :
    ∃ chunks : List Chunk, chunks.Sublist (Session.run sha format calls).accepted ∧
      (∀ c ∈ chunks, c.identity = identity ∧ c.descriptor = image.descriptor) ∧
      Laid 0 chunks ∧ chunks.flatMap Chunk.bytes = image.bytes ∧
      image.bytes.length = image.descriptor.totalLen := by
  obtain ⟨hsound, active, hactive, rfl, hcomplete⟩ := SnapshotReceiver.completed_eq_some h
  have hstaged := Session.staged_run calls hsound active hactive
  rcases hstaged.state with ⟨chunks, hcovers, hverify⟩ | ⟨hnone, -, -⟩
  · rw [hcomplete] at hverify
    obtain ⟨hlength, hbytes, hdescriptor⟩ := verify_eq_ok hverify
    refine ⟨chunks, hcovers.logged, ?_, hcovers.laid, ?_, ?_⟩
    · intro c hc
      rw [hdescriptor]
      exact hcovers.of_transfer c hc
    · rw [hbytes, hcovers.file]
    · rw [hbytes, hdescriptor, hlength]
  · rw [hcomplete] at hnone
    cases hnone

/-! ## What is left alone -/

/-- A chunk that the active transfer cannot take: of the same transfer with another
descriptor, beyond a gap, or different from what is there; or of a transfer that is not newer. -/
inductive Misfit (active : ActiveTransfer) (c : Chunk) : Prop where
  | descriptor : c.identity = active.identity → c.descriptor ≠ active.descriptor → Misfit active c
  | gap : c.identity = active.identity → active.nextOffset < c.offset → Misfit active c
  | differs : c.identity = active.identity → c.offset < active.nextOffset →
      (active.file.drop c.offset).take c.bytes.length ≠ c.bytes → Misfit active c
  | stale : c.identity ≠ active.identity → newer c.identity active.identity = false →
      Misfit active c

/-- A repetition that differs is refused before anything is written. -/
theorem ActiveTransfer.stage_differs {faults : Faults} {offset : Nat}
    {bytes : List UInt8} (hoffset : offset < active.nextOffset)
    (hdiffers : (active.file.drop offset).take bytes.length ≠ bytes) :
    (active.stage sha format faults offset bytes).2 = active ∧
      ∃ e, (active.stage sha format faults offset bytes).1 = .error e := by
  have hput : ∃ e, active.put faults offset bytes = (.error e, active) := by
    unfold ActiveTransfer.put
    cases faults.seek with
    | some error => exact ⟨_, rfl⟩
    | none =>
      simp only [if_pos hoffset]
      cases faults.read with
      | some error => exact ⟨_, rfl⟩
      | none =>
        simp only [if_pos hdiffers]
        split <;> exact ⟨_, rfl⟩
  obtain ⟨e, hput⟩ := hput
  rw [ActiveTransfer.stage, hput]
  exact ⟨rfl, e, rfl⟩

theorem SnapshotReceiver.stage_keeps
    (hactive : r.active = some active) (hmisfit : Misfit active c) (faults : Faults) :
    (r.stageAuthorizedChunk sha format faults c).2.active = some active := by
  rcases r.stage_cases sha format c faults with (hsame | hpoison) |
    ⟨old, hreceives, hfits, -, -, hstage⟩
  · rw [hsame, hactive]
  · rw [hpoison, ← hactive]
  · -- the transfer at work is the active one: a misfit begins nothing
    obtain rfl : old = active := by
      rcases hreceives with hold | ⟨hbegins, -⟩
      · rw [hactive] at hold
        exact (Option.some.inj hold).symm
      · obtain ⟨hother, hnewer⟩ := hbegins.replaces active hactive
        cases hmisfit with
        | descriptor hid | gap hid | differs hid => exact absurd hid.symm hother
        | stale _ hstale =>
          rw [hstale] at hnewer
          cases hnewer
    rw [hstage]
    cases hmisfit with
    | descriptor _ hdescriptor => exact absurd hfits.descriptor hdescriptor
    | gap _ hgap => exact absurd hfits.offset (Nat.not_le.2 hgap)
    | differs _ hoffset hdiffers => rw [(ActiveTransfer.stage_differs hoffset hdiffers).1]
    | stale hother => exact absurd hfits.identity hother

/-! ## What completes -/

/-- The bytes of the chunk with a number. -/
def SnapshotImage.chunk (image : SnapshotImage) (k : Nat) : List UInt8 :=
  (image.bytes.drop (k * maxSnapshotChunkBytes)).take maxSnapshotChunkBytes

/-- How many chunks an image has. -/
def SnapshotImage.chunks (image : SnapshotImage) : Nat :=
  (image.bytes.length + (maxSnapshotChunkBytes - 1)) / maxSnapshotChunkBytes

/-- A call that offers the `k`-th chunk of an image to a node that lacks it. -/
structure Offers (image : SnapshotImage) (identity : SnapshotTransferId) (k : Nat) (c : Chunk) :
    Prop where
  identity : c.identity = identity
  descriptor : c.descriptor = image.descriptor
  offset : c.offset = k * maxSnapshotChunkBytes
  bytes : c.bytes = image.chunk k
  members : c.members = image.descriptor.metadata.members
  ahead : c.minimumIndex < image.descriptor.metadata.lastIncludedIndex
  lacks : ∀ installed ∈ c.installed, installed.descriptor ≠ image.descriptor

/-- The chunks of an image from the `m`-th on, in order, with any repetitions of earlier ones
among them. -/
inductive Schedule (image : SnapshotImage) (identity : SnapshotTransferId) :
    Nat → List Chunk → Prop where
  | done : Schedule image identity image.chunks []
  | again {m k : Nat} {c : Chunk} {rest : List Chunk} : k < m → Offers image identity k c →
      Schedule image identity m rest → Schedule image identity m (c :: rest)
  | next {m : Nat} {c : Chunk} {rest : List Chunk} : m < image.chunks →
      Offers image identity m c → Schedule image identity (m + 1) rest →
      Schedule image identity m (c :: rest)

/-- The transfer of an image after its first `m` chunks. -/
def ActiveTransfer.partway (image : SnapshotImage) (identity : SnapshotTransferId) (m : Nat) :
    ActiveTransfer where
  identity := identity
  descriptor := image.descriptor
  file := image.bytes.take (m * maxSnapshotChunkBytes)
  nextOffset := min (m * maxSnapshotChunkBytes) image.bytes.length
  complete := if m = image.chunks then some image else none

theorem lt_chunks_iff {k : Nat} :
    k < image.chunks ↔ k * maxSnapshotChunkBytes < image.bytes.length := by
  have hpos : 0 < maxSnapshotChunkBytes := by decide
  rw [SnapshotImage.chunks, Nat.lt_iff_add_one_le, Nat.le_div_iff_mul_le hpos, Nat.add_mul]
  omega

theorem length_chunk (image : SnapshotImage) (k : Nat) : (image.chunk k).length =
    min (image.bytes.length - k * maxSnapshotChunkBytes) maxSnapshotChunkBytes := by
  rw [SnapshotImage.chunk, List.length_take, List.length_drop, Nat.min_comm]

/-- The calls of a schedule pass the checks that look at nothing else. -/
theorem Offers.checkChunk {k : Nat} (h : Offers image identity k c)
    (himage : image.Sound sha format) (hk : k < image.chunks) (hsequence : identity.sequence ≠ 0)
    (hterm : image.descriptor.metadata.lastIncludedTerm ≤ identity.term) :
    checkChunk c.identity c.descriptor c.offset c.bytes c.members true = .ok () := by
  have hinside := lt_chunks_iff.1 hk
  have hpos : 0 < maxSnapshotChunkBytes := by decide
  rw [Snapshot.checkChunk, h.descriptor, himage.validate, Except.mapError, Store.ok_bind,
    h.identity, h.members, h.offset, h.bytes, himage.total]
  rw [if_neg, if_neg (by omega)]
  · dsimp only
    rw [if_neg]
    rw [length_chunk]
    simp only [not_or, not_not, Nat.mul_mod_left, and_true]
    omega
  · simp only [not_or, Nat.not_lt, not_not]
    exact ⟨hsequence, hterm, by simp, trivial⟩

theorem ActiveTransfer.put_again {offset : Nat} {bytes : List UInt8}
    (hoffset : offset < active.nextOffset) (hinside : offset + bytes.length ≤ active.file.length)
    (hsame : (active.file.drop offset).take bytes.length = bytes) :
    active.put .none offset bytes = (.ok (), active) := by
  have hfill : ¬ active.file.length < offset + bytes.length := Nat.not_lt.2 hinside
  simp [ActiveTransfer.put, Faults.none, hoffset, hfill, hsame]

theorem ActiveTransfer.put_next (hnext : active.nextOffset = active.file.length)
    (bytes : List UInt8) :
    active.put .none active.nextOffset bytes = (.ok (), active.add bytes) := by
  have hwrite := writeAt_end active.file bytes
  rw [← hnext] at hwrite
  simp [ActiveTransfer.put, Faults.none, hwrite, ActiveTransfer.add]

theorem length_partway (image : SnapshotImage) (identity : SnapshotTransferId) (m : Nat) :
    (ActiveTransfer.partway image identity m).nextOffset =
      (ActiveTransfer.partway image identity m).file.length := by
  rw [ActiveTransfer.partway, List.length_take]

/-- Before the last chunk the file is not full. -/
theorem partway_not_full (identity : SnapshotTransferId) (himage : image.Sound sha format)
    (hm : m < image.chunks) :
    (ActiveTransfer.partway image identity m).nextOffset < image.descriptor.totalLen := by
  have hinside := lt_chunks_iff.1 hm
  rw [himage.total]
  exact lt_of_le_of_lt (Nat.min_le_left _ _) hinside

theorem ActiveTransfer.conclude_open (faults : Faults)
    (h : active.nextOffset < active.descriptor.totalLen ∨ active.complete.isSome = true) :
    active.conclude sha format faults =
      (.ok ⟨active.nextOffset, active.complete.isSome⟩, active) := by
  rw [ActiveTransfer.conclude, if_neg]
  rintro ⟨hfull, hnone⟩
  rcases h with hlt | hsome
  · exact absurd hfull (Nat.ne_of_lt hlt)
  · rw [Option.isNone_iff_eq_none] at hnone
    rw [hnone] at hsome
    cases hsome

theorem ActiveTransfer.conclude_full {descriptor : SnapshotDescriptor} {file : List UInt8}
    (h : verify sha format descriptor file = .ok image) :
    (ActiveTransfer.mk identity descriptor file descriptor.totalLen none).conclude
        sha format .none =
      (.ok ⟨descriptor.totalLen, true⟩,
        ⟨identity, descriptor, file, descriptor.totalLen, some image⟩) := by
  rw [ActiveTransfer.conclude, if_pos ⟨rfl, rfl⟩]
  simp only [Faults.none, h]

/-- An earlier chunk lies within what is there, for any size of chunks. -/
theorem chunk_inside {k m size total : Nat} (hk : k < m) (hinside : k * size < total)
    (hsize : 0 < size) :
    k * size < min (m * size) total ∧
      k * size + min (total - k * size) size ≤ min (m * size) total ∧
      min (total - k * size) size ≤ m * size - k * size := by
  have hstep : (k + 1) * size ≤ m * size := Nat.mul_le_mul_right size hk
  rw [Nat.add_mul, Nat.one_mul] at hstep
  omega

/-- The end of the next chunk, for any size of chunks. -/
theorem chunk_end {m size total : Nat} (hinside : m * size < total) :
    m * size + min (total - m * size) size = min ((m + 1) * size) total := by
  rw [Nat.add_mul, Nat.one_mul]
  omega

/-- A repeated chunk changes nothing. -/
theorem stage_again (identity : SnapshotTransferId) {m k : Nat} (himage : image.Sound sha format)
    (hm : m ≤ image.chunks) (hk : k < m) :
    ∃ staged, (ActiveTransfer.partway image identity m).stage sha format .none
        (k * maxSnapshotChunkBytes) (image.chunk k) =
      (.ok staged, ActiveTransfer.partway image identity m) := by
  have hinside := lt_chunks_iff.1 (lt_of_lt_of_le hk hm)
  obtain ⟨hbefore, hwithin, hshort⟩ := chunk_inside hk hinside (by decide)
  have hput : (ActiveTransfer.partway image identity m).put .none (k * maxSnapshotChunkBytes)
      (image.chunk k) = (.ok (), ActiveTransfer.partway image identity m) := by
    refine ActiveTransfer.put_again hbefore ?_ ?_
    · rw [← length_partway, length_chunk]
      exact hwithin
    · show ((image.bytes.take (m * maxSnapshotChunkBytes)).drop (k * maxSnapshotChunkBytes)).take
        (image.chunk k).length = image.chunk k
      rw [length_chunk, List.drop_take, List.take_take, Nat.min_eq_left hshort,
        SnapshotImage.chunk]
      refine List.take_eq_take_iff.2 ?_
      rw [List.length_drop, Nat.min_right_comm, Nat.min_self, Nat.min_comm]
  rw [ActiveTransfer.stage, hput]
  refine ⟨_, ActiveTransfer.conclude_open .none ?_⟩
  rcases Nat.lt_or_ge m image.chunks with hlt | hge
  · exact .inl (partway_not_full identity himage hlt)
  · right
    rw [ActiveTransfer.partway, if_pos (le_antisymm hm hge)]
    rfl

/-- The next chunk in the file, before the file is checked. -/
theorem partway_add (hm : m < image.chunks) :
    (ActiveTransfer.partway image identity m).add (image.chunk m) =
      ⟨identity, image.descriptor, image.bytes.take ((m + 1) * maxSnapshotChunkBytes),
        min ((m + 1) * maxSnapshotChunkBytes) image.bytes.length, none⟩ := by
  have hinside := lt_chunks_iff.1 hm
  have hfile : image.bytes.take (m * maxSnapshotChunkBytes) ++ image.chunk m =
      image.bytes.take ((m + 1) * maxSnapshotChunkBytes) := by
    rw [Nat.add_mul, Nat.one_mul, List.take_add]
    rfl
  have hnext : min (m * maxSnapshotChunkBytes) image.bytes.length + (image.chunk m).length =
      min ((m + 1) * maxSnapshotChunkBytes) image.bytes.length := by
    rw [length_chunk, Nat.min_eq_left hinside.le]
    exact chunk_end hinside
  simp only [ActiveTransfer.add, ActiveTransfer.partway, hfile, hnext, if_neg (Nat.ne_of_lt hm)]

/-- The bytes of an image pass the check. -/
theorem verify_bytes (himage : image.Sound sha format) :
    verify sha format image.descriptor image.bytes = .ok image := by
  have hread : image.bytes.take (image.descriptor.totalLen + 1) = image.bytes := by
    refine List.take_of_length_le ?_
    rw [himage.total]
    exact Nat.le_succ _
  rw [verify, hread, himage.decodes, if_neg (by simp [himage.total, himage.digest])]
  simp

/-- The next chunk takes the transfer one chunk further, and the last one completes it. -/
theorem stage_next (identity : SnapshotTransferId) (himage : image.Sound sha format)
    (hm : m < image.chunks) :
    ∃ staged, (ActiveTransfer.partway image identity m).stage sha format .none
        (m * maxSnapshotChunkBytes) (image.chunk m) =
      (.ok staged, ActiveTransfer.partway image identity (m + 1)) := by
  have hoffset : (ActiveTransfer.partway image identity m).nextOffset =
      m * maxSnapshotChunkBytes := Nat.min_eq_left (lt_chunks_iff.1 hm).le
  have hput := ActiveTransfer.put_next (length_partway image identity m) (image.chunk m)
  rw [hoffset, partway_add hm] at hput
  rw [ActiveTransfer.stage, hput]
  dsimp only
  rcases Nat.lt_or_ge (m + 1) image.chunks with hlt | hge
  · -- not the last chunk
    have hpart : ActiveTransfer.partway image identity (m + 1) =
        ⟨identity, image.descriptor, image.bytes.take ((m + 1) * maxSnapshotChunkBytes),
          min ((m + 1) * maxSnapshotChunkBytes) image.bytes.length, none⟩ := by
      rw [ActiveTransfer.partway, if_neg (Nat.ne_of_lt hlt)]
    rw [← hpart]
    exact ⟨_, ActiveTransfer.conclude_open .none (.inl (partway_not_full identity himage hlt))⟩
  · have hlast : m + 1 = image.chunks := le_antisymm hm hge
    have hend : image.bytes.length ≤ (m + 1) * maxSnapshotChunkBytes :=
      Nat.not_lt.1 fun h => absurd (lt_chunks_iff.2 h) (Nat.not_lt.2 hge)
    have hwhole : image.bytes.take ((m + 1) * maxSnapshotChunkBytes) = image.bytes :=
      List.take_of_length_le hend
    have htotal : min ((m + 1) * maxSnapshotChunkBytes) image.bytes.length =
        image.descriptor.totalLen := by
      rw [himage.total]
      exact Nat.min_eq_right hend
    refine ⟨⟨image.descriptor.totalLen, true⟩, ?_⟩
    rw [ActiveTransfer.partway, if_pos hlast, htotal, hwhole]
    exact ActiveTransfer.conclude_full (verify_bytes himage)

/-! ## Schedules -/

/-- Calls that stage chunks, with no failure of the file system. -/
def SnapshotReceiver.stageAll (sha : Digest) (format : Json.Format Payload) (r : SnapshotReceiver)
    (chunks : List Chunk) : SnapshotReceiver :=
  chunks.foldl (fun r c => (r.stageAuthorizedChunk sha format .none c).2) r

/-- A transfer of the image that the receiver takes up when it begins. -/
structure Admits (image : SnapshotImage) (identity : SnapshotTransferId) (r : SnapshotReceiver) :
    Prop where
  sequence : identity.sequence ≠ 0
  term : image.descriptor.metadata.lastIncludedTerm ≤ identity.term
  sound : r.poisoned = false
  replaces : ∀ old ∈ r.active, old.identity ≠ identity ∧ newer identity old.identity = true ∧
    old.descriptor.metadata.lastIncludedIndex ≤ image.descriptor.metadata.lastIncludedIndex

/-- The receiver after the first `m` chunks. -/
def Reaches (image : SnapshotImage) (identity : SnapshotTransferId) (m : Nat)
    (r : SnapshotReceiver) : Prop :=
  r.poisoned = false ∧
    (r.active = some (.partway image identity m) ∨ m = 0 ∧ Admits image identity r)

theorem chunks_pos (himage : image.Sound sha format) : 0 < image.chunks := by
  refine lt_chunks_iff.2 ?_
  rw [Nat.zero_mul]
  exact lt_of_lt_of_le (by decide) himage.long

/-- The chunk goes to the transfer as it stands. -/
theorem Reaches.transfer {m k : Nat} (h : Reaches image identity m r)
    (himage : image.Sound sha format) (hc : Offers image identity k c) (hk : k ≤ m) :
    r.transfer .none c.identity c.descriptor c.offset =
      .ok (ActiveTransfer.partway image identity m) := by
  rcases h.2 with hactive | ⟨rfl, hadmits⟩
  · rw [SnapshotReceiver.transfer, hactive, hc.identity, hc.descriptor]
    simp [ActiveTransfer.partway]
  · have hfirst : c.offset = 0 := by
      rw [hc.offset, Nat.le_zero.1 hk, Nat.zero_mul]
    have hstart : ActiveTransfer.partway image identity 0 =
        ⟨identity, image.descriptor, [], 0, none⟩ := by
      rw [ActiveTransfer.partway, if_neg (Nat.ne_of_lt (chunks_pos himage)), Nat.zero_mul,
        List.take_zero, Nat.zero_min]
    rw [SnapshotReceiver.transfer, hstart, hfirst, hc.identity, hc.descriptor]
    cases hactive : r.active with
    | none => simp [Faults.none]
    | some old =>
      obtain ⟨hother, hnewer, hboundary⟩ := hadmits.replaces old hactive
      have hnot : ¬ (newer identity old.identity = false ∨
          image.descriptor.metadata.lastIncludedIndex <
            old.descriptor.metadata.lastIncludedIndex) := by
        rintro (hold | hback)
        · rw [hnewer] at hold
          cases hold
        · exact absurd hback (Nat.not_lt.2 hboundary)
      simp only [if_neg hother, if_neg hnot, Faults.none, ne_eq, not_true_eq_false, if_false]

/-- A call that passes all checks works on its transfer. -/
theorem SnapshotReceiver.stage_eq {k : Nat}
    (hsound : r.poisoned = false) (hc : Offers image identity k c)
    (hcheck : checkChunk c.identity c.descriptor c.offset c.bytes c.members true = .ok ())
    (htransfer : r.transfer .none c.identity c.descriptor c.offset = .ok active)
    (hoffset : c.offset ≤ active.nextOffset) : r.stageAuthorizedChunk sha format .none c =
      ((active.stage sha format .none c.offset c.bytes).1,
        ⟨some (active.stage sha format .none c.offset c.bytes).2,
          failsIo (active.stage sha format .none c.offset c.bytes).1⟩) := by
  have hlacks : (c.installed.filter fun installed =>
      decide (installed.descriptor = c.descriptor)) = none := by
    refine Option.filter_eq_none_iff.2 fun installed hinstalled => ?_
    rw [hc.descriptor]
    simpa using hc.lacks installed hinstalled
  have hahead : ¬ c.descriptor.metadata.lastIncludedIndex ≤ c.minimumIndex := by
    rw [hc.descriptor]
    exact Nat.not_le.2 hc.ahead
  rw [stageAuthorizedChunk, stageInner, if_neg (by simp [hsound]), hcheck]
  simp only [hlacks, if_neg hahead, htransfer, if_neg (Nat.not_lt.2 hoffset)]

theorem Schedule.le {chunks : List Chunk} (h : Schedule image identity m chunks) :
    m ≤ image.chunks := by
  induction h with
  | done => exact Nat.le_refl _
  | again _ _ _ ih => exact ih
  | next hm => exact hm.le

/-- One call of a schedule. -/
theorem Reaches.stage {m k : Nat} (h : Reaches image identity m r)
    (himage : image.Sound sha format) (hsequence : identity.sequence ≠ 0)
    (hterm : image.descriptor.metadata.lastIncludedTerm ≤ identity.term)
    (hc : Offers image identity k c) (hk : k ≤ m) (hchunk : k < image.chunks) {m' : Nat}
    {staged : StagedChunk}
    (hstage : (ActiveTransfer.partway image identity m).stage sha format .none
      (k * maxSnapshotChunkBytes) (image.chunk k) =
        (.ok staged, ActiveTransfer.partway image identity m')) :
    Reaches image identity m' (r.stageAuthorizedChunk sha format .none c).2 := by
  have hoffset : c.offset ≤ (ActiveTransfer.partway image identity m).nextOffset := by
    rw [hc.offset]
    exact Nat.le_min.2 ⟨Nat.mul_le_mul_right _ hk, (lt_chunks_iff.1 hchunk).le⟩
  have heq : r.stageAuthorizedChunk sha format .none c = _ := SnapshotReceiver.stage_eq h.1 hc
    (hc.checkChunk himage hchunk hsequence hterm) (h.transfer himage hc hk) hoffset
  rw [hc.offset, hc.bytes, hstage] at heq
  rw [heq]
  exact ⟨rfl, .inl rfl⟩

/-- **Completeness.**  The chunks of an image, in order and with any repetitions of earlier
ones, complete it. -/
theorem completed_of_schedule {chunks : List Chunk}
    (himage : image.Sound sha format) (hsequence : identity.sequence ≠ 0)
    (hterm : image.descriptor.metadata.lastIncludedTerm ≤ identity.term)
    (hschedule : Schedule image identity m chunks) (h : Reaches image identity m r) :
    (r.stageAll sha format chunks).completed identity = some image := by
  induction hschedule generalizing r with
  | done =>
    have hactive : r.active = some (.partway image identity image.chunks) := by
      rcases h.2 with hactive | ⟨hzero, -⟩
      · exact hactive
      · exact absurd hzero (Nat.ne_of_gt (chunks_pos himage))
    show r.completed identity = some image
    rw [SnapshotReceiver.completed, if_neg (by simp [h.1]), hactive]
    simp [ActiveTransfer.partway, Option.filter]
  | @again m k c rest hk hc hrest ih =>
    obtain ⟨staged, hstage⟩ := stage_again identity himage hrest.le hk
    exact ih (h.stage himage hsequence hterm hc hk.le (lt_of_lt_of_le hk hrest.le) hstage)
  | @next m c rest hm hc _ ih =>
    obtain ⟨staged, hstage⟩ := stage_next identity himage hm
    exact ih (h.stage himage hsequence hterm hc (Nat.le_refl m) hm hstage)

end Results

/-- **Integrity of the receiver.**  After any calls, a reported image has the descriptor that
was announced for the transfer, and its bytes are accepted chunks laid one after another; a
chunk that does not fit leaves the slot as it was; and the chunks of an image that
`SnapshotImage::new` has made complete the transfer with that image. -/
theorem receiver_integrity (sha : Digest) (format : Json.Format Payload) :
    (∀ (calls : List Call) (identity : SnapshotTransferId) (image : SnapshotImage),
      (Session.run sha format calls).receiver.completed identity = some image →
      ∃ chunks : List Chunk, chunks.Sublist (Session.run sha format calls).accepted ∧
        (∀ c ∈ chunks, c.identity = identity ∧ c.descriptor = image.descriptor) ∧
        Laid 0 chunks ∧ chunks.flatMap Chunk.bytes = image.bytes ∧
        image.bytes.length = image.descriptor.totalLen) ∧
    (∀ (r : SnapshotReceiver) (active : ActiveTransfer) (c : Chunk) (faults : Faults),
      r.active = some active → Misfit active c →
      (r.stageAuthorizedChunk sha format faults c).2.active = some active) ∧
    (∀ (metadata : SnapshotMetadata) (application : Application.StateMachine)
      (image : SnapshotImage) (identity : SnapshotTransferId) (r : SnapshotReceiver)
      (chunks : List Chunk),
      SnapshotImage.new sha format metadata application = some (.ok image) →
      Admits image identity r → Schedule image identity 0 chunks →
      (r.stageAll sha format chunks).completed identity = some image) := by
  refine ⟨?_, ?_, ?_⟩
  · intro calls identity image h
    exact Session.completed_eq_some h
  · intro r active c faults hactive hmisfit
    exact SnapshotReceiver.stage_keeps hactive hmisfit faults
  · intro metadata application image identity r chunks hnew hadmits hschedule
    exact completed_of_schedule (SnapshotImage.sound_of_new hnew) hadmits.sequence hadmits.term
      hschedule ⟨hadmits.sound, .inr ⟨rfl, hadmits⟩⟩

/-! ## A transfer of several chunks

The state has one value, as long as values may be, so its image does not fit into one chunk.
Each chunk is followed by a repetition of the first. -/

section Sample

open Application (StateMachine ApplicationSnapshot maxValueBytes)

def sampleMetadata : SnapshotMetadata := ⟨1, 1, [1], none⟩

def longValue : String := String.ofList (List.replicate maxValueBytes 'x')

def sampleState : StateMachine :=
  { StateMachine.initial with
    values := Application.writeValue ∅ "key" (some longValue), lastApplied := 1 }

/-- What is written for a state with one value. -/
def samplePayload (value : String) : Payload :=
  payloadOf sampleMetadata ⟨1, 1, [("key", value)], [], 0, 0⟩

def sampleFormat : Json.Format Payload :=
  .compact (Json.recognize Json.write [samplePayload longValue])

def sampleTransfer : SnapshotTransferId := ⟨1, 1, 0, 1⟩

theorem utf8ByteSize_longValue : longValue.utf8ByteSize = maxValueBytes := by
  have hchar : Char.utf8Size 'x' = 1 := rfl
  simp [Json.utf8ByteSize_eq_sum, longValue, hchar]

theorem length_text_longValue : (Json.text longValue).length = 2 + maxValueBytes := by
  have hchar : (Json.escape 'x').length = 1 := rfl
  simp [Json.length_text, longValue, hchar]

theorem sampleState_reachable :
    StateMachine.Reachable Store.toyDigest StateMachine.Bounded sampleState := by
  have hput : StateMachine.initial.apply Store.toyDigest ⟨1, 1, .put "key" longValue⟩ =
      some (.ok (.applied 1, sampleState)) := rfl
  have hbounded : StateMachine.Bounded (.put "key" longValue) :=
    ⟨by decide, utf8ByteSize_longValue.le⟩
  exact .applied .initial hbounded hput

theorem length_samplePayload (value : String) :
    (Json.write (samplePayload value)).length = 218 + (Json.text value).length := by
  have hpayload : Json.frame ["version", "metadata", "application"] = 39 := rfl
  have hmetadata : Json.frame ["last_included_index", "last_included_term", "members"] = 57 := rfl
  have happlication : Json.frame ["schema_version", "last_applied", "values", "sessions",
    "retained_keys", "retained_payload_bytes"] = 100 := rfl
  have hkey : (Json.text "key").length = 5 := rfl
  have hdigits : Json.digits 1 = 1 ∧ Json.digits 0 = 1 := ⟨rfl, rfl⟩
  simp [samplePayload, payloadOf, sampleMetadata, Json.write, Json.length_object, Json.array,
    Json.commas, Json.optional, hpayload, hmetadata, happlication, hkey, hdigits]
  omega

/-- The call that offers a chunk of an image to a node without a snapshot. -/
def offer (image : SnapshotImage) (k : Nat) : Chunk :=
  ⟨sampleTransfer, image.descriptor, k * maxSnapshotChunkBytes, image.chunk k, 0, [1], none⟩

theorem offers_offer {image : SnapshotImage} (h : image.descriptor.metadata = sampleMetadata)
    (k : Nat) : Offers image sampleTransfer k (offer image k) := by
  refine ⟨rfl, rfl, rfl, rfl, ?_, ?_, fun installed hi => ?_⟩
  · rw [h]
    rfl
  · rw [h]
    exact Nat.zero_lt_one
  · cases hi

theorem schedule_offers {image : SnapshotImage}
    (h : image.descriptor.metadata = sampleMetadata) (k : Nat) (hk : k ≤ image.chunks) :
    Schedule image sampleTransfer (image.chunks - k) ((List.range' (image.chunks - k) k).flatMap
      fun m => [offer image m, offer image 0]) := by
  induction k with
  | zero => exact .done
  | succ k ih =>
    have hnext : image.chunks - (k + 1) + 1 = image.chunks - k := by omega
    rw [List.range'_succ, List.flatMap_cons, hnext]
    refine .next (by omega) (offers_offer h _) ?_
    rw [hnext]
    exact .again (by omega) (offers_offer h 0) (ih (by omega))

theorem receiver_integrity_sample :
    ∃ image, SnapshotImage.new Store.toyDigest sampleFormat sampleMetadata sampleState =
        some (.ok image) ∧ 2 ≤ image.chunks ∧ image.application.values.toList ≠ [] ∧
      (SnapshotReceiver.new.stageAll Store.toyDigest sampleFormat
        ((List.range image.chunks).flatMap fun m => [offer image m, offer image 0])).completed
          sampleTransfer = some image := by
  have hexport : sampleState.exportSnapshot = some (samplePayload longValue).application := rfl
  have hsize : (sampleFormat.write (samplePayload longValue)).length = 218 + (2 + maxValueBytes) :=
    (length_samplePayload longValue).trans (by rw [length_text_longValue])
  have hread : sampleFormat.RoundTrips (samplePayload longValue) := Json.roundTrips_recognize _
  obtain ⟨image, hnew, happlication, hmetadata, hlength⟩ := SnapshotImage.new_reachable
    sampleState_reachable rfl rfl hexport hread (hsize.trans_le (by decide))
  have hadmits : Admits image sampleTransfer .new := by
    refine ⟨by decide, ?_, rfl, fun old h => ?_⟩
    · rw [hmetadata]
      decide
    · cases h
  have hschedule := schedule_offers hmetadata image.chunks (Nat.le_refl _)
  rw [Nat.sub_self, ← List.range_eq_range'] at hschedule
  refine ⟨image, hnew, ?_, ?_, (receiver_integrity Store.toyDigest sampleFormat).2.2
    sampleMetadata sampleState image sampleTransfer .new _ hnew hadmits hschedule⟩
  · have hpayload : payloadOf sampleMetadata (samplePayload longValue).application =
        samplePayload longValue := rfl
    rw [hpayload, hsize] at hlength
    rw [Nat.succ_le_iff, lt_chunks_iff, hlength]
    decide +kernel
  · rw [happlication]
    exact List.cons_ne_nil _ _

end Sample

end MicroRaft.Snapshot
