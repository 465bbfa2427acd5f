import MicroRaft.Lib.Json
import MicroRaft.Store.Codec

/-!
# Recovery of the write-ahead log

`recover_wal` reads frames until the input ends or a frame is incomplete, and
gives up on anything else.  Three facts make it safe:

* a file cut anywhere gives back the batches whose frames are complete
  (`recoverLoop_cut`);
* a file with a damaged frame is refused, because a digest guards the length
  before the length is used and another one guards the rest (`readFrame_damaged`,
  `recoverLoop_damaged`);
* a payload is a batch in one way only (`decodeBatch_eq_ok`).
-/

namespace MicroRaft.Store

open Bytes

def walMagic : List UInt8 := Json.ascii "MRSWAL01"

theorem length_walMagic : walMagic.length = 8 := by decide

/-- The bound `recover_wal` puts on a file. -/
def maxWalBytes : Nat := 64 * 1024 * 1024

/-- The loop of `recover_wal`: the batches it applies and the bytes they take up.  The first
argument bounds its rounds. -/
def recoverLoop (sha : Digest) : Nat → Nat → List UInt8 → Except IoError (List Batch × Nat)
  | 0, _, _ => .ok ([], 0)
  | rounds + 1, applied, bytes =>
      match readFrame sha walMagic bytes with
      | .error e => .error e
      | .ok none => .ok ([], 0)
      | .ok (some (payload, used, rest)) =>
          match decodeBatch payload with
          | .error e => .error e
          | .ok batch =>
              if checkedAdd applied 1 ≠ some batch.first then
                .error (invalid "WAL applied-index discontinuity")
              else
                match recoverLoop sha rounds batch.index rest with
                | .error e => .error e
                | .ok (batches, length) => .ok (batch :: batches, used + length)

/-- `recover_wal` on the contents of the file, for a store that has applied everything up to
`applied`. -/
def recoverWal (sha : Digest) (applied : Nat) (bytes : List UInt8) :
    Except IoError (List Batch × Nat) :=
  if bytes.length > maxWalBytes then .error (invalid "WAL recovery byte bound exceeded")
  else recoverLoop sha (bytes.length + 1) applied bytes

/-- The frame `commit_range` appends for a batch. -/
def walFrame (sha : Digest) (b : Batch) : Except IoError (List UInt8) := do
  let payload ← encodeBatch b.first b.index b.changes
  frame sha walMagic payload

variable {sha : Digest} {b : Batch} {bs : List Batch} {f f' : List UInt8}
  {frames frames' : List (List UInt8)} {applied : Nat}

/-! ## Frames of batches -/

/-- The records of a batch are no longer than its keys, its values and their headers. -/
theorem length_flatMap_record (changes : List Mutation) (index : Nat) :
    (changes.flatMap fun m => encodeRecord (m.record index)).length =
      changes.length * 16 + batchBytes changes := by
  induction changes with
  | nil => rfl
  | cons m rest ih =>
    have hsize : (encodeRecord (m.record index)).length =
        16 + m.key.length + valueLength m.value := length_encodeRecord _
    simp only [List.flatMap_cons, List.length_append, ih, hsize, batchBytes, List.map_cons,
      List.sum_cons, List.length_cons]
    ring

theorem Batch.length_bytes (b : Batch) :
    b.bytes.length = 20 + b.changes.length * 16 + batchBytes b.changes := by
  simp only [Batch.bytes, List.length_append, length_le, length_flatMap_record]
  omega

/-- An admitted batch fits a frame. -/
theorem Batch.Valid.length_le_maxFrame (h : b.Valid) : b.bytes.length ≤ maxFrame := by
  have hcount := h.changes.count
  have hbytes := h.changes.bytes
  rw [b.length_bytes, maxFrame]
  omega

theorem walFrame_eq_ok (hindex : b.index ≤ u64Max) :
    walFrame sha b = .ok f ↔ b.Valid ∧ f = frameBytes sha walMagic b.bytes := by
  unfold walFrame
  rw [bind_eq_ok]
  constructor
  · rintro ⟨payload, hpayload, hf⟩
    obtain ⟨hvalid, rfl⟩ := (encodeBatch_eq_ok hindex).1 hpayload
    rw [frame_eq_ok hvalid.length_le_maxFrame] at hf
    cases hf
    exact ⟨hvalid, rfl⟩
  · rintro ⟨hvalid, rfl⟩
    exact ⟨b.bytes, (encodeBatch_eq_ok hindex).2 ⟨hvalid, rfl⟩,
      frame_eq_ok hvalid.length_le_maxFrame⟩

/-- The batches continue the applied range and each other. -/
def Follows : Nat → List Batch → Prop
  | _, [] => True
  | applied, b :: bs => b.first = applied + 1 ∧ Follows b.index bs

/-- A list of batches as a file has it. -/
structure Written (sha : Digest) (applied : Nat) (bs : List Batch)
    (frames : List (List UInt8)) : Prop where
  frames : List.Forall₂ (fun b f => walFrame sha b = .ok f) bs frames
  range : ∀ b ∈ bs, b.index ≤ u64Max
  follows : Follows applied bs

theorem Written.tail (h : Written sha applied (b :: bs) (f :: frames)) :
    Written sha b.index bs frames := by
  obtain ⟨-, hrest⟩ := List.forall₂_cons.1 h.frames
  exact ⟨hrest, fun x hx => h.range x (List.mem_cons_of_mem _ hx), h.follows.2⟩

/-- The first frame of a file is read and decoded. -/
theorem Written.read (h : Written sha applied (b :: bs) (f :: frames)) :
    f = frameBytes sha walMagic b.bytes ∧ b.bytes.length ≤ maxFrame ∧
      f.length = b.bytes.length + 76 ∧ decodeBatch b.bytes = .ok b ∧
      checkedAdd applied 1 = some b.first := by
  have hindex := h.range b List.mem_cons_self
  obtain ⟨hvalid, hf⟩ := (walFrame_eq_ok hindex).1 (List.forall₂_cons.1 h.frames).1
  have hfirst : b.first = applied + 1 := h.follows.1
  have hle : applied + 1 ≤ u64Max := hfirst ▸ hvalid.range.2.1.trans hindex
  refine ⟨hf, hvalid.length_le_maxFrame, ?_, decodeBatch_eq_ok.2 ⟨hvalid, rfl⟩, ?_⟩
  · rw [hf, length_frameBytes length_walMagic]
  · rw [checkedAdd, if_pos hle, hfirst]

/-- One round of the loop on a file that starts with a whole frame. -/
theorem Written.recoverLoop_cons (h : Written sha applied (b :: bs) (f :: frames)) (rounds : Nat)
    (rest : List UInt8) :
    recoverLoop sha (rounds + 1) applied (f ++ rest) =
      match recoverLoop sha rounds b.index rest with
      | .error e => .error e
      | .ok (batches, length) => .ok (b :: batches, f.length + length) := by
  obtain ⟨hf, hfits, hlen, hdecode, hfirst⟩ := h.read
  rw [recoverLoop, hlen, hf, readFrame_frame length_walMagic hfits]
  simp only [hdecode, hfirst, ne_eq, not_true_eq_false, if_false]

/-! ## A file that is cut -/

/-- A cut file gives the batches whose frames are complete. -/
theorem recoverLoop_cut (h : Written sha applied bs frames) (cut : Nat) {rounds : Nat}
    (hrounds : (frames.flatten.take cut).length < rounds) :
    ∃ k ≤ bs.length, (frames.take k).flatten.length ≤ cut ∧
      (k < bs.length → cut < (frames.take (k + 1)).flatten.length) ∧
      recoverLoop sha rounds applied (frames.flatten.take cut) =
        .ok (bs.take k, (frames.take k).flatten.length) := by
  induction bs generalizing applied frames cut rounds with
  | nil =>
    obtain rfl := List.forall₂_nil_left_iff.1 h.frames
    obtain ⟨rounds, rfl⟩ := Nat.exists_eq_succ_of_ne_zero (Nat.ne_zero_of_lt hrounds)
    refine ⟨0, le_rfl, Nat.zero_le _, by simp, ?_⟩
    simp [recoverLoop, readFrame]
  | cons b bs ih =>
    cases frames with
    | nil => cases h.frames
    | cons f frames =>
      obtain ⟨hf, hfits, hlen, -, -⟩ := h.read
      obtain ⟨rounds, rfl⟩ := Nat.exists_eq_succ_of_ne_zero (Nat.ne_zero_of_lt hrounds)
      rw [List.flatten_cons, List.take_append] at hrounds ⊢
      by_cases hcut : cut < f.length
      · refine ⟨0, Nat.zero_le _, Nat.zero_le _, fun _ => by simpa using hcut, ?_⟩
        rw [Nat.sub_eq_zero_of_le hcut.le, List.take_zero, List.append_nil, recoverLoop, hf,
          readFrame_take length_walMagic hfits (by omega)]
        rfl
      · rw [List.take_of_length_le (not_lt.1 hcut)] at hrounds ⊢
        have hless : (frames.flatten.take (cut - f.length)).length < rounds := by
          rw [List.length_append] at hrounds
          omega
        obtain ⟨k, hk, hbelow, habove, hrest⟩ := ih h.tail (cut - f.length) hless
        refine ⟨k + 1, Nat.succ_le_succ hk, ?_, fun hlt => ?_, ?_⟩
        · rw [List.take_succ_cons, List.flatten_cons, List.length_append]
          omega
        · have hmore := habove (Nat.lt_of_succ_lt_succ hlt)
          rw [List.take_succ_cons, List.flatten_cons, List.length_append]
          omega
        · rw [h.recoverLoop_cons, hrest, List.take_succ_cons, List.take_succ_cons,
            List.flatten_cons, List.length_append]

/-! ## A file that is damaged -/

/-- The two digests of a frame are as they were. -/
def SparesDigests (f f' : List UInt8) : Prop :=
  (f'.drop 12).take 32 = (f.drop 12).take 32 ∧ f'.drop (f.length - 32) = f.drop (f.length - 32)

/-- Marker, length and payload of a frame are as they were. -/
def SparesContents (f f' : List UInt8) : Prop :=
  f'.take 12 = f.take 12 ∧ (f'.drop 44).take (f.length - 76) = (f.drop 44).take (f.length - 76)

/-- What a frame may have become: bytes changed outside its digests or in its digests, and no
two different beginnings of the two have one digest. -/
structure Damage (sha : Digest) (f f' : List UInt8) : Prop where
  length : f'.length = f.length
  place : SparesDigests f f' ∨ SparesContents f f'
  collisionFree : ∀ k, sha.run (f'.take k) = sha.run (f.take k) → f'.take k = f.take k

/-- The parts of a frame, or of what has become of it. -/
theorem exists_parts {n : Nat} (h : f.length = n + 76) :
    ∃ m l d p c : List UInt8, f = m ++ (l ++ (d ++ (p ++ c))) ∧ m.length = 8 ∧ l.length = 4 ∧
      d.length = 32 ∧ p.length = n ∧ c.length = 32 := by
  refine ⟨f.take 8, (f.drop 8).take 4, (f.drop 12).take 32, (f.drop 44).take n,
    f.drop (44 + n), ?_, ?_⟩
  · have h₁ : (f.drop 44).take n ++ f.drop (44 + n) = f.drop 44 := by
      conv_rhs => rw [← List.take_append_drop n (f.drop 44), List.drop_drop]
    have h₂ : (f.drop 12).take 32 ++ f.drop 44 = f.drop 12 := by
      conv_rhs => rw [← List.take_append_drop 32 (f.drop 12), List.drop_drop]
    have h₃ : (f.drop 8).take 4 ++ f.drop 12 = f.drop 8 := by
      conv_rhs => rw [← List.take_append_drop 4 (f.drop 8), List.drop_drop]
    rw [h₁, h₂, h₃, List.take_append_drop]
  · simp only [List.length_take, List.length_drop]
    omega

/-- Where the parts of a frame are found again. -/
theorem parts_slices {n : Nat} {m l d p c : List UInt8} (hm : m.length = 8) (hl : l.length = 4)
    (hd : d.length = 32) (hp : p.length = n) (hf : f = m ++ (l ++ (d ++ (p ++ c)))) :
    f.take 12 = m ++ l ∧ (f.drop 12).take 32 = d ∧ (f.drop 44).take n = p ∧
      f.drop (44 + n) = c ∧ f.take (44 + n) = m ++ (l ++ d) ++ p := by
  subst hf
  have h₁ : m ++ (l ++ (d ++ (p ++ c))) = (m ++ l) ++ (d ++ (p ++ c)) := by simp
  have h₂ : m ++ (l ++ (d ++ (p ++ c))) = (m ++ (l ++ d)) ++ (p ++ c) := by simp
  have h₃ : m ++ (l ++ (d ++ (p ++ c))) = (m ++ (l ++ d) ++ p) ++ c := by simp
  have hlen₁ : (m ++ l).length = 12 := by simp [hm, hl]
  have hlen₂ : (m ++ (l ++ d)).length = 44 := by simp [hm, hl, hd]
  have hlen₃ : (m ++ (l ++ d) ++ p).length = 44 + n := by rw [List.length_append, hlen₂, hp]
  refine ⟨?_, ?_, ?_, ?_, ?_⟩
  · rw [h₁, List.take_left' hlen₁]
  · rw [h₁, List.drop_left' hlen₁, List.take_left' hd]
  · rw [h₂, List.drop_left' hlen₂, List.take_left' hp]
  · rw [h₃, List.drop_left' hlen₃]
  · rw [h₃, List.take_left' hlen₃]

/-- **A damaged frame is refused**: the digests cannot all fit. -/
theorem readFrame_damaged {payload rest : List UInt8} (hfits : payload.length ≤ maxFrame)
    (h : Damage sha (frameBytes sha walMagic payload) f')
    (hne : f' ≠ frameBytes sha walMagic payload) :
    ∃ e, readFrame sha walMagic (f' ++ rest) = .error e := by
  have hlen : (frameBytes sha walMagic payload).length = payload.length + 76 :=
    length_frameBytes length_walMagic
  have hsplit : frameBytes sha walMagic payload = walMagic ++ (le 4 payload.length ++
      (sha.run (walMagic ++ le 4 payload.length) ++ (payload ++
        sha.run (frameHeader sha walMagic payload.length ++ payload)))) := by
    simp only [frameBytes, frameHeader, List.append_assoc]
  have hbody : frameHeader sha walMagic payload.length = walMagic ++ (le 4 payload.length ++
      sha.run (walMagic ++ le 4 payload.length)) := by
    simp only [frameHeader, List.append_assoc]
  obtain ⟨hfield, hstored, hcontent, hcheck, hcover⟩ :=
    parts_slices length_walMagic (length_le 4 payload.length) (sha.length _) rfl hsplit
  obtain ⟨m, l, d, p, c, hf', hm, hl, hd, hp, hc⟩ := exists_parts (h.length.trans hlen)
  obtain ⟨hfield', hstored', hcontent', hcheck', hcover'⟩ := parts_slices hm hl hd hp hf'
  have hend : (frameBytes sha walMagic payload).length - 32 = 44 + payload.length := by omega
  have hmid : (frameBytes sha walMagic payload).length - 76 = payload.length := by omega
  have hread : f' ++ rest = m ++ (l ++ (d ++ (p ++ (c ++ rest)))) := by
    rw [hf']
    simp only [List.append_assoc]
  rw [hread, readFrame_header hm hl hd]
  by_cases hmagic : m = walMagic
  · by_cases hdigest : sha.run (m ++ l) = d
    · -- marker and length fit their digest, so they are the ones that were written
      have hheader : m ++ l = walMagic ++ le 4 payload.length := by
        rcases h.place with hspare | hspare
        · have hd' : d = sha.run (walMagic ++ le 4 payload.length) := by
            rw [← hstored', ← hstored]
            exact hspare.1
          have hsame := h.collisionFree 12
          rw [hfield, hfield', hdigest] at hsame
          exact hsame hd'
        · rw [← hfield, ← hfield']
          exact hspare.1
      obtain ⟨-, rfl⟩ := List.append_inj hheader (hm.trans length_walMagic.symm)
      obtain rfl : d = sha.run (walMagic ++ le 4 payload.length) := by rw [← hdigest, hheader]
      have hnum : ofLe (le 4 payload.length) = payload.length :=
        ofLe_le (hfits.trans_lt (by decide))
      rw [if_neg (not_not.2 hmagic), if_neg (not_not.2 hdigest), hnum, if_neg (not_lt.2 hfits),
        if_neg (by simp only [List.length_append, hp, hc]; omega), List.take_left' hp,
        List.drop_left' hp, List.take_left' hc]
      by_cases htotal : sha.run (m ++ (le 4 payload.length ++
          sha.run (walMagic ++ le 4 payload.length)) ++ p) = c
      · -- the rest fits its digest as well, so nothing has changed
        exfalso
        rw [hmagic] at htotal hcover' hf'
        have hp' : p = payload := by
          rcases h.place with hspare | hspare
          · have hc' : c = sha.run (frameHeader sha walMagic payload.length ++ payload) := by
              have hsame := hspare.2
              rw [hend, hcheck, hcheck'] at hsame
              exact hsame
            have hsame := h.collisionFree (44 + payload.length)
            rw [hcover, hcover', htotal, hc', hbody] at hsame
            exact List.append_cancel_left (hsame rfl)
          · have hsame := hspare.2
            rw [hmid, hcontent, hcontent'] at hsame
            exact hsame
        subst hp'
        refine hne ?_
        rw [hf', hsplit, ← htotal, hbody]
      · rw [if_pos htotal]
        exact ⟨_, rfl⟩
    · rw [if_neg (not_not.2 hmagic), if_pos hdigest]
      exact ⟨_, rfl⟩
  · rw [if_pos hmagic]
    exact ⟨_, rfl⟩

/-- A file with a damaged frame is refused. -/
theorem recoverLoop_damaged (h : Written sha applied bs frames)
    (hdamage : List.Forall₂ (Damage sha) frames frames') (hne : frames' ≠ frames) {rounds : Nat}
    (hrounds : frames'.flatten.length < rounds) :
    ∃ e, recoverLoop sha rounds applied frames'.flatten = .error e := by
  induction bs generalizing applied frames frames' rounds with
  | nil =>
    obtain rfl := List.forall₂_nil_left_iff.1 h.frames
    exact absurd (List.forall₂_nil_left_iff.1 hdamage) hne
  | cons b bs ih =>
    cases hdamage with
    | nil => cases h.frames
    | @cons f f' frames frames' hf hrest =>
      obtain ⟨rounds, rfl⟩ := Nat.exists_eq_succ_of_ne_zero (Nat.ne_zero_of_lt hrounds)
      obtain ⟨hframe, hfits, hlen, -, -⟩ := h.read
      rw [List.flatten_cons] at hrounds ⊢
      by_cases hsame : f' = f
      · subst hsame
        have hfewer : frames'.flatten.length < rounds := by
          rw [List.length_append] at hrounds
          omega
        obtain ⟨e, he⟩ := ih h.tail hrest (fun heq => hne (by rw [heq])) hfewer
        refine ⟨e, ?_⟩
        rw [h.recoverLoop_cons, he]
      · subst hframe
        obtain ⟨e, he⟩ : ∃ e, readFrame sha walMagic (f' ++ frames'.flatten) = .error e :=
          readFrame_damaged hfits hf hsame
        refine ⟨e, ?_⟩
        rw [recoverLoop, he]

/-! ## Recovery -/

/-- A file cut where the frames of another one end. -/
def cutLike : List (List UInt8) → List UInt8 → List (List UInt8)
  | [], _ => []
  | f :: frames, bytes => bytes.take f.length :: cutLike frames (bytes.drop f.length)

theorem flatten_cutLike {file : List UInt8} (h : file.length = frames.flatten.length) :
    (cutLike frames file).flatten = file := by
  induction frames generalizing file with
  | nil =>
    obtain rfl : file = [] := List.length_eq_zero_iff.1 h
    rfl
  | cons f frames ih =>
    rw [List.flatten_cons, List.length_append] at h
    have hrest : (file.drop f.length).length = frames.flatten.length := by
      rw [List.length_drop]
      omega
    rw [cutLike, List.flatten_cons, ih hrest, List.take_append_drop]

/-- **The log recovers what was written and refuses what was not.**  A file of frames, cut
anywhere, gives back exactly the batches whose frames are complete; a file of the same length
with damage outside the digests, or in the digests, of some frames is refused; and a payload
is a batch exactly when it is the encoding of that batch. -/
theorem wal_recovery (h : Written sha applied bs frames)
    (hsize : frames.flatten.length ≤ maxWalBytes) :
    (∀ cut, ∃ k ≤ bs.length, (frames.take k).flatten.length ≤ cut ∧
      (k < bs.length → cut < (frames.take (k + 1)).flatten.length) ∧
      recoverWal sha applied (frames.flatten.take cut) =
        .ok (bs.take k, (frames.take k).flatten.length)) ∧
    (∀ file : List UInt8, file.length = frames.flatten.length → file ≠ frames.flatten →
      List.Forall₂ (Damage sha) frames (cutLike frames file) →
      ∃ e, recoverWal sha applied file = .error e) ∧
    ∀ (b : Batch) (bytes : List UInt8), b.index ≤ u64Max →
      (decodeBatch bytes = .ok b ↔ encodeBatch b.first b.index b.changes = .ok bytes) := by
  refine ⟨fun cut => ?_, fun file hlen hne hdamage => ?_, fun b bytes hindex => ?_⟩
  · have hshort : ¬ (frames.flatten.take cut).length > maxWalBytes := by
      rw [List.length_take]
      omega
    rw [recoverWal, if_neg hshort]
    exact recoverLoop_cut h cut (Nat.lt_succ_self _)
  · have hfile := flatten_cutLike hlen
    have hother : cutLike frames file ≠ frames := by
      intro heq
      rw [heq] at hfile
      exact hne hfile.symm
    rw [recoverWal, if_neg (by omega)]
    have hrounds : (cutLike frames file).flatten.length < file.length + 1 := by
      rw [hfile]
      exact Nat.lt_succ_self _
    have hrefused := recoverLoop_damaged h hdamage hother hrounds
    rwa [hfile] at hrefused
  · rw [decodeBatch_eq_ok, encodeBatch_eq_ok hindex]

/-! A log of three batches, and the same log with another value in the first one's cell. -/

def sampleBatch (index : Nat) (value : UInt8) : Batch := ⟨index, index, [⟨[107], some [value]⟩]⟩

def sampleFrame (index : Nat) (value : UInt8) : List UInt8 :=
  frameBytes toyDigest walMagic (sampleBatch index value).bytes

def sampleBatches : List Batch := [sampleBatch 1 118, sampleBatch 2 119, sampleBatch 3 120]

def sampleFrames : List (List UInt8) := [sampleFrame 1 118, sampleFrame 2 119, sampleFrame 3 120]

/-- The first frame with another value in its cell. -/
def sampleDamage : List UInt8 := (sampleFrame 1 118).set 81 119

instance : Decidable (SparesDigests f f') :=
  inferInstanceAs (Decidable (_ ∧ _))

theorem sampleFrames_facts :
    sampleBatches.map (fun b => (walFrame toyDigest b).toOption) = sampleFrames.map some ∧
      sampleFrames.map List.length = [114, 114, 114] ∧ sampleDamage ≠ sampleFrame 1 118 ∧
      SparesDigests (sampleFrame 1 118) sampleDamage ∧
      ∀ k < 115, toyDigest.run (sampleDamage.take k) = toyDigest.run ((sampleFrame 1 118).take k) →
        sampleDamage.take k = (sampleFrame 1 118).take k := by
  decide +kernel

theorem sampleFrame_damage : Damage toyDigest (sampleFrame 1 118) sampleDamage := by
  obtain ⟨-, hlen, -, hspares, hfree⟩ := sampleFrames_facts
  have hlen : (sampleFrame 1 118).length = 114 := (List.cons.inj hlen).1
  have hlen' : sampleDamage.length = (sampleFrame 1 118).length := List.length_set
  refine ⟨hlen', Or.inl hspares, fun k hk => ?_⟩
  by_cases hlt : k < 115
  · exact hfree k hlt hk
  · -- a longer beginning is the whole frame
    have hwhole := hfree 114 (by decide)
    rw [List.take_of_length_le (by omega), List.take_of_length_le (by omega)] at hwhole hk ⊢
    exact hwhole hk

theorem Damage.refl (f : List UInt8) : Damage sha f f :=
  ⟨rfl, .inl ⟨rfl, rfl⟩, fun _ _ => rfl⟩

theorem written_sampleFrames : Written toyDigest 0 sampleBatches sampleFrames := by
  obtain ⟨hframes, -⟩ := sampleFrames_facts
  simp only [sampleBatches, sampleFrames, List.map_cons, List.map_nil, List.cons.injEq,
    and_true] at hframes
  obtain ⟨hfirst, hsecond, hthird⟩ := hframes
  exact ⟨.cons (toOption_eq_some hfirst) (.cons (toOption_eq_some hsecond)
    (.cons (toOption_eq_some hthird) .nil)), by decide,
    rfl, rfl, rfl, trivial⟩

/-- A log that ends in its third frame gives the first two batches; damage in the first frame
is refused, with two sound frames behind it. -/
theorem wal_recovery_threeBatches :
    recoverWal toyDigest 0 (sampleFrames.flatten.take 300) =
      .ok ([sampleBatch 1 118, sampleBatch 2 119], 228) ∧
    ∃ e, recoverWal toyDigest 0
      [sampleDamage, sampleFrame 2 119, sampleFrame 3 120].flatten = .error e := by
  obtain ⟨-, hlengths, hne, -, -⟩ := sampleFrames_facts
  simp only [sampleFrames, List.map_cons, List.map_nil, List.cons.injEq, and_true] at hlengths
  obtain ⟨hfirst, hsecond, hthird⟩ := hlengths
  have hdamaged : sampleDamage.length = 114 := List.length_set.trans hfirst
  obtain ⟨hcut, hrefused, -⟩ := wal_recovery written_sampleFrames (by decide +kernel)
  refine ⟨?_, hrefused _ ?_ ?_ ?_⟩
  · obtain ⟨k, hk, hle, hlt, hrecover⟩ := hcut 300
    obtain rfl : k = 2 := by
      have hk : k ≤ 3 := hk
      interval_cases k <;> simp [sampleFrames, sampleBatches, hfirst, hsecond, hthird] at hle hlt
      rfl
    simpa [sampleFrames, sampleBatches, hfirst, hsecond] using hrecover
  · simp [sampleFrames, hfirst, hsecond, hthird, hdamaged]
  · intro heq
    rw [sampleFrames, List.flatten_cons, List.flatten_cons] at heq
    exact hne (List.append_inj_left heq (by omega))
  · have hpieces : cutLike sampleFrames [sampleDamage, sampleFrame 2 119,
        sampleFrame 3 120].flatten = [sampleDamage, sampleFrame 2 119, sampleFrame 3 120] := by
      simp [cutLike, sampleFrames, hfirst, hsecond, hthird, hdamaged]
    rw [hpieces]
    exact .cons sampleFrame_damage (.cons (.refl _) (.cons (.refl _) .nil))

end MicroRaft.Store
