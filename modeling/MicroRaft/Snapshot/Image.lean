import MicroRaft.Application.Cells
import MicroRaft.Core.Encoding
import MicroRaft.Core.Message

/-!
# Snapshot images

A snapshot image is a header of 48 bytes — a magic number, the length of the body and its
digest — and the body, the JSON of the boundary's metadata and the application's state.
`SnapshotImage::new` writes one and ends by decoding it again, so an image that exists is
what its bytes decode to.

What the JSON library writes and reads for a body is a parameter; `Json.write` has the texts
that it writes.
-/

namespace MicroRaft.Snapshot

open Application (ApplicationSnapshot SessionSnapshot StateMachine importSnapshot)
open Store (Digest IoError invalid)
open Bytes (be ofBe)

/-- `MAGIC`. -/
def magic : List UInt8 := Json.ascii "MRFTSN01"

/-- `MAGIC_V2`, of images that carry a membership. -/
def magicV2 : List UInt8 := Json.ascii "MRFTSN02"

/-- `HEADER_BYTES`. -/
def headerBytes : Nat := 48

structure Payload where
  version : Nat
  metadata : SnapshotMetadata
  application : ApplicationSnapshot
  deriving DecidableEq

instance : Json.Serialize SnapshotMetadata :=
  ⟨fun m => Json.object ([("last_included_index", Json.write m.lastIncludedIndex),
    ("last_included_term", Json.write m.lastIncludedTerm), ("members", Json.write m.members)] ++
    Json.optional "membership" m.membership)⟩

instance : Json.Serialize SessionSnapshot :=
  ⟨fun s => Json.object [("nonce", Json.write s.nonce), ("session_id", Json.write s.sessionId),
    ("registered", Json.write s.registered), ("closed", Json.write s.closed),
    ("keys", Json.write s.keys)]⟩

instance : Json.Serialize ApplicationSnapshot :=
  ⟨fun s => Json.object [("schema_version", Json.write s.schemaVersion),
    ("last_applied", Json.write s.lastApplied), ("values", Json.write s.values),
    ("sessions", Json.write s.sessions), ("retained_keys", Json.write s.retainedKeys),
    ("retained_payload_bytes", Json.write s.retainedPayloadBytes)]⟩

instance : Json.Serialize Payload :=
  ⟨fun p => Json.object [("version", Json.write p.version), ("metadata", Json.write p.metadata),
    ("application", Json.write p.application)]⟩

/-- An image, with the application it describes. -/
structure SnapshotImage where
  descriptor : SnapshotDescriptor
  bytes : List UInt8
  application : StateMachine

section Images

variable (sha : Digest) (format : Json.Format Payload)

/-- `SnapshotImage::decode`. -/
def SnapshotImage.decode (bytes : List UInt8) : Except IoError SnapshotImage :=
  if bytes.length < headerBytes ∨ bytes.length > maxSnapshotBytes ∨
      (bytes.take 8 ≠ magic ∧ bytes.take 8 ≠ magicV2) then
    .error (invalid "snapshot frame version, length or magic is invalid")
  else if ofBe ((bytes.drop 8).take 8) ≠ bytes.length - headerBytes then
    .error (invalid "snapshot payload length mismatch")
  else if sha.run (bytes.drop headerBytes) ≠ (bytes.drop 16).take 32 then
    .error (invalid "snapshot payload checksum mismatch")
  else
    match format.read (bytes.drop headerBytes) with
    | none => .error (invalid "JSON")
    | some payload =>
        if (payload.version ≠ 1 ∧ payload.version ≠ 2) ∨
            decide (payload.version = 2) ≠ payload.metadata.membership.isSome ∨
            decide (payload.version = 2) ≠ decide (bytes.take 8 = magicV2) then
          .error (invalid "unsupported snapshot payload version")
        else
          match payload.metadata.validate with
          | .error message => .error (invalid message)
          | .ok () =>
              match importSnapshot sha payload.application payload.metadata.lastIncludedIndex with
              | .error e => .error (invalid e.message)
              | .ok application =>
                  .ok {
                    descriptor := {
                      metadata := payload.metadata
                      totalLen := bytes.length
                      sha256 := sha.run bytes }
                    bytes
                    application }

/-- The payload that describes a state. -/
def payloadOf (metadata : SnapshotMetadata) (application : ApplicationSnapshot) : Payload where
  version := if metadata.membership.isSome then 2 else 1
  metadata
  application

/-- The bytes of an image with a body. -/
def frame (version : Nat) (body : List UInt8) : List UInt8 :=
  (if version = 2 then magicV2 else magic) ++ be 8 body.length ++ sha.run body ++ body

/-- `SnapshotImage::new`; the outer `none` is a panic of the application's export. -/
def SnapshotImage.new (metadata : SnapshotMetadata) (application : StateMachine) :
    Option (Except IoError SnapshotImage) :=
  match metadata.validate with
  | .error message => some (.error (invalid message))
  | .ok () =>
      if metadata.lastIncludedIndex ≠ application.lastApplied then
        some (.error (invalid "snapshot boundary differs from applied application state"))
      else do
        let exported ← application.exportSnapshot
        let payload := payloadOf metadata exported
        let body := format.write payload
        if body.length > maxSnapshotBytes - headerBytes then
          return .error ⟨.invalidInput, "snapshot serialization exceeds configured byte bound"⟩
        else
          return SnapshotImage.decode sha format (frame sha payload.version body)

/-! ## What an image is -/

variable {sha format} {bytes : List UInt8} {image : SnapshotImage}

/-- A decoded image holds the bytes it was decoded from, within the limits, and a descriptor
of them whose metadata are valid. -/
structure SnapshotImage.Sound (sha : Digest) (format : Json.Format Payload)
    (image : SnapshotImage) : Prop where
  decodes : SnapshotImage.decode sha format image.bytes = .ok image
  valid : image.descriptor.metadata.validate = .ok ()
  total : image.descriptor.totalLen = image.bytes.length
  digest : image.descriptor.sha256 = sha.run image.bytes
  long : headerBytes ≤ image.bytes.length
  short : image.bytes.length ≤ maxSnapshotBytes

theorem SnapshotImage.decode_eq_ok (h : SnapshotImage.decode sha format bytes = .ok image) :
    image.bytes = bytes ∧ image.Sound sha format := by
  have hcopy := h
  unfold SnapshotImage.decode at h
  split at h
  · cases h
  rename_i hframe
  split at h
  · cases h
  split at h
  · cases h
  split at h
  · cases h
  split at h
  · cases h
  split at h
  · cases h
  rename_i hvalid
  split at h
  · cases h
  cases h
  simp only [not_or, Nat.not_lt] at hframe
  exact ⟨rfl, hcopy, hvalid, rfl, rfl, hframe.1, hframe.2.1⟩

theorem SnapshotImage.sound_of_new {metadata : SnapshotMetadata} {application : StateMachine}
    (h : SnapshotImage.new sha format metadata application = some (.ok image)) :
    image.Sound sha format := by
  unfold SnapshotImage.new at h
  split at h
  · cases h
  split at h
  · cases h
  obtain ⟨exported, -, h⟩ := Option.bind_eq_some_iff.1 h
  dsimp only at h
  split at h
  · cases h
  · exact (SnapshotImage.decode_eq_ok (Option.some.inj h)).2

/-! ## Images of reachable states -/

@[simp] theorem length_frame (sha : Digest) (version : Nat) (body : List UInt8) :
    (frame sha version body).length = headerBytes + body.length := by
  have hmagic : (if version = 2 then magicV2 else magic).length = 8 := by split <;> rfl
  simp only [frame, List.length_append, hmagic, Bytes.length_be, sha.length, headerBytes]

/-- A frame is taken apart into what it was made of. -/
theorem frame_parts (sha : Digest) (version : Nat) (body : List UInt8) :
    (frame sha version body).take 8 = (if version = 2 then magicV2 else magic) ∧
      ((frame sha version body).drop 8).take 8 = be 8 body.length ∧
      ((frame sha version body).drop 16).take 32 = sha.run body ∧
      (frame sha version body).drop headerBytes = body := by
  have hmagic : (if version = 2 then magicV2 else magic).length = 8 := by split <;> rfl
  generalize hm : (if version = 2 then magicV2 else magic) = m at hmagic
  have hdigest : (sha.run body).length = 32 := sha.length body
  refine ⟨?_, ?_, ?_, List.drop_left' ?_⟩
  all_goals simp [frame, hm, headerBytes, List.take_append, List.drop_append, hmagic, hdigest]

/-- An image of a frame is decoded to the payload that was framed. -/
theorem SnapshotImage.decode_frame {payload : Payload} {application : StateMachine}
    (hread : format.RoundTrips payload)
    (hversion : payload.version = if payload.metadata.membership.isSome then 2 else 1)
    (hvalid : payload.metadata.validate = .ok ())
    (himport : importSnapshot sha payload.application payload.metadata.lastIncludedIndex =
      .ok application)
    (hsize : (format.write payload).length ≤ maxSnapshotBytes - headerBytes) :
    ∃ image, SnapshotImage.decode sha format
        (frame sha payload.version (format.write payload)) = .ok image ∧
      image.application = application ∧ image.descriptor.metadata = payload.metadata := by
  obtain ⟨hmagic, hlength, hdigest, hbody⟩ :=
    frame_parts sha payload.version (format.write payload)
  have hmax : headerBytes + (format.write payload).length ≤ maxSnapshotBytes := by
    have hle : headerBytes ≤ maxSnapshotBytes := by decide
    omega
  have hbe : ofBe (be 8 (format.write payload).length) = (format.write payload).length := by
    refine Bytes.ofBe_be (lt_of_le_of_lt (Nat.le_of_add_left_le hmax) ?_)
    decide
  have hmagics : magic ≠ magicV2 := by decide
  have hframe : ¬ (headerBytes + (format.write payload).length < headerBytes ∨
      headerBytes + (format.write payload).length > maxSnapshotBytes ∨
      ((frame sha payload.version (format.write payload)).take 8 ≠ magic ∧
        (frame sha payload.version (format.write payload)).take 8 ≠ magicV2)) := by
    rintro (h | h | ⟨h₁, h₂⟩)
    · omega
    · omega
    · rw [hmagic] at h₁ h₂
      split at h₁ <;> simp_all
  have hversions : ¬ ((payload.version ≠ 1 ∧ payload.version ≠ 2) ∨
      decide (payload.version = 2) ≠ payload.metadata.membership.isSome ∨
      decide (payload.version = 2) ≠
        decide ((frame sha payload.version (format.write payload)).take 8 = magicV2)) := by
    rw [hmagic, hversion]
    cases payload.metadata.membership.isSome <;> simp [hmagics]
  rw [SnapshotImage.decode, length_frame, if_neg hframe, hlength, hbe, hbody,
    if_neg (by omega), hdigest, if_neg (by simp), hread]
  simp only [if_neg hversions, hvalid, himport]
  exact ⟨_, rfl, rfl, rfl⟩

/-- **The image of a reachable state** exists when the library reads its payload back and the
text fits, and it is the frame of that text. -/
theorem SnapshotImage.new_reachable {metadata : SnapshotMetadata} {s : StateMachine}
    (hreach : StateMachine.Reachable sha StateMachine.Bounded s)
    (hvalid : metadata.validate = .ok ()) (hindex : metadata.lastIncludedIndex = s.lastApplied)
    {exported : ApplicationSnapshot} (hexport : s.exportSnapshot = some exported)
    (hread : format.RoundTrips (payloadOf metadata exported))
    (hsize : (format.write (payloadOf metadata exported)).length ≤
      maxSnapshotBytes - headerBytes) :
    ∃ image, SnapshotImage.new sha format metadata s = some (.ok image) ∧
      image.application = s ∧ image.descriptor.metadata = metadata ∧
      image.bytes.length = headerBytes + (format.write (payloadOf metadata exported)).length := by
  obtain ⟨snapshot, hsnapshot, himport⟩ := hreach.import_export
  obtain rfl : snapshot = exported := Option.some.inj (hsnapshot.symm.trans hexport)
  obtain ⟨image, hdecode, happlication, hmetadata⟩ :=
    SnapshotImage.decode_frame hread rfl hvalid (hindex ▸ himport) hsize
  refine ⟨image, ?_, happlication, hmetadata, ?_⟩
  · rw [SnapshotImage.new, hvalid]
    simp only [if_neg (not_not.2 hindex), hexport, Option.bind_eq_bind, Option.bind_some,
      if_neg (Nat.not_lt.2 hsize), hdecode]
    rfl
  · rw [(SnapshotImage.decode_eq_ok hdecode).1, length_frame]

theorem SnapshotImage.Sound.validate (h : image.Sound sha format) :
    image.descriptor.validate = .ok () := by
  have hmin : minSnapshotBytes ≤ image.descriptor.totalLen := h.total ▸ h.long
  have hmax : image.descriptor.totalLen ≤ maxSnapshotBytes := h.total ▸ h.short
  rw [SnapshotDescriptor.validate, h.valid, Store.ok_bind, if_pos ⟨hmin, hmax⟩]

end Images

end MicroRaft.Snapshot
