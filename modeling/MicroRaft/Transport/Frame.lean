import MicroRaft.Core.Message
import MicroRaft.Lib.Bytes
import MicroRaft.Lib.Incremental
import MicroRaft.Lib.Json
import MicroRaft.Store.Basic

/-!
# Frames on the wire

`transport.rs` sends every message as a frame: four bytes of payload length, the most
significant first, and the JSON of the sender and the message, with the group's scope in
front when the transport serves an explicit group.  TCP cuts the bytes anywhere; the
receiver collects them in a `FrameDecoder` and takes complete frames off its front.

The JSON library is a parameter (`WireFormat`), of which only the round trip of the frames
at hand is assumed.  The decoder is an `Incremental.Decoder` (`wire`), and so its
deliveries depend on the bytes alone.
-/

namespace MicroRaft.Transport

open Store (IoError rejected)

/-- `MAX_FRAME_BYTES`. -/
def maxFrameBytes : Nat := 8 * 1024 * 1024

/-! ## Scopes -/

/-- The group a transport serves. -/
structure TransportScope where
  groupId : String
  genesisVoters : List NodeId
  deriving DecidableEq, Repr

/-- `is_ascii_graphic` of a byte. -/
def isAsciiGraphic (b : UInt8) : Bool :=
  33 ≤ b && b ≤ 126

/-- `TransportScope::validate`. -/
def TransportScope.validate (scope : TransportScope) : Except IoError Unit :=
  if scope.groupId.isEmpty
      || decide (scope.groupId.utf8ByteSize > 128)
      || scope.groupId == "legacy-default"
      || !scope.groupId.toUTF8.toList.all isAsciiGraphic
      || scope.genesisVoters.isEmpty
      || (scope.genesisVoters.zip scope.genesisVoters.tail).any (fun pair => pair.1 ≥ pair.2) then
    .error (rejected "invalid explicit transport scope")
  else .ok ()

/-- What a frame of a scoped transport carries. -/
structure ScopedFrame where
  scope : TransportScope
  sender : NodeId
  msg : RaftMessage
  deriving DecidableEq

/-- The texts of the JSON library's own errors are left out. -/
inductive FrameError where
  | oversize (len : Nat)
  | json
  | scopeMismatch
  deriving DecidableEq, Repr

/-- `serde_json` for the two types that are sent. -/
structure WireFormat where
  pair : Json.Format (NodeId × RaftMessage)
  withScope : Json.Format ScopedFrame

/-! ## Encoding -/

/-- `encode_payload`. -/
def encodePayload (payload : List UInt8) : Except FrameError (List UInt8) :=
  if payload.length < 2 ^ 32 then
    if payload.length > maxFrameBytes then .error (.oversize payload.length)
    else .ok (Bytes.be 4 payload.length ++ payload)
  else .error (.oversize (2 ^ 32 - 1))

section Frames

variable (format : WireFormat)

/-- `encode_frame`. -/
def encodeFrame (sender : NodeId) (msg : RaftMessage) : Except FrameError (List UInt8) :=
  encodePayload (format.pair.write (sender, msg))

/-- `encode_scoped_frame`. -/
def encodeScopedFrame (sender : NodeId) (msg : RaftMessage) (scope : TransportScope) :
    Except FrameError (List UInt8) := do
  scope.validate.mapError fun _ => FrameError.scopeMismatch
  encodePayload (format.withScope.write ⟨scope, sender, msg⟩)

/-- The encoder of a transport: a scoped one where there is a scope. -/
def encode (scope : Option TransportScope) (frame : NodeId × RaftMessage) :
    Except FrameError (List UInt8) :=
  match scope with
  | none => encodeFrame format frame.1 frame.2
  | some scope => encodeScopedFrame format frame.1 frame.2 scope

/-! ## Decoding -/

structure FrameDecoder where
  buf : List UInt8
  scope : Option TransportScope
  deriving DecidableEq

/-- What a payload delivers to a decoder of a scope. -/
def readPayload (scope : Option TransportScope) (payload : List UInt8) :
    Except FrameError (NodeId × RaftMessage) :=
  match scope with
  | some expected =>
      match format.withScope.read payload with
      | none => .error .json
      | some frame =>
          if frame.scope ≠ expected then .error .scopeMismatch
          else .ok (frame.sender, frame.msg)
  | none =>
      match format.pair.read payload with
      | none => .error .json
      | some frame => .ok frame

/-- `next_frame`. -/
def FrameDecoder.nextFrame (decoder : FrameDecoder) :
    Except FrameError (Option (NodeId × RaftMessage)) × FrameDecoder :=
  if decoder.buf.length < 4 then (.ok none, decoder)
  else
    let len := Bytes.ofBe (decoder.buf.take 4)
    if len > maxFrameBytes then (.error (.oversize len), decoder)
    else
      let total := 4 + len
      if decoder.buf.length < total then (.ok none, decoder)
      else
        let payload := (decoder.buf.take total).drop 4
        let drained := { decoder with buf := decoder.buf.drop total }
        match readPayload format decoder.scope payload with
        | .error e => (.error e, drained)
        | .ok frame => (.ok (some frame), drained)

/-! ## The decoder as a step on its buffer -/

/-- The length that the first four bytes of a buffer announce. -/
def announced (buf : List UInt8) : Nat :=
  Bytes.ofBe (buf.take 4)

/-- A buffer that holds less than one frame. -/
def Incomplete (buf : List UInt8) : Prop :=
  buf.length < 4 ∨ announced buf ≤ maxFrameBytes ∧ buf.length < 4 + announced buf

/-- One call of `next_frame`, as the step of an incremental decoder. -/
def wireStep (scope : Option TransportScope) (buf : List UInt8) :
    Incremental.Step UInt8 (NodeId × RaftMessage) FrameError :=
  match FrameDecoder.nextFrame format ⟨buf, scope⟩ with
  | (.ok none, _) => .more
  | (.ok (some frame), decoder) => .item frame decoder.buf
  | (.error e, _) => .fail e

/-- What becomes of a complete frame in front of `rest`. -/
def delivery (result : Except FrameError (NodeId × RaftMessage)) (rest : List UInt8) :
    Incremental.Step UInt8 (NodeId × RaftMessage) FrameError :=
  match result with
  | .ok frame => .item frame rest
  | .error e => .fail e

variable {format} {scope : Option TransportScope}

theorem announced_append {buf : List UInt8} (h : 4 ≤ buf.length) (x : List UInt8) :
    announced (buf ++ x) = announced buf := by
  rw [announced, List.take_append_of_le_length h, announced]

theorem nextFrame_incomplete {buf : List UInt8} (h : Incomplete buf) :
    FrameDecoder.nextFrame format ⟨buf, scope⟩ = (.ok none, ⟨buf, scope⟩) := by
  unfold FrameDecoder.nextFrame
  rcases h with hshort | ⟨hfits, hpart⟩
  · rw [if_pos hshort]
  · have hfits' : ¬ Bytes.ofBe (buf.take 4) > maxFrameBytes := Nat.not_lt.2 hfits
    have hpart' : buf.length < 4 + Bytes.ofBe (buf.take 4) := hpart
    split
    · rfl
    · simp only [if_neg hfits', if_pos hpart']

theorem wireStep_incomplete {buf : List UInt8} (h : Incomplete buf) :
    wireStep format scope buf = .more := by
  rw [wireStep, nextFrame_incomplete h]

theorem wireStep_oversize {buf : List UInt8} (h : 4 ≤ buf.length)
    (hover : announced buf > maxFrameBytes) :
    wireStep format scope buf = .fail (.oversize (announced buf)) := by
  have hover' : Bytes.ofBe (buf.take 4) > maxFrameBytes := hover
  rw [wireStep, FrameDecoder.nextFrame, if_neg (Nat.not_lt.2 h)]
  simp only [if_pos hover', announced]

theorem wireStep_complete {buf : List UInt8} (h : 4 ≤ buf.length)
    (hfits : announced buf ≤ maxFrameBytes) (hall : 4 + announced buf ≤ buf.length) :
    wireStep format scope buf =
      delivery (readPayload format scope ((buf.take (4 + announced buf)).drop 4))
        (buf.drop (4 + announced buf)) := by
  have hfits' : ¬ Bytes.ofBe (buf.take 4) > maxFrameBytes := Nat.not_lt.2 hfits
  have hall' : ¬ buf.length < 4 + Bytes.ofBe (buf.take 4) := Nat.not_lt.2 hall
  rw [wireStep, FrameDecoder.nextFrame, if_neg (Nat.not_lt.2 h)]
  simp only [if_neg hfits', if_neg hall', announced]
  cases readPayload format scope ((buf.take (4 + Bytes.ofBe (buf.take 4))).drop 4) <;> rfl

/-- What a buffer is to the decoder: less than a frame, an oversized length, or a frame. -/
theorem buffer_cases (buf : List UInt8) :
    Incomplete buf ∨
    (4 ≤ buf.length ∧ announced buf > maxFrameBytes) ∨
    (4 ≤ buf.length ∧ announced buf ≤ maxFrameBytes ∧ 4 + announced buf ≤ buf.length) := by
  unfold Incomplete
  omega

/-- The decoder of `conn_task`, which is called again after every piece that is read. -/
def wire (format : WireFormat) (scope : Option TransportScope) :
    Incremental.Decoder UInt8 (NodeId × RaftMessage) FrameError where
  next := wireStep format scope
  consumes := by
    intro buf frame rest h
    rcases buffer_cases buf with hpart | ⟨hlong, hover⟩ | ⟨hlong, hfits, hall⟩
    · rw [wireStep_incomplete hpart] at h
      cases h
    · rw [wireStep_oversize hlong hover] at h
      cases h
    · rw [wireStep_complete hlong hfits hall] at h
      unfold delivery at h
      split at h
      · cases h
        rw [List.length_drop]
        omega
      · cases h
  next_append := by
    intro buf x h
    have hlonger : buf.length ≤ (buf ++ x).length := by
      rw [List.length_append]
      exact Nat.le_add_right _ _
    rcases buffer_cases buf with hpart | ⟨hlong, hover⟩ | ⟨hlong, hfits, hall⟩
    · exact absurd (wireStep_incomplete hpart) h
    · have hsame := announced_append hlong x
      rw [wireStep_oversize hlong hover, wireStep_oversize (hlong.trans hlonger) (hsame ▸ hover),
        hsame]
      rfl
    · have hsame := announced_append hlong x
      rw [wireStep_complete hlong hfits hall, wireStep_complete (hlong.trans hlonger)
        (hsame ▸ hfits) (hsame ▸ hall.trans hlonger), hsame,
        List.take_append_of_le_length hall, List.drop_append_of_le_length hall]
      cases readPayload format scope ((buf.take (4 + announced buf)).drop 4) <;> rfl

/-- `conn_task` on the pieces it reads from its socket: the frames it hands on, and the
bytes it still holds or the error at which it drops the connection. -/
def connTask (format : WireFormat) (scope : Option TransportScope) (chunks : List (List UInt8)) :
    Incremental.Outcome UInt8 (NodeId × RaftMessage) FrameError :=
  (wire format scope).run [] chunks

/-! ## Payloads are read back -/

/-- The payload of a frame. -/
def payloadOf (format : WireFormat) (scope : Option TransportScope)
    (frame : NodeId × RaftMessage) : List UInt8 :=
  match scope with
  | none => format.pair.write frame
  | some scope => format.withScope.write ⟨scope, frame.1, frame.2⟩

/-- The library reads a frame of a transport back. -/
def WireFormat.RoundTrips (format : WireFormat) (scope : Option TransportScope)
    (frame : NodeId × RaftMessage) : Prop :=
  match scope with
  | none => format.pair.RoundTrips frame
  | some scope => format.withScope.RoundTrips ⟨scope, frame.1, frame.2⟩

/-- A pair, which is written as an array of two, is not read as a scoped frame, nor a scoped frame,
which is written as an object, as a pair. -/
structure WireFormat.Apart (format : WireFormat) : Prop where
  pair : ∀ frame, format.withScope.read (format.pair.write frame) = none
  withScope : ∀ frame, format.pair.read (format.withScope.write frame) = none

/-- A decoder of the same scope reads the frame. -/
theorem readPayload_payloadOf {frame : NodeId × RaftMessage} (h : format.RoundTrips scope frame) :
    readPayload format scope (payloadOf format scope frame) = .ok frame := by
  cases scope with
  | none =>
    have hread : format.pair.read (format.pair.write frame) = some frame := h
    simp only [readPayload, payloadOf, hread]
  | some scope =>
    have hread : format.withScope.read (format.withScope.write ⟨scope, frame.1, frame.2⟩) =
      some ⟨scope, frame.1, frame.2⟩ := h
    simp [readPayload, payloadOf, hread]

/-! ## Streams of frames -/

/-- The bytes of a payload's frame. -/
def framed (payload : List UInt8) : List UInt8 :=
  Bytes.be 4 payload.length ++ payload

/-- Bytes at which a decoder stops with an error: a length above the limit, or a frame whose
payload is not the JSON of a frame of its kind, or is that of a frame of another scope. -/
inductive Rejected (format : WireFormat) :
    Option TransportScope → List UInt8 → FrameError → Prop where
  | oversize {scope : Option TransportScope} {len : Nat} (hlen : len < 2 ^ 32)
      (hover : maxFrameBytes < len) : Rejected format scope (Bytes.be 4 len) (.oversize len)
  | malformed {payload : List UInt8} (hsize : payload.length ≤ maxFrameBytes)
      (hread : format.pair.read payload = none) : Rejected format none (framed payload) .json
  | malformedScoped {expected : TransportScope} {payload : List UInt8}
      (hsize : payload.length ≤ maxFrameBytes) (hread : format.withScope.read payload = none) :
      Rejected format (some expected) (framed payload) .json
  | foreign {expected : TransportScope} {payload : List UInt8} {frame : ScopedFrame}
      (hsize : payload.length ≤ maxFrameBytes) (hread : format.withScope.read payload = some frame)
      (hscope : frame.scope ≠ expected) :
      Rejected format (some expected) (framed payload) .scopeMismatch

/-- They are an oversized length, or a whole frame whose payload is refused. -/
theorem Rejected.cases {bad : List UInt8} {e : FrameError} (h : Rejected format scope bad e) :
    (∃ len, len < 2 ^ 32 ∧ maxFrameBytes < len ∧ bad = Bytes.be 4 len ∧ e = .oversize len) ∨
    ∃ payload, payload.length ≤ maxFrameBytes ∧ bad = framed payload ∧
      readPayload format scope payload = .error e := by
  cases h with
  | oversize hlen hover => exact .inl ⟨_, hlen, hover, rfl, rfl⟩
  | malformed hsize hread => exact .inr ⟨_, hsize, rfl, by simp only [readPayload, hread]⟩
  | malformedScoped hsize hread => exact .inr ⟨_, hsize, rfl, by simp only [readPayload, hread]⟩
  | foreign hsize hread hscope =>
    exact .inr ⟨_, hsize, rfl, by simp only [readPayload, hread, if_pos hscope]⟩

theorem announced_be {len : Nat} (h : len < 2 ^ 32) (rest : List UInt8) :
    announced (Bytes.be 4 len ++ rest) = len := by
  rw [announced, List.take_append_of_le_length (Bytes.length_be 4 len).ge,
    List.take_of_length_le (Bytes.length_be 4 len).le, Bytes.ofBe_be h]

theorem lt_of_le_maxFrameBytes {len : Nat} (h : len ≤ maxFrameBytes) : len < 2 ^ 32 :=
  lt_of_le_of_lt h (by decide)

/-- A whole frame in front of other bytes is delivered or refused by its payload. -/
theorem wireStep_framed {payload : List UInt8} (h : payload.length ≤ maxFrameBytes)
    (rest : List UInt8) :
    wireStep format scope (framed payload ++ rest) =
      delivery (readPayload format scope payload) rest := by
  have hannounced : announced (framed payload ++ rest) = payload.length := by
    rw [framed, List.append_assoc]
    exact announced_be (lt_of_le_maxFrameBytes h) _
  have hlength : (framed payload).length = 4 + payload.length := by
    rw [framed, List.length_append, Bytes.length_be]
  have hlong : 4 + payload.length ≤ (framed payload ++ rest).length := by
    rw [List.length_append, hlength]
    exact Nat.le_add_right _ _
  rw [wireStep_complete (by omega) (hannounced ▸ h) (hannounced ▸ hlong), hannounced, ← hlength,
    List.take_left, List.drop_left, framed, List.drop_left' (Bytes.length_be 4 _)]

/-- A proper part of a frame, from its front, is incomplete. -/
theorem incomplete_of_framed {payload part : List UInt8} (h : payload.length ≤ maxFrameBytes)
    (hpart : part <+: framed payload) (hne : part ≠ framed payload) : Incomplete part := by
  obtain ⟨rest, hrest⟩ := hpart
  by_cases hshort : part.length < 4
  · exact .inl hshort
  · have hannounced : announced part = payload.length := by
      rw [← announced_append (Nat.not_lt.1 hshort) rest, hrest, framed]
      exact announced_be (lt_of_le_maxFrameBytes h) _
    have hlength : part.length + rest.length = 4 + payload.length := by
      rw [← List.length_append, hrest, framed, List.length_append, Bytes.length_be]
    have hrest' : 0 < rest.length := by
      refine List.length_pos_iff.2 fun hnil => hne ?_
      rw [← hrest, hnil, List.append_nil]
    exact .inr ⟨hannounced ▸ h, by omega⟩

theorem encode_eq_ok {frame : NodeId × RaftMessage} {bytes : List UInt8}
    (h : encode format scope frame = .ok bytes) :
    (payloadOf format scope frame).length ≤ maxFrameBytes ∧
      bytes = framed (payloadOf format scope frame) := by
  have hpayload : ∀ payload : List UInt8, encodePayload payload = .ok bytes →
      payload.length ≤ maxFrameBytes ∧ bytes = framed payload := by
    intro payload hok
    unfold encodePayload at hok
    split at hok
    · split at hok
      · cases hok
      · rename_i hfits
        cases hok
        exact ⟨Nat.not_lt.1 hfits, rfl⟩
    · cases hok
  cases scope with
  | none => exact hpayload _ h
  | some scope =>
    rw [encode, encodeScopedFrame] at h
    cases hvalid : scope.validate with
    | error e =>
      rw [hvalid] at h
      cases h
    | ok u =>
      rw [hvalid, Except.mapError, Store.ok_bind] at h
      exact hpayload _ h

/-- Frames in front of other bytes are delivered first. -/
theorem drain_frames {frames : List (NodeId × RaftMessage)} {encoded : List (List UInt8)}
    (hencoded : List.Forall₂ (fun frame bytes => encode format scope frame = .ok bytes)
      frames encoded)
    (hread : ∀ frame ∈ frames, format.RoundTrips scope frame) (tail : List UInt8) :
    (wire format scope).drain (encoded.flatten ++ tail) =
      ((wire format scope).drain tail).after frames := by
  induction hencoded with
  | nil => rfl
  | @cons frame bytes frames encoded hframe _ ih =>
    obtain ⟨hsize, rfl⟩ := encode_eq_ok hframe
    have hframe := readPayload_payloadOf (hread frame List.mem_cons_self)
    have hstep : wireStep format scope (framed (payloadOf format scope frame) ++
        (encoded.flatten ++ tail)) = .item frame (encoded.flatten ++ tail) := by
      rw [wireStep_framed hsize, hframe]
      rfl
    rw [List.flatten_cons, List.append_assoc, Incremental.Decoder.drain_item _ hstep,
      ih fun f hf => hread f (List.mem_cons_of_mem _ hf), Incremental.Outcome.after_after]
    rfl

theorem Rejected.wireStep {bad : List UInt8} {e : FrameError}
    (h : Rejected format scope bad e) (rest : List UInt8) :
    wireStep format scope (bad ++ rest) = .fail e := by
  rcases h.cases with ⟨len, hlen, hover, rfl, rfl⟩ | ⟨payload, hsize, rfl, hread⟩
  · have hannounced := announced_be hlen rest
    have hover' : announced (Bytes.be 4 len ++ rest) > maxFrameBytes := by
      rw [hannounced]
      exact hover
    rw [wireStep_oversize (by simp) hover', hannounced]
  · rw [wireStep_framed hsize, hread]
    rfl

theorem Rejected.incomplete {bad part : List UInt8} {e : FrameError}
    (h : Rejected format scope bad e) (hpart : part <+: bad) (hne : part ≠ bad) :
    Incomplete part := by
  rcases h.cases with ⟨len, hlen, hover, rfl, rfl⟩ | ⟨payload, hsize, rfl, -⟩
  · have hlength : part.length ≠ (Bytes.be 4 len).length :=
      fun heq => hne (hpart.eq_of_length heq)
    have hle := hpart.length_le
    rw [Bytes.length_be] at hlength hle
    exact .inl (by omega)
  · exact incomplete_of_framed hsize hpart hne

/-- A frame of a transport with another scope is refused. -/
theorem rejected_foreign {other : Option TransportScope} {frame : NodeId × RaftMessage}
    {bytes : List UInt8} (hne : other ≠ scope) (hread : format.RoundTrips other frame)
    (hframe : encode format other frame = .ok bytes)
    (hapart : other.isSome = scope.isSome ∨ format.Apart) : ∃ e, Rejected format scope bytes e := by
  obtain ⟨hsize, rfl⟩ := encode_eq_ok hframe
  cases other with
  | none =>
    cases scope with
    | none => exact absurd rfl hne
    | some expected =>
      rcases hapart with hsame | hapart
      · cases hsame
      · exact ⟨_, .malformedScoped hsize (hapart.pair frame)⟩
  | some other =>
    cases scope with
    | none =>
      rcases hapart with hsame | hapart
      · cases hsame
      · exact ⟨_, .malformed hsize (hapart.withScope _)⟩
    | some expected =>
      exact ⟨_, .foreign hsize hread fun heq => hne (congrArg some heq)⟩

/-- **Frame decoding is independent of chunking.**  Let frames be encoded by a transport
with one scope, or with none.  However their bytes are cut, a decoder of the same scope
delivers exactly these frames in order and waits while what follows is less than a frame.
At an oversized length, a malformed payload or a frame of another scope it stops with an
error, delivering nothing of it, as soon as the bytes at fault are there: any proper part
of them is still incomplete. -/
theorem frames_independent_of_chunks (format : WireFormat) (scope : Option TransportScope)
    (frames : List (NodeId × RaftMessage)) (encoded : List (List UInt8))
    (hencoded : List.Forall₂ (fun frame bytes => encode format scope frame = .ok bytes)
      frames encoded)
    (hread : ∀ frame ∈ frames, format.RoundTrips scope frame) :
    (∀ chunks tail, chunks.flatten = encoded.flatten ++ tail → Incomplete tail →
      connTask format scope chunks = ⟨frames, .ok tail⟩ ∧
      FrameDecoder.nextFrame format ⟨tail, scope⟩ = (.ok none, ⟨tail, scope⟩)) ∧
    (∀ chunks bad rest e, chunks.flatten = encoded.flatten ++ (bad ++ rest) →
      Rejected format scope bad e → connTask format scope chunks = ⟨frames, .error e⟩) ∧
    (∀ bad e part, Rejected format scope bad e → part <+: bad → part ≠ bad → Incomplete part) ∧
    (∀ frame bytes part, encode format scope frame = .ok bytes → part <+: bytes →
      part ≠ bytes → Incomplete part) ∧
    (∀ other frame bytes, other ≠ scope → format.RoundTrips other frame →
      encode format other frame = .ok bytes →
      other.isSome = scope.isSome ∨ format.Apart → ∃ e, Rejected format scope bytes e) := by
  have hempty : wireStep format scope [] = .more := wireStep_incomplete (.inl (by decide))
  have hrun : ∀ (chunks : List (List UInt8)) (tail : List UInt8),
      chunks.flatten = encoded.flatten ++ tail →
      connTask format scope chunks = ((wire format scope).drain tail).after frames := by
    intro chunks tail hbytes
    rw [connTask, Incremental.Decoder.run_eq_drain _ hempty, List.nil_append, hbytes,
      drain_frames hencoded hread]
  refine ⟨?_, ?_, ?_, ?_, ?_⟩
  · intro chunks tail hbytes htail
    refine ⟨?_, nextFrame_incomplete htail⟩
    rw [hrun chunks tail hbytes, Incremental.Decoder.drain_more _ (wireStep_incomplete htail),
      Incremental.Outcome.after, List.append_nil]
  · intro chunks bad rest e hbytes hbad
    rw [hrun chunks _ hbytes, Incremental.Decoder.drain_fail _ (hbad.wireStep rest),
      Incremental.Outcome.after, List.append_nil]
  · intro bad e part hbad hpart hne
    exact hbad.incomplete hpart hne
  · intro frame bytes part hframe hpart hne
    obtain ⟨hsize, rfl⟩ := encode_eq_ok hframe
    exact incomplete_of_framed hsize hpart hne
  · intro other frame bytes hne hother hframe hapart
    exact rejected_foreign hne hother hframe hapart

end Frames

/-- The JSON of a probe and of its reply. -/
def probeText : RaftMessage → List UInt8
  | .readProbe term leaderId context => Json.object [("ReadProbe", Json.object
      [("term", Json.write term), ("leader_id", Json.write leaderId),
        ("context", Json.write context)])]
  | .readProbeReply term context accepted => Json.object [("ReadProbeReply", Json.object
      [("term", Json.write term), ("context", Json.write context),
        ("accepted", Json.write accepted)])]
  | _ => []

def probeScope : TransportScope := ⟨"group", [1, 2]⟩

def probeFrames : List (NodeId × RaftMessage) :=
  [(1, .readProbe 5 1 0), (2, .readProbeReply 5 0 true)]

/-- What the library writes for them; it reads nothing else here. -/
def probeFormat : WireFormat :=
  let pairText := fun frame : NodeId × RaftMessage =>
    Json.array [Json.write frame.1, probeText frame.2]
  let scopedText := fun frame : ScopedFrame =>
    Json.object [("scope", Json.object [("group_id", Json.write frame.scope.groupId),
      ("genesis_voters", Json.write frame.scope.genesisVoters)]),
      ("from", Json.write frame.sender), ("msg", probeText frame.msg)]
  { pair := ⟨pairText, Json.recognize pairText probeFrames⟩
    withScope := ⟨scopedText, Json.recognize scopedText
      (probeFrames.map fun frame => ⟨probeScope, frame.1, frame.2⟩)⟩ }

/-- The bytes of `probeFrames`. -/
def probeBytes : List (List UInt8) :=
  probeFrames.map fun frame => framed (payloadOf probeFormat (some probeScope) frame)

example : probeFormat.pair.write (1, .readProbe 5 1 0) =
    Json.ascii "[1,\x7b\"ReadProbe\":\x7b\"term\":5,\"leader_id\":1,\"context\":0\x7d\x7d]" := by
  decide +kernel

/-- Two frames that arrive byte by byte, with the first three bytes of a third. -/
theorem frames_independent_of_chunks_probe :
    connTask probeFormat (some probeScope) ((probeBytes.flatten ++ [0, 0, 0]).map fun b => [b]) =
      ⟨probeFrames, .ok [0, 0, 0]⟩ := by
  have hencoded : List.Forall₂
      (fun frame bytes => encode probeFormat (some probeScope) frame = .ok bytes)
      probeFrames probeBytes :=
    .cons (by decide +kernel) (.cons (by decide +kernel) .nil)
  have hread : ∀ frame ∈ probeFrames, probeFormat.RoundTrips (some probeScope) frame := by
    have hall : ∀ frame ∈ probeFrames, probeFormat.withScope.read
        (probeFormat.withScope.write ⟨probeScope, frame.1, frame.2⟩) =
          some ⟨probeScope, frame.1, frame.2⟩ := by decide +kernel
    exact hall
  have hmain := frames_independent_of_chunks probeFormat (some probeScope) probeFrames probeBytes
    hencoded hread
  have hbytes : ∀ l : List UInt8, (l.map fun b => [b]).flatten = l := by
    intro l
    induction l with
    | nil => rfl
    | cons b l ih => rw [List.map_cons, List.flatten_cons, ih, List.singleton_append]
  have htail := hmain.1 ((probeBytes.flatten ++ [0, 0, 0]).map fun b => [b]) [0, 0, 0]
    (hbytes (probeBytes.flatten ++ [0, 0, 0])) (.inl (by decide))
  exact htail.1

end MicroRaft.Transport
