import MicroRaft.Core.Message
import MicroRaft.Lib.Json
import MicroRaft.Store.Codec

/-!
# The replicated application

The state machine of `kv-node/src/application.rs`: a table of values, and for every
session what its clients may retry.  An entry is consumed in the order of the log,
whether it is accepted or not; a rejected one changes nothing but the applied index.

`none` stands for a panic of the source: an index into a map without the key, or a
subtraction that would go below zero.  The digest function is a parameter.
-/

namespace MicroRaft.Application

open Store (Digest)
open Bytes (be ofBe)

def maxSessions : Nat := 1024

def maxKeysPerSession : Nat := 256

def maxSessionKeys : Nat := 8192

def maxRetainedPayloadBytes : Nat := 16 * 1024 * 1024

def maxNonceBytes : Nat := 128

def maxKeyBytes : Nat := 1024

def maxValueBytes : Nat := 64 * 1024

/-! ## Results -/

inductive SessionError
  | invalidNonce
  | invalidKey
  | valueTooLarge
  | invalidSequence
  | unknownSession
  | sessionClosed
  | sessionCapacity
  | keyCapacity
  | payloadCapacity
  | payloadMismatch
  | staleSequence
  | sequenceGap
  | sequenceExhausted
  deriving DecidableEq, Repr

structure SessionResult where
  ok : Bool
  sessionId : Option Nat
  sequence : Option Nat
  index : Option Nat
  error : Option SessionError
  expectedSequence : Option Nat
  deriving DecidableEq, Repr

namespace SessionResult

def success (sessionId : Nat) (sequence : Option Nat) (index : Nat) : SessionResult where
  ok := true
  sessionId := some sessionId
  sequence := sequence
  index := some index
  error := none
  expectedSequence := none

def rejected (error : SessionError) (expectedSequence : Option Nat) : SessionResult where
  ok := false
  sessionId := none
  sequence := none
  index := none
  error := some error
  expectedSequence := expectedSequence

end SessionResult

inductive ApplyOutcome
  | applied (index : Nat)
  | session (result : SessionResult)
  deriving DecidableEq, Repr

structure ApplyError where
  previous : Nat
  received : Nat
  deriving DecidableEq, Repr

/-! ## The state -/

/-- The latest mutation of a key in a session. -/
structure KeyRecord where
  sequence : Nat
  digest : List UInt8
  payload : List UInt8
  result : SessionResult
  deriving DecidableEq, Repr

structure Session where
  registered : SessionResult
  closed : Option SessionResult
  keys : BTreeMap String KeyRecord

structure StateMachine where
  values : BTreeMap String String
  registrations : BTreeMap String Nat
  sessions : BTreeMap Nat Session
  lastApplied : Nat
  retainedKeys : Nat
  retainedPayloadBytes : Nat

/-- `StateMachine::default`. -/
def StateMachine.initial : StateMachine where
  values := ∅
  registrations := ∅
  sessions := ∅
  lastApplied := 0
  retainedKeys := 0
  retainedPayloadBytes := 0

/-! ## Payloads -/

/-- `str::as_bytes`. -/
def utf8 (s : String) : List UInt8 := s.toUTF8.data.toList

def payloadMagic : List UInt8 := Json.ascii "micro-raft/session-payload/v1"

/-- A length of 64 bits, most significant byte first, and the bytes. -/
def lengthPrefixed (s : String) : List UInt8 := be 8 s.utf8ByteSize ++ utf8 s

def canonicalPayload (key : String) (value : Option String) : List UInt8 :=
  payloadMagic ++ [if value.isSome then 1 else 0] ++ lengthPrefixed key ++
    value.elim [] lengthPrefixed

structure SnapshotError where
  message : String
  deriving DecidableEq, Repr

def snapshotRequire (condition : Prop) [Decidable condition] (message : String) :
    Except SnapshotError Unit :=
  if condition then .ok () else .error ⟨message⟩

/-- One field of a payload, and what follows it. -/
def field (maximum : Nat) (tail : List UInt8) :
    Except SnapshotError (List UInt8 × List UInt8) :=
  if tail.length < 8 then .error ⟨"malformed canonical retry payload length"⟩
  else if ofBe (tail.take 8) > maximum then .error ⟨"malformed canonical retry payload length"⟩
  else if (tail.drop 8).length < ofBe (tail.take 8) then
    .error ⟨"malformed canonical retry payload length"⟩
  else .ok ((tail.drop 8).take (ofBe (tail.take 8)), (tail.drop 8).drop (ofBe (tail.take 8)))

/-- `str::from_utf8`. -/
def fromUtf8 (bytes : List UInt8) : Option String := String.fromUTF8? ⟨⟨bytes⟩⟩

/-- The value of a payload behind its key. -/
def decodeValue (tag : UInt8) (tail : List UInt8) :
    Except SnapshotError (Option String × List UInt8) :=
  if tag = 0 then .ok (none, tail)
  else if tag = 1 then do
    let (bytes, tail) ← field maxValueBytes tail
    match fromUtf8 bytes with
    | some value => .ok (some value, tail)
    | none => .error ⟨"malformed canonical retry payload"⟩
  else .error ⟨"malformed canonical retry payload"⟩

def decodePayload (key : String) (payload : List UInt8) : Except SnapshotError (Option String) :=
  if payload.take payloadMagic.length ≠ payloadMagic then
    .error ⟨"malformed canonical retry payload"⟩
  else
    match payload.drop payloadMagic.length with
    | [] => .error ⟨"malformed canonical retry payload"⟩
    | tag :: tail => do
        let (bytes, tail) ← field maxKeyBytes tail
        snapshotRequire (bytes = utf8 key) "snapshot retry payload key mismatch"
        let (value, tail) ← decodeValue tag tail
        snapshotRequire (tail = []) "snapshot retry payload has trailing bytes"
        return value

/-! ## Applying entries -/

/-- A nonce that may name a session. -/
def validNonce (nonce : String) : Bool :=
  !(nonce.isEmpty || nonce.utf8ByteSize > maxNonceBytes || nonce.toList.any isControl)

/-- A key that may be mutated in a session. -/
def validKey (key : String) : Bool := !(key.isEmpty || key.utf8ByteSize > maxKeyBytes)

namespace StateMachine

def register (s : StateMachine) (nonce : String) (index : Nat) :
    Option (SessionResult × StateMachine) :=
  if ¬ validNonce nonce then some (.rejected .invalidNonce none, s)
  else
    match s.registrations[nonce]? with
    | some id =>
        match s.sessions[id]? with
        | some session => some (session.registered, s)
        -- `self.sessions[id]`
        | none => none
    | none =>
        if s.sessions.size = maxSessions then some (.rejected .sessionCapacity none, s)
        else
          some (.success index none index, { s with
            registrations := s.registrations.insert nonce index
            sessions := s.sessions.insert index ⟨.success index none index, none, ∅⟩ })

def close (s : StateMachine) (id index : Nat) : SessionResult × StateMachine :=
  match s.sessions[id]? with
  | none => (.rejected .unknownSession none, s)
  | some session =>
      match session.closed with
      | some result => (result, s)
      | none =>
          (.success id none index, { s with
            sessions := s.sessions.insert id
              { session with closed := some (.success id none index) } })

end StateMachine

/-- The sequence number that a key expects next, or the answer to a number that is not new. -/
def expectedSequence (sequence : Nat) (digest payload : List UInt8) :
    Option KeyRecord → Except SessionResult Nat
  | none => .ok 1
  | some previous =>
      if sequence = previous.sequence then
        .error (if digest = previous.digest ∧ payload = previous.payload then previous.result
          else .rejected .payloadMismatch none)
      else if sequence < previous.sequence then .error (.rejected .staleSequence none)
      else
        match checkedAdd previous.sequence 1 with
        | none => .error (.rejected .sequenceExhausted none)
        | some next => .ok next

/-- The values after a put or a delete. -/
def writeValue (values : BTreeMap String String) (key : String) :
    Option String → BTreeMap String String
  | some value => values.insert key value
  | none => values.erase key

namespace StateMachine

/-- The bytes that the earlier mutation of a key retains. -/
def previousBytes (session : Session) (key : String) : Nat :=
  (session.keys[key]?).elim 0 fun previous => previous.payload.length

/-- The state behind an accepted mutation: the record of the key is replaced. -/
def mutated (s : StateMachine) (id : Nat) (session : Session) (key : String) (value : Option String)
    (record : KeyRecord) : StateMachine :=
  { s with
    retainedKeys := if session.keys[key]? = none then s.retainedKeys + 1 else s.retainedKeys
    retainedPayloadBytes :=
      s.retainedPayloadBytes - previousBytes session key + record.payload.length
    sessions := s.sessions.insert id { session with keys := session.keys.insert key record }
    values := writeValue s.values key value }

/-- The end of `mutate`: the mutation is accepted, unless too much would be retained. -/
def retain (s : StateMachine) (id : Nat) (session : Session) (key : String) (value : Option String)
    (record : KeyRecord) : Option (SessionResult × StateMachine) :=
  -- `self.retained_payload_bytes - previous_bytes`
  if s.retainedPayloadBytes < previousBytes session key then none
  else if s.retainedPayloadBytes - previousBytes session key + record.payload.length >
      maxRetainedPayloadBytes then
    some (.rejected .payloadCapacity none, s)
  else some (record.result, s.mutated id session key value record)

def mutate (sha : Digest) (s : StateMachine) (id : Nat) (key : String) (sequence : Nat)
    (value : Option String) (index : Nat) : Option (SessionResult × StateMachine) :=
  if ¬ validKey key then some (.rejected .invalidKey none, s)
  else if ∃ v ∈ value, v.utf8ByteSize > maxValueBytes then
    some (.rejected .valueTooLarge none, s)
  else
    match s.sessions[id]? with
    | none => some (.rejected .unknownSession none, s)
    | some session =>
        if session.closed.isSome then some (.rejected .sessionClosed none, s)
        else if sequence = 0 then
          if ∃ record ∈ session.keys[key]?, record.sequence = u64Max then
            some (.rejected .sequenceExhausted none, s)
          else some (.rejected .invalidSequence (some 1), s)
        else
          let payload := canonicalPayload key value
          let digest := sha.run payload
          match expectedSequence sequence digest payload session.keys[key]? with
          | .error result => some (result, s)
          | .ok expected =>
              if sequence ≠ expected then some (.rejected .sequenceGap (some expected), s)
              else if session.keys[key]? = none ∧ (session.keys.size = maxKeysPerSession ∨
                  s.retainedKeys = maxSessionKeys) then
                some (.rejected .keyCapacity none, s)
              else
                s.retain id session key value
                  ⟨sequence, digest, payload, .success id (some sequence) index⟩

/-- What an entry does, apart from the applied index. -/
def applyCommand (sha : Digest) (s : StateMachine) (index : Nat) :
    Command → Option (ApplyOutcome × StateMachine)
  | .put key value => some (.applied index, { s with values := s.values.insert key value })
  | .delete key => some (.applied index, { s with values := s.values.erase key })
  | .noOp => some (.applied index, s)
  | .configuration _ => some (.applied index, s)
  | .registerSession nonce => (s.register nonce index).map fun (r, s') => (.session r, s')
  | .closeSession sessionId =>
      some (.session (s.close sessionId index).1, (s.close sessionId index).2)
  | .sessionPut sessionId key sequence value =>
      (s.mutate sha sessionId key sequence (some value) index).map fun (r, s') => (.session r, s')
  | .sessionDelete sessionId key sequence =>
      (s.mutate sha sessionId key sequence none index).map fun (r, s') => (.session r, s')

def apply (sha : Digest) (s : StateMachine) (entry : Entry) :
    Option (Except ApplyError (ApplyOutcome × StateMachine)) :=
  if checkedAdd s.lastApplied 1 ≠ some entry.index then
    some (.error ⟨s.lastApplied, entry.index⟩)
  else
    (s.applyCommand sha entry.index entry.command).map fun (outcome, s') =>
      .ok (outcome, { s' with lastApplied := entry.index })

end StateMachine

end MicroRaft.Application
