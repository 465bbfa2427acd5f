import MicroRaft.Application.Snapshot
import MicroRaft.Store.Logical

/-!
# The cells of an application state

`applied_store` keeps the application in the engine as one cell for each logical item:
the metadata, the values, the nonces, the headers of the sessions and the records of
their keys.  `full_cells` writes all of them, `entry_cells` those that an entry can have
changed, and `decode_cells` reads them back.  The texts are those of `Lib/Json`; what the
JSON library reads is a parameter (`CellReader`).
-/

namespace MicroRaft.Application

open Store (Digest Mutation IoError invalid Key Value)
open Bytes (be ofBe)

variable {sha : Digest} {s s' : StateMachine} {id index term : Nat} {key nonce : String}

/-! ## Formats -/

structure ApplicationIdentity where
  group : String
  genesisVoters : List Nat
  deriving DecidableEq, Repr

structure Metadata where
  version : Nat
  identity : ApplicationIdentity
  appliedIndex : Nat
  appliedTerm : Nat
  retainedKeys : Nat
  retainedPayloadBytes : Nat
  deriving DecidableEq, Repr

structure SessionHeader where
  registered : SessionResult
  closed : Option SessionResult
  deriving DecidableEq, Repr

/-- The names of `SessionError` in texts. -/
def SessionError.name : SessionError → String
  | .invalidNonce => "invalid_nonce"
  | .invalidKey => "invalid_key"
  | .valueTooLarge => "value_too_large"
  | .invalidSequence => "invalid_sequence"
  | .unknownSession => "unknown_session"
  | .sessionClosed => "session_closed"
  | .sessionCapacity => "session_capacity"
  | .keyCapacity => "key_capacity"
  | .payloadCapacity => "payload_capacity"
  | .payloadMismatch => "payload_mismatch"
  | .staleSequence => "stale_sequence"
  | .sequenceGap => "sequence_gap"
  | .sequenceExhausted => "sequence_exhausted"

instance : Json.Serialize SessionError := ⟨fun e => Json.text e.name⟩

instance : Json.Serialize SessionResult :=
  ⟨fun r => Json.object (("ok", Json.write r.ok) :: (Json.optional "session_id" r.sessionId ++
    Json.optional "sequence" r.sequence ++ Json.optional "index" r.index ++
    Json.optional "error" r.error ++ Json.optional "expected_sequence" r.expectedSequence))⟩

instance : Json.Serialize ApplicationIdentity :=
  ⟨fun i => Json.object [("group", Json.write i.group),
    ("genesis_voters", Json.write i.genesisVoters)]⟩

instance : Json.Serialize Metadata :=
  ⟨fun m => Json.object [("version", Json.write m.version), ("identity", Json.write m.identity),
    ("applied_index", Json.write m.appliedIndex), ("applied_term", Json.write m.appliedTerm),
    ("retained_keys", Json.write m.retainedKeys),
    ("retained_payload_bytes", Json.write m.retainedPayloadBytes)]⟩

instance : Json.Serialize SessionHeader :=
  ⟨fun h => Json.object [("registered", Json.write h.registered), ("closed", Json.write h.closed)]⟩

instance : Json.Serialize SessionKeySnapshot :=
  ⟨fun r => Json.object [("key", Json.write r.key), ("sequence", Json.write r.sequence),
    ("digest", Json.write r.digest), ("payload", Json.write r.payload),
    ("result", Json.write r.result)]⟩

/-! ## Readers -/

/-- `serde_json::from_slice` for the types of the cells. -/
structure CellReader where
  metadata : List UInt8 → Option Metadata
  header : List UInt8 → Option SessionHeader
  record : List UInt8 → Option SessionKeySnapshot

/-- `parse`: the errors of the JSON library have one message here. -/
def parse {α : Type} (read : List UInt8 → Option α) (bytes : List UInt8) : Except IoError α :=
  match read bytes with
  | some a => .ok a
  | none => .error (invalid "JSON")

def text (bytes : List UInt8) : Except IoError String :=
  match fromUtf8 bytes with
  | some s => .ok s
  | none => .error (invalid "non-UTF8 application cell")

/-! ## Cells -/

def metaKey : List UInt8 := Json.ascii "m/state"

def named (space : List UInt8) (key : String) : List UInt8 := space ++ utf8 key

def sessionKey (space : List UInt8) (id : Nat) (key : Option String) : List UInt8 :=
  space ++ be 8 id ++ key.elim [] utf8

def sessionId (bytes : List UInt8) : Except IoError Nat :=
  if bytes.length = 8 then .ok (ofBe bytes) else .error (invalid "invalid session identity cell")

def metadata (app : StateMachine) (identity : ApplicationIdentity) (term : Nat) : Metadata where
  version := 1
  identity := identity
  appliedIndex := app.lastApplied
  appliedTerm := term
  retainedKeys := app.retainedKeys
  retainedPayloadBytes := app.retainedPayloadBytes

/-- The space of a kind of cells. -/
def valueSpace : List UInt8 := Json.ascii "v/"

def nonceSpace : List UInt8 := Json.ascii "r/"

def headerSpace : List UInt8 := Json.ascii "s/"

def recordSpace : List UInt8 := Json.ascii "k/"

def metaCell (app : StateMachine) (identity : ApplicationIdentity) (term : Nat) : Mutation :=
  ⟨metaKey, some (Json.write (metadata app identity term))⟩

def valueCell (app : StateMachine) (key : String) : Mutation :=
  ⟨named valueSpace key, (app.values[key]?).map utf8⟩

def nonceCell (nonce : String) (id : Nat) : Mutation := ⟨named nonceSpace nonce, some (be 8 id)⟩

def headerCell (id : Nat) (registered : SessionResult) (closed : Option SessionResult) : Mutation :=
  ⟨sessionKey headerSpace id none, some (Json.write (SessionHeader.mk registered closed))⟩

def recordCell (id : Nat) (record : SessionKeySnapshot) : Mutation :=
  ⟨sessionKey recordSpace id (some record.key), some (Json.write record)⟩

/-- `session_key` of the state machine: the record of a key, as a snapshot shows it. -/
def StateMachine.recordOf (app : StateMachine) (id : Nat) (key : String) :
    Option SessionKeySnapshot :=
  (app.sessions[id]?).bind fun session =>
    (session.keys[key]?).map fun record => exportKey (key, record)

/-- The cells of a mutated key. -/
def mutationCells (app : StateMachine) (id : Nat) (key : String) : List Mutation :=
  match app.recordOf id key with
  | some record => [valueCell app key, recordCell id record]
  | none => []

def entryCells (app : StateMachine) (identity : ApplicationIdentity) (entry : Entry) :
    Except IoError (List Mutation) := do
  let cells ← match entry.command with
    | .put key _ => .ok [valueCell app key]
    | .delete key => .ok [valueCell app key]
    | .sessionPut id key _ _ => .ok (mutationCells app id key)
    | .sessionDelete id key _ => .ok (mutationCells app id key)
    | .registerSession nonce =>
        match app.registrations[nonce]? with
        | none => .ok []
        | some id =>
            match app.sessions[id]? with
            | some session =>
                .ok [nonceCell nonce id, headerCell id session.registered session.closed]
            | none => .error (invalid "registration lacks session header")
    | .closeSession id =>
        match app.sessions[id]? with
        | some session => .ok [headerCell id session.registered session.closed]
        | none => .ok []
    | .noOp => .ok []
    | .configuration _ => .ok []
  return metaCell app identity entry.term :: cells

/-- The cells of a session of a snapshot. -/
def sessionCells (session : SessionSnapshot) : List Mutation :=
  nonceCell session.nonce session.sessionId ::
    headerCell session.sessionId session.registered session.closed ::
    session.keys.map (recordCell session.sessionId)

/-- `none` is the panic of `export_snapshot`. -/
def fullCells (app : StateMachine) (identity : ApplicationIdentity) (term : Nat) :
    Option (List Mutation) := do
  let snapshot ← app.exportSnapshot
  return metaCell app identity term ::
    (snapshot.values.map (fun p => (⟨named valueSpace p.1, some (utf8 p.2)⟩ : Mutation)) ++
      snapshot.sessions.flatMap sessionCells)

/-! ## Decoding -/

/-- What the loop of `decode_cells` collects. -/
structure Decoding where
  metadata : Option Metadata
  values : List (String × String)
  registrations : BTreeMap Nat String
  headers : BTreeMap Nat SessionHeader
  keys : BTreeMap Nat (List SessionKeySnapshot)
  seen : BTreeSet (List UInt8)

def Decoding.start : Decoding := ⟨none, [], ∅, ∅, ∅, ∅⟩

/-- `strip_prefix`. -/
def stripSpace (space key : List UInt8) : Option (List UInt8) :=
  if key.take space.length = space then some (key.drop space.length) else none

def Decoding.row (reader : CellReader) (d : Decoding) (key value : List UInt8) :
    Except IoError Decoding :=
  if key ∈ d.seen then .error (invalid "duplicate application cell")
  else
    let d := { d with seen := d.seen.insert key }
    if key = metaKey then do
      let metadata ← parse reader.metadata value
      return { d with metadata := some metadata }
    else
      match stripSpace valueSpace key with
      | some key => do
          let key ← text key
          let value ← text value
          return { d with values := d.values ++ [(key, value)] }
      | none =>
          match stripSpace nonceSpace key with
          | some key => do
              let id ← sessionId value
              let nonce ← text key
              if d.registrations[id]? ≠ none then .error (invalid "two nonces share one session")
              else return { d with registrations := d.registrations.insert id nonce }
          | none =>
              match stripSpace headerSpace key with
              | some key => do
                  let id ← sessionId key
                  let header ← parse reader.header value
                  return { d with headers := d.headers.insert id header }
              | none =>
                  match stripSpace recordSpace key with
                  | some key =>
                      if key.length ≤ 8 then .error (invalid "incomplete retry record key")
                      else do
                        let id ← sessionId (key.take 8)
                        let record ← parse reader.record value
                        let name ← text (key.drop 8)
                        if record.key ≠ name then
                          .error (invalid "retry record key differs from its cell key")
                        else
                          return { d with
                            keys := d.keys.insert id ((d.keys[id]?).getD [] ++ [record]) }
                  | none => .error (invalid "unknown application namespace")

def Decoding.rows (reader : CellReader) :
    List (List UInt8 × List UInt8) → Decoding → Except IoError Decoding
  | [], d => .ok d
  | (key, value) :: rest, d => do
      let d ← d.row reader key value
      Decoding.rows reader rest d

/-- The loop over the headers: the sessions, and what is left of registrations and records. -/
def joinSessions : List (Nat × SessionHeader) → BTreeMap Nat String →
    BTreeMap Nat (List SessionKeySnapshot) →
    Except IoError
      (List SessionSnapshot × BTreeMap Nat String × BTreeMap Nat (List SessionKeySnapshot))
  | [], registrations, keys => .ok ([], registrations, keys)
  | (id, header) :: rest, registrations, keys =>
      match registrations[id]? with
      | none => .error (invalid "session header lacks registration")
      | some nonce => do
          let (sessions, registrations, left) ←
            joinSessions rest (registrations.erase id) (keys.erase id)
          return (⟨nonce, id, header.registered, header.closed, (keys[id]?).getD []⟩ :: sessions,
            registrations, left)

def decodeCells (reader : CellReader) (sha : Digest) (rows : List (List UInt8 × List UInt8))
    (applied : Nat) (identity : ApplicationIdentity) : Except IoError (StateMachine × Nat) :=
  if applied = 0 then
    if rows ≠ [] then .error (invalid "zero engine watermark has application cells")
    else .ok (.initial, 0)
  else do
    let d ← Decoding.rows reader rows .start
    match d.metadata with
    | none => .error (invalid "engine lacks application metadata")
    | some metadata =>
        if metadata.version ≠ 1 ∨ metadata.appliedIndex ≠ applied ∨ metadata.identity ≠ identity ∨
            metadata.appliedTerm = 0 then
          .error (invalid "engine application identity/watermark mismatch")
        else do
          let (sessions, registrations, keys) ←
            joinSessions d.headers.toList d.registrations d.keys
          if registrations.isEmpty = false ∨ keys.isEmpty = false then
            .error (invalid "orphan registration/retry record")
          else
            match importSnapshot sha ⟨1, applied, d.values, sessions, metadata.retainedKeys,
                metadata.retainedPayloadBytes⟩ applied with
            | .error e => .error (invalid e.message)
            | .ok app => .ok (app, metadata.appliedTerm)

end MicroRaft.Application
