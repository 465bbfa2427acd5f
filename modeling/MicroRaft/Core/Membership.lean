import MicroRaft.Core.Basic

/-!
# Group membership

The model of `membership.rs`: voter configurations and their quorums, the
administrative state that configuration entries build, and the validation that
replays the whole retained history.
-/

namespace MicroRaft

/-! ## Voter configurations -/

/-- The voters whose majorities carry authority. -/
inductive VoterConfig where
  | stable (voters : List NodeId)
  /-- Both majorities are required. -/
  | joint (old new : List NodeId)
  deriving DecidableEq, Repr

/-- `validate_set`: nonempty, bounded, sorted and free of duplicates. -/
def validateSet (voters : List NodeId) : Except String Unit :=
  if voters = [] ∨ voters.length > 256 ∨ ¬ voters.IsChain (· < ·) then
    .error "voters must be nonempty, sorted and unique"
  else .ok ()

/-- More than half of `voters` are among `votes`. -/
def majority (voters : List NodeId) (votes : BTreeSet NodeId) : Bool :=
  (voters.filter fun id => votes.contains id).length > voters.length / 2

/-- The highest index that a majority of `voters` has reached. -/
def majorityIndex (voters : List NodeId) (matched : BTreeMap NodeId Nat) : Nat :=
  if voters = [] then 0
  else
    let indexes := (voters.map fun id => (matched[id]?).getD 0).insertionSort (· ≤ ·)
    (indexes[indexes.length - (indexes.length / 2 + 1)]?).getD 0

namespace VoterConfig

def validate : VoterConfig → Except String Unit
  | .stable voters => validateSet voters
  | .joint old new => do
      validateSet old
      validateSet new

/-- Invalid configurations fail closed. -/
def hasQuorum (c : VoterConfig) (votes : BTreeSet NodeId) : Bool :=
  match c.validate with
  | .error _ => false
  | .ok _ =>
      match c with
      | .stable voters => majority voters votes
      | .joint old new => majority old votes && majority new votes

/-- The highest index replicated to the required quorum. -/
def replicatedIndex (c : VoterConfig) (matched : BTreeMap NodeId Nat) : Nat :=
  match c.validate with
  | .error _ => 0
  | .ok _ =>
      match c with
      | .stable voters => majorityIndex voters matched
      | .joint old new => min (majorityIndex old matched) (majorityIndex new matched)

def voters : VoterConfig → BTreeSet NodeId
  | .stable voters => .ofList voters
  | .joint old new => .ofList (old ++ new)

def isJoint : VoterConfig → Bool
  | .stable _ => false
  | .joint .. => true

def contains : VoterConfig → NodeId → Bool
  | .stable voters, id => voters.contains id
  | .joint old new, id => old.contains id || new.contains id

end VoterConfig

/-! ## Administrative state -/

def maxAdminRecords : Nat := 1024

def legacyGroupId : String := "legacy-default"

def maxAdminIdBytes : Nat := 128

def maxMemberEndpointBytes : Nat := 512

structure MemberEndpoints where
  raft : String
  http : String
  deriving DecidableEq, Repr

/-- The Unicode `White_Space` property, as `str::trim` uses it. -/
def isWhiteSpace (c : Char) : Bool :=
  let n := c.toNat
  (9 ≤ n && n ≤ 13) || n == 0x20 || n == 0x85 || n == 0xA0 || n == 0x1680 ||
    (0x2000 ≤ n && n ≤ 0x200A) || n == 0x2028 || n == 0x2029 || n == 0x202F ||
    n == 0x205F || n == 0x3000

/-- The Unicode `Cc` category, as `char::is_control` uses it. -/
def isControl (c : Char) : Bool :=
  c.toNat ≤ 0x1F || (0x7F ≤ c.toNat && c.toNat ≤ 0x9F)

/-- `s.trim() == s`: neither end of the text is white space. -/
def isTrimmed (s : String) : Bool :=
  (s.toList.head?.all fun c => !isWhiteSpace c) && (s.toList.getLast?.all fun c => !isWhiteSpace c)

def validEndpoint (endpoint : String) : Bool :=
  !(endpoint.isEmpty || endpoint.utf8ByteSize > maxMemberEndpointBytes || !isTrimmed endpoint ||
    endpoint.toList.any isControl)

def MemberEndpoints.validate (m : MemberEndpoints) : Except String Unit :=
  if validEndpoint m.raft && validEndpoint m.http then .ok ()
  else .error "invalid bounded member endpoint"

inductive AdminOperation where
  | addLearner (id : NodeId) (endpoints : MemberEndpoints)
  | remove (id : NodeId)
  | setVoters (voters : List NodeId)
  deriving DecidableEq, Repr

inductive ConfigurationPhase where
  | apply
  | joint
  | final
  deriving DecidableEq, Repr

structure ConfigurationEntry where
  requestId : String
  operation : AdminOperation
  phase : ConfigurationPhase
  deriving DecidableEq, Repr

structure AdminRecord where
  operation : AdminOperation
  firstIndex : Nat
  firstTerm : Nat
  joint : Bool
  finalIndex : Option Nat
  finalTerm : Option Nat
  deriving DecidableEq, Repr

/-- Configuration and exact administrative outcomes. -/
structure MembershipState where
  version : Nat
  groupId : String
  genesisVoters : List NodeId
  voters : VoterConfig
  learners : BTreeSet NodeId
  retired : BTreeSet NodeId
  endpoints : BTreeMap NodeId MemberEndpoints
  records : BTreeMap String AdminRecord
  deriving DecidableEq

/-- A membership state together with the log position that last changed it. -/
structure CommittedMembership where
  index : Nat
  term : Nat
  state : MembershipState
  deriving DecidableEq

namespace MembershipState

/-- Bounded printable ASCII without white space. -/
def validateRequestId (id : String) : Except String Unit :=
  if id.isEmpty || id.utf8ByteSize > maxAdminIdBytes ||
      id.toList.any (fun c => c.toNat ≥ 128 || c.toNat ≤ 32 || c.toNat == 127) then
    .error "administrative request ID must be bounded printable ASCII without whitespace"
  else .ok ()

def bootstrapWithGroup (groupId : String) (voters : List NodeId) :
    Except String MembershipState := do
  validateRequestId groupId
  validateSet voters
  .ok { version := 1, groupId, genesisVoters := voters, voters := .stable voters,
        learners := ∅, retired := ∅, endpoints := ∅, records := ∅ }

def participants (m : MembershipState) : BTreeSet NodeId := m.voters.voters ∪ m.learners

/-- The joint operation that is still waiting for its final entry, if any. -/
def pending (m : MembershipState) : Option (String × AdminRecord) :=
  m.records.toList.find? fun p => p.2.finalIndex.isNone

/-- The first protocol phase of a change, without granting admission. -/
def firstPhase (m : MembershipState) (id : String) (operation : AdminOperation) :
    Except String ConfigurationPhase := do
  validateRequestId id
  if m.groupId = legacyGroupId then .error "explicit_group_identity_required"
  else
    match m.records[id]? with
    | some record =>
        if record.operation = operation then .error "request_already_recorded"
        else .error "request_payload_changed"
    | none =>
        if m.pending.isSome || m.voters.isJoint then .error "membership_change_pending"
        else if m.records.size ≥ maxAdminRecords then .error "membership_admin_capacity"
        else
          match operation with
          | .addLearner id endpoints => do
              endpoints.validate
              if m.retired.contains id then .error "member_id_retired"
              else if m.participants.contains id then .error "member_already_admitted"
              else .ok .apply
          | .remove id =>
              if m.learners.contains id then .ok .apply
              else if !m.voters.voters.contains id then .error "member_unknown"
              else if m.voters.voters.size = 1 then .error "cannot_remove_last_voter"
              else .ok .joint
          | .setVoters voters => do
              validateSet voters
              let requested : BTreeSet NodeId := .ofList voters
              if m.voters.voters = requested then .error "voters_unchanged"
              else if requested.any (fun id =>
                  !m.voters.voters.contains id && !m.learners.contains id) then
                .error "new_voter_must_be_admitted_learner"
              else .ok .joint

def targetVoters (m : MembershipState) : AdminOperation → Except String (List NodeId)
  | .setVoters voters => .ok voters
  | .remove id => .ok (m.voters.voters.toList.filter (· ≠ id))
  | .addLearner .. => .error "learner admission does not change voter quorum"

/-- The final entry of a joint operation. -/
def applyFinal (m : MembershipState) (index : Nat) (term : Nat)
    (entry : ConfigurationEntry) : Except String MembershipState :=
  match m.pending with
  | none => .error "no joint operation to finish"
  | some (pendingId, record) =>
      if pendingId ≠ entry.requestId ∨ record.operation ≠ entry.operation ∨
          index ≤ record.firstIndex ∨ term < record.firstTerm then
        .error "final entry differs from active joint operation"
      else
        match m.voters with
        | .stable _ => .error "final entry requires joint voters"
        | .joint old new =>
            let outgoing := old.filter fun id => !new.contains id
            .ok { m with
                  retired := m.retired.insertMany outgoing
                  voters := .stable new
                  records := m.records.insert entry.requestId
                    { record with finalIndex := some index, finalTerm := some term } }

/-- The record that a first-phase entry leaves. -/
def firstRecord (index : Nat) (term : Nat) (entry : ConfigurationEntry) : AdminRecord :=
  let joint := entry.phase == .joint
  { operation := entry.operation, firstIndex := index, firstTerm := term, joint,
    finalIndex := if joint then none else some index,
    finalTerm := if joint then none else some term }

/-- The first entry of an operation: a single-phase change, or the joint phase. -/
def applyFirst (m : MembershipState) (index : Nat) (term : Nat)
    (entry : ConfigurationEntry) : Except String MembershipState := do
  let expected ← m.firstPhase entry.requestId entry.operation
  if entry.phase ≠ expected then .error "incorrect first configuration phase"
  else
    let records := m.records.insert entry.requestId (firstRecord index term entry)
    if entry.phase = .joint then do
      let old := m.voters.voters.toList
      let new ← m.targetVoters entry.operation
      .ok { m with learners := m.learners.eraseMany new, voters := .joint old new, records }
    else
      match entry.operation with
      | .addLearner id endpoints =>
          .ok { m with learners := m.learners.insert id
                       endpoints := m.endpoints.insert id endpoints, records }
      | .remove id =>
          .ok { m with learners := m.learners.erase id, retired := m.retired.insert id, records }
      | .setVoters _ => .error "voter change cannot use single-phase apply"

/-- Replay one structurally valid configuration log entry. -/
def applyEntry (m : MembershipState) (index : Nat) (term : Nat)
    (entry : ConfigurationEntry) : Except String MembershipState := do
  if index = 0 ∨ index = u64Max ∨ term = 0 then .error "invalid configuration log boundary"
  else do
    validateRequestId entry.requestId
    if entry.phase = .final then m.applyFinal index term entry
    else m.applyFirst index term entry

end MembershipState

namespace CommittedMembership

def bootstrapWithGroup (groupId : String) (voters : List NodeId) :
    Except String CommittedMembership := do
  let state ← MembershipState.bootstrapWithGroup groupId voters
  .ok { index := 0, term := 0, state }

def bootstrap (voters : List NodeId) : Except String CommittedMembership :=
  bootstrapWithGroup legacyGroupId voters

def advanced (m : CommittedMembership) (index : Nat) (term : Nat)
    (entry : ConfigurationEntry) : Except String CommittedMembership := do
  if index ≤ m.index ∨ term < m.term then .error "configuration history regressed"
  else do
    let state ← m.state.applyEntry index term entry
    .ok { index, term, state }

/-- The log events one administrative record stands for. -/
def recordEvents (id : String) (record : AdminRecord) :
    Except String (List (Nat × Nat × ConfigurationEntry)) :=
  let first := (record.firstIndex, record.firstTerm,
    { requestId := id, operation := record.operation,
      phase := if record.joint then ConfigurationPhase.joint else .apply : ConfigurationEntry })
  match record.finalIndex, record.finalTerm with
  | some index, some term =>
      if record.joint then
        .ok [first, (index, term,
          { requestId := id, operation := record.operation, phase := .final })]
      else if index = record.firstIndex ∧ term = record.firstTerm then .ok [first]
      else .error "inconsistent administrative completion boundary"
  | none, none =>
      if record.joint then .ok [first]
      else .error "inconsistent administrative completion boundary"
  | _, _ => .error "inconsistent administrative completion boundary"

/-- The whole history the records retain, in index order. -/
def events (m : CommittedMembership) :
    Except String (List (Nat × Nat × ConfigurationEntry)) := do
  let parts ← m.state.records.toList.mapM fun p => recordEvents p.1 p.2
  .ok (parts.flatten.insertionSort fun a b => a.1 ≤ b.1)

/-- Reconstruct the retained history and compare it with the claimed state. -/
def validate (m : CommittedMembership) : Except String Unit := do
  if m.state.version ≠ 1 ∨ m.state.records.size > maxAdminRecords then
    .error "unsupported or oversized membership state"
  else do
    let genesis ← bootstrapWithGroup m.state.groupId m.state.genesisVoters
    let events ← m.events
    let rebuilt ← events.foldlM (fun state e => state.advanced e.1 e.2.1 e.2.2) genesis
    if rebuilt ≠ m then .error "membership state differs from its retained history"
    else .ok ()

/-- Does the record of a newer history agree with what an older history knows of it? -/
def recordExtends (olderIndex : Nat) (old new : AdminRecord) : Bool :=
  !(new.operation ≠ old.operation || new.firstIndex ≠ old.firstIndex ||
      new.firstTerm ≠ old.firstTerm || new.joint ≠ old.joint) &&
    !(old.finalIndex.isSome &&
      (new.finalIndex ≠ old.finalIndex || new.finalTerm ≠ old.finalTerm)) &&
    !(old.finalIndex.isNone && new.finalIndex.any (· ≤ olderIndex))

/-- A newer history may complete an older pending request, but it changes no fact the
older one already holds. -/
def isConsistentExtensionOf (m older : CommittedMembership) : Bool :=
  if m.validate.toBool = false ∨ older.validate.toBool = false ∨
      m.state.groupId ≠ older.state.groupId ∨
      m.state.genesisVoters ≠ older.state.genesisVoters ∨ m.index < older.index ∨
      m.term < older.term then false
  else
    (older.state.records.toList.all fun p =>
      match m.state.records[p.1]? with
      | none => false
      | some new => recordExtends older.index p.2 new) &&
    (m.state.records.toList.all fun p =>
      older.state.records.contains p.1 || decide (older.index < p.2.firstIndex))

end CommittedMembership

end MicroRaft
