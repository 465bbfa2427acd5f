import MicroRaft.Core.Message
import MicroRaft.Lib.Json

/-!
# The encoding of memberships and entries

What `serde_json` writes for the types of `membership.rs` and for log entries, with the
names and tags its attributes give them.  Hard states, snapshots and messages carry
memberships in this form, and `MAX_MEMBERSHIP_JSON_BYTES` is a bound on its length.
-/

namespace MicroRaft

open Json (Serialize write)

/-- `MAX_MEMBERSHIP_JSON_BYTES`. -/
def maxMembershipJsonBytes : Nat := 3 * 1024 * 1024

instance : Serialize MemberEndpoints :=
  ⟨fun e => Json.object [("raft", write e.raft), ("http", write e.http)]⟩

instance : Serialize AdminOperation where
  write
    | .addLearner id endpoints => Json.object [("kind", write "add_learner"), ("id", write id),
        ("endpoints", write endpoints)]
    | .remove id => Json.object [("kind", write "remove"), ("id", write id)]
    | .setVoters voters => Json.object [("kind", write "set_voters"), ("voters", write voters)]

instance : Serialize AdminRecord :=
  ⟨fun r => Json.object [("operation", write r.operation), ("first_index", write r.firstIndex),
    ("first_term", write r.firstTerm), ("joint", write r.joint),
    ("final_index", write r.finalIndex), ("final_term", write r.finalTerm)]⟩

instance : Serialize VoterConfig where
  write
    | .stable voters => Json.object [("phase", write "stable"), ("voters", write voters)]
    | .joint old new => Json.object [("phase", write "joint"), ("old", write old),
        ("new", write new)]

instance : Serialize MembershipState :=
  ⟨fun m => Json.object [("version", write m.version), ("group_id", write m.groupId),
    ("genesis_voters", write m.genesisVoters), ("voters", write m.voters),
    ("learners", write m.learners.toList), ("retired", write m.retired.toList),
    ("endpoints", Json.mapping (fun id => toString id) m.endpoints.toList),
    ("records", Json.mapping (fun id => id) m.records.toList)]⟩

instance : Serialize CommittedMembership :=
  ⟨fun m => Json.object [("index", write m.index), ("term", write m.term),
    ("state", write m.state)]⟩

instance : Serialize ConfigurationPhase where
  write
    | .apply => write "apply"
    | .joint => write "joint"
    | .final => write "final"

instance : Serialize ConfigurationEntry :=
  ⟨fun c => Json.object [("request_id", write c.requestId), ("operation", write c.operation),
    ("phase", write c.phase)]⟩

instance : Serialize Command where
  write
    | .put key value =>
        Json.object [("Put", Json.object [("key", write key), ("value", write value)])]
    | .delete key => Json.object [("Delete", Json.object [("key", write key)])]
    | .noOp => write "NoOp"
    | .configuration change => Json.object [("Configuration", write change)]
    | .registerSession nonce =>
        Json.object [("RegisterSession", Json.object [("nonce", write nonce)])]
    | .closeSession sessionId =>
        Json.object [("CloseSession", Json.object [("session_id", write sessionId)])]
    | .sessionPut sessionId key sequence value =>
        Json.object [("SessionPut", Json.object [("session_id", write sessionId),
          ("key", write key), ("sequence", write sequence), ("value", write value)])]
    | .sessionDelete sessionId key sequence =>
        Json.object [("SessionDelete", Json.object [("session_id", write sessionId),
          ("key", write key), ("sequence", write sequence)])]

instance : Serialize Entry :=
  ⟨fun e => Json.object [("index", write e.index), ("term", write e.term),
    ("command", write e.command)]⟩

end MicroRaft
