import MicroRaft.Lib.Search
import MicroRaft.Core.Basic
import Mathlib

/-!
# The history checker

`scripts/check_history.py` decides whether a recorded history of one register per
key is linearizable.  `normalize` validates a history and folds the attempts of a
protected mutation into one operation; `search` looks for an order of the
operations of one key.

* `normalize`, with every error it raises.
* `search`: the backtracking search over (operations left, register value).
-/

namespace MicroRaft.Checker

/-- A parsed JSON value.  Nothing reads what a number with a fraction is. -/
inductive Value
  | null
  | bool (b : Bool)
  | int (n : Int)
  | float
  | str (s : String)
  | list (items : List Value)
  | dict (fields : List (String × Value))

/-- `dict.get`: a missing field reads as null. -/
def field (fields : List (String × Value)) (name : String) : Value :=
  (fields.lookup name).getD .null

def natural (value : Value) (label : String) : Except String Nat :=
  match value with
  | .int (.ofNat n) => .ok n
  | _ => .error (label ++ " must be a nonnegative integer")

def string (value : Value) (label : String) : Except String String :=
  match value with
  | .str s => if s.isEmpty then .error (label ++ " must be a nonempty string") else .ok s
  | _ => .error (label ++ " must be a nonempty string")

inductive Kind
  | put
  | delete
  | get
  deriving DecidableEq, Repr

inductive Answer
  | ok
  | unknown
  | rejected
  deriving DecidableEq, Repr

/-- One logical operation.  `optional` marks a mutation nobody saw an answer for. -/
structure Operation where
  identity : String
  attempts : List String
  kind : Kind
  key : String
  value : Option String
  start : Nat
  end_ : Option Nat
  optional : Bool
  deriving DecidableEq, Repr

/-! ## Normalisation -/

/-- A validated row of a history: one attempt. -/
structure Row where
  attempt : String
  key : String
  kind : Kind
  outcome : Answer
  start : Nat
  end_ : Option Nat
  value : Option String
  logical : Option String

def readKind : Value → Option Kind
  | .str "put" => some .put
  | .str "delete" => some .delete
  | .str "get" => some .get
  | _ => none

def readOutcome : Value → Option Answer
  | .str "ok" => some .ok
  | .str "unknown" => some .unknown
  | .str "rejected" => some .rejected
  | _ => none

/-- The completion time, which may be missing only from an unanswered attempt. -/
def readEnd (value : Value) (start : Nat) (outcome : Answer) : Except String (Option Nat) :=
  match value with
  | .null =>
      if outcome = .unknown then .ok none
      else .error "completed operation requires complete_ns"
  | value => do
      let finish ← natural value "complete_ns"
      if finish < start then .error "completion precedes invocation" else .ok (some finish)

/-- The written or read value.  A read without an answer has none that counts. -/
def readValue (row : List (String × Value)) (kind : Kind) (outcome : Answer) :
    Except String (Option String) :=
  match kind with
  | .put =>
      match field row "value" with
      | .str s => .ok (some s)
      | _ => .error "put value must be a string"
  | .delete => .ok none
  | .get =>
      if outcome = .ok then
        match field row "read_mode" with
        | .str "linearizable" =>
            match row.lookup "value" with
            | some .null => .ok none
            | some (.str s) => .ok (some s)
            | _ => .error "successful GET value must be a string or explicit null"
        | _ => .error "successful GET must explicitly declare linearizable read mode"
      else .ok none

def readLogical (row : List (String × Value)) (kind : Kind) : Except String (Option String) :=
  match field row "logical_id" with
  | .null => .ok none
  | value => do
      let logical ← string value "logical_id"
      match kind, field row "retry_protected" with
      | .get, _ => .error "logical_id requires a retry-protected mutation"
      | _, .bool true => .ok (some logical)
      | _, _ => .error "logical_id requires a retry-protected mutation"

/-- Is the row's clock, if it names one, the history's? -/
def sameDomain (row : List (String × Value)) (domain : String) : Bool :=
  match row.lookup "clock_domain" with
  | none => true
  | some (.str s) => s == domain
  | some _ => false

/-- The checks of one row, in the order of the source. -/
def readRow (domain : String) (initial : List (String × Option String)) (seen : List String)
    (row : Value) : Except String Row :=
  match row with
  | .dict row => do
      let attempt ← string (field row "id") "operation id"
      if attempt ∈ seen then .error ("duplicate attempt id: " ++ attempt)
      else if sameDomain row domain = false then .error "mixed clock domains cannot be ordered"
      else
        let key ← string (field row "key") "key"
        if (initial.lookup key).isNone then .error ("initial value missing for key: " ++ key)
        else
          match readKind (field row "kind"), readOutcome (field row "outcome") with
          | some kind, some outcome => do
              let start ← natural (field row "invoke_ns") "invoke_ns"
              let finish ← readEnd (field row "complete_ns") start outcome
              let value ← readValue row kind outcome
              let logical ← readLogical row kind
              .ok { attempt, key, kind, outcome, start, end_ := finish, value, logical }
          | _, _ => .error "unsupported operation kind or outcome"
  | _ => .error "operation must be an object"

/-- Attempts are the same operation exactly if they carry the same protected identity. -/
inductive Identity
  | logical (id : String)
  | attempt (id : String)
  deriving DecidableEq

def Row.identity (row : Row) : Identity :=
  match row.logical with
  | some logical => .logical logical
  | none => .attempt row.attempt

/-- The operation a row alone stands for. -/
def Row.item (row : Row) : Operation where
  identity := row.logical.getD row.attempt
  attempts := [row.attempt]
  kind := row.kind
  key := row.key
  value := row.value
  start := row.start
  end_ := if row.outcome = .ok then row.end_ else none
  optional := decide (row.outcome = .unknown)

/-- Fold one more attempt into its operation. -/
def Operation.merge (prior : Operation) (row : Row) : Operation :=
  let prior :=
    { prior with attempts := prior.attempts ++ [row.attempt], start := min prior.start row.start }
  if row.outcome = .ok then
    { prior with
      end_ := match prior.end_, row.end_ with
        | some earlier, some finish => some (min earlier finish)
        | _, finish => finish
      optional := false }
  else prior

/-- The operations so far, in the order of their first attempts. -/
abbrev Groups := List (Identity × Operation)

/-- A rejected attempt changed nothing and an unanswered read constrains nothing; both are
dropped.  Any other row starts an operation or joins the one of its identity. -/
def record (groups : Groups) (row : Row) : Except String Groups :=
  if row.outcome = .rejected ∨ row.kind = .get ∧ row.outcome = .unknown then .ok groups
  else
    match groups.lookup row.identity with
    | none => .ok (groups ++ [(row.identity, row.item)])
    | some prior =>
        if prior.kind = row.kind ∧ prior.key = row.key ∧ prior.value = row.value then
          .ok (groups.map fun g => if g.1 = row.identity then (g.1, prior.merge row) else g)
        else .error "protected logical identity reused with a different payload"

/-- Read the rows one after the other. -/
def readRows (domain : String) (initial : List (String × Option String)) :
    List Value → List String → Groups → Except String Groups
  | [], _, groups => .ok groups
  | value :: rows, seen, groups => do
      let row ← readRow domain initial seen value
      let groups ← record groups row
      readRows domain initial rows (row.attempt :: seen) groups

/-- The initial values: every one a text or null. -/
def readInitial (value : Value) : Except String (List (String × Option String)) :=
  match value with
  | .dict fields =>
      fields.mapM fun f =>
        match f.2 with
        | .null => .ok (f.1, none)
        | .str s => .ok (f.1, some s)
        | _ => .error "initial must explicitly map every observed key to a string or null"
  | _ => .error "initial must explicitly map every observed key to a string or null"

/-- Validate provenance and fold protected retries into logical mutations. -/
def normalize (history : Value) (maxOperations : Nat) :
    Except String (List (String × Option String) × List Operation) :=
  match history with
  | .dict fields =>
      match field fields "schema_version" with
      | .int 1 => do
          let domain ← string (field fields "clock_domain") "clock_domain"
          let initial ← readInitial (field fields "initial")
          match field fields "operations" with
          | .list rows =>
              if 100000 < rows.length then .error "attempt limit exceeded (100000)"
              else do
                let groups ← readRows domain initial rows [] []
                if maxOperations < groups.length then
                  .error s!"logical operation limit exceeded ({maxOperations})"
                else .ok (initial, groups.map Prod.snd)
          | _ => .error "operations must be an array"
      | _ => .error "expected history schema_version 1"
  | _ => .error "expected history schema_version 1"

/-! ## The search -/

/-- Was the first operation answered before the second was invoked? -/
def Operation.completedBefore (other operation : Operation) : Bool :=
  other.end_.any fun finish => decide (finish < operation.start)

/-- The operations that must be gone before this one, as a bit mask. -/
def predecessors (operations : List Operation) (operation : Operation) : Nat :=
  (((List.finRange operations.length).filter fun index =>
    operations[index].completedBefore operation).map fun index => 1 <<< index.val).sum

/-- The operations left, as a bit mask, and the register. -/
abbrev State := Nat × Option String

/-- The register after an operation; none for a read that saw something else. -/
def Operation.nextValue (operation : Operation) (value : Option String) :
    Option (Option String) :=
  if operation.kind = .get then
    if operation.value ≠ value then none else some value
  else some operation.value

/-- What `visit` tries with one operation, if it may come next: leaving it out where nobody
saw its answer, then applying it. -/
def choicesOf (operations : List Operation) (state : State) (index : Fin operations.length) :
    List ((Fin operations.length × Bool) × State) :=
  let operation := operations[index]
  let bit := 1 <<< index.val
  if state.1 &&& bit = 0 ∨ predecessors operations operation &&& state.1 ≠ 0 then []
  else
    let rest := state.1 ^^^ bit
    (if operation.optional = true then [((index, false), (rest, state.2))] else []) ++
      match operation.nextValue state.2 with
      | none => []
      | some value => [((index, true), (rest, value))]

/-- What `visit` tries in a state, in order. -/
def choices (operations : List Operation) (state : State) :
    List ((Fin operations.length × Bool) × State) :=
  (List.finRange operations.length).flatMap (choicesOf operations state)

inductive Action
  | omitUnknown
  | applyUnknown
  | apply (kind : Kind)
  deriving DecidableEq, Repr

/-- One line of a witness. -/
structure Step where
  id : String
  attempts : List String
  action : Action
  deriving DecidableEq, Repr

/-- The line for an operation that is applied or left out. -/
def Operation.step (operation : Operation) (kept : Bool) : Step where
  id := operation.identity
  attempts := operation.attempts
  action :=
    if kept = false then .omitUnknown
    else if operation.optional then .applyUnknown
    else .apply operation.kind

def moves (operations : List Operation) (state : State) : List (Step × State) :=
  (choices operations state).map fun c => (operations[c.1.1].step c.1.2, c.2)

/-- Nothing is left to place. -/
def finished (state : State) : Bool := decide (state.1 = 0)

inductive Verdict
  | pass (states : Nat) (witness : List Step)
  | fail (states : Nat)
  | inconclusive (states : Nat)
  deriving DecidableEq, Repr

/-- Memoized backtracking over real-time-compatible sequential orders.  Every move clears a
bit, so the mask bounds the depth. -/
def search (operations : List Operation) (initial : Option String) (budget : Nat) : Verdict :=
  let all := 1 <<< operations.length - 1
  match Search.visit (moves operations) finished budget (all + 1) (all, initial) ⟨[], 0⟩ with
  | .exhausted states => .inconclusive states
  | .done (some witness) memo => .pass memo.states witness
  | .done none memo => .fail memo.states

/-!
## The checker decides linearizability

A `Linearization` is an order of some of the operations: of all that were
answered and of any of the others, in real-time order and with every read
returning the value last written.  `search` finds one if there is one.

The search works on bit masks.  `predecessors_and_eq_zero` and `mem_choices` say
what its moves are in terms of sets of operations, `path_iff` what its paths are,
and from there on no mask is mentioned.
-/

variable {operations : List Operation} {initial : Option String}

/-! ## The specification -/

/-- What `normalize` guarantees of an operation: only mutations without an answer are
optional, and a deletion writes absence. -/
structure Operation.Normalized (operation : Operation) : Prop where
  answered : operation.optional = false ↔ operation.end_.isSome
  mutation : operation.optional = true → operation.kind ≠ .get
  absent : operation.kind = .delete → operation.value = none

/-- What a mutation leaves in the register. -/
def Operation.written (operation : Operation) : Option String :=
  match operation.kind with
  | .put => operation.value
  | _ => none

/-- The value after some operations: the one the latest put or delete wrote. -/
def latest (operations : List Operation) (initial : Option String)
    (before : List (Fin operations.length)) : Option String :=
  match (before.filter fun i => decide (operations[i].kind ≠ .get)).getLast? with
  | none => initial
  | some i => operations[i].written

/-- The operations of a placement that are applied. -/
def kept {n : Nat} (placed : List (Fin n × Bool)) : List (Fin n) :=
  (placed.filter Prod.snd).map Prod.fst

/-- What the checks of a row leave: an answered attempt has a completion time, and a deletion
carries no value. -/
structure Row.Checked (row : Row) : Prop where
  completed : row.outcome ≠ .unknown → row.end_.isSome
  absent : row.kind = .delete → row.value = none

variable {placed : List (Fin operations.length × Bool)} {known : List (String × Option String)}
  {value : Option String} {order : List (Fin operations.length)} {i : Fin operations.length}
  {operation : Operation} {mask : Nat} {row : Row}

/-- Rows `record` does not drop. -/
def Row.Counts (row : Row) : Prop :=
  ¬ (row.outcome = .rejected ∨ row.kind = .get ∧ row.outcome = .unknown)

theorem Row.Checked.item (h : row.Checked) (hcounts : row.Counts) : row.item.Normalized := by
  obtain ⟨hrejected, hread⟩ := not_or.1 hcounts
  cases houtcome : row.outcome with
  | ok =>
    have hend := h.completed (by simp [houtcome])
    exact ⟨by simp [Row.item, houtcome, hend], by simp [Row.item, houtcome], h.absent⟩
  | unknown =>
    refine ⟨by simp [Row.item, houtcome], fun _ hget => hread ⟨hget, houtcome⟩, h.absent⟩
  | rejected => exact absurd houtcome hrejected

theorem Operation.Normalized.merge {prior : Operation} (hprior : prior.Normalized)
    (h : row.Checked) : (prior.merge row).Normalized := by
  unfold Operation.merge
  split_ifs with hok
  · have hend := h.completed (by simp [hok])
    refine ⟨?_, by simp, hprior.absent⟩
    obtain ⟨finish, hfinish⟩ := Option.isSome_iff_exists.1 hend
    cases prior.end_ <;> simp [hfinish]
  · exact ⟨hprior.answered, hprior.mutation, hprior.absent⟩

/-- What choosing an operation does to the register. -/
def Operation.Moves (operation : Operation) (kept : Bool) (value value' : Option String) : Prop :=
  if kept = true then operation.nextValue value = some value'
  else operation.optional = true ∧ value' = value

/-- Replaying operations on the register; none if a read saw something else. -/
def replay (operations : List Operation) (value : Option String)
    (order : List (Fin operations.length)) : Option (Option String) :=
  order.foldlM (fun value i => operations[i].nextValue value) value

theorem replay_append (value : Option String) (before : List (Fin operations.length))
    (i : Fin operations.length) :
    replay operations value (before ++ [i]) =
      replay operations value before >>= operations[i].nextValue := by
  rw [replay, List.foldlM_append]
  simp only [List.foldlM_cons, List.foldlM_nil, bind_pure]
  rfl

end MicroRaft.Checker
