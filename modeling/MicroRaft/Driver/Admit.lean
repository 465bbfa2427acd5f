import MicroRaft.Driver.Collect
import MicroRaft.Lib.Table
import MicroRaft.Node.Batch

/-!
# Admitting a batch

`process_proposal_batch` drops the requests whose callers have gone, hands the commands of
the others to the core as one batch, and executes the effects: every acceptance and every
rejection takes the next waiting response.  The storage, the transport and the applied state
behind the other effects are a parameter (`Performer`); all that is known of them is which
effects call the core back, and that no pending write is added.
-/

namespace MicroRaft.Driver

open EffectM
open Store (IoError rejected invalid)

/-! ## Admission -/

/-- The loop of `process_proposal_batch`: the requests whose callers still wait, and the
bytes of their commands. -/
def admitted (isClosed : ProposalRequest → Bool) :
    List ProposalRequest → Except IoError (List ProposalRequest × Nat)
  | [] => .ok ([], 0)
  | request :: requests =>
      if isClosed request then admitted isClosed requests
      else
        match commandBytes request.command with
        | none => .error ⟨.other, "unchecked proposal size"⟩
        | some size => do
            let (live, bytes) ← admitted isClosed requests
            return (request :: live, size + bytes)

/-- An effect after which the driver calls the core back. -/
def callsBack : Effect → Bool
  | .readSnapshotChunk .. | .stageSnapshotChunk .. | .publishSnapshot .. => true
  | _ => false

/-- An acceptance or a rejection of a proposal. -/
def isVerdict : Effect → Bool
  | .proposeAccepted _ | .proposeRejected _ => true
  | _ => false

abbrev Pending := BTreeMap Nat ProposalRequest

/-- What the driver does for the effects that are no verdicts, on the pending writes and on
everything else it owns. -/
structure Performer (σ : Type) where
  perform : Effect → Pending × σ → Except IoError ((Pending × σ) × Option Input)
  calls_back : ∀ {effect w w' input}, perform effect w = .ok (w', some input) →
    callsBack effect = true
  -- `Apply`, `ApplySnapshot` and `RoleChanged` answer pending writes
  adds_none : ∀ {effect w w' callback}, perform effect w = .ok (w', callback) →
    ∀ {k : Nat} {request : ProposalRequest}, w'.1[k]? = some request → w.1[k]? = some request

/-- No pending write is answered. -/
def Performer.Leaves {σ : Type} (performer : Performer σ) : Prop :=
  ∀ {effect w w' callback}, performer.perform effect w = .ok (w', callback) → w'.1 = w.1

/-- The state of the loop of `execute_batch_responses`.  `paired` is its history: every
verdict with the request whose response it took. -/
structure Execution (σ : Type) where
  node : RaftNode
  responses : List ProposalRequest
  owned : Pending × σ
  paired : List (Effect × ProposalRequest)

variable {σ : Type} (performer : Performer σ) (isClosed : Nat → ProposalRequest → Bool)

/-- An acceptance: the response waits for its index, unless its caller has gone. -/
def accept (index : Nat) (x : Execution σ) : Except IoError Unit × Execution σ :=
  match x.responses with
  | [] => (.error (invalid "proposal accepted without an active client request"), x)
  | request :: responses =>
      let y := { x with responses, paired := x.paired ++ [(.proposeAccepted index, request)] }
      if isClosed index request then (.ok (), y)
      else
        let z := { y with owned := (x.owned.1.insert index request, x.owned.2) }
        if index ∈ x.owned.1 then
          (.error (invalid s!"duplicate pending proposal index {index}"), z)
        else (.ok (), z)

/-- A rejection: the response is sent. -/
def reject (leaderHint : Option NodeId) (x : Execution σ) : Except IoError Unit × Execution σ :=
  match x.responses with
  | [] => (.error (invalid "proposal rejected without an active client request"), x)
  | request :: responses =>
      (.ok (), { x with
        responses
        paired := x.paired ++ [(.proposeRejected leaderHint, request)] })

variable {queue es : List Effect} {request : ProposalRequest} {result : Except IoError Unit}
  {options : BatchOptions} {e : Effect} {n n' : RaftNode} {c : Collecting}

/-- The acceptances and rejections among effects, in order. -/
def verdicts (effects : List Effect) : List Effect :=
  effects.filter isVerdict

theorem verdicts_cons (e : Effect) (es : List Effect) :
    verdicts (e :: es) = if isVerdict e then e :: verdicts es else verdicts es :=
  List.filter_cons ..

theorem verdicts_append (x y : List Effect) : verdicts (x ++ y) = verdicts x ++ verdicts y :=
  List.filter_append ..

/-- The verdicts of a batch of proposals: all rejections with the same hint, or acceptances of
consecutive indexes. -/
def OneEach (n : RaftNode) (count : Nat) (effects : List Effect) : Prop :=
  verdicts effects = List.replicate count (.proposeRejected n.leaderHint) ∨
  verdicts effects = (List.range' (n.lastLogIndex + 1) count).map Effect.proposeAccepted

theorem OneEach.length {n : RaftNode} {count : Nat} {effects : List Effect}
    (h : OneEach n count effects) : (verdicts effects).length = count := by
  rcases h with h | h <;> rw [h] <;> simp

section Pairing

variable {performer isClosed}

/-- The verdicts among some effects have been given out: each to the next response that waited,
and what is pending since then is what an acceptance added for a caller that is there. -/
structure Paired (isClosed : Nat → ProposalRequest → Bool) (x : Execution σ) (effects : List Effect)
    (y : Execution σ) : Prop where
  paired : y.paired = x.paired ++ (verdicts effects).zip x.responses
  responses : y.responses = x.responses.drop (verdicts effects).length
  pending : ∀ {k request}, y.owned.1[k]? = some request → x.owned.1[k]? = some request ∨
    (.proposeAccepted k, request) ∈ (verdicts effects).zip x.responses ∧
      isClosed k request = false

/-- How the loop ends: with every verdict given out and every accepted response pending, or with the
error of an effect that is no verdict, or of an index that is pending already. -/
inductive Ends (performer : Performer σ) (isClosed : Nat → ProposalRequest → Bool)
    (x : Execution σ) : List Effect → Except IoError Unit → Execution σ → Prop where
  | all {queue : List Effect} {y : Execution σ} (hpaired : Paired isClosed x queue y)
      (hresponses : y.responses = [])
      (hpending : performer.Leaves → ∀ k request, (x.owned.1[k]? = some request ∨
        (.proposeAccepted k, request) ∈ (verdicts queue).zip x.responses ∧
          isClosed k request = false) → y.owned.1[k]? = some request) :
      Ends performer isClosed x queue (.ok ()) y
  | failed (done : List Effect) {rest : List Effect} {e : Effect} {error : IoError}
      {y : Execution σ} (hpaired : Paired isClosed x done y) (hplain : isVerdict e = false)
      (hcause : performer.perform e y.owned = .error error) :
      Ends performer isClosed x (done ++ e :: rest) (.error error) y
  | duplicate (done : List Effect) {rest : List Effect} {index : Nat} {y : Execution σ}
      (hpaired : Paired isClosed x (done ++ [.proposeAccepted index]) y)
      (hcause : index ∈ x.owned.1 ∨ .proposeAccepted index ∈ done) :
      Ends performer isClosed x (done ++ .proposeAccepted index :: rest)
        (.error (invalid s!"duplicate pending proposal index {index}")) y

theorem Paired.refl (isClosed : Nat → ProposalRequest → Bool) (x : Execution σ) :
    Paired isClosed x [] x :=
  ⟨by simp [verdicts], rfl, .inl⟩

/-- An effect in front that is no verdict. -/
theorem Paired.plain {x y : Execution σ} {owned : Pending × σ} (hplain : isVerdict e = false)
    (howned : ∀ {k : Nat} {request}, owned.1[k]? = some request → x.owned.1[k]? = some request)
    (h : Paired isClosed { x with owned } queue y) : Paired isClosed x (e :: queue) y := by
  obtain ⟨hpaired, hresponses, hpending⟩ := h
  have hverdicts : verdicts (e :: queue) = verdicts queue := by simp [verdicts_cons, hplain]
  rw [← hverdicts] at hpaired hresponses hpending
  exact ⟨hpaired, hresponses, fun hk => (hpending hk).imp_left howned⟩

/-- The rest of the queue, after an effect that was executed without an error. -/
theorem Ends.cons {x y z : Execution σ}
    (hpaired : ∀ {done z}, Paired isClosed y done z → Paired isClosed x (e :: done) z)
    (howned : ∀ {k}, k ∈ y.owned.1 → k ∈ x.owned.1 ∨ .proposeAccepted k = e)
    (hkept : performer.Leaves → ∀ k request, (x.owned.1[k]? = some request ∨
      (.proposeAccepted k, request) ∈ (verdicts (e :: queue)).zip x.responses ∧
        isClosed k request = false) → y.owned.1[k]? = some request ∨
      (.proposeAccepted k, request) ∈ (verdicts queue).zip y.responses ∧ isClosed k request = false)
    (h : Ends performer isClosed y queue result z) :
    Ends performer isClosed x (e :: queue) result z := by
  cases h with
  | all hrest hresponses hpending =>
    exact .all (hpaired hrest) hresponses fun hleaves k request hk =>
      hpending hleaves k request (hkept hleaves k request hk)
  | failed done hrest hplain hcause =>
    exact .failed (e :: done) (hpaired hrest) hplain hcause
  | duplicate done hrest hcause =>
    refine .duplicate (e :: done) (hpaired hrest) ?_
    rcases hcause with hmem | hmem
    · exact (howned hmem).imp_right fun heq => by rw [heq]; exact List.mem_cons_self
    · exact .inr (List.mem_cons_of_mem _ hmem)

/-- Without a failing effect, and without a pending write behind the end of the log, nothing goes
wrong. -/
theorem Ends.ok {n : RaftNode} {live : List ProposalRequest} {x y : Execution σ}
    (hone : OneEach n live.length es)
    (hperform : ∀ e ∈ es, isVerdict e = false → ∀ w error, performer.perform e w ≠ .error error)
    (hpending : ∀ k ∈ x.owned.1, k ≤ n.lastLogIndex)
    (h : Ends performer isClosed x es result y) : result = .ok () := by
  cases h with
  | all => rfl
  | failed _ _ hplain hcause => exact absurd hcause (hperform _ (by simp) hplain _ _)
  | @duplicate done rest index _ hpaired hcause =>
    -- an index is accepted once, and it is behind the end of the log
    have hsplit : verdicts (done ++ .proposeAccepted index :: rest) =
        verdicts done ++ .proposeAccepted index :: verdicts rest := by
      rw [verdicts_append, verdicts_cons]
      rfl
    rw [OneEach, hsplit] at hone
    rcases hone with hone | hone
    · have hmem : Effect.proposeAccepted index ∈ List.replicate live.length
          (Effect.proposeRejected n.leaderHint) := by simp [← hone]
      cases List.eq_of_mem_replicate hmem
    · have hnodup := (List.nodup_range' (s := n.lastLogIndex + 1) (n := live.length)).map
        (f := Effect.proposeAccepted) fun a b hab => by cases hab; rfl
      have hmem : Effect.proposeAccepted index ∈
          (List.range' (n.lastLogIndex + 1) live.length).map Effect.proposeAccepted := by
        simp [← hone]
      rcases hcause with hcause | hcause
      · obtain ⟨k, hk, heq⟩ := List.mem_map.1 hmem
        cases heq
        have := hpending index hcause
        rw [List.mem_range'_1] at hk
        omega
      · rw [← hone] at hnodup
        have hdone : Effect.proposeAccepted index ∈ verdicts done :=
          List.mem_filter.2 ⟨hcause, rfl⟩
        exact absurd rfl (List.nodup_append.1 hnodup |>.2.2 _ hdone _ List.mem_cons_self)

end Pairing

end MicroRaft.Driver
