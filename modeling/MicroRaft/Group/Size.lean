import MicroRaft.Core.Encoding
import MicroRaft.Group.Lawful

/-!
# Memberships fit their encoding

Identities, endpoints and voter lists are checked when an operation begins, and the
number of operations is capped, so the encoding of a membership cannot outgrow
`MAX_MEMBERSHIP_JSON_BYTES`.  Node identities are bytes and positions 64-bit numbers
in the source; `Ranged` says so of the numbers of the model.
-/

namespace MicroRaft

open Json (write)

variable {g m m' : CommittedMembership} {evs : List ConfigurationEvent}

/-! ## Ranges -/

/-- The node identities of an operation are bytes. -/
def AdminOperation.Ranged : AdminOperation → Prop
  | .addLearner id _ => id < 256
  | .remove id => id < 256
  | .setVoters voters => ∀ v ∈ voters, v < 256

instance : DecidablePred AdminOperation.Ranged
  | .addLearner id _ => inferInstanceAs (Decidable (id < 256))
  | .remove id => inferInstanceAs (Decidable (id < 256))
  | .setVoters voters => inferInstanceAs (Decidable (∀ v ∈ voters, v < 256))

/-- The numbers of a configuration entry and of its position are in range. -/
def ConfigurationEvent.Ranged (e : ConfigurationEvent) : Prop :=
  e.1 ≤ u64Max ∧ e.2.1 ≤ u64Max ∧ e.2.2.operation.Ranged

instance : DecidablePred ConfigurationEvent.Ranged :=
  fun e => inferInstanceAs (Decidable (e.1 ≤ u64Max ∧ e.2.1 ≤ u64Max ∧ e.2.2.operation.Ranged))

/-- What the checks of a first entry leave of an operation. -/
def AdminOperation.Valid : AdminOperation → Prop
  | .addLearner _ endpoints => endpoints.validate = .ok ()
  | .remove _ => True
  | .setVoters voters => validateSet voters = .ok ()

structure AdminRecord.Bounded (r : AdminRecord) : Prop where
  valid : r.operation.Valid
  ranged : r.operation.Ranged
  first : r.firstIndex ≤ u64Max ∧ r.firstTerm ≤ u64Max
  finalIndex : ∀ i ∈ r.finalIndex, i ≤ u64Max
  finalTerm : ∀ t ∈ r.finalTerm, t ≤ u64Max

/-- Every part of a membership is of bounded size. -/
structure MembershipState.Bounded (m : MembershipState) : Prop where
  version : m.version = 1
  group : validateRequestId m.groupId = .ok ()
  genesis : validateSet m.genesisVoters = .ok () ∧ ∀ v ∈ m.genesisVoters, v < 256
  known : ∀ v ∈ m.known, v < 256
  endpoints : ∀ {v : NodeId} {e : MemberEndpoints}, m.endpoints[v]? = some e →
    v < 256 ∧ e.validate = .ok ()
  records : ∀ {id : String} {r : AdminRecord}, m.records[id]? = some r →
    validateRequestId id = .ok () ∧ r.Bounded

theorem Genesis.bounded (hg : Genesis g) (hranged : ∀ v ∈ g.state.genesisVoters, v < 256) :
    g.state.Bounded := by
  obtain ⟨groupId, voters, hg⟩ := hg
  obtain ⟨hid, hset, rfl⟩ := CommittedMembership.bootstrapWithGroup_eq_ok hg
  refine ⟨rfl, hid, ⟨hset, hranged⟩, fun v hv => ?_, fun {v e} hv => ?_, fun {id r} hr => ?_⟩
  · rw [MembershipState.mem_known, VoterConfig.mem_voters] at hv
    rcases hv with (hv | hv) | hv
    · exact hranged v hv
    · exact absurd hv Std.ExtTreeSet.not_mem_empty
    · exact absurd hv Std.ExtTreeSet.not_mem_empty
  · simp at hv
  · simp at hr

variable {operation : AdminOperation} {index term : Nat}

theorem firstRecord_bounded {entry : ConfigurationEntry}
    (hranged : ConfigurationEvent.Ranged (index, term, entry)) (hvalid : entry.operation.Valid) :
    (MembershipState.firstRecord index term entry).Bounded := by
  obtain ⟨hindex, hterm, hop⟩ := hranged
  refine ⟨hvalid, hop, ⟨hindex, hterm⟩, fun i hi => ?_, fun t ht => ?_⟩
  · unfold MembershipState.firstRecord at hi
    dsimp only at hi
    split at hi
    · cases hi
    · cases hi
      exact hindex
  · unfold MembershipState.firstRecord at ht
    dsimp only at ht
    split at ht
    · cases ht
    · cases ht
      exact hterm

/-- The operations that change the voters name only bytes and valid sets. -/
theorem MembershipState.targetVoters_valid {m : MembershipState}
    {new : List NodeId} (h : m.targetVoters operation = .ok new)
    (hvalid : validateSet new = .ok ()) : operation.Valid := by
  cases operation with
  | addLearner id endpoints => cases h
  | remove id => trivial
  | setVoters voters =>
    cases h
    exact hvalid

/-- Inserting a bounded record. -/
theorem MembershipState.Bounded.insert {m : MembershipState} (h : m.Bounded) {requestId : String}
    {x : AdminRecord} (hid : validateRequestId requestId = .ok ()) (hx : x.Bounded) :
    ∀ {id : String} {r : AdminRecord}, (m.records.insert requestId x)[id]? = some r →
      validateRequestId id = .ok () ∧ r.Bounded := by
  intro id r hr
  rw [Std.ExtTreeMap.getElem?_insert] at hr
  split at hr
  · next heq =>
      cases hr
      rw [compare_eq_iff_eq] at heq
      exact ⟨heq ▸ hid, hx⟩
  · exact h.records hr

theorem MembershipState.Bounded.begin {m m' : MembershipState}
    {requestId : String} {phase : ConfigurationPhase}
    (h : m.Bounded) (hid : validateRequestId requestId = .ok ())
    (hranged : ConfigurationEvent.Ranged (index, term, ⟨requestId, operation, phase⟩))
    (hbegins : m.Begins index term requestId operation phase m') : m'.Bounded := by
  have hknown (v : NodeId) : (v ∈ m.voters.voters ∨ v ∈ m.learners) ∨ v ∈ m.retired → v < 256 :=
    fun hv => h.known v (mem_known.2 hv)
  cases hbegins with
  | @addLearner id endpoints hvalid hretired hvoter hlearner =>
    refine ⟨h.version, h.group, h.genesis, fun v hv => ?_, fun {v e} he => ?_,
      h.insert hid (firstRecord_bounded hranged hvalid)⟩
    · rw [mem_known, Std.ExtTreeSet.mem_insert, compare_eq_iff_eq] at hv
      rcases hv with (hv | rfl | hv) | hv
      · exact hknown v (Or.inl (Or.inl hv))
      · exact hranged.2.2
      · exact hknown v (Or.inl (Or.inr hv))
      · exact hknown v (Or.inr hv)
    · rw [Std.ExtTreeMap.getElem?_insert] at he
      split at he
      · next heq =>
          cases he
          rw [compare_eq_iff_eq] at heq
          exact ⟨heq ▸ hranged.2.2, hvalid⟩
      · exact h.endpoints he
  | @dismiss id hlearner =>
    refine ⟨h.version, h.group, h.genesis, fun v hv => ?_, h.endpoints,
      h.insert hid (firstRecord_bounded hranged trivial)⟩
    rw [mem_known, Std.ExtTreeSet.mem_insert, compare_eq_iff_eq, Std.ExtTreeSet.mem_erase] at hv
    rcases hv with (hv | hv) | rfl | hv
    · exact hknown v (Or.inl (Or.inl hv))
    · exact hknown v (Or.inl (Or.inr hv.2))
    · exact hknown _ (Or.inl (Or.inr hlearner))
    · exact hknown v (Or.inr hv)
  | @change operation new htarget hvalid hmember =>
    refine ⟨h.version, h.group, h.genesis, fun v hv => ?_, h.endpoints,
      h.insert hid (firstRecord_bounded hranged (targetVoters_valid htarget hvalid))⟩
    simp only [mem_known, VoterConfig.mem_voters (c := .joint _ _), Std.ExtTreeSet.mem_toList,
      mem_eraseMany_iff] at hv
    rcases hv with ((hv | hv) | hv) | hv
    · exact hknown v (Or.inl (Or.inl hv))
    · exact hknown v (Or.inl (hmember v hv))
    · exact hknown v (Or.inl (Or.inr hv.1))
    · exact hknown v (Or.inr hv)

theorem MembershipState.Bounded.final {m m' : MembershipState}
    {entry : ConfigurationEntry} (h : m.Bounded) (hid : validateRequestId entry.requestId = .ok ())
    (hranged : ConfigurationEvent.Ranged (index, term, entry))
    (hfinal : m.applyFinal index term entry = .ok m') : m'.Bounded := by
  obtain ⟨record, old, new, hpending, -, -, -, hv, rfl⟩ := applyFinal_eq_ok hfinal
  have hknown (v : NodeId) : (v ∈ m.voters.voters ∨ v ∈ m.learners) ∨ v ∈ m.retired → v < 256 :=
    fun hv => h.known v (mem_known.2 hv)
  have hrecord := (h.records (pending_eq_some hpending).1).2
  have hvoter : ∀ v, v ∈ old ∨ v ∈ new → v ∈ m.voters.voters := by
    intro v hmem
    rw [hv]
    exact VoterConfig.mem_voters.2 hmem
  have hclosed : AdminRecord.Bounded
      { record with finalIndex := some index, finalTerm := some term } := by
    refine ⟨hrecord.valid, hrecord.ranged, hrecord.first, fun i hi => ?_, fun t ht => ?_⟩
    · cases hi
      exact hranged.1
    · cases ht
      exact hranged.2.1
  refine ⟨h.version, h.group, h.genesis, fun v hv => ?_, h.endpoints, h.insert hid hclosed⟩
  simp only [mem_known, VoterConfig.mem_voters (c := .stable _),
    Std.ExtTreeSet.mem_insertMany_list, List.contains_iff_mem] at hv
  rcases hv with (hv | hv) | hv | hv
  · exact hknown v (Or.inl (Or.inl (hvoter v (Or.inr hv))))
  · exact hknown v (Or.inl (Or.inr hv))
  · exact hknown v (Or.inr hv)
  · exact hknown v (Or.inl (Or.inl (hvoter v (Or.inl (List.mem_of_mem_filter hv)))))

/-- **Every membership whose numbers are in range is of bounded size.** -/
theorem CommittedMembership.replay_bounded (hg : Genesis g)
    (hgenesis : ∀ v ∈ g.state.genesisVoters, v < 256)
    (hevs : ∀ e ∈ evs, ConfigurationEvent.Ranged e)
    (h : g.replay evs = .ok m) : m.state.Bounded ∧ m.index ≤ u64Max ∧ m.term ≤ u64Max := by
  induction evs using List.reverseRecOn generalizing m with
  | nil =>
    cases h
    rw [hg.position.1, hg.position.2]
    exact ⟨hg.bounded hgenesis, Nat.zero_le _, Nat.zero_le _⟩
  | append_singleton evs e ih =>
    obtain ⟨m₁, hm₁, hadv⟩ := replay_concat_eq_ok.1 h
    obtain ⟨hbounded, -, -⟩ := ih (fun x hx => hevs x (List.mem_append_left _ hx)) hm₁
    have hranged := hevs e (by simp)
    obtain ⟨-, -, hindex, hterm, -⟩ := advanced_eq_ok hadv
    refine ⟨?_, hindex.trans_le hranged.1, hterm.trans_le hranged.2.1⟩
    obtain ⟨hid, ⟨-, hfinal⟩ | hbegins⟩ := advanced_cases (replay_lawful hg hm₁) hadv
    · exact hbounded.final hid hranged hfinal
    · exact hbounded.begin hid hranged hbegins

/-! ## Sizes -/

theorem MembershipState.length_write_id {id : String} (h : validateRequestId id = .ok ()) :
    (write id).length ≤ 258 := by
  unfold validateRequestId at h
  split at h
  · cases h
  next hok =>
    simp only [Bool.or_eq_true, not_or, decide_eq_true_eq, List.any_eq_true, not_exists,
      not_and] at hok
    obtain ⟨⟨-, hsize⟩, hchars⟩ := hok
    have hsize : id.utf8ByteSize ≤ 128 := not_lt.1 hsize
    have htext := Json.length_text_le_of_printable (s := id) fun c hc => by
      have := (hchars c hc).1.2
      omega
    exact htext.trans (by omega)

theorem length_write_endpoint {endpoint : String} (h : validEndpoint endpoint = true) :
    (write endpoint).length ≤ 1026 := by
  simp only [validEndpoint, Bool.not_eq_true', Bool.or_eq_false_iff, List.any_eq_false] at h
  obtain ⟨⟨⟨-, hsize⟩, -⟩, hchars⟩ := h
  have hsize : endpoint.utf8ByteSize ≤ 512 := not_lt.1 (of_decide_eq_false hsize)
  have htext := Json.length_text_le_of_printable (s := endpoint) fun c hc => by
    have := hchars c hc
    simp only [isControl, Bool.or_eq_true, not_or, decide_eq_true_eq, not_le] at this
    omega
  exact htext.trans (by omega)

theorem MemberEndpoints.length_write {e : MemberEndpoints} (h : e.validate = .ok ()) :
    (write e).length ≤ 2069 := by
  unfold MemberEndpoints.validate at h
  split at h
  · next hok =>
      obtain ⟨hraft, hhttp⟩ := Bool.and_eq_true_iff.1 hok
      have hraft := length_write_endpoint hraft
      have hhttp := length_write_endpoint hhttp
      have hframe : Json.frame ["raft", "http"] = 17 := by decide +kernel
      show (Json.object [("raft", write e.raft), ("http", write e.http)]).length ≤ 2069
      rw [Json.length_object]
      simp only [List.map_cons, List.map_nil, List.sum_cons, List.sum_nil, hframe]
      omega
  · cases h

theorem length_write_node {v : NodeId} (h : v < 256) : (write v).length ≤ 3 := by
  show (Json.number v).length ≤ 3
  rw [Json.length_number]
  exact Json.digits_le (by omega) (h.trans (by decide))

theorem length_write_u64 {n : Nat} (h : n ≤ u64Max) : (write n).length ≤ 20 := by
  show (Json.number n).length ≤ 20
  rw [Json.length_number]
  refine Json.digits_le (by omega) (h.trans_lt ?_)
  decide

theorem length_write_option {o : Option Nat} (h : ∀ n ∈ o, n ≤ u64Max) : (write o).length ≤ 20 := by
  cases o with
  | none => decide
  | some n => exact length_write_u64 (h n rfl)

theorem length_write_nodes {l : List NodeId} (hlength : l.length ≤ 256) (h : ∀ v ∈ l, v < 256) :
    (write l).length ≤ 1026 := by
  show (Json.array (l.map write)).length ≤ 2 + 256 * (3 + 1)
  refine Json.length_array_le (fun x hx => ?_) (by rwa [List.length_map])
  obtain ⟨v, hv, rfl⟩ := List.mem_map.1 hx
  exact length_write_node (h v hv)

theorem AdminOperation.length_write (hvalid : operation.Valid)
    (hranged : operation.Ranged) : (write operation).length ≤ 2113 := by
  cases operation with
  | addLearner id endpoints =>
    have hid := length_write_node hranged
    have hend := MemberEndpoints.length_write hvalid
    have hframe : Json.frame ["kind", "id", "endpoints"] = 28 := by decide +kernel
    have hkind : (write "add_learner").length = 13 := by decide +kernel
    show (Json.object [("kind", write "add_learner"), ("id", write id),
      ("endpoints", write endpoints)]).length ≤ 2113
    rw [Json.length_object]
    simp only [List.map_cons, List.map_nil, List.sum_cons, List.sum_nil, hframe, hkind]
    omega
  | remove id =>
    have hid := length_write_node hranged
    have hframe : Json.frame ["kind", "id"] = 15 := by decide +kernel
    have hkind : (write "remove").length = 8 := by decide +kernel
    show (Json.object [("kind", write "remove"), ("id", write id)]).length ≤ 2113
    rw [Json.length_object]
    simp only [List.map_cons, List.map_nil, List.sum_cons, List.sum_nil, hframe, hkind]
    omega
  | setVoters voters =>
    have hvoters := length_write_nodes (validateSet_ok hvalid).2.1 hranged
    have hframe : Json.frame ["kind", "voters"] = 19 := by decide +kernel
    have hkind : (write "set_voters").length = 12 := by decide +kernel
    show (Json.object [("kind", write "set_voters"), ("voters", write voters)]).length ≤ 2113
    rw [Json.length_object]
    simp only [List.map_cons, List.map_nil, List.sum_cons, List.sum_nil, hframe, hkind]
    omega

theorem AdminRecord.Bounded.length_write {r : AdminRecord} (h : r.Bounded) :
    (write r).length ≤ 2279 := by
  have hop := AdminOperation.length_write h.valid h.ranged
  have hindex := length_write_u64 h.first.1
  have hterm := length_write_u64 h.first.2
  have hfinalIndex := length_write_option h.finalIndex
  have hfinalTerm := length_write_option h.finalTerm
  have hjoint : (write r.joint).length ≤ 5 := by cases r.joint <;> decide
  have hframe : Json.frame ["operation", "first_index", "first_term", "joint", "final_index",
      "final_term"] = 81 := by decide +kernel
  show (Json.object [("operation", write r.operation), ("first_index", write r.firstIndex),
    ("first_term", write r.firstTerm), ("joint", write r.joint),
    ("final_index", write r.finalIndex), ("final_term", write r.finalTerm)]).length ≤ 2279
  rw [Json.length_object]
  simp only [List.map_cons, List.map_nil, List.sum_cons, List.sum_nil, hframe]
  omega

theorem VoterConfig.length_write {c : VoterConfig} (hvalid : c.validate = .ok ())
    (hranged : ∀ v ∈ c.voters, v < 256) : (write c).length ≤ 2083 := by
  cases c with
  | stable voters =>
    have hvoters := length_write_nodes (validateSet_ok hvalid).2.1
      fun v hv => hranged v (mem_voters.2 hv)
    have hframe : Json.frame ["phase", "voters"] = 20 := by decide +kernel
    have hphase : (write "stable").length = 8 := by decide +kernel
    show (Json.object [("phase", write "stable"), ("voters", write voters)]).length ≤ 2083
    rw [Json.length_object]
    simp only [List.map_cons, List.map_nil, List.sum_cons, List.sum_nil, hframe, hphase]
    omega
  | joint old new =>
    obtain ⟨hold, hnew⟩ := validate_joint.1 hvalid
    have hold := length_write_nodes (validateSet_ok hold).2.1
      fun v hv => hranged v (mem_voters.2 (Or.inl hv))
    have hnew := length_write_nodes (validateSet_ok hnew).2.1
      fun v hv => hranged v (mem_voters.2 (Or.inr hv))
    have hframe : Json.frame ["phase", "old", "new"] = 24 := by decide +kernel
    have hphase : (write "joint").length = 7 := by decide +kernel
    show (Json.object [("phase", write "joint"), ("old", write old),
      ("new", write new)]).length ≤ 2083
    rw [Json.length_object]
    simp only [List.map_cons, List.map_nil, List.sum_cons, List.sum_nil, hframe, hphase]
    omega

/-- There are no more different bytes than that. -/
theorem length_le_of_nodup {l : List NodeId} (hnodup : l.Nodup) (h : ∀ v ∈ l, v < 256) :
    l.length ≤ 256 := by
  have hsub : l ⊆ List.range 256 := fun v hv => List.mem_range.2 (h v hv)
  simpa using (hnodup.subperm hsub).length_le

theorem length_write_set {t : BTreeSet NodeId} (h : ∀ v ∈ t, v < 256) :
    (write t.toList).length ≤ 1026 := by
  have hranged : ∀ v ∈ t.toList, v < 256 := fun v hv => h v (Std.ExtTreeSet.mem_toList.1 hv)
  have hnodup : t.toList.Nodup := Std.ExtTreeSet.distinct_toList.imp Std.ReflCmp.ne_of_cmp_ne_eq
  exact length_write_nodes (length_le_of_nodup hnodup hranged) hranged

theorem length_text_node : ∀ v < 256, (Json.text (toString v)).length ≤ 5 := by
  decide +kernel

theorem MembershipState.Bounded.length_endpoints {m : MembershipState} (h : m.Bounded) :
    (Json.mapping (fun id => toString id) m.endpoints.toList).length ≤ 531458 := by
  have hget : ∀ b ∈ m.endpoints.toList, b.1 < 256 ∧ b.2.validate = .ok () := fun b hb =>
    h.endpoints (Std.ExtTreeMap.mem_toList_iff_getElem?_eq_some.1 hb)
  have hcount : m.endpoints.toList.length ≤ 256 := by
    have hnodup : (m.endpoints.toList.map Prod.fst).Nodup := by
      rw [Std.ExtTreeMap.map_fst_toList_eq_keys]
      exact Std.ExtTreeMap.nodup_keys
    rw [← List.length_map Prod.fst]
    refine length_le_of_nodup hnodup fun v hv => ?_
    obtain ⟨b, hb, rfl⟩ := List.mem_map.1 hv
    exact (hget b hb).1
  show _ ≤ 2 + 256 * (2074 + 2)
  refine Json.length_mapping_le (fun b hb => ?_) hcount
  have hkey := length_text_node b.1 (hget b hb).1
  have hvalue := MemberEndpoints.length_write (hget b hb).2
  omega

theorem MembershipState.Bounded.length_records {m : MembershipState} (h : m.Bounded)
    (hcount : m.records.size ≤ maxAdminRecords) :
    (Json.mapping (fun id => id) m.records.toList).length ≤ 2599938 := by
  show _ ≤ 2 + maxAdminRecords * (2537 + 2)
  refine Json.length_mapping_le (fun b hb => ?_) (by rwa [Std.ExtTreeMap.length_toList])
  obtain ⟨hid, hrecord⟩ := h.records (Std.ExtTreeMap.mem_toList_iff_getElem?_eq_some.1 hb)
  have hkey : (Json.text b.1).length ≤ 258 := length_write_id hid
  have hvalue := hrecord.length_write
  omega

theorem MembershipState.Bounded.length_write {m : MembershipState} (h : m.Bounded)
    (hlawful : m.Lawful) (hcount : m.records.size ≤ maxAdminRecords) :
    (write m).length ≤ 3136915 := by
  have hranged (v : NodeId) : (v ∈ m.voters.voters ∨ v ∈ m.learners) ∨ v ∈ m.retired → v < 256 :=
    fun hv => h.known v (mem_known.2 hv)
  have hversion : (write m.version).length = 1 := by
    rw [h.version]
    decide
  have hgroup := length_write_id h.group
  have hgenesis := length_write_nodes (validateSet_ok h.genesis.1).2.1 h.genesis.2
  have hvoters := VoterConfig.length_write hlawful.voters fun v hv => hranged v (Or.inl (Or.inl hv))
  have hlearners := length_write_set fun v hv => hranged v (Or.inl (Or.inr hv))
  have hretired := length_write_set fun v hv => hranged v (Or.inr hv)
  have hendpoints := h.length_endpoints
  have hrecords := h.length_records hcount
  have hframe : Json.frame ["version", "group_id", "genesis_voters", "voters", "learners",
      "retired", "endpoints", "records"] = 99 := by decide +kernel
  show (Json.object [("version", write m.version), ("group_id", write m.groupId),
    ("genesis_voters", write m.genesisVoters), ("voters", write m.voters),
    ("learners", write m.learners.toList), ("retired", write m.retired.toList),
    ("endpoints", Json.mapping (fun id => toString id) m.endpoints.toList),
    ("records", Json.mapping (fun id => id) m.records.toList)]).length ≤ 3136915
  rw [Json.length_object]
  simp only [List.map_cons, List.map_nil, List.sum_cons, List.sum_nil, hframe]
  omega

/-- The encoding of a membership stays within its bound. -/
theorem CommittedMembership.length_write (h : m.state.Bounded) (hlawful : m.state.Lawful)
    (hcount : m.state.records.size ≤ maxAdminRecords) (hindex : m.index ≤ u64Max)
    (hterm : m.term ≤ u64Max) : (write m).length ≤ maxMembershipJsonBytes := by
  have hindex := length_write_u64 hindex
  have hterm := length_write_u64 hterm
  have hstate := h.length_write hlawful hcount
  have hframe : Json.frame ["index", "term", "state"] = 27 := by decide +kernel
  show (Json.object [("index", write m.index), ("term", write m.term),
    ("state", write m.state)]).length ≤ 3145728
  rw [Json.length_object]
  simp only [List.map_cons, List.map_nil, List.sum_cons, List.sum_nil, hframe]
  omega

/-! ## All invariants of a history -/

/-- The voter lists of a configuration. -/
def VoterConfig.lists : VoterConfig → List (List NodeId)
  | .stable voters => [voters]
  | .joint old new => [old, new]

theorem VoterConfig.lists_valid {c : VoterConfig} (h : c.validate = .ok ()) :
    ∀ l ∈ c.lists, l ≠ [] ∧ l.Pairwise (· < ·) := by
  have hset : ∀ {l : List NodeId}, validateSet l = .ok () → l ≠ [] ∧ l.Pairwise (· < ·) :=
    fun hl => ⟨(validateSet_ok hl).1, List.isChain_iff_pairwise.1 (validateSet_ok hl).2.2⟩
  intro l hl
  cases c with
  | stable voters =>
    obtain rfl := List.mem_singleton.1 hl
    exact hset h
  | joint old new =>
    obtain ⟨hold, hnew⟩ := validate_joint.1 h
    rcases List.mem_cons.1 hl with rfl | hl
    · exact hset hold
    · obtain rfl := List.mem_singleton.1 hl
      exact hset hnew

theorem CommittedMembership.replay_orderly (hg : Genesis g) (h : g.replay evs = .ok m) :
    m.Orderly :=
  replay_preserves Orderly.advance hg.orderly h

/-- **Membership history invariants.** -/
theorem membership_history_invariants (groupId : String) (voters : List NodeId)
    (g m : CommittedMembership) (evs : List ConfigurationEvent)
    (hg : CommittedMembership.bootstrapWithGroup groupId voters = .ok g)
    (hm : g.replay evs = .ok m) :
    -- voter lists are nonempty, sorted and free of duplicates
    (∀ l ∈ m.state.voters.lists, l ≠ [] ∧ l.Pairwise (· < ·)) ∧
    -- voters, learners and the retired are apart
    (∀ v ∈ m.state.learners, v ∉ m.state.voters.voters) ∧
    (∀ v ∈ m.state.retired, v ∉ m.state.voters.voters ∧ v ∉ m.state.learners) ∧
    -- the retired stay retired and never return
    (∀ evs' m', m.replay evs' = .ok m' → ∀ v ∈ m.state.retired,
      v ∈ m'.state.retired ∧ v ∉ m'.state.voters.voters ∧ v ∉ m'.state.learners) ∧
    -- a node is admitted at most once, and its endpoints stay known
    (∀ id, (evs.filter fun e => e.2.2.admits id).length ≤ 1) ∧
    (∀ id, (∃ e ∈ evs, e.2.2.admits id = true) → id ∈ m.state.endpoints) ∧
    -- at most one record is pending, and exactly then the voters are joint
    (∀ (id id' : String) (r r' : AdminRecord), m.state.records[id]? = some r → r.finalIndex = none →
      m.state.records[id']? = some r' → r'.finalIndex = none → id = id') ∧
    (m.state.voters.isJoint = true ↔ ∃ (id : String) (r : AdminRecord),
      m.state.records[id]? = some r ∧ r.finalIndex = none) ∧
    -- the records are bounded, and so is the encoding
    m.state.records.size ≤ maxAdminRecords ∧
    ((∀ v ∈ voters, v < 256) → (∀ e ∈ evs, ConfigurationEvent.Ranged e) →
      (write m).length ≤ maxMembershipJsonBytes) := by
  have hgenesis : Genesis g := ⟨groupId, voters, hg⟩
  have hlawful := CommittedMembership.replay_lawful hgenesis hm
  have horderly := CommittedMembership.replay_orderly hgenesis hm
  have hretains := Retains.of_replay hgenesis hm
  refine ⟨VoterConfig.lists_valid hlawful.voters, hlawful.apart, hlawful.gone, ?_,
    fun id => (CommittedMembership.replay_admissions hgenesis hm id).1,
    fun id he => ((CommittedMembership.replay_admissions hgenesis hm id).2 he).2,
    fun id id' r r' => horderly.unique, ⟨hlawful.joint, ?_⟩, hretains.size, ?_⟩
  · intro evs' m' hm' v hv
    have hboth : m'.state.Lawful ∧ v ∈ m'.state.retired :=
      CommittedMembership.replay_preserves (P := fun m => m.state.Lawful ∧ v ∈ m.state.retired)
        (fun h hadv => ⟨CommittedMembership.lawful_advance h.1 hadv,
          CommittedMembership.advanced_retired h.1 hadv h.2⟩) ⟨hlawful, hv⟩ hm'
    exact ⟨hboth.2, hboth.1.gone v hboth.2⟩
  · rintro ⟨id, r, hr, hnone⟩
    obtain ⟨⟨old, new, hjoint⟩, -⟩ := horderly.pending hr hnone
    rw [hjoint]
    rfl
  · intro hvoters hevs
    have hrange : ∀ v ∈ g.state.genesisVoters, v < 256 := by
      obtain ⟨-, -, rfl⟩ := CommittedMembership.bootstrapWithGroup_eq_ok hg
      exact hvoters
    obtain ⟨hbounded, hindex, hterm⟩ :=
      CommittedMembership.replay_bounded hgenesis hrange hevs hm
    exact CommittedMembership.length_write hbounded hlawful hretains.size hindex hterm

theorem membership_history_invariants_replacement :
    ∃ m, trio.replay replacement = .ok m ∧ m.state.retired.toList = [3] ∧
      (write m).length ≤ maxMembershipJsonBytes := by
  obtain ⟨m, hm, hfacts⟩ := (Option.any_eq_true _ _).1 replacement_builds
  simp only [Bool.and_eq_true, decide_eq_true_eq] at hfacts
  have hreplay := toOption_eq_some hm
  have hinv := membership_history_invariants "trio" [1, 2, 3] trio m replacement rfl hreplay
  exact ⟨m, hreplay, hfacts.1.1.2, hinv.2.2.2.2.2.2.2.2.2 (by decide) (by decide)⟩

end MicroRaft
