import MicroRaft.Application.Items

/-!
# Reading the cells of a state

`decode_cells` collects the cells by kind, joins headers with registrations and records,
and imports the result.  On any list of the cells of a state, in whatever order, it gives
the state back (`decodeCells_eq`), as long as the JSON library reads back the texts of its
cells (`CellReader.RoundTrips`).
-/

namespace MicroRaft.Application

open Store (Digest Mutation Key Value IoError overlay invalid)
open Bytes (be ofBe)

variable {sha : Digest} {s s' : StateMachine} {identity : ApplicationIdentity}
  {id index term : Nat} {key nonce : String} {session : Session} {record : KeyRecord}
  {reader : CellReader}

/-! ## The texts of cells -/

/-- The JSON library reads back the texts of a state's cells. -/
structure CellReader.RoundTrips (reader : CellReader) (s : StateMachine)
    (identity : ApplicationIdentity) (term : Nat) : Prop where
  metadata : (Json.Format.compact reader.metadata).RoundTrips
    (Application.metadata s identity term)
  header : ∀ {id : Nat} {session : Session}, s.sessions[id]? = some session →
    (Json.Format.compact reader.header).RoundTrips ⟨session.registered, session.closed⟩
  record : ∀ {id : Nat} {key record}, s.recordOf id key = some record →
    (Json.Format.compact reader.record).RoundTrips record

theorem parse_eq {α : Type} [Json.Serialize α] {read : List UInt8 → Option α} {a : α}
    (h : (Json.Format.compact read).RoundTrips a) : parse read (Json.write a) = .ok a := by
  have hread : read (Json.write a) = some a := h
  rw [parse, hread]

theorem text_utf8 (s : String) : text (utf8 s) = .ok s := by
  rw [text, fromUtf8_utf8]

theorem sessionId_be (h : id ≤ u64Max) : sessionId (be 8 id) = .ok id := by
  have hlimit : u64Max < 256 ^ 8 := by decide
  rw [sessionId, if_pos (Bytes.length_be 8 id), Bytes.ofBe_be (by omega)]

/-! ## One cell -/

theorem stripSpace_append {space rest : List UInt8} :
    stripSpace space (space ++ rest) = some rest := by
  rw [stripSpace, List.take_left' rfl, if_pos rfl, List.drop_left' rfl]

theorem stripSpace_ne {space space' rest : List UInt8} (hlength : space'.length = space.length)
    (hne : space' ≠ space) : stripSpace space (space' ++ rest) = none := by
  rw [stripSpace, List.take_left' hlength, if_neg hne]

/-- What a cell of a state adds to what is collected. -/
def Decoding.add (s : StateMachine) (identity : ApplicationIdentity) (term : Nat) (d : Decoding) :
    Item → Decoding
  | .metadata => { d with metadata := some (Application.metadata s identity term) }
  | .value key => { d with values := d.values ++ ((s.values[key]?).map fun v => (key, v)).toList }
  | .nonce nonce =>
      { d with registrations := (s.registrations[nonce]?).elim d.registrations fun id =>
          d.registrations.insert id nonce }
  | .header id =>
      { d with headers := (s.sessions[id]?).elim d.headers fun session =>
          d.headers.insert id ⟨session.registered, session.closed⟩ }
  | .record id key =>
      { d with keys := (s.recordOf id key).elim d.keys fun record =>
          d.keys.insert id ((d.keys[id]?).getD [] ++ [record]) }

/-- The cell has been seen. -/
def Decoding.see (d : Decoding) (i : Item) : Decoding := { d with seen := d.seen.insert i.cellKey }

theorem utf8ByteSize_pos (h : validKey key = true) : 0 < key.utf8ByteSize := by
  have hempty : key.isEmpty = false := by
    simp only [validKey, Bool.not_eq_true', Bool.or_eq_false_iff] at h
    exact h.1
  rw [String.isEmpty, beq_eq_false_iff_ne] at hempty
  exact Nat.pos_of_ne_zero hempty

/-- **A cell of a valid state** is collected. -/
theorem Decoding.row_eq (h : s.Valid sha) (hreader : reader.RoundTrips s identity term)
    {i : Item} {v : Value} (hcell : cellOf s identity term i = some v) (d : Decoding)
    (hnew : i.cellKey ∉ d.seen)
    (hnonce : ∀ nonce id, i = .nonce nonce → s.registrations[nonce]? = some id →
      d.registrations[id]? = none) :
    d.row reader i.cellKey v = .ok ((d.see i).add s identity term i) := by
  have hfits : i.Fits := h.fits (by rw [hcell]; exact Option.some_ne_none v)
  have hmeta : ∀ j : Item, j.Fits → j ≠ .metadata → j.cellKey ≠ metaKey :=
    fun j hj hne heq => hne (Item.cellKey_inj (j := .metadata) hj trivial heq)
  unfold Decoding.row
  rw [if_neg hnew]
  cases i with
  | metadata =>
    cases hcell
    rw [Item.cellKey, if_pos rfl, parse_eq hreader.metadata]
    rfl
  | value key =>
    obtain ⟨value, hvalue, rfl⟩ := Option.map_eq_some_iff.1 hcell
    rw [if_neg (hmeta _ hfits (by simp))]
    dsimp only
    rw [Item.cellKey, named, stripSpace_append]
    simp only [text_utf8, bind, Except.bind]
    rw [Decoding.add, hvalue]
    rfl
  | nonce nonce =>
    obtain ⟨id, hid, rfl⟩ := Option.map_eq_some_iff.1 hcell
    obtain ⟨-, session, hsession⟩ := h.nonces nonce id hid
    have hle : id ≤ u64Max := (h.sessions id session hsession).applied.trans h.lastApplied
    rw [if_neg (hmeta _ hfits (by simp))]
    dsimp only
    have hvalue : stripSpace valueSpace (nonceSpace ++ utf8 nonce) = none :=
      stripSpace_ne rfl (by decide)
    rw [Item.cellKey, named, hvalue, stripSpace_append]
    simp only [text_utf8, sessionId_be hle, bind, Except.bind, hnonce nonce id rfl hid, ne_eq,
      not_true_eq_false, if_false]
    rw [Decoding.add, hid]
    rfl
  | header id =>
    obtain ⟨session, hsession, rfl⟩ := Option.map_eq_some_iff.1 hcell
    rw [if_neg (hmeta _ hfits (by simp))]
    dsimp only
    have hvalue : stripSpace valueSpace (headerSpace ++ be 8 id) = none :=
      stripSpace_ne rfl (by decide)
    have hspace : stripSpace nonceSpace (headerSpace ++ be 8 id) = none :=
      stripSpace_ne rfl (by decide)
    rw [Item.cellKey_eq, Item.space, Item.tail, hvalue, hspace, stripSpace_append]
    simp only [sessionId_be hfits, parse_eq (hreader.header hsession), bind, Except.bind]
    rw [Decoding.add, hsession]
    simp only [Decoding.see, Item.cellKey_eq, Item.space, Item.tail]
    rfl
  | record id key =>
    obtain ⟨exported, hexported, rfl⟩ := Option.map_eq_some_iff.1 hcell
    obtain ⟨session, hsession, hmap⟩ := Option.bind_eq_some_iff.1 hexported
    obtain ⟨record, hrecord, rfl⟩ := Option.map_eq_some_iff.1 hmap
    have hkey := ((h.sessions id session hsession).keys key record hrecord).valid
    have hlength : (be 8 id).length = 8 := Bytes.length_be 8 id
    have hlong : ¬ (be 8 id ++ utf8 key).length ≤ 8 := by
      have hpos := utf8ByteSize_pos hkey
      rw [List.length_append, hlength, length_utf8]
      omega
    rw [if_neg (hmeta _ hfits (by simp))]
    dsimp only
    have hvalue : stripSpace valueSpace (recordSpace ++ (be 8 id ++ utf8 key)) = none :=
      stripSpace_ne rfl (by decide)
    have hspace : stripSpace nonceSpace (recordSpace ++ (be 8 id ++ utf8 key)) = none :=
      stripSpace_ne rfl (by decide)
    have hheader : stripSpace headerSpace (recordSpace ++ (be 8 id ++ utf8 key)) = none :=
      stripSpace_ne rfl (by decide)
    rw [Item.cellKey_eq, Item.space, Item.tail, hvalue, hspace, hheader, stripSpace_append]
    dsimp only
    rw [if_neg hlong, List.take_left' hlength, List.drop_left' hlength]
    have hname : (exportKey (key, record)).key = key := rfl
    simp only [sessionId_be hfits, parse_eq (hreader.record hexported), text_utf8, bind,
      Except.bind, hname, ne_eq, not_true_eq_false, if_false]
    rw [Decoding.add, hexported]
    simp only [Decoding.see, Item.cellKey_eq, Item.space, Item.tail]
    rfl

/-! ## All cells -/

/-- The records of a session among some items. -/
def recordsAmong (s : StateMachine) (id : Nat) (items : List Item) : List (String × KeyRecord) :=
  items.filterMap fun
    | .record id' key =>
        if id' = id then (s.sessions[id]?).bind fun session =>
          (session.keys[key]?).map fun record => (key, record)
        else none
    | _ => none

/-- The values among some items. -/
def valuesAmong (s : StateMachine) (items : List Item) : List (String × String) :=
  items.filterMap fun
    | .value key => (s.values[key]?).map fun value => (key, value)
    | _ => none

/-- What the loop has collected from some items. -/
structure Collected (s : StateMachine) (identity : ApplicationIdentity) (term : Nat)
    (items : List Item) (d : Decoding) : Prop where
  seen : ∀ k, k ∈ d.seen ↔ ∃ i ∈ items, i.cellKey = k
  metadata : .metadata ∈ items → d.metadata = some (metadata s identity term)
  values : d.values = valuesAmong s items
  registrations : ∀ (id : Nat) (nonce : String), d.registrations[id]? = some nonce ↔
    .nonce nonce ∈ items ∧ s.registrations[nonce]? = some id
  headers : ∀ (id : Nat) (header : SessionHeader), d.headers[id]? = some header ↔
    .header id ∈ items ∧ ∃ session, s.sessions[id]? = some session ∧
      header = ⟨session.registered, session.closed⟩
  keys : ∀ id : Nat, (d.keys[id]?).getD [] = (recordsAmong s id items).map exportKey
  /-- There are no empty lists. -/
  filled : ∀ id : Nat, d.keys[id]? ≠ none → recordsAmong s id items ≠ []

theorem collected_start : Collected s identity term [] .start where
  seen k := by simp [Decoding.start]
  metadata h := by cases h
  values := rfl
  registrations id nonce := by simp [Decoding.start]
  headers id header := by simp [Decoding.start]
  keys id := by simp [Decoding.start, recordsAmong]
  filled id h := by simp [Decoding.start] at h

theorem recordsAmong_append {items : List Item} {i : Item} :
    recordsAmong s id (items ++ [i]) = recordsAmong s id items ++ recordsAmong s id [i] :=
  List.filterMap_append

theorem valuesAmong_append {items : List Item} {i : Item} :
    valuesAmong s (items ++ [i]) = valuesAmong s items ++ valuesAmong s [i] :=
  List.filterMap_append

section Add

variable {items : List Item} {d : Decoding} (h : Collected s identity term items d)

include h

theorem Collected.add_registrations (hvalid : s.Valid sha) {i : Item}
    (hcell : cellOf s identity term i ≠ none) (hnew : i ∉ items) (id : Nat) (nonce : String) :
    ((d.see i).add s identity term i).registrations[id]? = some nonce ↔
      .nonce nonce ∈ items ++ [i] ∧ s.registrations[nonce]? = some id := by
  cases i with
  | nonce nonce' =>
    obtain ⟨id', hid'⟩ := map_ne_none.1 hcell
    simp only [Decoding.add, Decoding.see, hid', Option.elim_some, Table.getElem?_insert,
      List.mem_append, List.mem_singleton, Item.nonce.injEq]
    by_cases hid : id = id'
    · subst hid
      rw [if_pos rfl, Option.some.injEq]
      constructor
      · rintro rfl
        exact ⟨.inr rfl, hid'⟩
      · rintro ⟨hmem | rfl, hother⟩
        · exact hvalid.injective _ _ _ hid' hother
        · rfl
    · rw [if_neg hid, h.registrations]
      constructor
      · rintro ⟨hmem, hother⟩
        exact ⟨.inl hmem, hother⟩
      · rintro ⟨hmem | rfl, hother⟩
        · exact ⟨hmem, hother⟩
        · rw [hid'] at hother
          exact absurd (Option.some.inj hother).symm hid
  | _ => simpa [Decoding.add, Decoding.see] using h.registrations id nonce

theorem Collected.add_headers {i : Item} (hcell : cellOf s identity term i ≠ none) (id : Nat)
    (header : SessionHeader) :
    ((d.see i).add s identity term i).headers[id]? = some header ↔
      .header id ∈ items ++ [i] ∧ ∃ session, s.sessions[id]? = some session ∧
        header = ⟨session.registered, session.closed⟩ := by
  cases i with
  | header id' =>
    obtain ⟨session, hsession⟩ := map_ne_none.1 hcell
    simp only [Decoding.add, Decoding.see, hsession, Option.elim_some, Table.getElem?_insert,
      List.mem_append, List.mem_singleton, Item.header.injEq]
    by_cases hid : id = id'
    · subst hid
      simp only [if_true, or_true, true_and, hsession, Option.some.injEq, exists_eq_left', eq_comm]
    · simp only [hid, if_false, or_false]
      exact h.headers id header
  | _ => simpa [Decoding.add, Decoding.see] using h.headers id header

theorem Collected.add_keys {i : Item} (hcell : cellOf s identity term i ≠ none) (id : Nat) :
    (((d.see i).add s identity term i).keys[id]?).getD [] =
      (recordsAmong s id (items ++ [i])).map exportKey ∧
    (((d.see i).add s identity term i).keys[id]? ≠ none →
      recordsAmong s id (items ++ [i]) ≠ []) := by
  rw [recordsAmong_append]
  cases i with
  | record id' key =>
    obtain ⟨exported, hexported⟩ := map_ne_none.1 hcell
    obtain ⟨session, hsession, hmap⟩ := Option.bind_eq_some_iff.1 hexported
    obtain ⟨record, hrecord, rfl⟩ := Option.map_eq_some_iff.1 hmap
    simp only [Decoding.add, Decoding.see, hexported, Option.elim_some, Table.getElem?_insert]
    by_cases hid : id = id'
    · subst hid
      have hone : recordsAmong s id [.record id key] = [(key, record)] := by
        simp [recordsAmong, hsession, hrecord]
      rw [if_pos rfl, hone, List.map_append, ← h.keys id]
      exact ⟨rfl, fun _ => by simp⟩
    · have hone : recordsAmong s id [.record id' key] = [] := by
        simp [recordsAmong, Ne.symm hid]
      rw [if_neg hid, hone, List.append_nil]
      exact ⟨h.keys id, h.filled id⟩
  | metadata | value _ | nonce _ | header _ =>
    rw [show recordsAmong s id [_] = [] from rfl, List.append_nil]
    exact ⟨h.keys id, h.filled id⟩

/-- **One more item** is collected. -/
theorem Collected.add (hvalid : s.Valid sha) {i : Item} (hcell : cellOf s identity term i ≠ none)
    (hnew : i ∉ items) :
    Collected s identity term (items ++ [i]) ((d.see i).add s identity term i) where
  seen k := by
    have hseen : ((d.see i).add s identity term i).seen = d.seen.insert i.cellKey := by
      cases i <;> rfl
    rw [hseen, Std.ExtTreeSet.mem_insert, Std.compare_eq_iff_eq, h.seen]
    simp only [List.mem_append, List.mem_singleton]
    constructor
    · rintro (heq | ⟨j, hj, heq⟩)
      · exact ⟨i, .inr rfl, heq⟩
      · exact ⟨j, .inl hj, heq⟩
    · rintro ⟨j, hj | rfl, heq⟩
      · exact .inr ⟨j, hj, heq⟩
      · exact .inl heq
  metadata hmem := by
    cases i with
    | metadata => rfl
    | _ => exact h.metadata (by simpa using hmem)
  values := by
    rw [valuesAmong_append, ← h.values]
    cases i with
    | value key =>
      obtain ⟨value, hvalue⟩ := map_ne_none.1 hcell
      simp [Decoding.add, Decoding.see, valuesAmong, hvalue]
    | _ => simp [Decoding.add, Decoding.see, valuesAmong]
  registrations := h.add_registrations hvalid hcell hnew
  headers := h.add_headers hcell
  keys id := (h.add_keys hcell id).1
  filled id := (h.add_keys hcell id).2

end Add

/-- A row for each item. -/
def rowOf (s : StateMachine) (identity : ApplicationIdentity) (term : Nat) (i : Item) :
    List UInt8 × List UInt8 :=
  (i.cellKey, (cellOf s identity term i).getD [])

theorem Collected.rows (hvalid : s.Valid sha) (hreader : reader.RoundTrips s identity term)
    {done rest : List Item} {d : Decoding} (h : Collected s identity term done d)
    (hnodup : (done ++ rest).Nodup) (hcells : ∀ i ∈ done ++ rest, cellOf s identity term i ≠ none) :
    ∃ d', Decoding.rows reader (rest.map (rowOf s identity term)) d = .ok d' ∧
      Collected s identity term (done ++ rest) d' := by
  induction rest generalizing done d with
  | nil =>
    rw [List.append_nil]
    exact ⟨d, rfl, h⟩
  | cons i rest ih =>
    have hcell : cellOf s identity term i ≠ none := hcells i (by simp)
    have hnew : i ∉ done := fun hin =>
      (List.nodup_append.1 hnodup).2.2 i hin i List.mem_cons_self rfl
    obtain ⟨v, hv⟩ := Option.ne_none_iff_exists'.1 hcell
    have hseen : i.cellKey ∉ d.seen := by
      rw [h.seen]
      rintro ⟨j, hj, heq⟩
      have hjcell := hcells j (List.mem_append_left _ hj)
      exact hnew (Item.cellKey_inj (hvalid.fits hjcell) (hvalid.fits hcell) heq ▸ hj)
    have hnonce : ∀ nonce id, i = .nonce nonce → s.registrations[nonce]? = some id →
        d.registrations[id]? = none := by
      intro nonce id heq hid
      cases hother : d.registrations[id]? with
      | none => rfl
      | some nonce' =>
        obtain ⟨hmem, hid'⟩ := (h.registrations id nonce').1 hother
        rw [hvalid.injective _ _ _ hid' hid, ← heq] at hmem
        exact absurd hmem hnew
    have hrow := Decoding.row_eq hvalid hreader hv d hseen hnonce
    rw [List.append_cons] at hnodup hcells
    obtain ⟨d', hrows, hcollected⟩ := ih (h.add hvalid hcell hnew) hnodup hcells
    rw [← List.append_cons] at hcollected
    refine ⟨d', ?_, hcollected⟩
    rw [List.map_cons, rowOf, hv, Option.getD_some, Decoding.rows, hrow]
    exact hrows

/-! ## The sessions -/

/-- Headers are joined with their registrations and records. -/
theorem joinSessions_spec {l : List (Nat × SessionHeader)} (registrations : BTreeMap Nat String)
    (keys : BTreeMap Nat (List SessionKeySnapshot)) (hnodup : (l.map Prod.fst).Nodup)
    (nonceOf : Nat → String) (hnonce : ∀ p ∈ l, registrations[p.1]? = some (nonceOf p.1)) :
    ∃ left leftKeys, joinSessions l registrations keys =
        .ok (l.map fun p => ⟨nonceOf p.1, p.1, p.2.registered, p.2.closed, (keys[p.1]?).getD []⟩,
          left, leftKeys) ∧
      (∀ id : Nat, left[id]? = if id ∈ l.map Prod.fst then none else registrations[id]?) ∧
      ∀ id : Nat, leftKeys[id]? = if id ∈ l.map Prod.fst then none else keys[id]? := by
  induction l generalizing registrations keys with
  | nil => exact ⟨registrations, keys, rfl, by simp, by simp⟩
  | cons p rest ih =>
    obtain ⟨hnew, hnodup⟩ := List.nodup_cons.1 hnodup
    obtain ⟨hp, hrest⟩ := List.forall_mem_cons.1 hnonce
    have hother : ∀ q ∈ rest, q.1 ≠ p.1 := fun q hq heq =>
      hnew (heq ▸ List.mem_map_of_mem hq)
    obtain ⟨left, leftKeys, hjoin, hleft, hleftKeys⟩ := ih (registrations.erase p.1)
      (keys.erase p.1) hnodup fun q hq => by
        rw [Table.getElem?_erase, if_neg (hother q hq)]
        exact hrest q hq
    have hsame : (rest.map fun q => (⟨nonceOf q.1, q.1, q.2.registered, q.2.closed,
        ((keys.erase p.1)[q.1]?).getD []⟩ : SessionSnapshot)) =
        rest.map fun q => ⟨nonceOf q.1, q.1, q.2.registered, q.2.closed, (keys[q.1]?).getD []⟩ := by
      refine List.map_congr_left fun q hq => ?_
      rw [Table.getElem?_erase, if_neg (hother q hq)]
    have hmem : ∀ id, id ∈ (p :: rest).map Prod.fst ↔ id = p.1 ∨ id ∈ rest.map Prod.fst :=
      fun id => List.mem_cons
    refine ⟨left, leftKeys, ?_, fun id => ?_, fun id => ?_⟩
    · rw [joinSessions, hp]
      dsimp only
      rw [hjoin, hsame]
      rfl
    · rw [hleft, Table.getElem?_erase]
      by_cases hid : id = p.1
      · simp only [hmem, hid, true_or, if_true, ite_self]
      · simp only [hmem, hid, false_or, if_false]
    · rw [hleftKeys, Table.getElem?_erase]
      by_cases hid : id = p.1
      · simp only [hmem, hid, true_or, if_true, ite_self]
      · simp only [hmem, hid, false_or, if_false]

/-! ## The whole state -/

/-- All items of a state, in some order. -/
structure Complete (s : StateMachine) (identity : ApplicationIdentity) (term : Nat)
    (items : List Item) : Prop where
  nodup : items.Nodup
  mem : ∀ i, i ∈ items ↔ cellOf s identity term i ≠ none

section Complete

variable {items : List Item} (hcomplete : Complete s identity term items)

include hcomplete

theorem Complete.values :
    ((valuesAmong s items).map Prod.fst).Nodup ∧
      ∀ p, p ∈ valuesAmong s items ↔ s.values[p.1]? = some p.2 := by
  constructor
  · rw [valuesAmong, List.map_filterMap]
    refine hcomplete.nodup.filterMap fun i j key hi hj => ?_
    have hkey : ∀ i : Item, key ∈ Option.map Prod.fst (match i with
        | .value key => (s.values[key]?).map fun value => (key, value)
        | _ => none) → i = .value key := by
      intro i hi
      cases i with
      | value key' =>
        obtain ⟨p, hp, rfl⟩ := Option.map_eq_some_iff.1 hi
        obtain ⟨value, -, rfl⟩ := Option.map_eq_some_iff.1 hp
        rfl
      | _ => cases hi
    rw [hkey i hi, hkey j hj]
  · intro p
    rw [valuesAmong, List.mem_filterMap]
    constructor
    · rintro ⟨i, -, hi⟩
      cases i with
      | value key =>
        obtain ⟨value, hvalue, rfl⟩ := Option.map_eq_some_iff.1 hi
        exact hvalue
      | _ => cases hi
    · intro hvalue
      refine ⟨.value p.1, (hcomplete.mem _).2 ?_, ?_⟩
      · rw [cellOf, hvalue]
        exact Option.some_ne_none _
      · dsimp only
        rw [hvalue]
        rfl

theorem Complete.records (hsession : s.sessions[id]? = some session) :
    (recordsAmong s id items).Perm session.keys.toList := by
  refine (List.perm_ext_iff_of_nodup ?_ (Table.nodup_toList _)).2 fun p => ?_
  · rw [recordsAmong]
    refine hcomplete.nodup.filterMap fun i j p hi hj => ?_
    have hkey : ∀ i : Item, p ∈ (match i with
        | .record id' key =>
          if id' = id then (s.sessions[id]?).bind fun session =>
            (session.keys[key]?).map fun record => (key, record)
          else none
        | _ => none) → i = .record id p.1 := by
      intro i hi
      cases i with
      | record id' key =>
        dsimp only at hi
        split at hi
        · next heq =>
            obtain ⟨session, -, hmap⟩ := Option.bind_eq_some_iff.1 hi
            obtain ⟨record, -, rfl⟩ := Option.map_eq_some_iff.1 hmap
            rw [heq]
        · cases hi
      | _ => cases hi
    rw [hkey i hi, hkey j hj]
  · rw [recordsAmong, List.mem_filterMap, Table.mem_toList]
    constructor
    · rintro ⟨i, -, hi⟩
      cases i with
      | record id' key =>
        dsimp only at hi
        split at hi
        · rw [hsession, Option.bind_some] at hi
          obtain ⟨record, hrecord, rfl⟩ := Option.map_eq_some_iff.1 hi
          exact hrecord
        · cases hi
      | _ => cases hi
    · intro hrecord
      refine ⟨.record id p.1, (hcomplete.mem _).2 ?_, ?_⟩
      · rw [cellOf, StateMachine.recordOf, hsession, Option.bind_some, hrecord]
        exact Option.some_ne_none _
      · dsimp only
        rw [if_pos rfl, hsession, Option.bind_some, hrecord]
        rfl

end Complete

/-- The session under a header that has been read. -/
def namedOf (s : StateMachine) (items : List Item) (nonceOf : Nat → String)
    (p : Nat × SessionHeader) : Named where
  nonce := nonceOf p.1
  id := p.1
  session := ⟨p.2.registered, p.2.closed, (s.sessions[p.1]?).elim ∅ Session.keys⟩
  keys := recordsAmong s p.1 items

section Whole

variable {items : List Item} {d : Decoding} (hvalid : s.Valid sha)
  (hcomplete : Complete s identity term items) (hcollected : Collected s identity term items d)

include hcomplete hcollected

/-- The headers are those of all sessions. -/
theorem headers_iff (id : Nat) (header : SessionHeader) :
    (id, header) ∈ d.headers.toList ↔ ∃ session, s.sessions[id]? = some session ∧
      header = ⟨session.registered, session.closed⟩ := by
  rw [Table.mem_toList, hcollected.headers]
  constructor
  · exact fun h => h.2
  · rintro ⟨session, hsession, hheader⟩
    refine ⟨(hcomplete.mem _).2 ?_, session, hsession, hheader⟩
    rw [cellOf, hsession]
    exact Option.some_ne_none _

/-- The registrations are those of all nonces. -/
theorem registrations_iff (id : Nat) (nonce : String) :
    d.registrations[id]? = some nonce ↔ s.registrations[nonce]? = some id := by
  rw [hcollected.registrations]
  constructor
  · exact fun h => h.2
  · intro hid
    refine ⟨(hcomplete.mem _).2 ?_, hid⟩
    rw [cellOf, hid]
    exact Option.some_ne_none _

include hvalid

/-- Every header has a registration. -/
theorem nonce_of_header {p : Nat × SessionHeader} (hp : p ∈ d.headers.toList) :
    d.registrations[p.1]? = some ((d.registrations[p.1]?).getD "") := by
  obtain ⟨session, hsession, -⟩ := (headers_iff hcomplete hcollected p.1 p.2).1 hp
  obtain ⟨nonce, hnonce⟩ := hvalid.named p.1 session hsession
  rw [(registrations_iff hcomplete hcollected p.1 nonce).2 hnonce]
  rfl

/-- The joined sessions list the state. -/
theorem lists_namedOf :
    s.Lists (d.headers.toList.map (namedOf s items fun id => (d.registrations[id]?).getD "")) := by
  have hnonce : ∀ p ∈ d.headers.toList,
      s.registrations[(d.registrations[p.1]?).getD ""]? = some p.1 := fun p hp =>
    (registrations_iff hcomplete hcollected p.1 _).1
    (nonce_of_header hvalid hcomplete hcollected hp)
  refine ⟨?_, fun nonce id => ⟨?_, fun hid => ?_⟩, fun t ht => ?_, fun t ht => ?_⟩
  · rw [List.map_map]
    refine (Table.nodup_toList d.headers).map_on fun p hp q hq heq => ?_
    have hfirst := hnonce p hp
    rw [show (d.registrations[p.1]?).getD "" = (d.registrations[q.1]?).getD "" from heq,
      hnonce q hq] at hfirst
    have hid := Option.some.inj hfirst
    have hp := Table.mem_toList.1 hp
    rw [← hid, Table.mem_toList.1 hq] at hp
    exact Prod.ext hid.symm (Option.some.inj hp).symm
  · rintro ⟨t, ht, rfl, rfl⟩
    obtain ⟨p, hp, rfl⟩ := List.mem_map.1 ht
    exact hnonce p hp
  · obtain ⟨-, session, hsession⟩ := hvalid.nonces nonce id hid
    have hp := (headers_iff hcomplete hcollected id _).2 ⟨session, hsession, rfl⟩
    refine ⟨_, List.mem_map_of_mem hp, ?_, rfl⟩
    show (d.registrations[id]?).getD "" = nonce
    rw [(registrations_iff hcomplete hcollected id nonce).2 hid]
    rfl
  · obtain ⟨p, hp, rfl⟩ := List.mem_map.1 ht
    obtain ⟨session, hsession, hheader⟩ := (headers_iff hcomplete hcollected p.1 p.2).1 hp
    simp only [namedOf, hsession, hheader, Option.elim_some]
  · obtain ⟨p, hp, rfl⟩ := List.mem_map.1 ht
    obtain ⟨session, hsession, hheader⟩ := (headers_iff hcomplete hcollected p.1 p.2).1 hp
    simp only [namedOf, hsession, Option.elim_some]
    exact hcomplete.records hsession

/-- Nothing is left over. -/
theorem joinSessions_eq :
    ∃ left leftKeys, joinSessions d.headers.toList d.registrations d.keys =
        .ok ((d.headers.toList.map (namedOf s items fun id => (d.registrations[id]?).getD "")).map
          Named.snapshot, left, leftKeys) ∧
      left.isEmpty = true ∧ leftKeys.isEmpty = true := by
  obtain ⟨left, leftKeys, hjoin, hleft, hleftKeys⟩ := joinSessions_spec d.registrations d.keys
    (Table.nodup_keys d.headers) (fun id => (d.registrations[id]?).getD "")
    fun p hp => nonce_of_header hvalid hcomplete hcollected hp
  have hknown : ∀ id session, s.sessions[id]? = some session →
      id ∈ d.headers.toList.map Prod.fst := by
    intro id session hsession
    have hheader := (headers_iff hcomplete hcollected id _).2 ⟨session, hsession, rfl⟩
    exact List.mem_map.2 ⟨_, hheader, rfl⟩
  refine ⟨left, leftKeys, ?_, ?_, ?_⟩
  · rw [hjoin, List.map_map]
    refine congrArg Except.ok (Prod.ext (List.map_congr_left fun p hp => ?_) rfl)
    simp only [Function.comp_apply, namedOf, Named.snapshot, hcollected.keys]
  · refine Table.isEmpty_of_none fun id => ?_
    rw [hleft]
    by_cases hin : id ∈ d.headers.toList.map Prod.fst
    · rw [if_pos hin]
    rw [if_neg hin]
    cases hregistered : d.registrations[id]? with
    | none => rfl
    | some nonce =>
      have hid := (registrations_iff hcomplete hcollected id nonce).1 hregistered
      obtain ⟨-, session, hsession⟩ := hvalid.nonces nonce id hid
      exact absurd (hknown id session hsession) hin
  · refine Table.isEmpty_of_none fun id => ?_
    rw [hleftKeys]
    by_cases hin : id ∈ d.headers.toList.map Prod.fst
    · rw [if_pos hin]
    rw [if_neg hin]
    by_contra hsome
    -- a session without a header has no records
    have hnone : s.sessions[id]? = none := by
      cases hsession : s.sessions[id]? with
      | none => rfl
      | some session => exact absurd (hknown id session hsession) hin
    refine hcollected.filled id hsome (List.eq_nil_iff_forall_not_mem.2 fun p hp => ?_)
    obtain ⟨i, -, hi⟩ := List.mem_filterMap.1 hp
    cases i with
    | record id' key =>
      dsimp only at hi
      rw [hnone] at hi
      simp at hi
    | _ => cases hi

end Whole

/-- **The cells of a state**, in any order, are decoded as the state and its term. -/
theorem decodeCells_eq {items : List Item} (hvalid : s.Valid sha) (hbounded : s.ValuesBounded)
    (hreader : reader.RoundTrips s identity term) (happlied : 0 < s.lastApplied)
    (hpositive : 0 < term) (hcomplete : Complete s identity term items) :
    decodeCells reader sha (items.map (rowOf s identity term)) s.lastApplied identity =
      .ok (s, term) := by
  have hstart : Collected s identity term [] .start := collected_start
  obtain ⟨d, hrows, hcollected⟩ := hstart.rows hvalid hreader hcomplete.nodup
    fun i hi => (hcomplete.mem i).1 hi
  rw [List.nil_append] at hcollected
  have hmeta := hcollected.metadata ((hcomplete.mem _).2 (by simp [cellOf]))
  obtain ⟨left, leftKeys, hjoin, hempty, hemptyKeys⟩ := joinSessions_eq hvalid hcomplete hcollected
  have himport := hvalid.import_roster (lists_namedOf hvalid hcomplete hcollected) hbounded
    hcomplete.values.1 hcomplete.values.2 (.inl happlied)
  rw [decodeCells, if_neg (by omega), hrows]
  simp only [bind, Except.bind, hmeta]
  rw [if_neg (by simp [metadata]; omega), hjoin]
  simp only [hempty, hemptyKeys]
  rw [if_neg (by simp), hcollected.values]
  simp only [metadata, himport]

/-- The rows of some cells. -/
def rowsOf (cells : List Mutation) : List (List UInt8 × List UInt8) :=
  cells.filterMap fun c => c.value.map fun v => (c.key, v)

/-- Another order of a list of images is the list of images in another order. -/
theorem exists_perm_map {α β : Type} {f : α → β} {l : List α} {r : List β} (h : (l.map f).Perm r) :
    ∃ l', l.Perm l' ∧ l'.map f = r := by
  have hcomp : Relation.Comp (List.Forall₂ fun a b => f a = b) List.Perm l r :=
    ⟨l.map f, List.forall₂_map_right_iff.2 (List.forall₂_same.2 fun _ _ => rfl), h⟩
  rw [List.forall₂_comp_perm_eq_perm_comp_forall₂] at hcomp
  obtain ⟨l', hperm, hall⟩ := hcomp
  refine ⟨l', hperm, ?_⟩
  rwa [← List.forall₂_eq_eq_eq, List.forall₂_map_left_iff]

/-- **Cells are exact.**  The cells that an entry writes lead from the full cells of the state in
front of it to those of the state behind it.  The full cells of a state, in any order, are decoded
as the state and its term, whatever library reads their texts back.  Distinct items of a state never
share a cell. -/
theorem cells_exact (sha : Digest) (identity : ApplicationIdentity) (term : Nat)
    {s s' : StateMachine} {entry : Entry} {outcome : ApplyOutcome}
    (h : s.Reachable sha StateMachine.Bounded)
    (happly : s.apply sha entry = some (.ok (outcome, s'))) :
    (∃ cells changes cells', fullCells s identity term = some cells ∧
      entryCells s' identity entry = .ok changes ∧
      fullCells s' identity entry.term = some cells' ∧
      overlay (overlay (fun _ => none) cells) changes = overlay (fun _ => none) cells') ∧
    (0 < s.lastApplied → 0 < term → ∃ cells, fullCells s identity term = some cells ∧
      ∀ reader : CellReader, reader.RoundTrips s identity term → ∀ rows, (rowsOf cells).Perm rows →
        decodeCells reader sha rows s.lastApplied identity = .ok (s, term)) ∧
    ∀ i j : Item, cellOf s identity term i ≠ none → cellOf s identity term j ≠ none →
      i.cellKey = j.cellKey → i = j := by
  have hvalid := h.valid
  refine ⟨?_, fun happlied hpositive => ?_, fun i j hi hj heq => ?_⟩
  · obtain ⟨cells, hcells, -, hdescribes⟩ := describes_fullCells hvalid identity term
    obtain ⟨changes, hchanges, -, hnext⟩ := hdescribes.entryCells hvalid happly
    obtain ⟨cells', hcells', -, hdescribes'⟩ :=
      describes_fullCells (hvalid.of_apply happly) identity entry.term
    exact ⟨cells, changes, cells', hcells, hchanges, hcells', hnext.unique hdescribes'⟩
  · obtain ⟨items, hnodup, hmem, hfull⟩ := fullCells_spec hvalid identity term
    refine ⟨_, hfull, fun reader hreader rows hperm => ?_⟩
    have hrows : rowsOf (items.map (itemCell s identity term)) =
        items.map (rowOf s identity term) := by
      rw [rowsOf, List.filterMap_map, ← List.filterMap_eq_map]
      refine List.filterMap_congr fun i hi => ?_
      obtain ⟨v, hv⟩ := Option.ne_none_iff_exists'.1 ((hmem i).1 hi)
      simp only [Function.comp_apply, itemCell, rowOf, hv, Option.map_some, Option.getD_some]
    rw [hrows] at hperm
    obtain ⟨items', hperm', rfl⟩ := exists_perm_map hperm
    exact decodeCells_eq hvalid h.valuesBounded hreader happlied hpositive
      ⟨hperm'.nodup_iff.1 hnodup, fun i => by rw [← hperm'.mem_iff, hmem]⟩
  · exact Item.cellKey_inj (hvalid.fits hi) (hvalid.fits hj) heq

/-- A library that reads the cells of one state, and nothing else. -/
def readerOf (s : StateMachine) (identity : ApplicationIdentity) (term : Nat) : CellReader where
  metadata := Json.recognize Json.write [metadata s identity term]
  header := Json.recognize Json.write
    (s.sessions.toList.map fun p => ⟨p.2.registered, p.2.closed⟩)
  record := Json.recognize Json.write
    (s.sessions.toList.flatMap fun p => p.2.keys.toList.map exportKey)

/-- The state behind `sampleEntries` and the next put. -/
theorem cells_exact_sample :
    ∃ s s' outcome, StateMachine.initial.applyAll Store.toyDigest sampleEntries = some s ∧
      s.apply Store.toyDigest ⟨7, 2, .sessionPut 2 "key" 2 "value"⟩ = some (.ok (outcome, s')) ∧
      ∃ cells, fullCells s ⟨"group", [1, 2, 3]⟩ 1 = some cells ∧
        decodeCells (readerOf s ⟨"group", [1, 2, 3]⟩ 1) Store.toyDigest (rowsOf cells) 6
          ⟨"group", [1, 2, 3]⟩ = .ok (s, 1) := by
  have hsome : (StateMachine.initial.applyAll Store.toyDigest sampleEntries).any (fun s =>
      s.lastApplied = 6 && tests (s.apply Store.toyDigest ⟨7, 2, .sessionPut 2 "key" 2 "value"⟩)
        (fun _ _ => true) && s.sessions.toList.all fun p =>
          ((readerOf s ⟨"group", [1, 2, 3]⟩ 1).header
              (Json.write (SessionHeader.mk p.2.registered p.2.closed)) ==
            some ⟨p.2.registered, p.2.closed⟩) &&
          p.2.keys.toList.all fun q => (readerOf s ⟨"group", [1, 2, 3]⟩ 1).record
            (Json.write (exportKey q)) == some (exportKey q)) = true := by decide +kernel
  obtain ⟨s, hs, hrest⟩ := (Option.any_eq_true _ _).1 hsome
  simp only [Bool.and_eq_true, decide_eq_true_eq, List.all_eq_true, beq_iff_eq] at hrest
  obtain ⟨⟨hlast, happly⟩, hread⟩ := hrest
  obtain ⟨outcome, s', happly, -⟩ := of_tests happly
  have hreach : StateMachine.Reachable Store.toyDigest StateMachine.Bounded s :=
    StateMachine.Reachable.initial.applyAll (by decide) hs
  have hreader : (readerOf s ⟨"group", [1, 2, 3]⟩ 1).RoundTrips s ⟨"group", [1, 2, 3]⟩ 1 := by
    refine ⟨?_, fun {id session} hsession => ?_, fun {id key exported} hexported => ?_⟩
    · simp [Json.Format.RoundTrips, Json.Format.compact, readerOf, Json.recognize]
    · exact (hread (id, session) (Table.mem_toList.2 hsession)).1
    · obtain ⟨session, hsession, hmap⟩ := Option.bind_eq_some_iff.1 hexported
      obtain ⟨record, hrecord, rfl⟩ := Option.map_eq_some_iff.1 hmap
      exact (hread (id, session) (Table.mem_toList.2 hsession)).2 (key, record)
        (Table.mem_toList.2 hrecord)
  have hexact := cells_exact Store.toyDigest ⟨"group", [1, 2, 3]⟩ 1 hreach happly
  obtain ⟨cells, hcells, hdecode⟩ := hexact.2.1 (by omega) (by decide)
  have hdecoded := hdecode _ hreader (rowsOf cells) (List.Perm.refl _)
  rw [hlast] at hdecoded
  exact ⟨s, s', outcome, hs, happly, cells, hcells, hdecoded⟩

end MicroRaft.Application
