import MicroRaft.Application.Cells
import MicroRaft.Application.Sessions
import MicroRaft.Store.Logical

/-!
# The items behind the cells

`Item` names what an application state consists of, and `cellOf` says what a state has
for an item.  Distinct items have distinct cells (`cellKey_inj`).  `full_cells` writes
all items of a state (`fullCells_spec`), and `entry_cells` every item in which the state
behind an entry differs from the one in front of it.
-/

namespace MicroRaft.Application

open Store (Digest Mutation Key Value overlay changeOf)
open Bytes (be ofBe)

variable {sha : Digest} {s s' : StateMachine} {identity : ApplicationIdentity}
  {id index term : Nat} {key nonce : String}

inductive Item
  | metadata
  | value (key : String)
  | nonce (nonce : String)
  | header (id : Nat)
  | record (id : Nat) (key : String)
  deriving DecidableEq, Repr

namespace Item

def cellKey : Item → Key
  | .metadata => metaKey
  | .value key => named valueSpace key
  | .nonce nonce => named nonceSpace nonce
  | .header id => sessionKey headerSpace id none
  | .record id key => sessionKey recordSpace id (some key)

/-- The identity of a session is a machine integer. -/
def Fits : Item → Prop
  | .header id => id ≤ u64Max
  | .record id _ => id ≤ u64Max
  | _ => True

end Item

/-- What a state has for an item. -/
def cellOf (s : StateMachine) (identity : ApplicationIdentity) (term : Nat) : Item → Option Value
  | .metadata => some (Json.write (metadata s identity term))
  | .value key => (s.values[key]?).map utf8
  | .nonce nonce => (s.registrations[nonce]?).map (be 8)
  | .header id => (s.sessions[id]?).map fun session =>
      Json.write (SessionHeader.mk session.registered session.closed)
  | .record id key => (s.recordOf id key).map Json.write

/-! ## Distinct items have distinct cells -/

theorem utf8_inj {a b : String} (h : utf8 a = utf8 b) : a = b := by
  have hsome := congrArg fromUtf8 h
  rw [fromUtf8_utf8, fromUtf8_utf8] at hsome
  exact Option.some.inj hsome

theorem be_inj {a b : Nat} (ha : a ≤ u64Max) (hb : b ≤ u64Max) (h : be 8 a = be 8 b) : a = b := by
  have hlimit : u64Max < 256 ^ 8 := by decide
  have hfirst : ofBe (be 8 a) = a := Bytes.ofBe_be (by omega)
  have hsecond : ofBe (be 8 b) = b := Bytes.ofBe_be (by omega)
  rw [← hfirst, h, hsecond]

namespace Item

/-- The first two bytes of a cell tell the kind of its item. -/
def space : Item → Key
  | .metadata => Json.ascii "m/"
  | .value _ => valueSpace
  | .nonce _ => nonceSpace
  | .header _ => headerSpace
  | .record _ _ => recordSpace

def tail : Item → Key
  | .metadata => Json.ascii "state"
  | .value key => utf8 key
  | .nonce nonce => utf8 nonce
  | .header id => be 8 id
  | .record id key => be 8 id ++ utf8 key

theorem cellKey_eq (i : Item) : i.cellKey = i.space ++ i.tail := by
  cases i with
  | metadata => rfl
  | value key => rfl
  | nonce nonce => rfl
  | header id => exact List.append_nil _
  | record id key => exact List.append_assoc ..

def kind : Item → UInt8
  | .metadata => 109
  | .value _ => 118
  | .nonce _ => 114
  | .header _ => 115
  | .record _ _ => 107

theorem head?_space (i : Item) : i.space.head? = some i.kind := by cases i <;> rfl

theorem length_space (i : Item) : i.space.length = 2 := by cases i <;> rfl

theorem tail_inj {i j : Item} (hi : i.Fits) (hj : j.Fits) (hspace : i.space = j.space)
    (h : i.tail = j.tail) : i = j := by
  have hkind : i.kind = j.kind := by
    have hheads := congrArg List.head? hspace
    rw [head?_space, head?_space] at hheads
    exact Option.some.inj hheads
  clear hspace
  cases i <;> cases j <;> simp only [kind] at hkind <;>
    first | rfl | exact absurd hkind (by decide) | skip
  case value.value => exact congrArg Item.value (utf8_inj h)
  case nonce.nonce => exact congrArg Item.nonce (utf8_inj h)
  case header.header => exact congrArg Item.header (be_inj hi hj h)
  case record.record id key id' key' =>
    have hlength : (be 8 id).length = (be 8 id').length := by
      rw [Bytes.length_be, Bytes.length_be]
    obtain ⟨hid, hkey⟩ := List.append_inj h hlength
    rw [be_inj hi hj hid, utf8_inj hkey]

/-- **Distinct items have distinct cells.** -/
theorem cellKey_inj {i j : Item} (hi : i.Fits) (hj : j.Fits) (h : i.cellKey = j.cellKey) :
    i = j := by
  rw [cellKey_eq, cellKey_eq] at h
  obtain ⟨hspace, htail⟩ := List.append_inj h (by rw [length_space, length_space])
  exact tail_inj hi hj hspace htail

end Item

/-! ## Cells that describe a state -/

/-- The cell of an item, or its deletion. -/
def itemCell (s : StateMachine) (identity : ApplicationIdentity) (term : Nat) (i : Item) :
    Mutation :=
  ⟨i.cellKey, cellOf s identity term i⟩

/-- The cells are those of the state. -/
def Describes (cells : Key → Option Value) (s : StateMachine) (identity : ApplicationIdentity)
    (term : Nat) : Prop :=
  ∀ k v, cells k = some v ↔ ∃ i : Item, i.Fits ∧ i.cellKey = k ∧ cellOf s identity term i = some v

theorem Describes.unique {cells cells' : Key → Option Value} (h : Describes cells s identity term)
    (h' : Describes cells' s identity term) : cells = cells' := by
  funext k
  refine Option.ext fun v => ?_
  rw [h k v, h' k v]

variable {cells : Key → Option Value} {values : List (String × String)} {roster : List Named}
  {i : Item} {items : List Item}

/-- Identities of sessions fit. -/
theorem StateMachine.Valid.fits (h : s.Valid sha)
    (hcell : cellOf s identity term i ≠ none) : i.Fits := by
  have hid : ∀ id session, s.sessions[id]? = some session → id ≤ u64Max := by
    intro id session hsession
    exact ((h.sessions id session hsession).applied).trans h.lastApplied
  cases i with
  | metadata => trivial
  | value key => trivial
  | nonce nonce => trivial
  | header id =>
    obtain ⟨v, hv⟩ := Option.ne_none_iff_exists'.1 hcell
    obtain ⟨session, hsession, -⟩ := Option.map_eq_some_iff.1 hv
    exact hid id session hsession
  | record id key =>
    obtain ⟨v, hv⟩ := Option.ne_none_iff_exists'.1 hcell
    obtain ⟨record, hrecord, -⟩ := Option.map_eq_some_iff.1 hv
    obtain ⟨session, hsession, -⟩ := Option.bind_eq_some_iff.1 hrecord
    exact hid id session hsession

/-- Changing the cells of some items. -/
theorem overlay_items (hnodup : items.Nodup) (hfits : ∀ i ∈ items, i.Fits) (hi : i.Fits) :
    overlay cells (items.map (itemCell s identity term)) i.cellKey =
      if i ∈ items then cellOf s identity term i else cells i.cellKey := by
  have hkeys : ((items.map (itemCell s identity term)).map Mutation.key).Nodup := by
    rw [List.map_map]
    exact hnodup.map_on fun a ha b hb heq => Item.cellKey_inj (hfits a ha) (hfits b hb) heq
  by_cases hmem : i ∈ items
  · have hchange : changeOf (items.map (itemCell s identity term)) i.cellKey =
        some (itemCell s identity term i) :=
      (Store.changeOf_eq_some hkeys).2 ⟨List.mem_map_of_mem hmem, rfl⟩
    rw [overlay, hchange, if_pos hmem]
    rfl
  · have hchange : changeOf (items.map (itemCell s identity term)) i.cellKey = none := by
      refine Store.changeOf_eq_none.2 fun c hc heq => hmem ?_
      obtain ⟨j, hj, rfl⟩ := List.mem_map.1 hc
      rwa [← Item.cellKey_inj (hfits j hj) hi heq]
    rw [overlay, hchange, if_neg hmem]
    rfl

/-- A key that no changed item has. -/
theorem overlay_other {k : Key} (h : ∀ i ∈ items, i.cellKey ≠ k) :
    overlay cells (items.map (itemCell s identity term)) k = cells k := by
  have hchange : changeOf (items.map (itemCell s identity term)) k = none := by
    refine Store.changeOf_eq_none.2 fun c hc => ?_
    obtain ⟨j, hj, rfl⟩ := List.mem_map.1 hc
    exact h j hj
  rw [overlay, hchange]
  rfl

/-- **Cells follow the state** when the changed items are among those that are written. -/
theorem Describes.overlay {term' : Nat}
    (h : Describes cells s identity term) (hnodup : items.Nodup) (hfits : ∀ i ∈ items, i.Fits)
    (hsame : ∀ i, i ∉ items → cellOf s' identity term' i = cellOf s identity term i) :
    Describes (Store.overlay cells (items.map (itemCell s' identity term'))) s' identity term' := by
  intro k v
  constructor
  · intro hcell
    by_cases hitem : ∃ i ∈ items, i.cellKey = k
    · obtain ⟨i, hi, rfl⟩ := hitem
      rw [overlay_items hnodup hfits (hfits i hi), if_pos hi] at hcell
      exact ⟨i, hfits i hi, rfl, hcell⟩
    · rw [overlay_other fun i hi heq => hitem ⟨i, hi, heq⟩, h] at hcell
      obtain ⟨i, hi, rfl, hcell⟩ := hcell
      have hout : i ∉ items := fun hin => hitem ⟨i, hin, rfl⟩
      exact ⟨i, hi, rfl, (hsame i hout).trans hcell⟩
  · rintro ⟨i, hi, rfl, hcell⟩
    rw [overlay_items hnodup hfits hi]
    by_cases hin : i ∈ items
    · rwa [if_pos hin]
    · rw [if_neg hin, h]
      exact ⟨i, hi, rfl, (hsame i hin).symm.trans hcell⟩

/-! ## Full cells -/

/-- The items of a state with the given lists. -/
def itemsOf (values : List (String × String)) (roster : List Named) : List Item :=
  .metadata :: (values.map (fun p => .value p.1) ++
    roster.flatMap fun t => .nonce t.nonce :: .header t.id :: t.keys.map fun p => .record t.id p.1)

theorem mem_itemsOf : i ∈ itemsOf values roster ↔ i = .metadata ∨ (∃ p ∈ values, i = .value p.1) ∨
      ∃ t ∈ roster, i = .nonce t.nonce ∨ i = .header t.id ∨ ∃ p ∈ t.keys, i = .record t.id p.1 := by
  simp only [itemsOf, List.mem_cons, List.mem_append, List.mem_map, List.mem_flatMap, eq_comm]

theorem nodup_itemsOf
    (hvalues : (values.map Prod.fst).Nodup) (hnonces : (roster.map Named.nonce).Nodup)
    (hids : (roster.map Named.id).Nodup) (hkeys : ∀ t ∈ roster, (t.keys.map Prod.fst).Nodup) :
    (itemsOf values roster).Nodup := by
  have hfirst : (values.map fun p => Item.value p.1).Nodup := by
    have hmapped := hvalues.map (f := Item.value) fun a b heq => Item.value.inj heq
    rwa [List.map_map] at hmapped
  have hroster : (roster.flatMap fun t => Item.nonce t.nonce :: .header t.id ::
      t.keys.map fun p => .record t.id p.1).Nodup := by
    refine List.nodup_flatMap.2 ⟨fun t ht => ?_, ?_⟩
    · have hrecords : (t.keys.map fun p => Item.record t.id p.1).Nodup := by
        have hmapped := (hkeys t ht).map (f := Item.record t.id) fun a b heq =>
          (Item.record.inj heq).2
        rwa [List.map_map] at hmapped
      simp only [List.nodup_cons, List.mem_cons, List.mem_map]
      exact ⟨by simp, by simp, hrecords⟩
    · refine ((List.pairwise_map.1 hnonces).and (List.pairwise_map.1 hids)).imp ?_
      rintro t u ⟨hnonce, hid⟩ i hi hi'
      simp only [List.mem_cons, List.mem_map] at hi hi'
      rcases hi with rfl | rfl | ⟨p, -, rfl⟩ <;> rcases hi' with heq | heq | ⟨q, -, heq⟩ <;>
        simp only [reduceCtorEq, Item.nonce.injEq, Item.header.injEq, Item.record.injEq] at heq
      · exact hnonce heq
      · exact hid heq
      · exact hid heq.1.symm
  refine List.nodup_cons.2 ⟨by simp, List.nodup_append.2 ⟨hfirst, hroster, ?_⟩⟩
  intro i hi j hj heq
  subst heq
  obtain ⟨p, -, rfl⟩ := List.mem_map.1 hi
  simp at hj

theorem map_ne_none {α β : Type} {f : α → β} {o : Option α} :
    o.map f ≠ none ↔ ∃ a, o = some a := by
  cases o <;> simp

theorem mem_itemsOf_iff (h : s.Valid sha)
    (hvalues : ∀ p, p ∈ values ↔ s.values[p.1]? = some p.2) (hlists : s.Lists roster) :
    i ∈ itemsOf values roster ↔ cellOf s identity term i ≠ none := by
  rw [mem_itemsOf]
  cases i with
  | metadata => simp [cellOf]
  | value key =>
    simp only [reduceCtorEq, Item.value.injEq, false_or, or_false, exists_false, and_false, cellOf,
      map_ne_none]
    constructor
    · rintro ⟨p, hp, rfl⟩
      exact ⟨p.2, (hvalues p).1 hp⟩
    · rintro ⟨value, hvalue⟩
      exact ⟨(key, value), (hvalues (key, value)).2 hvalue, rfl⟩
  | nonce nonce =>
    simp only [reduceCtorEq, Item.nonce.injEq, false_or, or_false, exists_false, and_false, cellOf,
      map_ne_none, ← hlists.registered]
    constructor
    · rintro ⟨t, ht, rfl⟩
      exact ⟨t.id, t, ht, rfl, rfl⟩
    · rintro ⟨id, t, ht, rfl, -⟩
      exact ⟨t, ht, rfl⟩
  | header id =>
    simp only [reduceCtorEq, Item.header.injEq, false_or, or_false, exists_false, and_false, cellOf,
      map_ne_none]
    constructor
    · rintro ⟨t, ht, rfl⟩
      exact ⟨t.session, hlists.found t ht⟩
    · rintro ⟨session, hsession⟩
      obtain ⟨t, ht, heq⟩ := List.mem_map.1 ((h.mem_roster hlists id session).2 hsession)
      exact ⟨t, ht, (congrArg Prod.fst heq).symm⟩
  | record id key =>
    simp only [reduceCtorEq, Item.record.injEq, false_or, exists_false, and_false, cellOf,
      map_ne_none, StateMachine.recordOf, Option.bind_eq_some_iff, Option.map_eq_some_iff]
    constructor
    · rintro ⟨t, ht, p, hp, rfl, rfl⟩
      rw [(hlists.keys t ht).mem_iff, Table.mem_toList] at hp
      exact ⟨_, t.session, hlists.found t ht, p.2, hp, rfl⟩
    · rintro ⟨_, session, hsession, record, hrecord, -⟩
      obtain ⟨t, ht, heq⟩ := List.mem_map.1 ((h.mem_roster hlists id session).2 hsession)
      cases heq
      refine ⟨t, ht, (key, record), ?_, rfl, rfl⟩
      rw [(hlists.keys t ht).mem_iff, Table.mem_toList]
      exact hrecord

/-- The cells of a listed session. -/
theorem sessionCells_eq (hlists : s.Lists roster) {t : Named} (ht : t ∈ roster) :
    sessionCells t.snapshot = (Item.nonce t.nonce :: .header t.id ::
      t.keys.map fun p => .record t.id p.1).map (itemCell s identity term) := by
  have hsession := hlists.found t ht
  have hnonce := (hlists.registered t.nonce t.id).1 ⟨t, ht, rfl, rfl⟩
  have hrecords : (t.keys.map exportKey).map (recordCell t.id) =
      (t.keys.map fun p => Item.record t.id p.1).map (itemCell s identity term) := by
    rw [List.map_map, List.map_map]
    refine List.map_congr_left fun p hp => ?_
    rw [(hlists.keys t ht).mem_iff, Table.mem_toList] at hp
    simp only [Function.comp_apply, recordCell, itemCell, cellOf, StateMachine.recordOf, hsession,
      hp, Option.bind_some, Option.map_some]
    rfl
  rw [sessionCells, List.map_cons, List.map_cons, ← hrecords]
  simp only [itemCell, cellOf, hsession, hnonce, Option.map_some]
  rfl

/-- **Full cells** are the cells of all items. -/
theorem fullCells_spec (h : s.Valid sha) (identity : ApplicationIdentity) (term : Nat) :
    ∃ items : List Item, items.Nodup ∧ (∀ i, i ∈ items ↔ cellOf s identity term i ≠ none) ∧
      fullCells s identity term = some (items.map (itemCell s identity term)) := by
  obtain ⟨roster, hlists, hkeys, hexport⟩ := h.exportSnapshot
  refine ⟨itemsOf s.values.toList roster, ?_, ?_, ?_⟩
  · refine nodup_itemsOf (Table.nodup_keys _) hlists.nonces (h.nodup_ids hlists) fun t ht => ?_
    rw [hkeys t ht]
    exact Table.nodup_keys _
  · intro i
    exact mem_itemsOf_iff h (fun p => Table.mem_toList) hlists
  · have hvalues : (s.values.toList.map fun p =>
        (⟨named valueSpace p.1, some (utf8 p.2)⟩ : Mutation)) =
        (s.values.toList.map fun p => Item.value p.1).map (itemCell s identity term) := by
      rw [List.map_map]
      refine List.map_congr_left fun p hp => ?_
      simp only [Function.comp_apply, itemCell, cellOf, Table.mem_toList.1 hp, Option.map_some]
      rfl
    have hsessions : (roster.map Named.snapshot).flatMap sessionCells =
        (roster.flatMap fun t => Item.nonce t.nonce :: .header t.id ::
          t.keys.map fun p => .record t.id p.1).map (itemCell s identity term) := by
      rw [List.flatMap_map, List.map_flatMap]
      exact List.flatMap_congr fun t ht => sessionCells_eq hlists ht
    rw [fullCells, hexport]
    simp only [Option.bind_eq_bind, Option.bind_some, hvalues, hsessions]
    rw [itemsOf, List.map_cons, List.map_append]
    rfl

/-- The cells of a state describe it. -/
theorem describes_fullCells (h : s.Valid sha) (identity : ApplicationIdentity) (term : Nat) :
    ∃ cells, fullCells s identity term = some cells ∧ (cells.map Mutation.key).Nodup ∧
      Describes (overlay (fun _ => none) cells) s identity term := by
  obtain ⟨items, hnodup, hmem, hfull⟩ := fullCells_spec h identity term
  have hfits : ∀ i ∈ items, i.Fits := fun i hi => h.fits ((hmem i).1 hi)
  refine ⟨_, hfull, ?_, fun k v => ⟨fun hcell => ?_, ?_⟩⟩
  · rw [List.map_map]
    exact hnodup.map_on fun a ha b hb heq => Item.cellKey_inj (hfits a ha) (hfits b hb) heq
  · by_cases hitem : ∃ i ∈ items, i.cellKey = k
    · obtain ⟨i, hi, rfl⟩ := hitem
      rw [overlay_items hnodup hfits (hfits i hi), if_pos hi] at hcell
      exact ⟨i, hfits i hi, rfl, hcell⟩
    · rw [overlay_other fun i hi heq => hitem ⟨i, hi, heq⟩] at hcell
      cases hcell
  · rintro ⟨i, hi, rfl, hcell⟩
    have hin : i ∈ items := (hmem i).2 (by rw [hcell]; exact Option.some_ne_none v)
    rwa [overlay_items hnodup hfits hi, if_pos hin]

/-! ## The cells of an entry -/

/-- The items besides the metadata that the cells of an entry write. -/
def touched (app : StateMachine) : Command → List Item
  | .put key _ => [.value key]
  | .delete key => [.value key]
  | .sessionPut id key _ _ =>
      if (app.recordOf id key).isSome then [.value key, .record id key] else []
  | .sessionDelete id key _ =>
      if (app.recordOf id key).isSome then [.value key, .record id key] else []
  | .registerSession nonce =>
      match app.registrations[nonce]? with
      | some id => [.nonce nonce, .header id]
      | none => []
  | .closeSession id => if (app.sessions[id]?).isSome then [.header id] else []
  | .noOp => []
  | .configuration _ => []

theorem mutationCells_eq (s : StateMachine) (identity : ApplicationIdentity) (term id : Nat)
    (key : String) :
    mutationCells s id key =
      (if (s.recordOf id key).isSome then [Item.value key, .record id key] else []).map
        (itemCell s identity term) := by
  rw [mutationCells]
  cases hrecord : s.recordOf id key with
  | none => rfl
  | some record =>
    have hkey : record.key = key := by
      obtain ⟨session, -, hmap⟩ := Option.bind_eq_some_iff.1 hrecord
      obtain ⟨r, -, rfl⟩ := Option.map_eq_some_iff.1 hmap
      rfl
    simp only [Option.isSome_some, if_true, List.map_cons, List.map_nil, itemCell, cellOf, hrecord,
      Option.map_some, recordCell, hkey]
    rfl

theorem entryCells_eq (h : s.Valid sha) (identity : ApplicationIdentity) (entry : Entry) :
    entryCells s identity entry = .ok ((Item.metadata :: touched s entry.command).map
      (itemCell s identity entry.term)) := by
  obtain ⟨index, term, command⟩ := entry
  cases command with
  | put key value => rfl
  | delete key => rfl
  | noOp => rfl
  | configuration change => rfl
  | sessionPut id key sequence value =>
    simp only [entryCells, mutationCells_eq s identity term, touched]
    rfl
  | sessionDelete id key sequence =>
    simp only [entryCells, mutationCells_eq s identity term, touched]
    rfl
  | registerSession nonce =>
    simp only [entryCells, touched]
    cases hid : s.registrations[nonce]? with
    | none => rfl
    | some id =>
      obtain ⟨-, session, hsession⟩ := h.nonces nonce id hid
      simp only [hsession, List.map_cons, List.map_nil, itemCell, cellOf, hid, Option.map_some]
      rfl
  | closeSession id =>
    simp only [entryCells, touched]
    cases hsession : s.sessions[id]? with
    | none => rfl
    | some session =>
      simp only [Option.isSome_some, if_true, List.map_cons, List.map_nil, itemCell, cellOf,
        hsession, Option.map_some]
      rfl

theorem nodup_touched (s : StateMachine) (command : Command) :
    (Item.metadata :: touched s command).Nodup := by
  cases command with
  | put key value => simp [touched]
  | delete key => simp [touched]
  | noOp => simp [touched]
  | configuration change => simp [touched]
  | sessionPut id key sequence value =>
    simp only [touched]
    split <;> simp
  | sessionDelete id key sequence =>
    simp only [touched]
    split <;> simp
  | registerSession nonce =>
    simp only [touched]
    split <;> simp
  | closeSession id =>
    simp only [touched]
    split <;> simp

theorem fits_touched (h : s.Valid sha) (command : Command) :
    ∀ i ∈ Item.metadata :: touched s command, i.Fits := by
  -- what a state has fits, and values and nonces always do
  have hheader : ∀ id, (s.sessions[id]?).isSome = true → (Item.header id).Fits := by
    intro id hsome
    obtain ⟨session, hsession⟩ := Option.isSome_iff_exists.1 hsome
    exact ((h.sessions id session hsession).applied).trans h.lastApplied
  have hmutation : ∀ id key, ∀ i ∈ (if (s.recordOf id key).isSome then
      [Item.value key, .record id key] else []), i.Fits := by
    intro id key i hi
    split at hi
    · next hsome =>
        obtain ⟨record, hrecord⟩ := Option.isSome_iff_exists.1 hsome
        obtain ⟨session, hsession, -⟩ := Option.bind_eq_some_iff.1 hrecord
        simp only [List.mem_cons, List.not_mem_nil, or_false] at hi
        rcases hi with rfl | rfl
        · trivial
        · exact hheader id (by rw [hsession]; rfl)
    · cases hi
  refine List.forall_mem_cons.2 ⟨trivial, fun i hi => ?_⟩
  cases command with
  | put key value =>
    cases List.mem_singleton.1 hi
    trivial
  | delete key =>
    cases List.mem_singleton.1 hi
    trivial
  | noOp => cases hi
  | configuration change => cases hi
  | sessionPut id key sequence value => exact hmutation id key i hi
  | sessionDelete id key sequence => exact hmutation id key i hi
  | registerSession nonce =>
    simp only [touched] at hi
    split at hi
    · next id hid =>
        obtain ⟨-, session, hsession⟩ := h.nonces nonce id hid
        simp only [List.mem_cons, List.not_mem_nil, or_false] at hi
        rcases hi with rfl | rfl
        · trivial
        · exact hheader id (by rw [hsession]; rfl)
    · cases hi
  | closeSession id =>
    simp only [touched] at hi
    split at hi
    · next hsome =>
        cases List.mem_singleton.1 hi
        exact hheader id hsome
    · cases hi

/-- What two states have for an item is the same when the parts of the item are. -/
theorem cellOf_congr {term' : Nat} (hmeta : i ≠ .metadata)
    (hvalue : ∀ key, i = .value key → s'.values[key]? = s.values[key]?)
    (hnonce : ∀ nonce, i = .nonce nonce → s'.registrations[nonce]? = s.registrations[nonce]?)
    (hheader : ∀ id, i = .header id →
      (s'.sessions[id]?).map (fun session => (session.registered, session.closed)) =
        (s.sessions[id]?).map fun session => (session.registered, session.closed))
    (hrecord : ∀ id key, i = .record id key → s'.recordOf id key = s.recordOf id key) :
    cellOf s' identity term' i = cellOf s identity term i := by
  cases i with
  | metadata => exact absurd rfl hmeta
  | value key => rw [cellOf, hvalue key rfl, cellOf]
  | nonce nonce => rw [cellOf, hnonce nonce rfl, cellOf]
  | header id =>
    have hheader := congrArg
      (Option.map fun p : SessionResult × Option SessionResult =>
        Json.write (SessionHeader.mk p.1 p.2)) (hheader id rfl)
    rw [Option.map_map, Option.map_map] at hheader
    exact hheader
  | record id key => rw [cellOf, hrecord id key rfl, cellOf]

/-- An item that is not written is the same in both states. -/
theorem cellOf_untouched {entry : Entry} {outcome : ApplyOutcome} (h : s.Valid sha)
    (happly : s.apply sha entry = some (.ok (outcome, s'))) (term' : Nat)
    (hi : i ∉ Item.metadata :: touched s' entry.command) :
    cellOf s' identity term' i = cellOf s identity term i := by
  obtain ⟨hindex, -, t, hcommand, rfl⟩ := StateMachine.apply_ok happly
  have hchange := StateMachine.applyCommand_change hcommand
  clear happly hcommand
  obtain ⟨index, entryTerm, command⟩ := entry
  dsimp only at hindex hchange hi ⊢
  rw [List.mem_cons, not_or] at hi
  obtain ⟨hmeta, hi⟩ := hi
  cases hchange with
  | same =>
    exact cellOf_congr hmeta (fun _ _ => rfl) (fun _ _ => rfl) (fun _ _ => rfl) fun _ _ _ => rfl
  | @plain _ key value hplain =>
    have htouched : i ≠ .value key := by
      rintro rfl
      cases command <;> cases hplain <;> exact hi (by simp [touched])
    refine cellOf_congr hmeta (fun key' heq => ?_) (fun _ _ => rfl) (fun _ _ => rfl)
      fun _ _ _ => rfl
    refine StateMachine.getElem?_writeValue_of_ne fun hkey => htouched ?_
    rw [heq, hkey]
  | @registered nonce hnonce hnew =>
    have hfresh : s.sessions[index]? = none := by
      cases hsession : s.sessions[index]? with
      | none => rfl
      | some session =>
        have := (h.sessions _ _ hsession).applied
        omega
    simp only [touched, Table.getElem?_insert, if_true, List.mem_cons, List.not_mem_nil, or_false,
      not_or] at hi
    refine cellOf_congr hmeta (fun _ _ => rfl) (fun nonce' heq => ?_) (fun id heq => ?_)
      fun id key heq => ?_
    · have hne : nonce' ≠ nonce := fun heq' => hi.1 (by rw [heq, heq'])
      rw [Table.getElem?_insert, if_neg hne]
    · have hne : id ≠ index := fun heq' => hi.2 (by rw [heq, heq'])
      rw [Table.getElem?_insert, if_neg hne]
    · rw [StateMachine.recordOf, StateMachine.recordOf]
      dsimp only
      rw [Table.getElem?_insert]
      by_cases hid : id = index
      · rw [if_pos hid, hid, hfresh]
        simp
      · rw [if_neg hid]
  | @closed id session hsession hopen =>
    simp only [touched, Table.getElem?_insert, if_true, Option.isSome_some, List.mem_cons,
      List.not_mem_nil, or_false] at hi
    refine cellOf_congr hmeta (fun _ _ => rfl) (fun _ _ => rfl) (fun id' heq => ?_)
      fun id' key heq => ?_
    · have hne : id' ≠ id := fun heq' => hi (by rw [heq, heq'])
      rw [Table.getElem?_insert, if_neg hne]
    · rw [StateMachine.recordOf, StateMachine.recordOf]
      dsimp only
      rw [Table.getElem?_insert]
      by_cases hid : id' = id
      · rw [if_pos hid, hid, hsession]
        rfl
      · rw [if_neg hid]
  | @mutated _ id key sequence value session hmutation haccepts =>
    have hsome : ∀ record, (StateMachine.recordOf { s.mutated id session key value record with
        lastApplied := index } id key).isSome = true := by
      intro record
      simp only [StateMachine.recordOf, StateMachine.mutated, Table.getElem?_insert, if_true,
        Option.bind_some, Option.map_some, Option.isSome_some]
    have htouched : i ≠ .value key ∧ i ≠ .record id key := by
      constructor <;> rintro rfl <;> cases command <;> cases hmutation <;> refine hi ?_ <;>
        simp [touched, hsome]
    refine cellOf_congr hmeta (fun key' heq => ?_) (fun _ _ => rfl) (fun id' heq => ?_)
      fun id' key' heq => ?_
    · refine StateMachine.getElem?_writeValue_of_ne fun hkey => htouched.1 ?_
      rw [heq, hkey]
    · rw [StateMachine.mutated]
      dsimp only
      rw [Table.getElem?_insert]
      by_cases hid : id' = id
      · rw [if_pos hid, hid, haccepts.found]
        rfl
      · rw [if_neg hid]
    · rw [StateMachine.recordOf, StateMachine.recordOf, StateMachine.mutated]
      dsimp only
      rw [Table.getElem?_insert]
      by_cases hid : id' = id
      · have hkey : key' ≠ key := fun hkey => htouched.2 (by rw [heq, hid, hkey])
        rw [if_pos hid, hid, haccepts.found, Option.bind_some, Option.bind_some,
          Table.getElem?_insert, if_neg hkey]
      · rw [if_neg hid]

/-- **The cells of an entry** lead from the cells of one state to those of the next. -/
theorem Describes.entryCells {entry : Entry} {outcome : ApplyOutcome}
    (hcells : Describes cells s identity term) (h : s.Valid sha)
    (happly : s.apply sha entry = some (.ok (outcome, s'))) :
    ∃ changes, Application.entryCells s' identity entry = .ok changes ∧
      (changes.map Mutation.key).Nodup ∧
      Describes (Store.overlay cells changes) s' identity entry.term := by
  have h' := h.of_apply happly
  have hnodup := nodup_touched s' entry.command
  have hfits := fits_touched h' entry.command
  refine ⟨_, entryCells_eq h' identity entry, ?_, hcells.overlay hnodup hfits fun i hi =>
    cellOf_untouched h happly entry.term hi⟩
  rw [List.map_map]
  exact hnodup.map_on fun a ha b hb heq => Item.cellKey_inj (hfits a ha) (hfits b hb) heq

end MicroRaft.Application
