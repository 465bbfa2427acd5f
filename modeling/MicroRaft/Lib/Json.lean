import Mathlib

/-!
# Compact JSON texts

What a compact JSON writer puts out, as a list of bytes: no white space, object
fields in the order they are given, strings escaped the way `serde_json` escapes
them.  A type that can be written is an instance of `Serialize`.

Sizes are what most users ask for.  The size of an object splits into the part
its field names fix (`frame`) and the sizes of its values (`length_object`), so a
bound on a record is a bound on each of its fields plus one closed number.
-/

namespace Json

abbrev Bytes := List UInt8

/-- Bytes of an ASCII text. -/
def ascii (s : String) : Bytes := s.toList.map Char.toUInt8

/-- The length of the decimal notation. -/
def digits (n : Nat) : Nat := (Nat.toDigits 10 n).length

def number (n : Nat) : Bytes := (Nat.toDigits 10 n).map Char.toUInt8

/-- A lower-case hexadecimal digit. -/
def hexDigit (n : Nat) : UInt8 := (if n < 10 then 48 + n else 87 + n).toUInt8

/-- One character inside a string literal. -/
def escape (c : Char) : Bytes :=
  if c = '"' then ascii "\\\""
  else if c = '\\' then ascii "\\\\"
  else if c.toNat = 8 then ascii "\\b"
  else if c.toNat = 9 then ascii "\\t"
  else if c.toNat = 10 then ascii "\\n"
  else if c.toNat = 12 then ascii "\\f"
  else if c.toNat = 13 then ascii "\\r"
  else if c.toNat < 32 then
    ascii "\\u00" ++ [hexDigit (c.toNat / 16), hexDigit (c.toNat % 16)]
  else String.utf8EncodeChar c

def text (s : String) : Bytes := 34 :: (s.toList.flatMap escape ++ [34])

/-- The items with a comma between any two. -/
def commas : List Bytes → Bytes
  | [] => []
  | [x] => x
  | x :: y :: xs => x ++ 44 :: commas (y :: xs)

def array (items : List Bytes) : Bytes := 91 :: (commas items ++ [93])

def object (fields : List (String × Bytes)) : Bytes :=
  123 :: (commas (fields.map fun f => text f.1 ++ 58 :: f.2) ++ [125])

/-- The types a writer knows. -/
class Serialize (α : Type) where
  write : α → Bytes

export Serialize (write)

instance : Serialize Nat := ⟨number⟩

instance : Serialize UInt8 := ⟨fun b => number b.toNat⟩

instance : Serialize Bool := ⟨fun b => ascii (if b then "true" else "false")⟩

instance : Serialize String := ⟨text⟩

instance {α : Type} [Serialize α] : Serialize (Option α) :=
  ⟨fun o => o.elim (ascii "null") write⟩

instance {α : Type} [Serialize α] : Serialize (List α) :=
  ⟨fun xs => array (xs.map write)⟩

instance {α β : Type} [Serialize α] [Serialize β] : Serialize (α × β) :=
  ⟨fun p => array [write p.1, write p.2]⟩

/-- A field that is left out when it has no value (`skip_serializing_if`). -/
def optional {α : Type} [Serialize α] (name : String) (value : Option α) :
    List (String × Bytes) :=
  value.toList.map fun v => (name, write v)

/-- A map with text keys, in the order of its bindings. -/
def mapping {K V : Type} [Serialize V] (key : K → String) (bindings : List (K × V)) : Bytes :=
  object (bindings.map fun b => (key b.1, write b.2))

/-! ## Reading back -/

/-- What a serialisation library writes for the values of a type, and what it reads as one of
them. -/
structure Format (α : Type) where
  write : α → Bytes
  read : Bytes → Option α

/-- The library reads the value back. -/
def Format.RoundTrips {α : Type} (format : Format α) (a : α) : Prop :=
  format.read (format.write a) = some a

/-- The texts of this module, with a given reader. -/
def Format.compact {α : Type} [Serialize α] (read : Bytes → Option α) : Format α :=
  ⟨Serialize.write, read⟩

/-- A reader that knows the texts of some values and refuses all others. -/
def recognize {α : Type} (write : α → Bytes) (known : List α) (text : Bytes) : Option α :=
  known.find? fun a => write a == text

theorem roundTrips_recognize {α : Type} [Serialize α] (a : α) :
    (Format.compact (recognize write [a])).RoundTrips a := by
  simp [Format.RoundTrips, Format.compact, recognize]

/-! ## Sizes -/

@[simp] theorem length_number (n : Nat) : (number n).length = digits n := by
  simp [number, digits]

theorem length_commas (items : List Bytes) :
    (commas items).length = (items.map List.length).sum + (items.length - 1) := by
  induction items using commas.induct with
  | case1 => rfl
  | case2 x => simp [commas]
  | case3 x y xs ih =>
    simp only [commas, List.length_append, List.length_cons, ih, List.map_cons, List.sum_cons]
    omega

/-- What the field names of an object contribute to its size. -/
def frame (keys : List String) : Nat :=
  2 + (keys.map fun k => (text k).length + 1).sum + (keys.length - 1)

theorem length_object (fields : List (String × Bytes)) :
    (object fields).length =
      frame (fields.map Prod.fst) + (fields.map fun f => f.2.length).sum := by
  have hsum : ((fields.map fun f => text f.1 ++ 58 :: f.2).map List.length).sum =
      ((fields.map Prod.fst).map fun k => (text k).length + 1).sum +
        (fields.map fun f => f.2.length).sum := by
    induction fields with
    | nil => rfl
    | cons f fs ih => simp only [List.map_cons, List.sum_cons, ih, List.length_append,
        List.length_cons]; omega
  simp only [object, frame, List.length_cons, List.length_append, length_commas, hsum,
    List.length_map, List.length_nil]
  omega

/-! ## Sizes of texts -/

theorem utf8ByteSize_eq_sum (s : String) :
    s.utf8ByteSize = (s.toList.map Char.utf8Size).sum := by
  have hbytes : s.toList.utf8Encode = s.toByteArray := String.utf8Encode_toList
  rw [← String.size_toByteArray, ← hbytes, List.utf8Encode]
  simp [List.length_flatMap]

theorem length_text (s : String) :
    (text s).length = 2 + (s.toList.map fun c => (escape c).length).sum := by
  simp only [text, List.length_cons, List.length_append, List.length_flatMap, List.length_nil]
  omega

/-- Outside the control characters, only the quote and the backslash grow, and by one byte. -/
theorem length_escape_le_of_printable {c : Char} (h : 32 ≤ c.toNat) :
    (escape c).length ≤ 2 * c.utf8Size := by
  have hpos := Char.utf8Size_pos c
  unfold escape
  split_ifs <;> simp [ascii] <;> omega

theorem length_text_le_of_printable {s : String} (h : ∀ c ∈ s.toList, 32 ≤ c.toNat) :
    (text s).length ≤ 2 + 2 * s.utf8ByteSize := by
  rw [length_text, utf8ByteSize_eq_sum, ← List.sum_map_mul_left]
  exact Nat.add_le_add_left
    (List.sum_le_sum fun c hc => length_escape_le_of_printable (h c hc)) 2

/-! ## Sizes of numbers and lists -/

theorem digits_le {n k : Nat} (hk : 0 < k) (h : n < 10 ^ k) : digits n ≤ k :=
  (Nat.length_toDigits_le_iff (by omega) hk).2 h

/-- An array of a bounded number of items of bounded size. -/
theorem length_array_le {items : List Bytes} {size count : Nat}
    (hsize : ∀ x ∈ items, x.length ≤ size) (hcount : items.length ≤ count) :
    (array items).length ≤ 2 + count * (size + 1) := by
  have hsum : (items.map List.length).sum ≤ items.length * size := by
    refine (List.sum_le_card_nsmul _ size fun n hn => ?_).trans_eq (by simp)
    obtain ⟨x, hx, rfl⟩ := List.mem_map.1 hn
    exact hsize x hx
  have hmul : items.length * (size + 1) ≤ count * (size + 1) := Nat.mul_le_mul_right _ hcount
  rw [Nat.mul_add, Nat.mul_one] at hmul
  simp only [array, List.length_cons, List.length_append, List.length_nil, length_commas]
  omega

/-- A map with a bounded number of bindings of bounded size. -/
theorem length_mapping_le {K V : Type} [Serialize V] {key : K → String} {bindings : List (K × V)}
    {size count : Nat}
    (hsize : ∀ b ∈ bindings, (text (key b.1)).length + (write b.2).length ≤ size)
    (hcount : bindings.length ≤ count) :
    (mapping key bindings).length ≤ 2 + count * (size + 2) := by
  have hsum : (bindings.map fun b => (text (key b.1)).length + 1 + (write b.2).length).sum ≤
      bindings.length * (size + 1) := by
    refine (List.sum_le_card_nsmul _ (size + 1) fun n hn => ?_).trans_eq (by simp)
    obtain ⟨b, hb, rfl⟩ := List.mem_map.1 hn
    have hb := hsize b hb
    omega
  have hsplit : (bindings.map fun b => (text (key b.1)).length + 1 + (write b.2).length).sum =
      (bindings.map fun b => (text (key b.1)).length + 1).sum +
        (bindings.map fun b => (write b.2).length).sum := by
    rw [← List.sum_map_add]
  have hmul : bindings.length * (size + 2) ≤ count * (size + 2) := Nat.mul_le_mul_right _ hcount
  have hexpand : bindings.length * (size + 2) = bindings.length * (size + 1) + bindings.length := by
    ring
  simp only [mapping, length_object, frame, List.map_map, List.length_map, Function.comp_def]
  omega

end Json
