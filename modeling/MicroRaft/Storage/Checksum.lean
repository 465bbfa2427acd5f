import MicroRaft.Lib.Crc

/-!
# The checksum of a log frame

`crc.rs` computes the CRC-32 of a frame through a table of 256 words.  The table-driven
loop is the bit-serial register of `Crc` with the reflected polynomial `0xEDB88320`
(`crc32_eq_bitwise`), so the register's linearity and its detection of bursts hold for
the checksum that guards every entry of the log.
-/

namespace MicroRaft.Storage

/-! ## The source's computation -/

/-- The body of the inner loop of `make_table`. -/
def tableStep (c : BitVec 32) : BitVec 32 :=
  if c &&& 1#32 != 0#32 then 0xEDB88320#32 ^^^ (c >>> 1) else c >>> 1

/-- The word that `make_table` computes for one index, by eight rounds of its inner loop. -/
def tableWord (i : Nat) : BitVec 32 :=
  (List.range 8).foldl (fun c _ => tableStep c) (BitVec.ofNat 32 i)

/-- `make_table`. -/
def makeTable : Vector (BitVec 32) 256 :=
  Vector.ofFn fun i => tableWord i

/-- `CRC_TABLE`. -/
def crcTable : Vector (BitVec 32) 256 :=
  makeTable

/-- `u32::from` of a byte. -/
def fromByte (b : UInt8) : BitVec 32 :=
  b.toBitVec.setWidth 32

/-- A masked word is an index of the table. -/
theorem toNat_mask_lt (c : BitVec 32) : (c &&& 0xFF#32).toNat < 256 := by
  have hmask : (c &&& 0xFF#32).toNat ≤ (0xFF#32).toNat := by
    rw [BitVec.toNat_and]
    exact Nat.and_le_right
  have hbound : (0xFF#32).toNat < 256 := by decide
  exact lt_of_le_of_lt hmask hbound

/-- The body of the loop of `crc32`. -/
def crcStep (c : BitVec 32) (b : UInt8) : BitVec 32 :=
  crcTable.get ⟨((c ^^^ fromByte b) &&& 0xFF#32).toNat, toNat_mask_lt _⟩ ^^^ (c >>> 8)

/-- `crc32`. -/
def crc32 (bytes : List UInt8) : BitVec 32 :=
  bytes.foldl crcStep 0xFFFFFFFF#32 ^^^ 0xFFFFFFFF#32

/-! ## The checksum it is meant to be -/

/-- The reflected polynomial of IEEE 802.3. -/
def polynomial : BitVec 32 :=
  0xEDB88320#32

/-- The reflected CRC-32, one bit at a time: the register starts with all bits set, takes
the bits of every byte from the least significant on, and is complemented at the end. -/
def crc32Bitwise (bytes : List UInt8) : BitVec 32 :=
  Crc.feedAll polynomial 0xFFFFFFFF#32 (Crc.bits bytes) ^^^ 0xFFFFFFFF#32

/-! ## The table is eight steps of the register -/

theorem tableStep_eq (c : BitVec 32) : tableStep c = Crc.shift polynomial c := by
  have hbit : (c &&& 1#32 != 0#32) = c.getLsbD 0 := by
    rw [BitVec.and_one_eq_setWidth_ofBool_getLsbD]
    cases c.getLsbD 0 <;> rfl
  rw [tableStep, Crc.shift, hbit, polynomial]

theorem tableWord_eq (i : Nat) : tableWord i = Crc.shifts polynomial 8 (BitVec.ofNat 32 i) := by
  simp only [tableWord, tableStep_eq]
  rfl

theorem crcTable_get (i : Fin 256) :
    crcTable.get i = Crc.shifts polynomial 8 (BitVec.ofNat 32 i) := by
  rw [crcTable, makeTable, Vector.get_ofFn, tableWord_eq]

/-- One round of the table-driven loop is the register fed with the eight bits of the byte. -/
theorem crcStep_eq (c : BitVec 32) (b : UInt8) :
    crcStep c b = Crc.feedAll polynomial c (Crc.bitsOf b) := by
  have hmask : ∀ i < 32, (0xFF#32).getLsbD i = decide (i < 8) := by decide
  have hword : Crc.word 32 (Crc.bitsOf b) = fromByte b := by
    refine BitVec.eq_of_getLsbD_eq fun i hi => ?_
    rw [Crc.getLsbD_word, fromByte, BitVec.getLsbD_setWidth]
    by_cases hlow : i < 8
    · simp [Crc.bitsOf, hlow]
    · have hpast : b.toBitVec.getLsbD i = false :=
        BitVec.getLsbD_of_ge _ _ (Nat.le_of_not_lt hlow)
      simp [Crc.bitsOf, hlow, hpast]
  -- the byte lies in the bits that the shift takes out
  have hhigh : (c ^^^ fromByte b) >>> 8 = c >>> 8 := by
    refine BitVec.eq_of_getLsbD_eq fun i hi => ?_
    simp [fromByte]
  have hfits : (Crc.bitsOf b).length ≤ 32 := by
    rw [Crc.length_bitsOf]
    decide
  rw [Crc.feedAll_word polynomial hfits, Crc.length_bitsOf, hword,
    Crc.shifts_split polynomial hmask, hhigh, crcStep, crcTable_get, BitVec.ofNat_toNat,
    BitVec.setWidth_eq]

theorem foldl_crcStep (bytes : List UInt8) (c : BitVec 32) :
    bytes.foldl crcStep c = Crc.feedAll polynomial c (Crc.bits bytes) := by
  induction bytes generalizing c with
  | nil => rfl
  | cons b bytes ih =>
    rw [List.foldl_cons, ih, crcStep_eq, Crc.bits_cons, Crc.feedAll_append]

theorem crc32_eq_bitwise (bytes : List UInt8) : crc32 bytes = crc32Bitwise bytes := by
  rw [crc32, foldl_crcStep, crc32Bitwise]

/-! ## Linearity -/

/-- The bytewise exclusive or of two byte strings. -/
def xorBytes (a b : List UInt8) : List UInt8 :=
  List.zipWith (· ^^^ ·) a b

theorem bitsOf_xor (a b : UInt8) :
    Crc.bitsOf (a ^^^ b) = List.zipWith xor (Crc.bitsOf a) (Crc.bitsOf b) := by
  have hbits : (a ^^^ b).toBitVec.getLsbD =
      fun i => xor (a.toBitVec.getLsbD i) (b.toBitVec.getLsbD i) := by
    funext i
    rw [UInt8.toBitVec_xor, BitVec.getLsbD_xor]
  rw [Crc.bitsOf, hbits, Crc.bitsOf, Crc.bitsOf, List.zipWith_map, List.zipWith_self]

theorem bits_xorBytes {a b : List UInt8} (h : a.length = b.length) :
    Crc.bits (xorBytes a b) = List.zipWith xor (Crc.bits a) (Crc.bits b) := by
  induction a generalizing b with
  | nil =>
    cases b with
    | nil => rfl
    | cons y b => simp at h
  | cons x a ih =>
    cases b with
    | nil => simp at h
    | cons y b =>
      have hlength : (Crc.bitsOf x).length = (Crc.bitsOf y).length := rfl
      have hrest : a.length = b.length := by simpa using h
      rw [xorBytes, List.zipWith_cons_cons, Crc.bits_cons, Crc.bits_cons, Crc.bits_cons,
        bitsOf_xor, ← xorBytes, ih hrest, List.zipWith_append hlength]

theorem length_xorBytes {a b : List UInt8} (h : a.length = b.length) :
    (xorBytes a b).length = a.length := by
  rw [xorBytes, List.length_zipWith, h, Nat.min_self]

/-- The registers of two strings of one length add up. -/
theorem feedAll_xorBytes (c d : BitVec 32) {a b : List UInt8} (h : a.length = b.length) :
    Crc.feedAll polynomial (c ^^^ d) (Crc.bits (xorBytes a b)) =
      Crc.feedAll polynomial c (Crc.bits a) ^^^ Crc.feedAll polynomial d (Crc.bits b) := by
  rw [bits_xorBytes h]
  exact Crc.feedAll_xor polynomial c d (by rw [Crc.length_bits, Crc.length_bits, h])

theorem crc32Bitwise_xor {a b c : List UInt8} (hb : a.length = b.length)
    (hc : a.length = c.length) :
    crc32Bitwise (xorBytes (xorBytes a b) c) =
      crc32Bitwise a ^^^ crc32Bitwise b ^^^ crc32Bitwise c := by
  have hstart : (0xFFFFFFFF#32 ^^^ 0xFFFFFFFF#32) ^^^ 0xFFFFFFFF#32 = 0xFFFFFFFF#32 := rfl
  have hlength : (xorBytes a b).length = c.length := (length_xorBytes hb).trans hc
  have hregister := feedAll_xorBytes (0xFFFFFFFF#32 ^^^ 0xFFFFFFFF#32) 0xFFFFFFFF#32 hlength
  rw [hstart, feedAll_xorBytes _ _ hb] at hregister
  unfold crc32Bitwise
  rw [hregister]
  generalize Crc.feedAll polynomial 0xFFFFFFFF#32 (Crc.bits a) = x
  generalize Crc.feedAll polynomial 0xFFFFFFFF#32 (Crc.bits b) = y
  generalize Crc.feedAll polynomial 0xFFFFFFFF#32 (Crc.bits c) = z
  -- three complements are one
  calc x ^^^ y ^^^ z ^^^ 0xFFFFFFFF#32
      = x ^^^ y ^^^ z ^^^ (0xFFFFFFFF#32 ^^^ 0xFFFFFFFF#32 ^^^ 0xFFFFFFFF#32) := by rw [hstart]
    _ = (x ^^^ 0xFFFFFFFF#32) ^^^ (y ^^^ 0xFFFFFFFF#32) ^^^ (z ^^^ 0xFFFFFFFF#32) := by ac_rfl

/-! ## Bursts -/

theorem bitsOf_injective : Function.Injective Crc.bitsOf := by
  intro a b h
  have hbits : ∀ i < 8, a.toBitVec.getLsbD i = b.toBitVec.getLsbD i := by
    intro i hi
    have hmem : i ∈ List.range 8 := List.mem_range.2 hi
    exact (List.map_inj_left.1 h) i hmem
  exact UInt8.toBitVec_inj.1 (BitVec.eq_of_getLsbD_eq hbits)

theorem bits_injective {a b : List UInt8} (hlength : a.length = b.length)
    (h : Crc.bits a = Crc.bits b) : a = b := by
  induction a generalizing b with
  | nil =>
    cases b with
    | nil => rfl
    | cons y b => simp at hlength
  | cons x a ih =>
    cases b with
    | nil => simp at hlength
    | cons y b =>
      have hsplit : Crc.bitsOf x ++ Crc.bits a = Crc.bitsOf y ++ Crc.bits b := h
      obtain ⟨hfirst, hrest⟩ := List.append_inj hsplit rfl
      rw [bitsOf_injective hfirst, ih (by simpa using hlength) hrest]

/-- Two strings of one length differ within a window of the register's width. -/
theorem crc32Bitwise_burst {a b : List UInt8} {start : Nat} (hlength : a.length = b.length)
    (hne : a ≠ b)
    (hwindow : ∀ i, (Crc.bits a)[i]? ≠ (Crc.bits b)[i]? → start ≤ i ∧ i < start + 32) :
    crc32Bitwise a ≠ crc32Bitwise b := by
  intro hequal
  have hregisters : Crc.feedAll polynomial 0xFFFFFFFF#32 (Crc.bits a) =
      Crc.feedAll polynomial 0xFFFFFFFF#32 (Crc.bits b) := (BitVec.xor_left_inj _).1 hequal
  have hbits : (Crc.bits a).length = (Crc.bits b).length := by
    rw [Crc.length_bits, Crc.length_bits, hlength]
  have hzero : Crc.feedAll polynomial 0 (List.zipWith xor (Crc.bits a) (Crc.bits b)) = 0 := by
    have hlinear := Crc.feedAll_xor polynomial 0xFFFFFFFF#32 0xFFFFFFFF#32 hbits
    rw [hregisters, BitVec.xor_self, BitVec.xor_self] at hlinear
    exact hlinear
  -- a set bit of the difference is a place where the strings differ
  have hdiffer : ∀ i : Nat, (List.zipWith xor (Crc.bits a) (Crc.bits b))[i]? = some true ↔
      (Crc.bits a)[i]? ≠ (Crc.bits b)[i]? := by
    intro i
    rw [List.getElem?_zipWith]
    by_cases hi : i < (Crc.bits a).length
    · have hj : i < (Crc.bits b).length := hbits ▸ hi
      rw [List.getElem?_eq_getElem hi, List.getElem?_eq_getElem hj]
      simp
    · have hj : ¬ i < (Crc.bits b).length := hbits ▸ hi
      rw [List.getElem?_eq_none (Nat.le_of_not_lt hi), List.getElem?_eq_none (Nat.le_of_not_lt hj)]
      simp
  refine Crc.feedAll_burst (by decide) ?_ (fun i hi => hwindow i ((hdiffer i).1 hi)) hzero
  by_contra hnone
  refine hne (bits_injective hlength (List.ext_getElem? fun i => ?_))
  by_contra hi
  exact hnone (List.mem_of_getElem? ((hdiffer i).2 hi))

/-- **Strength of the log checksum.**  The table-driven `crc32` is the bit-serial
reflected CRC-32; it is affine over strings of one length; and it tells apart any two
strings of one length whose differing bits lie within 32 consecutive positions. -/
theorem crc32_strength :
    (∀ bytes, crc32 bytes = crc32Bitwise bytes) ∧
    (∀ a b c : List UInt8, a.length = b.length → a.length = c.length →
      crc32 (xorBytes (xorBytes a b) c) = crc32 a ^^^ crc32 b ^^^ crc32 c) ∧
    (∀ (a b : List UInt8) (start : Nat), a.length = b.length → a ≠ b →
      (∀ i, (Crc.bits a)[i]? ≠ (Crc.bits b)[i]? → start ≤ i ∧ i < start + 32) →
      crc32 a ≠ crc32 b) := by
  refine ⟨crc32_eq_bitwise, ?_, ?_⟩
  · intro a b c hb hc
    simp only [crc32_eq_bitwise]
    exact crc32Bitwise_xor hb hc
  · intro a b start hlength hne hwindow
    simp only [crc32_eq_bitwise]
    exact crc32Bitwise_burst hlength hne hwindow

/-- The check value of CRC-32, and two strings that differ in adjacent bits of adjacent
bytes. -/
theorem crc32_strength_digits :
    crc32 [0x31, 0x32, 0x33, 0x34, 0x35, 0x36, 0x37, 0x38, 0x39] = 0xCBF43926#32 ∧
      crc32 [0x31, 0x32] ≠ crc32 [0xB1, 0x33] := by
  refine ⟨by decide +kernel, ?_⟩
  refine crc32_strength.2.2 [0x31, 0x32] [0xB1, 0x33] 7 rfl (by decide) ?_
  intro i hi
  have hsmall : i < 16 := by
    by_contra hge
    refine hi ?_
    rw [List.getElem?_eq_none (by rw [Crc.length_bits]; simpa using hge),
      List.getElem?_eq_none (by rw [Crc.length_bits]; simpa using hge)]
  revert hi
  revert i
  decide +kernel

end MicroRaft.Storage
