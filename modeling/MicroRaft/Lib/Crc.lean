import Mathlib

/-!
# Reflected cyclic redundancy checks

A shift register of `w` bits with feedback polynomial `poly`, the least significant
bit leaving first.  The register is linear over exclusive or (`shift_xor`), and it is
injective when the polynomial has its top bit set.  Two results
follow for any register: `k` shifts of a word split into a table word of its low `k`
bits and the rest moved down (`shifts_split`), which is what a table-driven
implementation relies on; and an input with at most `w` consecutive positions in
which some bit is set never returns the register to zero (`feedAll_burst`).
-/

namespace Crc

variable {w : Nat} (poly : BitVec w)

/-- One step of the register: the bit that leaves decides whether `poly` is added. -/
def shift (c : BitVec w) : BitVec w :=
  if c.getLsbD 0 then poly ^^^ (c >>> 1) else c >>> 1

/-- The register after `n` steps. -/
def shifts (n : Nat) (c : BitVec w) : BitVec w :=
  n.rec c fun _ d => shift poly d

/-- A word with only its least significant bit, which is `b`. -/
def unit (w : Nat) (b : Bool) : BitVec w :=
  BitVec.ofNat w b.toNat

/-- One step of the register that takes in the input bit `b`. -/
def feed (c : BitVec w) (b : Bool) : BitVec w :=
  shift poly (c ^^^ unit w b)

/-- The register after a sequence of input bits. -/
def feedAll (c : BitVec w) (bits : List Bool) : BitVec w :=
  bits.foldl (feed poly) c

/-- The bits of a byte, the least significant first. -/
def bitsOf (b : UInt8) : List Bool :=
  (List.range 8).map b.toBitVec.getLsbD

/-- The bits of a byte string, the least significant bit of each byte first. -/
def bits (bytes : List UInt8) : List Bool :=
  bytes.flatMap bitsOf

@[simp] theorem bits_cons (b : UInt8) (bytes : List UInt8) :
    bits (b :: bytes) = bitsOf b ++ bits bytes := List.flatMap_cons

@[simp] theorem length_bitsOf (b : UInt8) : (bitsOf b).length = 8 := rfl

theorem length_bits (bytes : List UInt8) : (bits bytes).length = 8 * bytes.length := by
  induction bytes with
  | nil => rfl
  | cons b bytes ih =>
    rw [bits_cons, List.length_append, ih, length_bitsOf, List.length_cons]
    omega

/-! ## Linearity -/

@[simp] theorem shifts_zero (c : BitVec w) : shifts poly 0 c = c := rfl

theorem shifts_succ (n : Nat) (c : BitVec w) :
    shifts poly (n + 1) c = shift poly (shifts poly n c) := rfl

theorem shifts_shift (n : Nat) (c : BitVec w) :
    shifts poly n (shift poly c) = shifts poly (n + 1) c := by
  induction n with
  | zero => rfl
  | succ n ih => rw [shifts_succ, ih, ← shifts_succ]

theorem shift_xor (a b : BitVec w) : shift poly (a ^^^ b) = shift poly a ^^^ shift poly b := by
  have hmove : (a ^^^ b) >>> 1 = (a >>> 1) ^^^ (b >>> 1) := BitVec.ushiftRight_xor_distrib a b 1
  unfold shift
  rw [BitVec.getLsbD_xor, hmove]
  cases a.getLsbD 0 <;> cases b.getLsbD 0
  · rfl
  · simp only [Bool.false_xor, if_true, Bool.false_eq_true, if_false]
    rw [← BitVec.xor_assoc, ← BitVec.xor_assoc, BitVec.xor_comm poly]
  · simp only [Bool.xor_false, if_true, Bool.false_eq_true, if_false]
    rw [BitVec.xor_assoc]
  · -- both words add the polynomial, which cancels
    simp only [Bool.xor_true, Bool.not_true, Bool.false_eq_true, if_false, if_true]
    rw [BitVec.xor_comm poly (b >>> 1), ← BitVec.xor_assoc, BitVec.xor_assoc poly,
      BitVec.xor_comm poly, BitVec.xor_assoc, BitVec.xor_self, BitVec.xor_zero]

@[simp] theorem shift_zero : shift poly 0 = 0 := by
  simp [shift]

theorem shifts_xor (n : Nat) (a b : BitVec w) :
    shifts poly n (a ^^^ b) = shifts poly n a ^^^ shifts poly n b := by
  induction n with
  | zero => rfl
  | succ n ih => rw [shifts_succ, ih, shift_xor, ← shifts_succ, ← shifts_succ]

theorem unit_xor (a b : Bool) : unit w (a ^^ b) = unit w a ^^^ unit w b := by
  cases a <;> cases b <;> simp [unit]

theorem feed_xor (c d : BitVec w) (a b : Bool) :
    feed poly (c ^^^ d) (a ^^ b) = feed poly c a ^^^ feed poly d b := by
  have hinput : c ^^^ d ^^^ unit w (a ^^ b) = (c ^^^ unit w a) ^^^ (d ^^^ unit w b) := by
    rw [unit_xor]
    ac_rfl
  rw [feed, hinput, shift_xor, feed, feed]

@[simp] theorem feedAll_nil (c : BitVec w) : feedAll poly c [] = c := rfl

@[simp] theorem feedAll_cons (c : BitVec w) (b : Bool) (bits : List Bool) :
    feedAll poly c (b :: bits) = feedAll poly (feed poly c b) bits := rfl

theorem feedAll_append (c : BitVec w) (x y : List Bool) :
    feedAll poly c (x ++ y) = feedAll poly (feedAll poly c x) y :=
  List.foldl_append

/-- The register is linear in its state and its input together. -/
theorem feedAll_xor (c d : BitVec w) {x y : List Bool} (h : x.length = y.length) :
    feedAll poly (c ^^^ d) (List.zipWith xor x y) = feedAll poly c x ^^^ feedAll poly d y := by
  induction x generalizing y c d with
  | nil =>
    cases y with
    | nil => rfl
    | cons b y => simp at h
  | cons a x ih =>
    cases y with
    | nil => simp at h
    | cons b y =>
      rw [List.zipWith_cons_cons, feedAll_cons, feedAll_cons, feedAll_cons]
      rw [feed_xor]
      exact ih _ _ (by simpa using h)

/-! ## Words and bits -/

/-- The word whose low bits are `bits`, the first the least significant. -/
def word (w : Nat) : List Bool → BitVec w
  | [] => 0
  | b :: bits => unit w b ^^^ (word w bits <<< 1)

theorem getLsbD_unit (b : Bool) (i : Nat) :
    (unit w b).getLsbD i = (decide (i < w) && (decide (i = 0) && b)) := by
  cases b with
  | false => simp [unit]
  | true =>
    cases i with
    | zero => simp [unit]
    | succ i => simp [unit]

theorem getLsbD_word (bits : List Bool) (i : Nat) :
    (word w bits).getLsbD i = (decide (i < w) && bits.getD i false) := by
  induction bits generalizing i with
  | nil => simp [word]
  | cons b bits ih =>
    rw [word, BitVec.getLsbD_xor, getLsbD_unit, BitVec.getLsbD_shiftLeft]
    cases i with
    | zero => simp
    | succ i =>
      rw [Nat.add_sub_cancel, ih]
      by_cases hi : i + 1 < w
      · have hlow : i < w := by omega
        simp [hi, hlow]
      · simp [hi]

/-- Feeding at most `w` bits is adding them to the register before shifting. -/
theorem feedAll_word {bits : List Bool} (h : bits.length ≤ w) (c : BitVec w) :
    feedAll poly c bits = shifts poly bits.length (c ^^^ word w bits) := by
  induction bits generalizing c with
  | nil => simp [word]
  | cons b bits ih =>
    have hlength : bits.length < w := by simpa using h
    rw [feedAll_cons, ih hlength.le, List.length_cons, ← shifts_shift]
    congr 1
    -- the bits that come later have moved up by one, and the shift brings them back
    have hlater : shift poly (word w bits <<< 1) = word w bits := by
      have hbit : (word w bits <<< 1).getLsbD 0 = false := by simp
      rw [shift, hbit]
      refine BitVec.eq_of_getLsbD_eq fun i hi => ?_
      rw [if_neg Bool.false_ne_true, BitVec.getLsbD_ushiftRight, BitVec.getLsbD_shiftLeft]
      by_cases htop : 1 + i < w
      · simp [htop]
      · have hpast : bits.length ≤ i := by omega
        have hclear : (word w bits).getLsbD i = false := by
          rw [getLsbD_word]
          simp [hpast]
        simp [htop, hclear]
    rw [feed, word, ← BitVec.xor_assoc, shift_xor poly (c ^^^ unit w b), hlater]

/-! ## Table words -/

/-- While the low bits are clear the register only moves down. -/
theorem shifts_of_low_clear {k : Nat} {c : BitVec w} (h : ∀ i < k, c.getLsbD i = false) :
    shifts poly k c = c >>> k := by
  induction k with
  | zero => simp
  | succ k ih =>
    have hclear : (c >>> k).getLsbD 0 = false := by
      rw [BitVec.getLsbD_ushiftRight]
      exact h k (Nat.lt_succ_self k)
    rw [shifts_succ, ih fun i hi => h i (Nat.lt_succ_of_lt hi), shift, hclear]
    rw [if_neg Bool.false_ne_true, ← BitVec.shiftRight_add]

/-- `k` steps of a word: those of its low `k` bits, and the rest moved down. -/
theorem shifts_split {k : Nat} {c mask : BitVec w}
    (hmask : ∀ i < w, mask.getLsbD i = decide (i < k)) :
    shifts poly k c = shifts poly k (c &&& mask) ^^^ (c >>> k) := by
  have hsplit : c = (c &&& mask) ^^^ (c &&& ~~~mask) := by
    refine BitVec.eq_of_getLsbD_eq fun i hi => ?_
    rw [BitVec.getLsbD_xor, BitVec.getLsbD_and, BitVec.getLsbD_and, BitVec.getLsbD_not]
    cases c.getLsbD i <;> cases mask.getLsbD i <;> simp [hi]
  have hclear : ∀ i < k, (c &&& ~~~mask).getLsbD i = false := by
    intro i hi
    rw [BitVec.getLsbD_and, BitVec.getLsbD_not]
    by_cases hw : i < w
    · simp [hmask i hw, hi]
    · simp [hw]
  have hmoved : (c &&& ~~~mask) >>> k = c >>> k := by
    refine BitVec.eq_of_getLsbD_eq fun i hi => ?_
    rw [BitVec.getLsbD_ushiftRight, BitVec.getLsbD_ushiftRight, BitVec.getLsbD_and,
      BitVec.getLsbD_not]
    by_cases hw : k + i < w
    · have hkept : mask.getLsbD (k + i) = false := by simp [hmask _ hw]
      simp only [hkept, hw, decide_true, Bool.not_false, Bool.and_self, Bool.and_true]
    · have hpast : c.getLsbD (k + i) = false := BitVec.getLsbD_of_ge _ _ (Nat.le_of_not_lt hw)
      simp only [hpast, Bool.false_and]
  calc shifts poly k c = shifts poly k ((c &&& mask) ^^^ (c &&& ~~~mask)) := by rw [← hsplit]
    _ = shifts poly k (c &&& mask) ^^^ shifts poly k (c &&& ~~~mask) := shifts_xor poly k _ _
    _ = shifts poly k (c &&& mask) ^^^ (c >>> k) := by rw [shifts_of_low_clear poly hclear, hmoved]

/-! ## Detection -/

section Detection

variable {poly} (htop : poly.getLsbD (w - 1) = true)
include htop

/-- A register whose polynomial has its top bit set only reaches zero from zero. -/
theorem eq_zero_of_shift {c : BitVec w} (h : shift poly c = 0) : c = 0 := by
  have hpos : 0 < w := by
    by_contra hw
    have hlow : ¬ w - 1 < w := by omega
    rw [BitVec.getLsbD_of_ge _ _ (Nat.le_of_not_lt hlow)] at htop
    exact Bool.false_ne_true htop
  have hgone : c.getLsbD 0 = false := by
    cases hbit : c.getLsbD 0 with
    | false => rfl
    | true =>
      -- the polynomial's top bit would stay, nothing is moved into that place
      rw [shift, hbit, if_pos rfl] at h
      have hplace : (poly ^^^ c >>> 1).getLsbD (w - 1) = (0 : BitVec w).getLsbD (w - 1) := by
        rw [h]
      have hpast : w ≤ 1 + (w - 1) := by omega
      rw [BitVec.getLsbD_xor, htop, BitVec.getLsbD_ushiftRight,
        BitVec.getLsbD_of_ge _ _ hpast] at hplace
      simp at hplace
  rw [shift, hgone, if_neg Bool.false_ne_true] at h
  refine BitVec.eq_of_getLsbD_eq fun i hi => ?_
  cases i with
  | zero => simpa using hgone
  | succ i =>
    have hmoved : (c >>> 1).getLsbD i = (0 : BitVec w).getLsbD i := by rw [h]
    rw [BitVec.getLsbD_ushiftRight, Nat.add_comm] at hmoved
    simpa using hmoved

theorem eq_zero_of_shifts {n : Nat} {c : BitVec w} (h : shifts poly n c = 0) : c = 0 := by
  induction n with
  | zero => exact h
  | succ n ih => exact ih (eq_zero_of_shift htop h)

omit htop in
theorem feedAll_clear (n : Nat) (c : BitVec w) :
    feedAll poly c (List.replicate n false) = shifts poly n c := by
  induction n generalizing c with
  | zero => rfl
  | succ n ih =>
    have hfeed : feed poly c false = shift poly c := by simp [feed, unit]
    rw [List.replicate_succ, feedAll_cons, ih, hfeed, shifts_shift]

omit htop in
theorem shifts_eq_zero (n : Nat) : shifts poly n 0 = 0 := by
  induction n with
  | zero => rfl
  | succ n ih => rw [shifts_succ, ih, shift_zero]

/-- **Bursts are seen.**  From the zero register, an input whose set bits lie within
`w` consecutive positions leaves the register different from zero. -/
theorem feedAll_burst {input : List Bool} {start : Nat} (hset : true ∈ input)
    (hwindow : ∀ i, input[i]? = some true → start ≤ i ∧ i < start + w) :
    feedAll poly 0 input ≠ 0 := by
  intro hzero
  -- the input is clear bits, the window, and clear bits again
  have hbefore : input.take start = List.replicate (input.take start).length false := by
    refine List.eq_replicate_iff.2 ⟨rfl, fun b hb => ?_⟩
    obtain ⟨i, hi⟩ := List.mem_iff_getElem?.1 hb
    rw [List.getElem?_take] at hi
    split at hi
    · rename_i hlt
      cases b with
      | false => rfl
      | true => exact absurd (hwindow i hi).1 (by omega)
    · cases hi
  have hafter : (input.drop start).drop w =
      List.replicate ((input.drop start).drop w).length false := by
    refine List.eq_replicate_iff.2 ⟨rfl, fun b hb => ?_⟩
    obtain ⟨i, hi⟩ := List.mem_iff_getElem?.1 hb
    rw [List.getElem?_drop, List.getElem?_drop] at hi
    cases b with
    | false => rfl
    | true => exact absurd (hwindow _ hi).2 (by omega)
  let burst := (input.drop start).take w
  have hshort : burst.length ≤ w := List.length_take_le _ _
  have hinput : input = input.take start ++ (burst ++ (input.drop start).drop w) := by
    rw [List.take_append_drop, List.take_append_drop]
  rw [hinput, feedAll_append, feedAll_append, hbefore, hafter, feedAll_clear, feedAll_clear,
    shifts_eq_zero] at hzero
  have hburst : word w burst = 0 := by
    have hfed := eq_zero_of_shifts htop hzero
    have hstart : 0 ^^^ word w burst = word w burst := BitVec.zero_xor
    rw [feedAll_word poly hshort, hstart] at hfed
    exact eq_zero_of_shifts htop hfed
  obtain ⟨i, hi⟩ := List.mem_iff_getElem?.1 hset
  obtain ⟨hge, hlt⟩ := hwindow i hi
  have hplace : (word w burst).getLsbD (i - start) = true := by
    have hbit : burst[i - start]? = some true := by
      rw [List.getElem?_take, if_pos (by omega), List.getElem?_drop]
      rwa [Nat.add_sub_cancel' hge]
    have hlow : i - start < w := by omega
    rw [getLsbD_word, List.getD_eq_getElem?_getD, hbit]
    simp [hlow]
  rw [hburst] at hplace
  simp at hplace

end Detection

end Crc
