import Mathlib

/-!
# Byte strings

Byte strings are lists of bytes, ordered lexicographically.  A number occupies a
fixed count of bytes, with the least significant byte first (`le`) or last (`be`);
reading it back (`ofLe`, `ofBe`) gives the number again when it fits, and writing
again what was read gives the bytes again.
-/

namespace Bytes

/-! ## The order -/

theorem compare_eq (a b : List UInt8) : compare a b = compareOfLessAndEq a b := by
  induction a generalizing b with
  | nil => cases b <;> rfl
  | cons x xs ih =>
    cases b with
    | nil => rfl
    | cons y ys =>
      show List.compareLex compare (x :: xs) (y :: ys) = _
      rw [List.compareLex.eq_def]
      dsimp only
      have hxy : compare x y = compareOfLessAndEq x y := rfl
      rw [hxy]
      unfold compareOfLessAndEq
      by_cases hlt : x < y
      · have hlist : x :: xs < y :: ys := List.Lex.rel hlt
        rw [if_pos hlt, if_pos hlist]
      · by_cases heq : x = y
        · subst heq
          have hiff : x :: xs < x :: ys ↔ xs < ys := List.cons_lt_cons_self
          rw [if_neg hlt, if_pos rfl]
          dsimp only
          have hcompare : List.compareLex compare xs ys = compareOfLessAndEq xs ys := ih ys
          rw [hcompare, compareOfLessAndEq]
          simp only [hiff, List.cons.injEq, true_and]
        · have hlist : ¬ x :: xs < y :: ys := by
            rw [List.cons_lt_cons_iff]
            simp [hlt, heq]
          rw [if_neg hlt, if_neg heq, if_neg hlist, if_neg (by simp [heq])]

instance instLinearOrder : LinearOrder (List UInt8) where
  le_refl := List.le_refl
  le_trans _ _ _ := List.le_trans
  le_antisymm _ _ := List.le_antisymm
  le_total := List.le_total
  lt_iff_le_not_ge a b := by
    constructor
    · intro h
      exact ⟨List.le_of_lt h, List.not_le.2 h⟩
    · rintro ⟨-, h⟩
      exact List.not_le.1 h
  toDecidableLE := inferInstance
  toDecidableEq := inferInstance
  toDecidableLT := inferInstance
  compare_eq_compareOfLessAndEq := compare_eq

/-! ## Numbers -/

/-- The number a byte string stands for, least significant byte first. -/
def ofLe : List UInt8 → Nat
  | [] => 0
  | b :: bs => b.toNat + 256 * ofLe bs

/-- A number in `width` bytes, least significant byte first. -/
def le : Nat → Nat → List UInt8
  | 0, _ => []
  | width + 1, n => (n % 256).toUInt8 :: le width (n / 256)

/-- A number in `width` bytes, most significant byte first. -/
def be (width n : Nat) : List UInt8 := (le width n).reverse

/-- The number a byte string stands for, most significant byte first. -/
def ofBe (bs : List UInt8) : Nat := ofLe bs.reverse

@[simp] theorem length_le (width n : Nat) : (le width n).length = width := by
  induction width generalizing n with
  | zero => rfl
  | succ width ih => simp [le, ih]

@[simp] theorem length_be (width n : Nat) : (be width n).length = width := by
  simp [be]

/-- What is written in enough bytes is read back. -/
theorem ofLe_le {width n : Nat} (h : n < 256 ^ width) : ofLe (le width n) = n := by
  induction width generalizing n with
  | zero =>
    have hzero : n = 0 := by simpa using h
    rw [hzero]
    rfl
  | succ width ih =>
    have hdiv : n / 256 < 256 ^ width := by
      rw [Nat.div_lt_iff_lt_mul (by decide), ← pow_succ]
      exact h
    have hmod : (n % 256).toUInt8.toNat = n % 256 := by
      rw [Nat.toUInt8, UInt8.toNat_ofNat']
      omega
    rw [le, ofLe, ih hdiv, hmod]
    omega

theorem ofBe_be {width n : Nat} (h : n < 256 ^ width) : ofBe (be width n) = n := by
  rw [ofBe, be, List.reverse_reverse, ofLe_le h]

theorem ofLe_lt (bs : List UInt8) : ofLe bs < 256 ^ bs.length := by
  induction bs with
  | nil => simp [ofLe]
  | cons b bs ih =>
    have hb := b.toNat_lt
    rw [ofLe, List.length_cons, pow_succ]
    omega

/-- What was read is written again. -/
theorem le_ofLe (bs : List UInt8) : le bs.length (ofLe bs) = bs := by
  induction bs with
  | nil => rfl
  | cons b bs ih =>
    have hb := b.toNat_lt
    have hmod : (b.toNat + 256 * ofLe bs) % 256 = b.toNat := by omega
    have hdiv : (b.toNat + 256 * ofLe bs) / 256 = ofLe bs := by omega
    rw [List.length_cons, ofLe, le, hmod, hdiv, ih]
    simp

end Bytes
