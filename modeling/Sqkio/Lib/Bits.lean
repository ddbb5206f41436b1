import Mathlib.Data.Nat.Bitwise
import Mathlib.Data.Nat.Find

/-!
# Packed words and bitmaps

A word whose low `i` bits hold flags and whose other bits hold a multiple of `2 ^ i` is handled one part at a time
(`Bits.and_parts`, `Bits.or_parts`).  Of a bitmap, `x &&& -x` keeps the lowest bit only (`Bits.lowest`).  A byte of
a word is read with `Bits.getByte` and written with `Bits.setByte`, the lowest one is number 0.
-/

namespace Sqkio.Lib.Bits

/-! ## Packed words -/

theorem and_parts (i a c : Nat) {b d : Nat} (hb : b < 2 ^ i) (hd : d < 2 ^ i) :
    (2 ^ i * a + b) &&& (2 ^ i * c + d) = 2 ^ i * (a &&& c) + (b &&& d) := by
  apply Nat.eq_of_testBit_eq
  intro j
  rw [Nat.testBit_and, Nat.testBit_two_pow_mul_add _ hb, Nat.testBit_two_pow_mul_add _ hd,
    Nat.testBit_two_pow_mul_add _ (Nat.and_lt_two_pow _ hd)]
  split
  · rw [Nat.testBit_and]
  · rw [Nat.testBit_and]

theorem or_parts (i a c : Nat) {b d : Nat} (hb : b < 2 ^ i) (hd : d < 2 ^ i) :
    (2 ^ i * a + b) ||| (2 ^ i * c + d) = 2 ^ i * (a ||| c) + (b ||| d) := by
  apply Nat.eq_of_testBit_eq
  intro j
  rw [Nat.testBit_or, Nat.testBit_two_pow_mul_add _ hb, Nat.testBit_two_pow_mul_add _ hd,
    Nat.testBit_two_pow_mul_add _ (Nat.or_lt_two_pow hb hd)]
  split
  · rw [Nat.testBit_or]
  · rw [Nat.testBit_or]

/-- The mask of all bits of a word of `w` bits but the low `i` rounds down. -/
theorem and_high (i w x : Nat) (hi : i ≤ w) (hx : x < 2 ^ w) : x &&& (2 ^ w - 2 ^ i) = 2 ^ i * (x / 2 ^ i) := by
  have hpow : 2 ^ w = 2 ^ i * 2 ^ (w - i) := by rw [← Nat.pow_add, Nat.add_sub_cancel' hi]
  have hmask : 2 ^ w - 2 ^ i = 2 ^ i * (2 ^ (w - i) - 1) + 0 := by rw [hpow, Nat.mul_sub, Nat.mul_one,
    Nat.add_zero]
  have hquot : x / 2 ^ i < 2 ^ (w - i) := by
    apply Nat.div_lt_of_lt_mul
    rw [← hpow]
    exact hx
  rw [hmask]
  conv => lhs; rw [← Nat.div_add_mod x (2 ^ i)]
  rw [and_parts _ _ _ (Nat.mod_lt _ (Nat.two_pow_pos i)) (Nat.two_pow_pos i), Nat.and_two_pow_sub_one_eq_mod,
    Nat.mod_eq_of_lt hquot, Nat.and_zero, Nat.add_zero]

/-! ## The lowest bit of a bitmap -/

variable {w : Nat} {x : BitVec w}

/-- No bit below `k` is set, and `k` is. -/
structure IsLowest (x : BitVec w) (k : Nat) : Prop where
  set : x.getLsbD k = true
  below : ∀ j, j < k → x.getLsbD j = false

theorem IsLowest.lt {k : Nat} (h : IsLowest x k) : k < w := BitVec.lt_of_getLsbD h.set

theorem exists_getLsbD (hx : x ≠ 0#w) : ∃ k, x.getLsbD k = true := by
  by_contra hnone
  apply hx
  apply BitVec.eq_of_getLsbD_eq
  intro j _
  rw [BitVec.getLsbD_zero]
  exact Bool.eq_false_iff.mpr fun hj => hnone ⟨j, hj⟩

theorem exists_isLowest (hx : x ≠ 0#w) : ∃ k, IsLowest x k := by
  have hex := exists_getLsbD hx
  refine ⟨Nat.find hex, Nat.find_spec hex, fun j hj => ?_⟩
  exact Bool.eq_false_iff.mpr (Nat.find_min hex hj)

/-- `-x` agrees with `x` up to the lowest bit and is its complement above. -/
theorem lowest {k : Nat} (h : IsLowest x k) : x &&& -x = BitVec.twoPow w k := by
  apply BitVec.eq_of_getLsbD_eq
  intro j hj
  rw [BitVec.getLsbD_and, BitVec.getLsbD_neg, BitVec.getLsbD_twoPow]
  rcases Nat.lt_trichotomy j k with hjk | rfl | hkj
  · have hne : decide (k = j) = false := decide_eq_false (by omega)
    rw [h.below j hjk, hne, Bool.false_and, Bool.and_false]
  · have hnone : decide (∃ i, i < j ∧ x.getLsbD i = true) = false := by
      apply decide_eq_false
      rintro ⟨i, hi, hset⟩
      rw [h.below i hi] at hset
      cases hset
    simp [h.set, hj, hnone]
  · have hsome : decide (∃ i, i < j ∧ x.getLsbD i = true) = true := decide_eq_true ⟨k, hkj, h.set⟩
    have hne : decide (k = j) = false := decide_eq_false (by omega)
    rw [hsome, hne]
    cases x.getLsbD j <;> simp [hj]

/-! ## Bytes of a word -/

def getByte (x k : Nat) : Nat := x / 256 ^ k % 256

def setByte (x k v : Nat) : Nat := 256 ^ k * (256 * (x / 256 ^ (k + 1)) + v % 256) + x % 256 ^ k

/-- The low `n` bytes become zero. -/
def clearBytes (x n : Nat) : Nat := x / 2 ^ (8 * n) * 2 ^ (8 * n)

theorem getByte_setByte (x k v : Nat) : getByte (setByte x k v) k = v % 256 := by
  have hlow : x % 256 ^ k < 256 ^ k := Nat.mod_lt _ (Nat.pow_pos (by omega))
  unfold getByte setByte
  rw [Nat.mul_add_div (Nat.pow_pos (by omega)), Nat.div_eq_of_lt hlow]
  omega

theorem getByte_setByte_of_ne {x k j v : Nat} (h : j ≠ k) : getByte (setByte x k v) j = getByte x j := by
  have hpow : ∀ i, 0 < 256 ^ i := fun i => Nat.pow_pos (by omega)
  unfold getByte
  rcases Nat.lt_or_gt_of_ne h with hlt | hgt
  · -- the bytes below `k` are those of `x % 256 ^ k`
    obtain ⟨m, rfl⟩ : ∃ m, k = j + (m + 1) := ⟨k - j - 1, by omega⟩
    unfold setByte
    generalize 256 * (x / 256 ^ (j + (m + 1) + 1)) + v % 256 = q
    rw [Nat.pow_add, Nat.mul_assoc, Nat.mul_add_div (hpow j), Nat.mod_mul_right_div_self, Nat.pow_succ',
      Nat.mul_assoc,
      Nat.mul_add_mod, Nat.mod_mul_right_mod]
  · obtain ⟨m, rfl⟩ : ∃ m, j = k + 1 + m := ⟨j - k - 1, by omega⟩
    have hlow : 256 ^ k * (v % 256) + x % 256 ^ k < 256 ^ (k + 1) := by
      have hv : 256 ^ k * (v % 256) ≤ 256 ^ k * 255 := Nat.mul_le_mul_left _ (by omega)
      have hx := Nat.mod_lt x (hpow k)
      rw [Nat.pow_succ]
      omega
    have hset : setByte x k v = 256 ^ (k + 1) * (x / 256 ^ (k + 1)) + (256 ^ k * (v % 256) + x % 256 ^ k) := by
      unfold setByte
      rw [Nat.mul_add, ← Nat.mul_assoc, ← Nat.pow_succ, Nat.add_assoc]
    rw [hset, Nat.pow_add 256 (k + 1) m, ← Nat.div_div_eq_div_mul, ← Nat.div_div_eq_div_mul,
      Nat.mul_add_div (hpow _),
      Nat.div_eq_of_lt hlow, Nat.add_zero]

theorem getByte_clearBytes (x n k : Nat) : getByte (clearBytes x n) k = if k < n then 0 else getByte x k := by
  have hpow : ∀ i, 0 < 256 ^ i := fun i => Nat.pow_pos (by omega)
  have hclear : clearBytes x n = 256 ^ n * (x / 256 ^ n) := by
    unfold clearBytes
    rw [Nat.pow_mul, show 2 ^ 8 = 256 from rfl, Nat.mul_comm]
  unfold getByte
  rw [hclear]
  split
  next hlt =>
    obtain ⟨m, rfl⟩ : ∃ m, n = k + (m + 1) := ⟨n - k - 1, by omega⟩
    generalize x / 256 ^ (k + (m + 1)) = q
    rw [Nat.pow_add, Nat.mul_assoc, Nat.mul_div_cancel_left _ (hpow k), Nat.pow_succ', Nat.mul_assoc,
      Nat.mul_mod_right]
  next hge =>
    obtain ⟨m, rfl⟩ : ∃ m, k = n + m := ⟨k - n, by omega⟩
    rw [Nat.pow_add, ← Nat.div_div_eq_div_mul, ← Nat.div_div_eq_div_mul, Nat.mul_div_cancel_left _ (hpow n)]

end Sqkio.Lib.Bits
