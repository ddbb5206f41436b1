import Mathlib.Order.Interval.Finset.Nat
import Mathlib.Data.Nat.Bitwise

/-!
# Free-running 32-bit counters over unbounded positions

A counter that only grows is kept in a 32-bit register: position `p` is held as
`UInt32.ofNat p`.  Inside a window shorter than `2 ^ 32` the register decides the
position (`ofNat_inj_window`), differences are exact (`ofNat_sub_toNat`), and with
a power-of-two size the slot of a position is `head & mask` (`and_mask`), one slot
for each position of a window of `size` positions (`mod_inj_window`).
-/

namespace Sqkio.Lib

theorem ofNat_toNat (p : Nat) : (UInt32.ofNat p).toNat = p % 2 ^ 32 := by simp

theorem toNat_pos_of_ne {n : UInt32} (h : n ≠ 0) : 0 < n.toNat := by
  rcases Nat.eq_zero_or_pos n.toNat with h0 | h0
  · exact absurd (UInt32.toNat_inj.mp h0) h
  · exact h0

theorem toNat_sub_one {n : UInt32} (h : 0 < n.toNat) : (n - 1).toNat = n.toNat - 1 := by
  have hle : (1 : UInt32) ≤ n := UInt32.le_iff_toNat_le.mpr h
  rw [UInt32.toNat_sub_of_le _ _ hle]
  rfl

theorem ofNat_inj_window {a b : Nat} (hle : a ≤ b) (hlt : b < a + 2 ^ 32)
    (h : UInt32.ofNat a = UInt32.ofNat b) : a = b := by
  have hm : a % 2 ^ 32 = b % 2 ^ 32 := by
    rw [← ofNat_toNat, ← ofNat_toNat, h]
  omega

/-- The wrapping difference is the true one for positions less than `2 ^ 32` apart. -/
theorem ofNat_sub_toNat {a b : Nat} (hle : b ≤ a) (hlt : a < b + 2 ^ 32) :
    (UInt32.ofNat a - UInt32.ofNat b).toNat = a - b := by
  rw [← UInt32.ofNat_sub hle, ofNat_toNat]
  omega

/-- Two positions of a window of `m` positions with the same remainder are equal. -/
theorem mod_inj_window {lo m a b : Nat} (ha : lo ≤ a) (ha' : a < lo + m) (hb : lo ≤ b)
    (hb' : b < lo + m) (h : a % m = b % m) : a = b :=
  Nat.mod_injOn_Ico lo m (by simp [ha, ha']) (by simp [hb, hb']) h

theorem mod_pow_mod {p k : Nat} (hk : k ≤ 32) : p % 2 ^ 32 % 2 ^ k = p % 2 ^ k :=
  Nat.mod_mod_of_dvd p (Nat.pow_dvd_pow 2 hk)

/-- `head & mask` is the position modulo the size, for a power-of-two size. -/
theorem and_mask {mask : UInt32} {k : Nat} (hk : k ≤ 32) (hm : mask.toNat = 2 ^ k - 1) (p : Nat) :
    (UInt32.ofNat p &&& mask).toNat = p % 2 ^ k := by
  rw [UInt32.toNat_and, hm, Nat.and_two_pow_sub_one_eq_mod, ofNat_toNat, mod_pow_mod hk]

/-- A mask that is not all ones leaves out a power of two below it. -/
theorem exists_gap {m : Nat} (hm : ∀ e, m ≠ 2 ^ e - 1) : ∃ j, 2 ^ j < m ∧ 2 ^ j &&& m = 0 := by
  apply Classical.byContradiction
  intro hno
  have hbits : ∀ j, 2 ^ j < m → m.testBit j = true := by
    intro j hj
    cases hbit : m.testBit j with
    | true => rfl
    | false => exact absurd ⟨j, hj, by rw [Nat.two_pow_and, hbit]; rfl⟩ hno
  have hm0 : m ≠ 0 := hm 0
  refine hm (m.log2 + 1) (Nat.eq_of_testBit_eq fun j => ?_)
  rw [Nat.testBit_two_pow_sub_one]
  by_cases hj : j < m.log2 + 1
  · have hle : 2 ^ j ≤ m :=
      Nat.le_trans (Nat.pow_le_pow_right (by decide) (by omega)) (Nat.log2_self_le hm0)
    rw [decide_eq_true hj]
    rcases Nat.eq_or_lt_of_le hle with heq | hlt
    · rw [← heq, Nat.testBit_two_pow_self]
    · exact hbits j hlt
  · rw [decide_eq_false hj]
    exact Nat.testBit_lt_two_pow (Nat.lt_of_lt_of_le Nat.lt_log2_self
      (Nat.pow_le_pow_right (by decide) (by omega)))

end Sqkio.Lib
