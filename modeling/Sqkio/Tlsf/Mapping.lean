import Mathlib.Tactic.Ring
import Sqkio.Lib.Bits

/-!
# Size classes of the TLSF allocator

A free block is kept in the list of its class `(fl, sl)`: `fl` is the power of two below its size and `sl` one of
32 equal parts of the range up to the next.  Sizes below 128 share `fl = 0`, in steps of 4.

    mappingInsert r    the class of a block of `r` bytes
    mappingSearch r    `r` rounded up to a class boundary, and that class

A shift by a negative count and an index outside `sl_bitmap` and `matrix` have no result.
-/

namespace Sqkio.Common.TlsfT

open Sqkio.Lib

def SMALL_BLOCK : Nat := 128

def MAX_LOG2_SLI : Nat := 5

def MAX_SLI : Nat := 32

def MAX_FLI : Nat := 30

def FLI_OFFSET : Nat := 6

def REAL_FLI : Nat := MAX_FLI - FLI_OFFSET

/-- An index of `matrix`. -/
@[ext]
structure Idx where
  fl : Nat
  sl : Nat
  fl_lt : fl < 24
  sl_lt : sl < 32

instance : DecidableEq Idx := fun c d => decidable_of_iff (c.fl = d.fl ∧ c.sl = d.sl) Idx.ext_iff.symm

/-- The check that C does not make. -/
def idx? (fl sl : Int) : Option Idx :=
  if h : (0 ≤ fl ∧ fl < REAL_FLI) ∧ 0 ≤ sl ∧ sl < MAX_SLI then
    some ⟨fl.toNat, sl.toNat, by have := h.1; unfold REAL_FLI MAX_FLI FLI_OFFSET at this; omega,
      by have := h.2; unfold MAX_SLI at this; omega⟩
  else none

/-! ## The highest and the lowest bit -/

def table : List Int :=
  [-1, 0, 1, 1] ++ List.replicate 4 2 ++ List.replicate 8 3 ++ List.replicate 16 4 ++ List.replicate 32 5 ++
    List.replicate 64 6 ++ List.replicate 128 7

/-- The common part of `ls_bit` and `ms_bit`. -/
def tableBit (x : Nat) : Int :=
  let a := if x ≤ 0xffff then (if x ≤ 0xff then 0 else 8) else (if x ≤ 0xffffff then 16 else 24)
  table.getD (x >>> a) 0 + a

def lsBit (i : BitVec 32) : Int := tableBit (i &&& -i).toNat

/-- The argument is an `int`. -/
def msBit (i : Nat) : Int := tableBit (i % 2 ^ 32)

/-! ## The two mappings -/

/-- `1 << k` -/
def shl1 (k : Int) : Option Nat := if 0 ≤ k ∧ k < 31 then some (2 ^ k.toNat) else none

/-- `r >> k` of a `size_t` -/
def shr (r : Nat) (k : Int) : Option Nat := if 0 ≤ k ∧ k < 64 then some (r >>> k.toNat) else none

/-- A `size_t` as an `int`. -/
def toInt (r : Int) : Int := Int.bmod r (2 ^ 32)

/-- The class of `r ≥ SMALL_BLOCK`, in both mappings. -/
def largeIdx (r : Nat) : Option Idx :=
  let fl := msBit r
  (shr r (fl - MAX_LOG2_SLI)).bind fun q => idx? (fl - FLI_OFFSET) (toInt (q - MAX_SLI))

def mappingSearch (r : Nat) : Option (Nat × Idx) :=
  if r < SMALL_BLOCK then (idx? 0 (r / (SMALL_BLOCK / MAX_SLI) : Nat)).map fun c => (r, c)
  else
    (shl1 (msBit r - MAX_LOG2_SLI)).bind fun p =>
      let t := p - 1
      let r := (r + t) % 2 ^ 64
      (largeIdx r).map fun c => (r &&& (2 ^ 64 - 1 - t), c)

def mappingInsert (r : Nat) : Option Idx :=
  if r < SMALL_BLOCK then idx? 0 (r / (SMALL_BLOCK / MAX_SLI) : Nat)
  else largeIdx r

/-! ## Bits -/

theorem table_getD : ∀ i, i < 256 → 0 < i → table.getD i 0 = (Nat.log2 i : Int) := by decide +kernel

theorem log2_shift {x a : Nat} (h : 2 ^ a ≤ x) : Nat.log2 (x / 2 ^ a) + a = Nat.log2 x := by
  have hpow := Nat.two_pow_pos a
  have hdiv : 0 < x / 2 ^ a := Nat.div_pos h hpow
  have hx : x ≠ 0 := by omega
  obtain ⟨hlo, hhi⟩ := (Nat.log2_eq_iff (by omega : x / 2 ^ a ≠ 0)).mp rfl
  symm
  apply (Nat.log2_eq_iff hx).mpr
  constructor
  · rw [Nat.pow_add]
    exact (Nat.le_div_iff_mul_le hpow).mp hlo
  · rw [show Nat.log2 (x / 2 ^ a) + a + 1 = Nat.log2 (x / 2 ^ a) + 1 + a by omega, Nat.pow_add]
    exact (Nat.div_lt_iff_lt_mul hpow).mp hhi

/-- The byte that is looked up is the highest one that is not zero. -/
theorem tableBit_eq {x : Nat} (h0 : 0 < x) (h : x < 2 ^ 32) : tableBit x = Nat.log2 x := by
  have hlook : ∀ a, 2 ^ a ≤ x → x < 2 ^ (a + 8) → table.getD (x >>> a) 0 + (a : Int) = Nat.log2 x := by
    intro a hlo hhi
    have hdiv : 0 < x / 2 ^ a := Nat.div_pos hlo (Nat.two_pow_pos a)
    have hlt : x / 2 ^ a < 256 := by
      apply Nat.div_lt_of_lt_mul
      rw [Nat.pow_add] at hhi
      exact hhi
    rw [Nat.shiftRight_eq_div_pow, table_getD _ hlt hdiv, ← log2_shift hlo]
    omega
  unfold tableBit
  split
  · split
    · exact hlook 0 (by omega) (by omega)
    · exact hlook 8 (by omega) (by omega)
  · split
    · exact hlook 16 (by omega) (by omega)
    · exact hlook 24 (by omega) (by omega)

theorem msBit_eq {r : Nat} (h0 : 0 < r) (h : r < 2 ^ 32) : msBit r = Nat.log2 r := by
  unfold msBit
  rw [Nat.mod_eq_of_lt h]
  exact tableBit_eq h0 h

theorem lsBit_zero : lsBit 0#32 = -1 := by decide +kernel

theorem lsBit_eq {x : BitVec 32} {k : Nat} (h : Bits.IsLowest x k) : lsBit x = k := by
  have hk := h.lt
  have hpow : 2 ^ k < 2 ^ 32 := Nat.pow_lt_pow_right (by omega) hk
  unfold lsBit
  rw [Bits.lowest h, BitVec.toNat_twoPow, Nat.mod_eq_of_lt hpow, tableBit_eq (Nat.two_pow_pos k) hpow,
    Nat.log2_two_pow]

/-! ## The sizes of a class -/

namespace Idx

/-- The least size of the class. -/
def lower (c : Idx) : Nat := if c.fl = 0 then 4 * c.sl else (32 + c.sl) * 2 ^ (c.fl + 1)

def width (c : Idx) : Nat := if c.fl = 0 then 4 else 2 ^ (c.fl + 1)

/-- The classes in the order of their sizes. -/
def key (c : Idx) : Nat := 32 * c.fl + c.sl

/-- A block of `r` bytes belongs to the class. -/
def Has (c : Idx) (r : Nat) : Prop := c.lower ≤ r ∧ r < c.lower + c.width

instance (c : Idx) (r : Nat) : Decidable (c.Has r) := inferInstanceAs (Decidable (_ ∧ _))

variable {c c' : Idx} {r : Nat}

theorem ext_key (h : c.key = c'.key) : c = c' := by
  obtain ⟨fl, sl, hfl, hsl⟩ := c
  obtain ⟨fl', sl', hfl', hsl'⟩ := c'
  unfold key at h
  have hfleq : fl = fl' := by
    simp only at h
    omega
  subst hfleq
  have hsleq : sl = sl' := by
    simp only at h
    omega
  subst hsleq
  rfl

/-- The ranges of sizes are in the order of the classes. -/
theorem lower_add_width_le (h : c.key < c'.key) : c.lower + c.width ≤ c'.lower := by
  have hsl := c.sl_lt
  have hsl' := c'.sl_lt
  have hnext : c.lower + c.width = if c.fl = 0 then 4 * (c.sl + 1) else (33 + c.sl) * 2 ^ (c.fl + 1) := by
    unfold lower width
    split
    · omega
    · ring
  rw [hnext]
  unfold key at h
  unfold lower
  rcases Nat.lt_or_ge c.fl c'.fl with hlt | hge
  · -- the whole row of `c` ends where the next row begins
    have hrow : 2 ^ (c.fl + 1 + 1) ≤ 2 ^ (c'.fl + 1) := Nat.pow_le_pow_right (by omega) (by omega)
    have hmul : 32 * 2 ^ (c'.fl + 1) ≤ (32 + c'.sl) * 2 ^ (c'.fl + 1) := Nat.mul_le_mul_right _ (by omega)
    rw [if_neg (show ¬c'.fl = 0 by omega)]
    split
    next hzero =>
      rw [hzero] at hrow
      omega
    next hpos =>
      have hwhole : (33 + c.sl) * 2 ^ (c.fl + 1) ≤ 64 * 2 ^ (c.fl + 1) := Nat.mul_le_mul_right _ (by omega)
      rw [Nat.pow_succ] at hrow
      omega
  · have hfl : c.fl = c'.fl := by omega
    rw [← hfl]
    split
    · omega
    · exact Nat.mul_le_mul_right _ (by omega)

/-- Classes at or above `c'` hold exactly the blocks that are as large as its least one. -/
theorem key_le_iff (h : c.Has r) : c'.key ≤ c.key ↔ c'.lower ≤ r := by
  constructor
  · intro hle
    rcases Nat.lt_or_eq_of_le hle with hlt | heq
    · have := lower_add_width_le hlt
      have := h.1
      omega
    · rw [ext_key heq]
      exact h.1
  · intro hle
    by_contra hlt
    have := lower_add_width_le (Nat.lt_of_not_le hlt)
    have := h.2
    omega

theorem has_unique (h : c.Has r) (h' : c'.Has r) : c = c' := by
  apply ext_key
  have hle := (key_le_iff h).mpr h'.1
  have hge := (key_le_iff h').mpr h.1
  omega

end Idx

theorem idx?_eq {fl sl : Nat} (hfl : fl < 24) (hsl : sl < 32) :
    idx? (fl : Int) (sl : Int) = some ⟨fl, sl, hfl, hsl⟩ := by
  have hin : (0 ≤ (fl : Int) ∧ (fl : Int) < (REAL_FLI : Nat)) ∧ 0 ≤ (sl : Int) ∧ (sl : Int) < (MAX_SLI : Nat) := by
    unfold REAL_FLI MAX_FLI FLI_OFFSET MAX_SLI
    omega
  unfold idx?
  rw [dif_pos hin]
  rfl

theorem largeIdx_eq {r : Nat} (h0 : 128 ≤ r) (h : r < 2 ^ 30) : ∃ c, largeIdx r = some c ∧ c.Has r := by
  have hne : r ≠ 0 := by omega
  obtain ⟨m, hm⟩ : ∃ m, m = Nat.log2 r := ⟨_, rfl⟩
  obtain ⟨hlo, hhi⟩ := (Nat.log2_eq_iff hne).mp hm.symm
  have hmlo : 7 ≤ m := by
    rw [hm]
    exact (Nat.le_log2 hne).mpr h0
  have hmhi : m < 30 := by
    rw [hm]
    exact (Nat.log2_lt hne).mpr h
  obtain ⟨j, rfl⟩ : ∃ j, m = j + 5 := ⟨m - 5, by omega⟩
  obtain ⟨q, hq⟩ : ∃ q, q = r / 2 ^ j := ⟨_, rfl⟩
  have hpow := Nat.two_pow_pos j
  have hqlo : 32 ≤ q := by
    rw [hq]
    apply (Nat.le_div_iff_mul_le hpow).mpr
    rw [Nat.pow_add, Nat.mul_comm] at hlo
    exact hlo
  have hqhi : q < 64 := by
    rw [hq]
    apply (Nat.div_lt_iff_lt_mul hpow).mpr
    rw [show j + 5 + 1 = j + 6 by omega, Nat.pow_add, Nat.mul_comm] at hhi
    exact hhi
  refine ⟨⟨j - 1, q - 32, by omega, by omega⟩, ?_, ?_⟩
  · have hms : msBit r = ((j + 5 : Nat) : Int) := by
      rw [msBit_eq (by omega) (by omega), hm]
    have hshr : shr r (msBit r - (MAX_LOG2_SLI : Nat)) = some q := by
      have hk : msBit r - ((MAX_LOG2_SLI : Nat) : Int) = (j : Int) := by
        rw [hms]
        unfold MAX_LOG2_SLI
        omega
      rw [hk]
      unfold shr
      rw [if_pos (by omega), Int.toNat_natCast, Nat.shiftRight_eq_div_pow, hq]
    have hfl : msBit r - ((FLI_OFFSET : Nat) : Int) = ((j - 1 : Nat) : Int) := by
      rw [hms]
      unfold FLI_OFFSET
      omega
    have hsl : toInt ((q : Int) - ((MAX_SLI : Nat) : Int)) = ((q - 32 : Nat) : Int) := by
      unfold toInt MAX_SLI
      rw [Int.bmod_eq_of_le (by omega) (by omega)]
      omega
    show (shr r (msBit r - (MAX_LOG2_SLI : Nat))).bind _ = _
    rw [hshr, Option.bind_some, hfl, hsl, idx?_eq]
  · show _ ≤ r ∧ r < _
    have hj : j - 1 + 1 = j := by omega
    have hdiv := Nat.div_add_mod r (2 ^ j)
    have hmod := Nat.mod_lt r hpow
    rw [← hq] at hdiv
    unfold Idx.lower Idx.width
    simp only [show ¬(j - 1 = 0) by omega, if_false, hj, show 32 + (q - 32) = q by omega]
    rw [Nat.mul_comm q]
    omega

/-- **`MAPPING_INSERT`** has a class for every block below `2 ^ 30` bytes, the one that has its size. -/
theorem mappingInsert_eq {r : Nat} (h : r < 2 ^ 30) : ∃ c, mappingInsert r = some c ∧ c.Has r := by
  unfold mappingInsert
  split
  next hsmall =>
    unfold SMALL_BLOCK at hsmall
    have hsl : r / 4 < 32 := by omega
    refine ⟨⟨0, r / 4, by omega, hsl⟩, idx?_eq (show 0 < 24 by omega) hsl, ?_⟩
    show _ ≤ r ∧ r < _
    unfold Idx.lower Idx.width
    simp only [if_true]
    omega
  next hlarge =>
    unfold SMALL_BLOCK at hlarge
    exact largeIdx_eq (by omega) h

theorem mappingInsert_some {r : Nat} {c : Idx} (h : r < 2 ^ 30) : mappingInsert r = some c ↔ c.Has r := by
  obtain ⟨c', hc', hhas⟩ := mappingInsert_eq h
  constructor
  · intro hc
    rw [hc'] at hc
    exact Option.some.inj hc ▸ hhas
  · intro hc
    rw [hc', Idx.has_unique hc hhas]

/-- `r + t` without its low bits, if `2 ^ j` is the distance of the classes at `r`. -/
theorem round_class {j r : Nat} {c : Idx} (hlo : 32 * 2 ^ j ≤ r) (hhi : r < 64 * 2 ^ j) (hj : 2 ≤ j)
    (hc : c.Has (r + (2 ^ j - 1))) : c.lower = 2 ^ j * ((r + (2 ^ j - 1)) / 2 ^ j) := by
  obtain ⟨g, hg⟩ : ∃ g, g = 2 ^ j := ⟨_, rfl⟩
  rw [← hg] at hlo hhi hc ⊢
  have hgpos : 4 ≤ g := by
    rw [hg, show 4 = 2 ^ 2 from rfl]
    exact Nat.pow_le_pow_right (by omega) hj
  obtain ⟨hclo, hchi⟩ := hc
  have hsl := c.sl_lt
  unfold Idx.lower at hclo
  unfold Idx.lower Idx.width at hchi
  -- `fl` is one of two, as the sum stays below `65 * g`
  have hfl : c.fl ≠ 0 := by
    intro hzero
    rw [if_pos hzero, if_pos hzero] at hchi
    omega
  rw [if_neg hfl] at hclo
  rw [if_neg hfl, if_neg hfl] at hchi
  unfold Idx.lower
  rw [if_neg hfl]
  obtain ⟨d, hd⟩ : ∃ d, d = 2 ^ (c.fl + 1) := ⟨_, rfl⟩
  rw [← hd] at hclo hchi ⊢
  rw [Nat.add_mul] at hclo hchi
  have hmul : c.sl * d ≤ 31 * d := Nat.mul_le_mul_right d (by omega)
  rcases Nat.lt_trichotomy (c.fl + 1) j with hlt | heq | hgt
  · have hdg : 2 * d ≤ g := by
      rw [hd, hg, ← Nat.pow_succ']
      exact Nat.pow_le_pow_right (by omega) hlt
    omega
  · have hdg : d = g := by rw [hd, hg, heq]
    rw [hdg] at hclo hchi ⊢
    have hquot : (r + (g - 1)) / g = 32 + c.sl := by
      apply Nat.div_eq_of_lt_le
      · rw [Nat.add_mul]
        exact hclo
      · rw [Nat.succ_mul, Nat.add_mul]
        exact hchi
    rw [hquot, Nat.mul_comm]
  · have hnext : c.fl + 1 = j + 1 := by
      by_contra hfar
      have hfour : g * 2 * 2 ≤ d := by
        rw [hd, hg, ← Nat.pow_succ, ← Nat.pow_succ]
        exact Nat.pow_le_pow_right (by omega) (by omega)
      omega
    have hdeq : d = 2 * g := by rw [hd, hg, hnext, Nat.pow_succ']
    rw [hdeq] at hclo hchi ⊢
    have hsl0 : c.sl = 0 := by
      by_contra hpos
      have : 1 * (2 * g) ≤ c.sl * (2 * g) := Nat.mul_le_mul_right _ (by omega)
      omega
    have hquot : (r + (g - 1)) / g = 64 := by
      apply Nat.div_eq_of_lt_le
      · rw [hsl0] at hclo
        omega
      · rw [Nat.succ_mul]
        omega
    rw [hquot, hsl0]
    ring

/-- `r` rounded up as `MAPPING_SEARCH` does it. -/
def searchSize (r : Nat) : Nat :=
  if r < SMALL_BLOCK then r
  else 2 ^ (Nat.log2 r - 5) * ((r + (2 ^ (Nat.log2 r - 5) - 1)) / 2 ^ (Nat.log2 r - 5))

/-- The distance of the classes at `r`. -/
theorem log2_bounds {r : Nat} (h0 : 128 ≤ r) : ∃ j, Nat.log2 r = j + 5 ∧ 2 ≤ j ∧ 32 * 2 ^ j ≤ r ∧
    r < 64 * 2 ^ j := by
  have hne : r ≠ 0 := by omega
  have hlo := Nat.log2_self_le hne
  have hhi := Nat.lt_log2_self (n := r)
  have hm : 7 ≤ Nat.log2 r := (Nat.le_log2 hne).mpr h0
  obtain ⟨j, hj⟩ : ∃ j, Nat.log2 r = j + 5 := ⟨Nat.log2 r - 5, by omega⟩
  rw [hj] at hlo hhi hm
  refine ⟨j, hj, by omega, ?_, ?_⟩
  · rw [Nat.pow_add] at hlo
    omega
  · rw [show j + 5 + 1 = j + 6 by omega, Nat.pow_add] at hhi
    omega

/-- Rounding up adds less than a 32nd. -/
theorem searchSize_bounds (r : Nat) : r ≤ searchSize r ∧ searchSize r ≤ r + r / 32 := by
  unfold searchSize SMALL_BLOCK
  split
  · omega
  next hlarge =>
    obtain ⟨j, hj, -, hlo, -⟩ := log2_bounds (r := r) (by omega)
    rw [hj, Nat.add_sub_cancel]
    have hpow := Nat.two_pow_pos j
    have hdiv := Nat.div_add_mod (r + (2 ^ j - 1)) (2 ^ j)
    have hmod := Nat.mod_lt (r + (2 ^ j - 1)) hpow
    constructor
    · omega
    · have h32 : 2 ^ j ≤ r / 32 := (Nat.le_div_iff_mul_le (by omega)).mpr (by omega)
      omega

theorem searchSize_mod {r : Nat} (h16 : r % 16 = 0) : searchSize r % 16 = 0 := by
  unfold searchSize SMALL_BLOCK
  split
  · exact h16
  next hlarge =>
    obtain ⟨j, hj, hj2, -, -⟩ := log2_bounds (r := r) (by omega)
    rw [hj, Nat.add_sub_cancel]
    rcases Nat.lt_or_ge j 4 with hlt | hge
    · -- the distance divides 16, and nothing is added
      have hcases : j = 2 ∨ j = 3 := by omega
      rcases hcases with rfl | rfl
      · omega
      · omega
    · obtain ⟨i, rfl⟩ : ∃ i, j = 4 + i := ⟨j - 4, by omega⟩
      generalize (r + (2 ^ (4 + i) - 1)) / 2 ^ (4 + i) = q
      rw [Nat.pow_add, Nat.mul_assoc]
      omega

/-- **`MAPPING_SEARCH`** rounds up to the least size of a class, for every request up to `2 ^ 30 - 2 ^ 24` bytes. -/
theorem mappingSearch_eq {r : Nat} (h16 : r % 16 = 0) (h : r ≤ 2 ^ 30 - 2 ^ 24) :
    ∃ c, mappingSearch r = some (searchSize r, c) ∧ c.lower = searchSize r := by
  unfold mappingSearch searchSize
  split
  next hsmall =>
    unfold SMALL_BLOCK at hsmall
    have hsl : r / 4 < 32 := by omega
    refine ⟨⟨0, r / 4, by omega, hsl⟩, ?_, ?_⟩
    · have hidx : idx? 0 ((r / (SMALL_BLOCK / MAX_SLI) : Nat) : Int) = _ := idx?_eq (show 0 < 24 by omega) hsl
      rw [hidx, Option.map_some]
    · unfold Idx.lower
      simp only [if_true]
      omega
  next hlarge =>
    unfold SMALL_BLOCK at hlarge
    obtain ⟨j, hj, hj2, hlo, hhi⟩ := log2_bounds (r := r) (by omega)
    have hj24 : 2 ^ j ≤ 2 ^ 24 := by
      apply Nat.pow_le_pow_right (by omega)
      by_contra hgt
      have : 2 ^ 25 ≤ 2 ^ j := Nat.pow_le_pow_right (by omega) (by omega)
      omega
    have hpow := Nat.two_pow_pos j
    have hshl : shl1 (msBit r - (MAX_LOG2_SLI : Nat)) = some (2 ^ j) := by
      have hk : msBit r - ((MAX_LOG2_SLI : Nat) : Int) = (j : Int) := by
        rw [msBit_eq (by omega) (by omega), hj]
        unfold MAX_LOG2_SLI
        omega
      have hjlt : j < 31 := by
        by_contra hge
        have : 2 ^ 31 ≤ 2 ^ j := Nat.pow_le_pow_right (by omega) (by omega)
        omega
      rw [hk]
      unfold shl1
      rw [if_pos (by omega), Int.toNat_natCast]
    obtain ⟨c, hc, hhas⟩ := largeIdx_eq (r := r + (2 ^ j - 1)) (by omega) (by omega)
    have hmod : (r + (2 ^ j - 1)) % 2 ^ 64 = r + (2 ^ j - 1) := Nat.mod_eq_of_lt (by omega)
    have hmask : (r + (2 ^ j - 1)) &&& (2 ^ 64 - 1 - (2 ^ j - 1)) = 2 ^ j * ((r + (2 ^ j - 1)) / 2 ^ j) := by
      rw [show 2 ^ 64 - 1 - (2 ^ j - 1) = 2 ^ 64 - 2 ^ j by omega]
      apply Bits.and_high
      · by_contra hgt
        have : 2 ^ 65 ≤ 2 ^ j := Nat.pow_le_pow_right (by omega) (by omega)
        omega
      · omega
    refine ⟨c, ?_, ?_⟩
    · rw [hshl, Option.bind_some]
      dsimp only
      rw [hmod, hc, Option.map_some, hmask, hj, Nat.add_sub_cancel]
    · rw [hj, Nat.add_sub_cancel]
      exact round_class hlo hhi hj2 hhas

/-! ## Sizes without a class -/

theorem idx?_none_fl {fl sl : Int} (h : fl < 0 ∨ 24 ≤ fl) : idx? fl sl = none := by
  unfold idx?
  rw [dif_neg]
  rintro ⟨hfl, -⟩
  unfold REAL_FLI MAX_FLI FLI_OFFSET at hfl
  omega

theorem idx?_none_sl {fl sl : Int} (h : sl < 0 ∨ 32 ≤ sl) : idx? fl sl = none := by
  unfold idx?
  rw [dif_neg]
  rintro ⟨-, hsl⟩
  unfold MAX_SLI at hsl
  omega

theorem largeIdx_none_fl {r : Nat} (h : msBit r < 6 ∨ 30 ≤ msBit r) : largeIdx r = none := by
  show (shr r (msBit r - (MAX_LOG2_SLI : Nat))).bind _ = none
  rw [Option.bind_eq_none_iff]
  intro q _
  apply idx?_none_fl
  unfold FLI_OFFSET
  omega

theorem le_msBit {r k : Nat} (h0 : 0 < r) (h : r < 2 ^ 32) (hk : 2 ^ k ≤ r) : (k : Int) ≤ msBit r := by
  rw [msBit_eq h0 h]
  have := (Nat.le_log2 (by omega : r ≠ 0)).mpr hk
  omega

theorem mappingInsert_isSome_iff {r : Nat} (h : r < 2 ^ 32) : (mappingInsert r).isSome ↔ r < 2 ^ 30 := by
  constructor
  · intro hsome
    by_contra hge
    have hnone : mappingInsert r = none := by
      unfold mappingInsert SMALL_BLOCK
      rw [if_neg (by omega)]
      exact largeIdx_none_fl (.inr (le_msBit (k := 30) (by omega) h (by omega)))
    rw [hnone] at hsome
    cases hsome
  · intro hlt
    obtain ⟨c, hc, -⟩ := mappingInsert_eq hlt
    rw [hc]
    rfl

/-- The sum of `MAPPING_SEARCH` does not fit in 32 bits. -/
theorem largeIdx_none_wrap {r : Nat} (hlo : 2 ^ 32 ≤ r) (hhi : r < 2 ^ 32 + 2 ^ 26) : largeIdx r = none := by
  obtain ⟨low, rfl⟩ : ∃ low, r = 2 ^ 32 + low := ⟨r - 2 ^ 32, by omega⟩
  have hms : msBit (2 ^ 32 + low) = msBit low := by
    unfold msBit
    rw [Nat.add_mod_left]
  rcases Nat.eq_zero_or_pos low with rfl | hpos
  · exact largeIdx_none_fl (.inl (by rw [hms]; decide +kernel))
  · obtain ⟨m, hm⟩ : ∃ m, m = Nat.log2 low := ⟨_, rfl⟩
    have hmhi : m < 26 := by
      rw [hm]
      exact (Nat.log2_lt (by omega)).mpr (by omega)
    rw [msBit_eq hpos (by omega), ← hm] at hms
    rcases Nat.lt_or_ge m 6 with hsmall | hlarge
    · exact largeIdx_none_fl (.inl (by omega))
    · -- the bit above the low 32 makes the second index too large
      obtain ⟨j, rfl⟩ : ∃ j, m = j + 5 := ⟨m - 5, by omega⟩
      have hk : msBit (2 ^ 32 + low) - ((MAX_LOG2_SLI : Nat) : Int) = (j : Int) := by
        rw [hms]
        unfold MAX_LOG2_SLI
        omega
      obtain ⟨q, hq⟩ : ∃ q, q = (2 ^ 32 + low) / 2 ^ j := ⟨_, rfl⟩
      have hpow := Nat.two_pow_pos j
      have hshr : shr (2 ^ 32 + low) (msBit (2 ^ 32 + low) - (MAX_LOG2_SLI : Nat)) = some q := by
        rw [hk]
        unfold shr
        rw [if_pos (by omega), Int.toNat_natCast, Nat.shiftRight_eq_div_pow, hq]
      have hqlo : 2 ^ 12 ≤ q := by
        rw [hq]
        apply (Nat.le_div_iff_mul_le hpow).mpr
        have : 2 ^ j ≤ 2 ^ 20 := Nat.pow_le_pow_right (by omega) (by omega)
        omega
      have hqhi : q < 2 ^ 31 + 2 ^ 25 := by
        rw [hq]
        apply (Nat.div_lt_iff_lt_mul hpow).mpr
        have : 2 ^ 1 ≤ 2 ^ j := Nat.pow_le_pow_right (by omega) (by omega)
        omega
      show (shr (2 ^ 32 + low) (msBit (2 ^ 32 + low) - (MAX_LOG2_SLI : Nat))).bind _ = none
      rw [hshr, Option.bind_some]
      apply idx?_none_sl
      unfold toInt MAX_SLI
      rcases Nat.lt_or_ge q (2 ^ 31 + 32) with hfit | hover
      · rw [Int.bmod_eq_of_le (by omega) (by omega)]
        omega
      · left
        rw [Int.bmod_def]
        omega

/-- **`MAPPING_SEARCH`** leaves the tables for every request above `2 ^ 30 - 2 ^ 24` bytes that is rounded up
within 32 bits. -/
theorem mappingSearch_none {r : Nat} (hlo : 2 ^ 30 - 2 ^ 24 < r) (hhi : r < 2 ^ 32) : mappingSearch r = none := by
  obtain ⟨j, hj, -, hjlo, hjhi⟩ := log2_bounds (r := r) (by omega)
  have hpow := Nat.two_pow_pos j
  have hj24 : 24 ≤ j := by
    by_contra hlt
    have : 2 ^ j ≤ 2 ^ 23 := Nat.pow_le_pow_right (by omega) (by omega)
    omega
  have hj26 : j ≤ 26 := by
    by_contra hgt
    have : 2 ^ 27 ≤ 2 ^ j := Nat.pow_le_pow_right (by omega) (by omega)
    omega
  have hup : 2 ^ 30 ≤ r + (2 ^ j - 1) := by
    have : 2 ^ 24 ≤ 2 ^ j := Nat.pow_le_pow_right (by omega) hj24
    omega
  have hbelow : 2 ^ j ≤ 2 ^ 26 := Nat.pow_le_pow_right (by omega) hj26
  have hshl : shl1 (msBit r - (MAX_LOG2_SLI : Nat)) = some (2 ^ j) := by
    have hk : msBit r - ((MAX_LOG2_SLI : Nat) : Int) = (j : Int) := by
      rw [msBit_eq (by omega) hhi, hj]
      unfold MAX_LOG2_SLI
      omega
    rw [hk]
    unfold shl1
    rw [if_pos (by omega), Int.toNat_natCast]
  have hnone : largeIdx (r + (2 ^ j - 1)) = none := by
    rcases Nat.lt_or_ge (r + (2 ^ j - 1)) (2 ^ 32) with hfit | hwrap
    · exact largeIdx_none_fl (.inr (le_msBit (k := 30) (by omega) hfit hup))
    · exact largeIdx_none_wrap hwrap (by omega)
  unfold mappingSearch SMALL_BLOCK
  rw [if_neg (by omega)]
  show (shl1 (msBit r - (MAX_LOG2_SLI : Nat))).bind _ = none
  rw [hshl, Option.bind_some]
  dsimp only
  rw [Nat.mod_eq_of_lt (by omega), hnone, Option.map_none]

/-- **The class that is searched for is not above the class of a block** exactly if the block has the size that the
request is rounded up to, which is less than a 32nd more. -/
theorem mapping_galois {r s : Nat} (h16 : r % 16 = 0) (hr : r ≤ 2 ^ 30 - 2 ^ 24) (hs : s < 2 ^ 30) :
    ∃ r' c d, mappingSearch r = some (r', c) ∧ mappingInsert s = some d ∧ r ≤ r' ∧ r' ≤ r + r / 32 ∧
      (c.key ≤ d.key ↔ r' ≤ s) := by
  obtain ⟨c, hsearch, hlower⟩ := mappingSearch_eq h16 hr
  obtain ⟨d, hinsert, hhas⟩ := mappingInsert_eq hs
  obtain ⟨hle, hup⟩ := searchSize_bounds r
  refine ⟨searchSize r, c, d, hsearch, hinsert, hle, hup, ?_⟩
  rw [Idx.key_le_iff hhas, hlower]

/-- A request of 80 KB and a block that is 1000 bytes larger, but in a class below. -/
theorem mapping_galois_small : ∃ r' c d, mappingSearch 81936 = some (r', c) ∧ mappingInsert 82936 = some d ∧
    81936 ≤ r' ∧
    r' ≤ 81936 + 81936 / 32 ∧ (c.key ≤ d.key ↔ r' ≤ 82936) :=
  mapping_galois (by decide) (by decide) (by decide)

end Sqkio.Common.TlsfT
