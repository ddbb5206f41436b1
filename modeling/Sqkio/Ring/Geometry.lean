import Sqkio.Ring.Seq

/-!
# `Ring::of`: the size, the mask and the allocation of a ring

`of` rounds `cnt + 1` up to a power of two (`count`), allocates `count` elements behind
the header, and then calls `init(cnt)`, so the ring's size is `cnt` itself.  Products
are 32-bit; the sum with `sizeof(Ring)` is 64-bit.
-/

namespace Sqkio.Common

open Sqkio.Lib

/-! ## Rounding -/

def combine32ms1b (x : UInt32) : UInt32 :=
  let x := x ||| (x >>> 1)
  let x := x ||| (x >>> 2)
  let x := x ||| (x >>> 4)
  let x := x ||| (x >>> 8)
  x ||| (x >>> 16)

def align32pow2 (x : UInt32) : UInt32 := combine32ms1b (x - 1) + 1

/-- `POWEROF2(x)`; true of 0. -/
def powerOf2 (x : UInt32) : Bool := (x - 1) &&& x == 0

/-- `SQK_RING_SZ_MASK` -/
def ringSzMask : UInt32 := 0x7fffffff

/-- `SQK_CACHE_LINESIZE`, which the build sets: a power of two. -/
structure CacheLine where
  shift : Nat
  shift_lt : shift < 32
  deriving DecidableEq, Repr

def CacheLine.size (line : CacheLine) : Nat := 2 ^ line.shift

/-- `SQK_ALIGN(val, align)` for a power of two, on values far below `2 ^ 63`. -/
def align (val align : Nat) : Nat := (val + (align - 1)) / align * align

/-- `sizeof(Ring)`: four counters and `memzone_` (32 bytes), then `prod_` and `cons_` (24
bytes, the RTS layout of the union), each behind a padding byte at a cache line, and a
last padding byte. -/
def sizeofRing (line : CacheLine) : Nat :=
  let pad0 := align 32 line.size
  let prod := align (pad0 + 1) 8
  let pad1 := align (prod + 24) line.size
  let cons := align (pad1 + 1) 8
  let pad2 := align (cons + 24) line.size
  align (pad2 + 1) (max line.size 8)

/-! ## `of` -/

/-- Bytes of the words that the copy routine of `T` moves. -/
def ElemType.wordBytes (T : ElemType) : Nat := if T.k = 2 then 8 else if T.k = 4 then 16 else 4

/-- A ring and the size asked of the allocator, `memzone_.size_`. -/
structure MemRing (W : Type) where
  ring : Ring W
  bytes : Nat

inductive SystemError
  | EINVAL
  deriving DecidableEq, Repr

/-- `Ring::of(cnt)` on memory that holds `slots`. -/
def Ring.of {W : Type} (T : ElemType) (line : CacheLine) (slots : Nat → W) (cnt : UInt32) :
    Except SystemError (MemRing W) :=
  let esize : UInt32 := UInt32.ofNat (4 * T.k)
  let count := align32pow2 (cnt + 1)
  if powerOf2 count = false ∨ count > ringSzMask then .error .EINVAL
  else
    let sz := align (sizeofRing line + (count * esize).toNat) line.size
    .ok ⟨Ring.init cnt slots, sz⟩

/-- Slot words that the allocation leaves behind the header. -/
def MemRing.slotWords {W : Type} (a : MemRing W) (T : ElemType) (line : CacheLine) : Nat :=
  (a.bytes - sizeofRing line) / T.wordBytes

/-! ## What `of` returns -/

theorem dvd_align (v b : Nat) : b ∣ align v b := ⟨_, Nat.mul_comm _ _⟩

theorem align_add_of_dvd {h b : Nat} (v : Nat) (hb : 0 < b) (hdvd : b ∣ h) :
    align (h + v) b = h + align v b := by
  obtain ⟨c, rfl⟩ := hdvd
  unfold align
  rw [Nat.add_assoc, Nat.mul_add_div hb, Nat.add_mul, Nat.mul_comm c b]

theorem align_le {v b m : Nat} (hb : 0 < b) (hv : v ≤ m) (hm : b ∣ m) : align v b ≤ m := by
  obtain ⟨c, rfl⟩ := hm
  unfold align
  have hle : (v + (b - 1)) / b ≤ c := by
    rw [Nat.div_le_iff_le_mul_add_pred hb]
    omega
  calc (v + (b - 1)) / b * b ≤ c * b := Nat.mul_le_mul_right b hle
    _ = b * c := Nat.mul_comm c b

theorem CacheLine.size_pos (line : CacheLine) : 0 < line.size := Nat.two_pow_pos _

theorem size_dvd_sizeofRing (line : CacheLine) : line.size ∣ sizeofRing line := by
  refine Nat.dvd_trans ?_ (dvd_align _ _)
  rcases Nat.le_total line.size 8 with h | h
  · rw [Nat.max_eq_right h]
    have hs : line.shift ≤ 3 := (Nat.pow_le_pow_iff_right (by decide)).mp (show 2 ^ _ ≤ 2 ^ 3 from h)
    exact Nat.pow_dvd_pow 2 hs
  · rw [Nat.max_eq_left h]

/-- Of an accepted `cnt` the ring has size `cnt`, and the slot area is `count * esize`
bytes, modulo `2 ^ 32`, rounded up to a cache line. -/
theorem of_ok {W : Type} {T : ElemType} {line : CacheLine} {slots : Nat → W} {cnt : UInt32}
    {a : MemRing W} (h : Ring.of T line slots cnt = .ok a) :
    a.ring = Ring.init cnt slots ∧ a.slotWords T line =
      align (align32pow2 (cnt + 1) * UInt32.ofNat (4 * T.k)).toNat line.size / T.wordBytes := by
  unfold Ring.of at h
  simp only [] at h
  split at h
  · cases h
  · cases h
    refine ⟨rfl, ?_⟩
    simp only [MemRing.slotWords]
    rw [align_add_of_dvd _ line.size_pos (size_dvd_sizeofRing line), Nat.add_sub_cancel_left]

/-- No allocation has more than `2 ^ 30` words. -/
theorem slotWords_le {W : Type} {T : ElemType} {line : CacheLine} {slots : Nat → W} {cnt : UInt32}
    {a : MemRing W} (h : Ring.of T line slots cnt = .ok a) : a.slotWords T line ≤ 2 ^ 30 := by
  rw [(of_ok h).2]
  have hle : align (align32pow2 (cnt + 1) * UInt32.ofNat (4 * T.k)).toNat line.size ≤ 2 ^ 32 :=
    align_le line.size_pos (Nat.le_of_lt (UInt32.toNat_lt _))
      (Nat.pow_dvd_pow 2 (Nat.le_of_lt line.shift_lt))
  have hword : 4 ≤ T.wordBytes := by
    unfold ElemType.wordBytes
    split
    · decide
    · split <;> decide
  calc align _ line.size / T.wordBytes ≤ 2 ^ 32 / 4 := Nat.div_le_div hle hword (by decide)
    _ = 2 ^ 30 := rfl

end Sqkio.Common
