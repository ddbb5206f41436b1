import Sqkio.Tlsf.Malloc

/-!
# Bytes, and `calloc_ex`

The program reads and writes bytes, the pool is made of words.  A word of a block in use holds bytes of this block
only, as all blocks start and end at words.
-/

namespace Sqkio.Common.TlsfT

open Sqkio.Lib

variable {h h' : TlsfT} {a b n x base lim : Nat} {c : Chunk} {cs : List Chunk}

theorem byte_congr (hm : h'.mem (8 * (a / 8)) = h.mem (8 * (a / 8))) : h'.byte a = h.byte a := by
  unfold byte
  rw [hm]

/-- The byte of a word that has been copied. -/
theorem byte_copy {i q : Nat} (hb : b % 8 = 0) (hq : q % 8 = 0)
    (hm : h'.mem (q + 8 * (i / 8)) = h.mem (b + 8 * (i / 8))) :
    h'.byte (q + i) = h.byte (b + i) := by
  have hword : 8 * ((q + i) / 8) = q + 8 * (i / 8) := by omega
  have hword' : 8 * ((b + i) / 8) = b + 8 * (i / 8) := by omega
  unfold byte
  rw [hword, hword', hm, show (q + i) % 8 = (b + i) % 8 by omega]

theorem byte_setByte (v : Nat) : (h.setByte a v).byte a = v % 256 := by
  unfold byte setByte
  rw [mem_store, if_pos rfl]
  exact Bits.getByte_setByte _ _ _

theorem byte_setByte_of_ne {v : Nat} (hx : x ≠ a) : (h.setByte a v).byte x = h.byte x := by
  unfold byte setByte
  rw [mem_store]
  split
  next hword =>
    rw [hword]
    exact Bits.getByte_setByte_of_ne (by omega)
  next => rfl

theorem byte_memset0 (hdst : a % 8 = 0) : (h.memset0 a n).byte x = if a ≤ x ∧ x < a + n then 0 else h.byte x := by
  have hzero : ∀ k, Bits.getByte 0 k = 0 := fun k => by
    unfold Bits.getByte
    rw [Nat.zero_div, Nat.zero_mod]
  have hword : (h.memset0 a n).mem (8 * (x / 8)) =
      if a ≤ 8 * (x / 8) ∧ 8 * (x / 8) + 8 ≤ a + n then 0
      else if a ≤ 8 * (x / 8) ∧ 8 * (x / 8) < a + n then Bits.clearBytes (h.mem (8 * (x / 8)))
      (a + n - 8 * (x / 8))
      else h.mem (8 * (x / 8)) := rfl
  unfold byte
  rw [hword]
  split
  next hall =>
    rw [hzero, if_pos (by omega)]
  next =>
    split
    next hpart =>
      rw [Bits.getByte_clearBytes]
      by_cases hin : x < a + n
      · rw [if_pos (by omega), if_pos (by omega)]
      · rw [if_neg (by omega), if_neg (by omega)]
    next => rw [if_neg (by omega)]

/-- The word that a byte of a block in use is in. -/
theorem InUse.word (hb : InUse base cs b c) (hbase : base % 8 = 0) (hlo : b + 16 ≤ a) (hhi : a < b + 16 + c.size) :
    b + 16 ≤ 8 * (a / 8) ∧ 8 * (a / 8) < b + 16 + c.size := by
  have hmod := mem_blocks_mod hb.1
  have hc := c.size_mod
  omega

theorem InUse.foreign (hb : InUse base cs b c) (hbase : base % 8 = 0) (hlo : b + 16 ≤ a)
    (hhi : a < b + 16 + c.size) :
    Foreign base cs (8 * (a / 8)) := .inl ⟨b, c, hb, hb.word hbase hlo hhi⟩

/-- **`calloc_ex`** is `malloc_ex` of the product, and all bytes of the block are zero. -/
theorem callocEx_eq (hi : Inv base lim cs h) (hbase : base % 8 = 0) {nelem elemSize m : Nat} (hnelem : nelem ≠ 0)
    (helem : elemSize ≠ 0) (hm : m = nelem * elemSize % 2 ^ 64) (hmax : m ≤ 2 ^ 30 - 2 ^ 24) :
    (h.callocEx nelem elemSize = some (0, h) ∧ ∀ x ∈ frees base cs, x.2 < need m) ∨
      ∃ b cs' h', h.callocEx nelem elemSize = some (b + 16, h') ∧ Takes base (need m) cs b cs' ∧
        Inv base lim cs' h' ∧
        (∀ a, b + 16 ≤ a → a < b + 16 + m → h'.byte a = 0) ∧ ∀ a, Foreign base cs a → h'.mem a = h.mem a := by
  have hcall : h.callocEx nelem elemSize =
      (h.mallocEx m).bind fun r => if r.1 = 0 then some (0, r.2) else some (r.1, r.2.memset0 r.1 m) := by
    unfold callocEx
    rw [if_neg (not_or.mpr ⟨hnelem, helem⟩), ← hm]
    rfl
  rcases mallocEx_eq hi hmax with ⟨hnull, hnone⟩ | ⟨b, cs', h₁, hmalloc, ht, -, hi₁, hkept⟩
  · left
    refine ⟨?_, hnone⟩
    rw [hcall, hnull]
    rfl
  · right
    obtain ⟨d, hd, -, -, hfresh, hiff⟩ := ht.inUse
    have hneed := (need_bounds (n := m) (by omega)).2.2
    have hdin : InUse base cs' b d := (hiff b d).mpr (.inr ⟨rfl, rfl⟩)
    have hb8 := mem_blocks_mod hdin.1
    have hset : ∀ a, ¬(b + 16 ≤ a ∧ a < b + 16 + m) → (h₁.memset0 (b + 16) m).mem a = h₁.mem a := fun a ha =>
      (if_neg (by omega)).trans (if_neg ha)
    refine ⟨b, cs', h₁.memset0 (b + 16) m, ?_, ht, ?_, fun a hlo hhi => ?_, fun a ha => ?_⟩
    · rw [hcall, hmalloc, Option.bind_some, if_neg (by omega)]
    · exact hi₁.write (fun a ha => hset a fun hin => ha ⟨b, d, hdin, hin.1, by omega⟩) rfl rfl rfl
    · rw [byte_memset0 (by omega), if_pos ⟨hlo, hhi⟩]
    · rw [hset a, hkept a ha]
      rintro ⟨hlo, hhi⟩
      rcases ha with ⟨y, e, hy, hylo, hyhi⟩ | hout
      · have hne : b ≠ y := fun heq => hfresh e (heq ▸ hy)
        have := hdin.apart ((hiff y e).mpr (.inl hy)) hne
        omega
      · have := hdin.bounds
        have := ht.endAddr_eq
        omega

end Sqkio.Common.TlsfT
