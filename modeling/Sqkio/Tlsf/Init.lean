import Sqkio.Tlsf.Pool
import Sqkio.Tlsf.Malloc
import Sqkio.Tlsf.Free

/-!
# `init_memory_pool`

A new pool has one free block: what is left of the memory behind the `tlsf_t` and the headers.

    pool                     tlsf_t
    pool + 6272              the block of the area_info_t
    pool + 6304              the free block, of poolBlock bytes
    pool + 6320 + poolBlock  the sentinel
-/

namespace Sqkio.Common.TlsfT

open Sqkio.Lib

variable {h : TlsfT} {a b size pool : Nat}

/-- The size of the area, without what is lost by rounding. -/
def areaSize (memPoolSize : Nat) : Nat := 16 * ((memPoolSize - 6264) / 16)

/-- The size of the first free block. -/
def poolBlock (memPoolSize : Nat) : Nat := areaSize memPoolSize - 64

theorem rounddownSize_eq {n : Nat} (hn : n < 2 ^ 64) : rounddownSize n = 16 * (n / 16) :=
    Bits.and_high 4 64 n (by omega) hn

/-- The writes of `process_area`, where `r` bytes are left for the free block. -/
def writeArea (h : TlsfT) (area r : Nat) : TlsfT :=
  let h := h.setSize area 16
  let h := h.setSize (area + 32) r
  let h := h.setNext (area + 32) 0
  let h := h.setPrev (area + 32) 0
  let h := h.setPrevHdr (area + 48 + r % 2 ^ 32) (area + 32)
  let h := h.setSize (area + 48 + r % 2 ^ 32) 2
  let h := h.store (area + 24) 0
  h.store (area + 16) (area + 48 + r % 2 ^ 32)

theorem store_matrix {v : Nat} : (h.store a v).matrix = h.matrix := rfl

theorem store_slBitmap {v : Nat} : (h.store a v).slBitmap = h.slBitmap := rfl

theorem store_flBitmap {v : Nat} : (h.store a v).flBitmap = h.flBitmap := rfl

theorem writeArea_fields {r : Nat} : (h.writeArea a r).matrix = h.matrix ∧
    (h.writeArea a r).slBitmap = h.slBitmap ∧
    (h.writeArea a r).flBitmap = h.flBitmap := by
  unfold writeArea setSize setNext setPrev setPrevHdr
  simp only [store_matrix, store_slBitmap, store_flBitmap, and_self]

theorem writeArea_mem {r : Nat} : (h.writeArea a r).mem b =
    if b = a + 16 then a + 48 + r % 2 ^ 32 else if b = a + 24 then 0 else if b = a + 48 + r % 2 ^ 32 + 8 then 2
    else if b = a + 48 + r % 2 ^ 32 then a + 32 else if b = a + 48 then 0 else if b = a + 56 then 0
    else if b = a + 40 then r else if b = a + 8 then 16 else h.mem b := by
  unfold writeArea setSize setNext setPrev setPrevHdr
  simp only [mem_store]

/-- `process_area` of an area of `z` bytes. -/
theorem processArea_eq {area z : Nat} (hz16 : z % 16 = 0) (hz : 80 ≤ z) (hlt : z < 2 ^ 64) :
    h.processArea area z = (area, h.writeArea area (z - 64)) := by
  have hib : (if sizeofAreaInfo < MIN_BLOCK_SIZE then MIN_BLOCK_SIZE
      else roundupSize sizeofAreaInfo ||| USED_BLOCK ||| PREV_USED) = 16 := by decide +kernel
  have hrest : rounddownSize (sub (sub z (3 * BHDR_OVERHEAD)) 16) ||| USED_BLOCK ||| PREV_USED = z - 64 := by
    have h₁ : sub z (3 * BHDR_OVERHEAD) = z - 48 := sub_eq (show 48 ≤ z by omega) (by omega)
    have h₂ : sub (z - 48) 16 = z - 64 := by
      rw [sub_eq (by omega) (by omega)]
      omega
    have h₃ : rounddownSize (z - 64) = z - 64 := by
      rw [rounddownSize_eq (by omega)]
      omega
    have hor : ∀ n, n ||| USED_BLOCK ||| PREV_USED = n := fun n => (Nat.or_zero _).trans (Nat.or_zero n)
    rw [h₁, h₂, h₃, hor]
  have hsize₁ : (h.setSize area 16).size area &&& BLOCK_SIZE = 16 := by
    have hread : (h.setSize area 16).size area = 16 := setSize_mem_self
    rw [hread]
    decide +kernel
  have hsize₂ : ∀ h : TlsfT, (((h.setSize (area + 32) (z - 64)).setNext (area + 32) 0).setPrev (area + 32) 0).size
      (area + 32) &&& BLOCK_SIZE = (z - 64) % 2 ^ 32 := by
    intro h
    have hread : (((h.setSize (area + 32) (z - 64)).setNext (area + 32) 0).setPrev (area + 32) 0).size
      (area + 32) =
        z - 64 :=
      mem_store.trans ((if_neg (by omega)).trans (mem_store.trans ((if_neg (by omega)).trans setSize_mem_self)))
    rw [hread]
    exact hdr_and_blockSize_mod false false (s := z - 64) (by omega)
  have hb : getNextBlock (buffer area) 16 = area + 32 := rfl
  have hlb : getNextBlock (buffer (area + 32)) ((z - 64) % 2 ^ 32) = area + 48 + (z - 64) % 2 ^ 32 := rfl
  have hai : buffer area + 8 = area + 24 := rfl
  have hlast : 0 ||| USED_BLOCK ||| PREV_FREE = 2 := rfl
  unfold processArea
  dsimp only
  rw [hib, hsize₁, hrest, hb, hsize₂, hlb, hai, hlast]
  rfl

/-- Every list is empty. -/
theorem freeLists_nil (hm : h.matrix = fun _ => 0) (hs : h.slBitmap = fun _ => 0) (hf : h.flBitmap = 0) :
    FreeLists [] h := by
  refine ⟨fun _ => [], ⟨fun c => ?_, fun c => List.nodup_nil, fun c b => ?_, ⟨fun c => ?_, fun fl => ?_⟩⟩⟩
  · show h.matrix c = 0
    rw [hm]
  · simp
  · rw [hs]
    simp
  · rw [hs, hf]
    simp

/-- A lone block that is given back stays alone. -/
theorem Frees.single {c : Chunk} {cs' : List Chunk} (hf : Frees a [c] b cs') : ∃ d, cs' = [d] ∧ d.free = true ∧
    d.size = c.size := by
  generalize hcs : [c] = cs at hf
  cases hf with
  | @mk l₁ m₁ m₂ l₂ c' d hused hm₁ hm₂ hd hend =>
    have hlen := congrArg List.length hcs
    simp only [List.length_append, List.length_cons, List.length_nil] at hlen
    obtain rfl : l₁ = [] := List.eq_nil_of_length_eq_zero (by omega)
    obtain rfl : m₁ = [] := List.eq_nil_of_length_eq_zero (by omega)
    obtain rfl : m₂ = [] := List.eq_nil_of_length_eq_zero (by omega)
    obtain rfl : l₂ = [] := List.eq_nil_of_length_eq_zero (by omega)
    obtain rfl : c = c' := List.head_eq_of_cons_eq hcs
    change a + 16 + c.size = a + 16 + d.size at hend
    exact ⟨d, rfl, hd, by omega⟩

theorem hdr_used (r : Nat) : hdr r false false = r := rfl

theorem writeArea_size {r : Nat} : (h.writeArea a r).mem (a + 40) = hdr r false false := by
  rw [writeArea_mem, if_neg (by omega), if_neg (by omega), if_neg (by omega), if_neg (by omega), if_neg (by omega),
    if_neg (by omega), if_pos rfl, hdr_used]

theorem writeArea_outside {r : Nat} (hb : b < a ∨ a + r + 64 ≤ b) : (h.writeArea a r).mem b = h.mem b := by
  have := Nat.mod_le r (2 ^ 32)
  rw [writeArea_mem, if_neg (by omega), if_neg (by omega), if_neg (by omega), if_neg (by omega), if_neg (by omega),
    if_neg (by omega), if_neg (by omega), if_neg (by omega)]

/-- The pool before the one block that is there is given back. -/
theorem hole_writeArea {area r : Nat} (hr : r < 2 ^ 32) (hm : h.matrix = fun _ => 0) (hs : h.slBitmap = fun _ => 0)
    (hf : h.flBitmap = 0) : Hole (area + 32) [] r [] (h.writeArea area r) := by
  obtain ⟨hm', hs', hf'⟩ := writeArea_fields (h := h) (a := area) (r := r)
  have hfree : FreeLists [] (h.writeArea area r) := freeLists_nil (hm'.trans hm) (hs'.trans hs) (hf'.trans hf)
  have hmod := Nat.mod_eq_of_lt hr
  refine ⟨trivial, ?_, ⟨some (area + 32), ?_, fun x hx => ?_⟩, hfree⟩
  · intro x hx
    cases hx
  · show TlsfT.mem _ (area + 32 + 16 + r + 8) = hdr 0 false true
    rw [writeArea_mem, hmod, if_neg (by omega), if_neg (by omega), if_pos (by omega)]
    rfl
  · show TlsfT.mem _ (area + 32 + 16 + r) = x
    rw [writeArea_mem, hmod, if_neg (by omega), if_neg (by omega), if_neg (by omega), if_pos (by omega)]
    exact Option.some.inj hx

/-- The block is given back only if its size has a class. -/
theorem freeEx_writeArea {area r : Nat} (hr : r % 16 = 0) :
    ((h.writeArea area r).freeEx (area + 48)).isSome ↔ r % 2 ^ 32 < 2 ^ 30 := by
  obtain ⟨h₁, hh₁⟩ : ∃ h₁, h₁ = h.writeArea area r := ⟨_, rfl⟩
  obtain ⟨h₂, hh₂⟩ : ∃ h₂, h₂ = ((h₁.setSize (area + 32) (hdr r true false)).setPrev (area + 32) 0).setNext
    (area + 32) 0 :=
    ⟨_, rfl⟩
  have hown₁ : h₁.size (area + 32) ||| FREE_BLOCK = hdr r true false := by
    have hread : h₁.size (area + 32) = hdr r false false := by
      rw [hh₁]
      exact writeArea_size
    rw [hread]
    exact hdr_or_free _ _ hr
  have hown₂ : h₂.size (area + 32) = hdr r true false := by
    show h₂.mem (area + 32 + 8) = _
    rw [hh₂, unlinked_mem, if_neg (by omega), if_neg (by omega), if_pos rfl]
  have hsize₂ : h₂.size (area + 32) &&& BLOCK_SIZE = r % 2 ^ 32 := by
    rw [hown₂]
    exact hdr_and_blockSize_mod _ _ hr
  have hnext : getNextBlock (buffer (area + 32)) (r % 2 ^ 32) = area + 48 + r % 2 ^ 32 := rfl
  -- the sentinel is not free, also if it is at the links of the block
  have hend : h₂.size (area + 48 + r % 2 ^ 32) &&& FREE_BLOCK = 0 := by
    have hread : h₂.size (area + 48 + r % 2 ^ 32) = 0 ∨ h₂.size (area + 48 + r % 2 ^ 32) = 2 := by
      show h₂.mem (area + 48 + r % 2 ^ 32 + 8) = 0 ∨ h₂.mem (area + 48 + r % 2 ^ 32 + 8) = 2
      by_cases hlink : area + 48 + r % 2 ^ 32 + 8 = area + 56
      · left
        rw [hlink, hh₂, unlinked_mem, if_pos (by omega)]
      · right
        have hkeep : h₂.mem (area + 48 + r % 2 ^ 32 + 8) = h₁.mem (area + 48 + r % 2 ^ 32 + 8) := by
          rw [hh₂, unlinked_mem, if_neg (by omega), if_neg (by omega), if_neg (by omega)]
        rw [hkeep, hh₁, writeArea_mem, if_neg (by omega), if_neg (by omega), if_pos rfl]
    rcases hread with hzero | htwo
    · rw [hzero]
      rfl
    · rw [htwo]
      rfl
  have hmergeNext : h₂.mergeNext (area + 32) = some h₂ := by
    unfold mergeNext
    rw [hsize₂, hnext, if_neg (by rw [hend]; omega)]
  have hmergePrev : h₂.mergePrev (area + 32) = some (area + 32, h₂) := by
    unfold mergePrev
    rw [hown₂, if_neg (by rw [hdr_and_prev _ _ hr]; exact fun hne => hne rfl)]
  have hcall : ((h.writeArea area r).freeEx (area + 48)).isSome = (mappingInsert (r % 2 ^ 32)).isSome := by
    have hptr : area + 48 - BHDR_OVERHEAD = area + 32 := by
      unfold BHDR_OVERHEAD
      omega
    rw [← hh₁]
    unfold freeEx
    rw [if_neg (by omega), hptr]
    dsimp only
    rw [hown₁, ← hh₂]
    show ((TlsfT.mergeNext _ _).bind _).isSome = _
    rw [hmergeNext, Option.bind_some]
    show ((TlsfT.mergePrev _ _).bind _).isSome = _
    rw [hmergePrev, Option.bind_some]
    show ((TlsfT.putIn _ _ _).bind _).isSome = _
    unfold putIn
    rw [hsize₂]
    cases mappingInsert (r % 2 ^ 32) with
    | none => rfl
    | some c => rfl
  rw [hcall]
  exact mappingInsert_isSome_iff (Nat.mod_lt _ (by omega))

/-! ## `init_memory_pool` -/

/-- What `memset` and the signature make of the `tlsf_t`. -/
def fresh (h : TlsfT) : TlsfT :=
  { h with
    tlsfSignature := TLSF_SIGNATURE, areaHead := 0, flBitmap := 0, slBitmap := fun _ => 0, matrix := fun _ => 0 }

theorem and_ptrMask (n : Nat) : n &&& PTR_MASK = n % 8 := Nat.and_two_pow_sub_one_eq_mod n 3

theorem initMemoryPool_call (hpool : pool ≠ 0) (h8 : pool % 8 = 0) (hsize : 6392 ≤ size) (hlt : size < 2 ^ 64)
    (hsign : h.tlsfSignature ≠ TLSF_SIGNATURE) : initMemoryPool size pool h =
      ((h.fresh.writeArea (pool + 6272) (poolBlock size)).freeEx (pool + 6272 + 48)).map fun h =>
        (h.size (pool + 6304) &&& BLOCK_SIZE, { h with areaHead := pool + 6272 + 16 }) := by
  have harea : 80 ≤ areaSize size ∧ areaSize size % 16 = 0 ∧ areaSize size < 2 ^ 64 := by
    have : areaSize size = 16 * ((size - 6264) / 16) := rfl
    omega
  have hrounded : rounddownSize (sub size sizeofTlsfT) = areaSize size := by
    have hsub : sub size sizeofTlsfT = size - 6264 := sub_eq (show 6264 ≤ size by omega) hlt
    rw [hsub]
    exact rounddownSize_eq (by omega)
  have hstart : getNextBlock pool (roundupSize sizeofTlsfT) = pool + 6272 := by
    have : roundupSize sizeofTlsfT = 6272 := roundupSize_eq (n := sizeofTlsfT) (by decide)
    rw [this]
    rfl
  have hib : (h.fresh.writeArea (pool + 6272) (poolBlock size)).size (pool + 6272) &&& BLOCK_SIZE = 16 := by
    have hread : (h.fresh.writeArea (pool + 6272) (poolBlock size)).size (pool + 6272) = 16 := by
      show TlsfT.mem _ (pool + 6272 + 8) = 16
      rw [writeArea_mem, if_neg (by omega), if_neg (by omega), if_neg (by omega), if_neg (by omega),
        if_neg (by omega),
        if_neg (by omega), if_neg (by omega), if_pos rfl]
    rw [hread]
    decide +kernel
  have hnext : getNextBlock (buffer (pool + 6272)) 16 = pool + 6304 := by
    show pool + 6272 + 16 + 16 = _
    omega
  have hbuffer : buffer (pool + 6304) = pool + 6272 + 48 := by
    show pool + 6304 + 16 = _
    omega
  unfold initMemoryPool
  rw [if_neg (by unfold sizeofTlsfT BHDR_OVERHEAD; omega), if_neg (by rw [and_ptrMask]; omega), if_neg hsign]
  dsimp only
  rw [← show h.fresh = { h with
      tlsfSignature := TLSF_SIGNATURE, areaHead := 0, flBitmap := 0, slBitmap := fun _ => 0,
      matrix := fun _ => 0 } from rfl,
    hrounded, hstart, processArea_eq harea.2.1 harea.1 harea.2.2]
  dsimp only
  rw [show areaSize size - 64 = poolBlock size from rfl, hib, hnext, hbuffer]
  cases (h.fresh.writeArea (pool + 6272) (poolBlock size)).freeEx (pool + 6272 + 48) with
  | none => rfl
  | some h => rfl

/-- **A pool can be set up** exactly if the block that is read back, with 32 bits, is below `2 ^ 30` bytes. -/
theorem initMemoryPool_isSome_iff (hpool : pool ≠ 0) (h8 : pool % 8 = 0) (hsize : 6392 ≤ size)
    (hlt : size < 2 ^ 64)
    (hsign : h.tlsfSignature ≠ TLSF_SIGNATURE) :
    (initMemoryPool size pool h).isSome ↔ poolBlock size % 2 ^ 32 < 2 ^ 30 := by
  rw [initMemoryPool_call hpool h8 hsize hlt hsign, Option.isSome_map]
  apply freeEx_writeArea
  unfold poolBlock areaSize
  omega

/-- **A new pool** is one free block of `poolBlock` bytes. -/
theorem initMemoryPool_eq (hpool : pool ≠ 0) (h8 : pool % 8 = 0) (hsize : 6392 ≤ size)
    (hblock : poolBlock size < 2 ^ 30)
    (hsign : h.tlsfSignature ≠ TLSF_SIGNATURE) :
    ∃ (c : Chunk) (h' : TlsfT), initMemoryPool size pool h = some (poolBlock size, h') ∧ c.size = poolBlock size ∧
      c.free = true ∧ Inv (pool + 6304) (pool + 6320 + poolBlock size) [c] h' ∧
      ∀ a, a < pool + 6272 ∨ pool + 6272 + areaSize size ≤ a → h'.mem a = h.mem a := by
  have harea : 80 ≤ areaSize size ∧ areaSize size % 16 = 0 := by
    have : areaSize size = 16 * ((size - 6264) / 16) := rfl
    omega
  have hlt : size < 2 ^ 64 := by
    unfold poolBlock areaSize at hblock
    omega
  have hpb : poolBlock size = areaSize size - 64 := rfl
  have h32 : pool + 6272 + 32 = pool + 6304 := by omega
  have h40 : pool + 6272 + 40 = pool + 6304 + 8 := by omega
  have h48 : pool + 6272 + 48 = pool + 6304 + 16 := by omega
  obtain ⟨c, hc, hused⟩ : ∃ c : Chunk, c.size = poolBlock size ∧ c.free = false :=
    ⟨⟨poolBlock size, false, by omega, by omega⟩, rfl, rfl⟩
  obtain ⟨h₁, hh₁⟩ : ∃ h₁, h₁ = h.fresh.writeArea (pool + 6272) (poolBlock size) := ⟨_, rfl⟩
  have hhole : Hole (pool + 6304) [] c.size [] h₁ := by
    rw [hc, hh₁, ← h32]
    exact hole_writeArea (by omega) rfl rfl rfl
  have hown : h₁.mem (pool + 6304 + 8) = hdr c.size false false := by
    rw [hc, hh₁, ← h40]
    exact writeArea_size
  have hlim : endAddr (pool + 6304) [c] = pool + 6320 + poolBlock size := by
    show pool + 6304 + 16 + c.size = _
    omega
  obtain ⟨cs', h₂, hfree, hf, hi, hkept⟩ :=
    freeEx_hole (by omega) hhole hused hown List.isChain_nil List.isChain_nil hlim (by omega)
  obtain ⟨d, rfl, hd, hdsize⟩ := hf.single
  refine ⟨d, { h₂ with areaHead := pool + 6272 + 16 }, ?_, hdsize.trans hc, hd,
    hi.write (fun _ _ => rfl) rfl rfl rfl,
    fun a ha => ?_⟩
  · have hret : h₂.size (pool + 6304) &&& BLOCK_SIZE = poolBlock size := by
      show h₂.mem (pool + 6304 + 8) &&& BLOCK_SIZE = _
      rw [hi.tail.1.1, hdr_and_blockSize _ _ d.size_mod (by omega), hdsize, hc]
    rw [initMemoryPool_call hpool h8 hsize hlt hsign, ← hh₁, h48,
      show h₁.freeEx (pool + 6304 + 16) = some h₂ from hfree, Option.map_some, hret]
  · have hstop := hi.stop
    show h₂.mem a = _
    rw [hkept a (.inr (by omega)), hh₁]
    exact writeArea_outside (by omega)

/-! ## `initialize_tlsf` -/

/-- `pool` is what `malloc` returns. -/
def initializeTlsf (mb : Option Int32) (pool : Nat) (h : TlsfT) : Option (Nat × TlsfT) :=
  initMemoryPool (TlsfPoolAllocator.poolSize mb).toNat pool h

/-- **The size of the default pool** counts modulo 4096 MB, and can be used up to 1024 MB. -/
theorem initializeTlsf_isSome_iff {n : Int32} (hpool : pool ≠ 0) (h8 : pool % 8 = 0) (hn : n ≠ 0)
    (hsign : h.tlsfSignature ≠ TLSF_SIGNATURE) :
    (initializeTlsf (some n) pool h).isSome ↔ 1 ≤ n.toInt % 4096 ∧ n.toInt % 4096 ≤ 1024 := by
  have hge := Tlsf.poolSize_ge (some n)
  have hlt := (TlsfPoolAllocator.poolSize (some n)).toNat_lt
  have hpos : n.toBitVec.toNat ≠ 0 := fun hzero => hn (Int32.toBitVec_inj.mp (BitVec.eq_of_toNat_eq hzero))
  have hnat := n.toBitVec.isLt
  have hint : n.toInt = n.toBitVec.toNat - if 2 ^ 31 ≤ n.toBitVec.toNat then 2 ^ 32 else 0 := by
    show n.toBitVec.toInt = _
    rw [BitVec.toInt_eq_toNat_cond]
    split <;> split <;> omega
  have hsz : (TlsfPoolAllocator.poolSize (some n)).toNat = n.toInt64.toUInt64.toNat * 2 ^ 20 % 2 ^ 64 := by
    have hne : n.toInt64.toUInt64 ≠ 0 := by
      intro hzero
      have := congrArg UInt64.toNat hzero
      rw [Tlsf.toNat_toUInt64] at this
      change _ = 0 at this
      omega
    show ((if n.toInt64.toUInt64 = 0 then 256 else n.toInt64.toUInt64) <<< 20).toNat = _
    rw [if_neg hne, UInt64.toNat_shiftLeft, show (20 : UInt64).toNat % 64 = 20 from rfl, Nat.shiftLeft_eq]
  rw [Tlsf.toNat_toUInt64] at hsz
  unfold initializeTlsf
  rw [initMemoryPool_isSome_iff hpool h8 (by omega) hlt hsign, hsz, hint]
  unfold poolBlock areaSize
  split
  · omega
  · omega

/-- 4097 MB are 1 MB. -/
theorem initializeTlsf_isSome_iff_wrap :
    (initializeTlsf (some 4097) 65536 ⟨0, 0, 0, fun _ => 0, fun _ => 0, fun _ => 0⟩).isSome ↔
      1 ≤ (4097 : Int32).toInt % 4096 ∧ (4097 : Int32).toInt % 4096 ≤ 1024 :=
  initializeTlsf_isSome_iff (by decide) (by decide) (by decide) (by decide)

end Sqkio.Common.TlsfT
