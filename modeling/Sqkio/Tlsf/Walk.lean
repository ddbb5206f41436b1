import Mathlib.Data.List.Perm.Subperm
import Sqkio.Tlsf.Heap

/-!
# Walking through a pool

The debug functions of `tlsf.c` go over the blocks of an area (`print_all_blocks`) and over the free lists
(`print_tlsf`).  What they find is what the invariant says, so that it can be read off the memory.

    allBlocks_eq    the blocks in order, up to the sentinel
    layout_unique   the blocks in use determine where the free ones are
-/

namespace Sqkio.Common.TlsfT

open Sqkio.Lib

variable {h : TlsfT} {a b x y base lim n : Nat} {p : Option Nat} {c : Chunk} {cs cs' : List Chunk}

/-- What `print_block` prints of a block. -/
structure BlockInfo where
  addr : Nat
  size : Nat
  free : Bool
  deriving DecidableEq

/-- The inner loop of `print_all_blocks`, for as many blocks as there may be. -/
def allBlocks : Nat → Nat → TlsfT → List BlockInfo
  | 0, _, _ => []
  | fuel + 1, b, h =>
    ⟨b, h.size b &&& BLOCK_SIZE, h.size b &&& FREE_BLOCK == FREE_BLOCK⟩ ::
      if h.size b &&& BLOCK_SIZE ≠ 0 then allBlocks fuel (getNextBlock (buffer b) (h.size b &&& BLOCK_SIZE))
      h else []

/-- The inner loop of `print_tlsf`. -/
def freeList : Nat → Nat → TlsfT → List Nat
  | 0, _, _ => []
  | fuel + 1, b, h => if b ≠ 0 then b :: freeList fuel (h.next b) h else []

/-! ## All blocks -/

def info (x : Nat × Chunk) : BlockInfo := ⟨x.1, x.2.size, x.2.free⟩

theorem allBlocks_tail {fuel : Nat} (ht : Tail h.mem p b cs) (hlt : endAddr b cs < b + 2 ^ 32)
    (hfuel : cs.length < fuel) :
    allBlocks fuel b h = (blocks b cs).map info ++ [⟨endAddr b cs, 0, false⟩] := by
  induction cs generalizing fuel p b with
  | nil =>
    obtain ⟨fuel, rfl⟩ : ∃ f, fuel = f + 1 := ⟨fuel - 1, by omega⟩
    have hsize : h.size b = hdr 0 false p.isSome := ht.1
    unfold allBlocks
    rw [hsize, hdr_and_blockSize _ _ rfl (by omega), hdr_and_free _ _ rfl]
    rfl
  | cons c cs ih =>
    obtain ⟨fuel, rfl⟩ : ∃ f, fuel = f + 1 := ⟨fuel - 1, by omega⟩
    obtain ⟨hhead, htail⟩ := ht
    have hc := c.size_ge
    have hle := le_endAddr (b + 16 + c.size) cs
    change endAddr (b + 16 + c.size) cs < b + 2 ^ 32 at hlt
    have hsize : h.size b = hdr c.size c.free p.isSome := hhead.1
    have hfree : (c.free.toNat == FREE_BLOCK) = c.free := by cases c.free <;> rfl
    have hnext : getNextBlock (buffer b) c.size = b + 16 + c.size := rfl
    unfold allBlocks
    rw [hsize, hdr_and_blockSize _ _ c.size_mod (by omega), hdr_and_free _ _ c.size_mod, if_pos (by omega),
      hfree, hnext,
      ih htail (by omega) (by simpa using hfuel)]
    rfl

theorem length_le (b : Nat) (cs : List Chunk) : b + 32 * cs.length ≤ endAddr b cs := by
  induction cs generalizing b with
  | nil => exact Nat.le_refl _
  | cons c cs ih =>
    have := ih (b := b + 16 + c.size)
    have := c.size_ge
    show b + 32 * (cs.length + 1) ≤ endAddr (b + 16 + c.size) cs
    omega

/-- **`print_all_blocks`** finds the blocks of the invariant, and stops at the sentinel. -/
theorem Inv.allBlocks_eq (hi : Inv base lim cs h) {fuel : Nat} (hfuel : lim - base < fuel) :
    allBlocks fuel base h = (blocks base cs).map info ++ [⟨lim, 0, false⟩] := by
  have hlen := length_le base cs
  have hstop := hi.stop
  have hsmall := hi.small
  rw [allBlocks_tail hi.tail (by omega) (by omega), hstop]

theorem mem_allBlocks (hi : Inv base lim cs h) {fuel : Nat} (hfuel : lim - base < fuel) {e : BlockInfo} :
    e ∈ allBlocks fuel base h ↔ (∃ c, (e.addr, c) ∈ blocks base cs ∧ e.size = c.size ∧ e.free = c.free) ∨
    e = ⟨lim, 0, false⟩ := by
  rw [hi.allBlocks_eq hfuel, List.mem_append, List.mem_singleton]
  refine or_congr_left ?_
  rw [List.mem_map]
  constructor
  · rintro ⟨⟨y, c⟩, hmem, rfl⟩
    exact ⟨c, hmem, rfl, rfl⟩
  · rintro ⟨c, hmem, hsize, hfree⟩
    refine ⟨(e.addr, c), hmem, ?_⟩
    obtain ⟨a, s, f⟩ := e
    unfold info
    rw [← hsize, ← hfree]

/-! ## The free lists -/

theorem freeList_dll {fuel q : Nat} {l : List Nat} (hl : Dll 0 h.next h.prev q b l) (hfuel : l.length < fuel) :
    freeList fuel b h = l := by
  induction l generalizing fuel q b with
  | nil =>
    obtain ⟨fuel, rfl⟩ : ∃ f, fuel = f + 1 := ⟨fuel - 1, by omega⟩
    have hnull : b = 0 := hl
    unfold freeList
    rw [if_neg (not_not.mpr hnull)]
  | cons x l ih =>
    obtain ⟨fuel, rfl⟩ : ∃ f, fuel = f + 1 := ⟨fuel - 1, by omega⟩
    obtain ⟨rfl, hx, -, hrest⟩ := hl
    unfold freeList
    rw [if_pos hx, ih hrest (by simpa using hfuel)]

theorem length_frees_le (b : Nat) (cs : List Chunk) : (frees b cs).length ≤ cs.length := by
  induction cs generalizing b with
  | nil => exact Nat.le_refl _
  | cons c cs ih =>
    have hle := ih (b := b + 16 + c.size)
    show (if c.free then _ else _ : List _).length ≤ cs.length + 1
    split
    · exact Nat.succ_le_succ hle
    · exact Nat.le_succ_of_le hle

/-- **`print_tlsf`** finds in every list the free blocks of its class, each once, and a bit for every list that is
not empty. -/
theorem Inv.freeList_eq (hi : Inv base lim cs h) {fuel : Nat} (hfuel : lim - base < fuel) (d : Idx) :
    (freeList fuel (h.matrix d) h).Nodup ∧
      (∀ b, b ∈ freeList fuel (h.matrix d) h ↔ ∃ c, (b, c) ∈ blocks base cs ∧ c.free = true ∧ d.Has c.size) ∧
      ((h.slBitmap d.fl).getLsbD d.sl = true ↔ freeList fuel (h.matrix d) h ≠ []) ∧
      ∀ fl, h.flBitmap.getLsbD fl = true ↔ fl < 24 ∧ h.slBitmap fl ≠ 0#32 := by
  obtain ⟨L, hL⟩ := hi.lists
  have hmem : ∀ b, b ∈ L d ↔ ∃ c, (b, c) ∈ blocks base cs ∧ c.free = true ∧ d.Has c.size := by
    intro b
    rw [hL.mem d b]
    constructor
    · rintro ⟨s, hs, hhas⟩
      obtain ⟨c, hc, hfree, rfl⟩ := mem_frees.mp hs
      exact ⟨c, hc, hfree, hhas⟩
    · rintro ⟨c, hc, hfree, hhas⟩
      exact ⟨c.size, mem_frees.mpr ⟨c, hc, hfree, rfl⟩, hhas⟩
  have hlen : (L d).length < fuel := by
    have hsub : L d ⊆ (frees base cs).map Prod.fst := by
      intro b hb
      obtain ⟨s, hs, -⟩ := (hL.mem d b).mp hb
      exact List.mem_map_of_mem hs
    have hle := (List.subperm_of_subset (hL.nodup d) hsub).length_le
    have hfrees := length_frees_le base cs
    have hcs := length_le base cs
    have hstop := hi.stop
    rw [List.length_map] at hle
    omega
  have hwalk : freeList fuel (h.matrix d) h = L d := freeList_dll (hL.dll d) hlen
  rw [hwalk]
  exact ⟨hL.nodup d, hmem, hL.marked.sl d, hL.marked.fl⟩

/-! ## The layout is determined by the blocks in use -/

theorem inUse_self (hc : c.free = false) : InUse b (c :: cs) b c := ⟨List.mem_cons_self, hc⟩

theorem inUse_cons_of_free (hc : c.free = true) {d : Chunk} : InUse b (c :: cs) y d ↔
    InUse (b + 16 + c.size) cs y d := by
  rw [inUse_cons, or_iff_right]
  rintro ⟨hused, -⟩
  rw [hc] at hused
  cases hused

/-- The block in use behind a free one, or the end, is not inside another free block. -/
theorem free_size_le {d : Chunk} {l₁ l₂ : List Chunk} (hc : c.free = true) (hd : d.free = true)
    (hl : Coalesced (c :: l₁)) (hend : endAddr b (c :: l₁) = endAddr b (d :: l₂))
    (hiff : ∀ y e, InUse b (c :: l₁) y e → InUse b (d :: l₂) y e) : d.size ≤ c.size := by
  change endAddr (b + 16 + c.size) l₁ = endAddr (b + 16 + d.size) l₂ at hend
  cases l₁ with
  | nil =>
    have := le_endAddr (b + 16 + d.size) l₂
    change b + 16 + c.size = _ at hend
    omega
  | cons e l₁ =>
    have he : e.free = false := (coalesced_cons.mp hl).2 hc
    have hin : InUse b (c :: e :: l₁) (b + 16 + c.size) e := (inUse_cons_of_free hc).mpr (inUse_self he)
    have := ((inUse_cons_of_free hd).mp (hiff _ _ hin)).bounds
    omega

theorem layout_unique (hl : Coalesced cs) (hl' : Coalesced cs') (hend : endAddr b cs = endAddr b cs')
    (hiff : ∀ y e, InUse b cs y e ↔ InUse b cs' y e) : cs = cs' := by
  induction cs generalizing b cs' with
  | nil =>
    cases cs' with
    | nil => rfl
    | cons d cs' =>
      have := le_endAddr (b + 16 + d.size) cs'
      change b = endAddr (b + 16 + d.size) cs' at hend
      omega
  | cons c cs ih =>
    cases cs' with
    | nil =>
      have := le_endAddr (b + 16 + c.size) cs
      change endAddr (b + 16 + c.size) cs = b at hend
      omega
    | cons d cs' =>
      have hfirst : c = d := by
        cases hc : c.free with
        | false =>
          rcases inUse_cons.mp ((hiff b c).mp (inUse_self hc)) with ⟨-, -, heq⟩ | hin
          · exact heq
          · have := hin.bounds
            omega
        | true =>
          cases hd : d.free with
          | false =>
            have hin := (inUse_cons_of_free hc).mp ((hiff b d).mpr (inUse_self hd))
            have := hin.bounds
            omega
          | true =>
            have hle := free_size_le hc hd hl hend fun y e => (hiff y e).mp
            have hge := free_size_le hd hc hl' hend.symm fun y e => (hiff y e).mpr
            exact Chunk.eq_of (by omega) (hc.trans hd.symm)
      subst hfirst
      refine congrArg _ (ih (coalesced_cons.mp hl).1 (coalesced_cons.mp hl').1 hend fun y e => ?_)
      have hboth := hiff y e
      rw [inUse_cons, inUse_cons] at hboth
      -- a block of the tail is not the first one
      have hnot : ∀ {l : List Chunk}, InUse (b + 16 + c.size) l y e → ¬(c.free = false ∧ y = b ∧ e = c) := by
        rintro l hin ⟨-, rfl, -⟩
        have := hin.bounds
        omega
      constructor
      · intro hin
        exact (hboth.mp (.inr hin)).resolve_left (hnot hin)
      · intro hin
        exact (hboth.mpr (.inr hin)).resolve_left (hnot hin)

end Sqkio.Common.TlsfT
