import Mathlib.Algebra.Group.Nat.Defs
import Sqkio.Slab.Ownership

/-!
# The size of the blocks

A stack of `tcache_` is found by the index alone, and the index loses the upper bits of the
size: `roundup` wraps near `2 ^ 64` and `size2ind` keeps 32 bits.  `largeEnough_iff` shows
that blocks are large enough as long as no such request meets a smaller block.
-/

namespace Sqkio.Common

namespace SlabPoolAllocator

theorem size2ind_toNat (x : UInt64) : (size2ind x).toNat = x.toNat / 8 % 2 ^ 32 := by
  unfold size2ind
  rw [UInt64.toNat_toUInt32, UInt64.toNat_shiftRight, show baseShift.toNat % 64 = 3 from rfl,
    Nat.shiftRight_eq_div_pow]

theorem roundup_toNat (size : UInt64) : (roundup size).toNat = (size.toNat + 7) / 8 * 8 % 2 ^ 64 := by
  have hsize := size.toNat_lt
  have hlow : ((~~~size + 1) &&& (baseSize - 1)).toNat = (2 ^ 64 - size.toNat) % 8 := by
    rw [UInt64.toNat_and, show (baseSize - 1).toNat = 2 ^ 3 - 1 from rfl, Nat.and_two_pow_sub_one_eq_mod,
      UInt64.toNat_add, UInt64.toNat_not, show (1 : UInt64).toNat = 1 from rfl]
    simp only [UInt64.size]
    omega
  rw [roundup, UInt64.toNat_add, hlow]
  omega

end SlabPoolAllocator

namespace Slab

open Sqkio.Lib SlabPoolAllocator

variable {τ : Type}

/-- Every block that was returned has the bytes that were asked for after its header. -/
def LargeEnough (s : Slab τ) : Prop :=
  ∀ e ∈ s.returned, e.1.toNat + slabOverhead.toNat ≤ (s.block e.2).bytes.toNat

/-- The size leaves room for the header, and a size too large for a 32-bit index does not find a
block that was made for a smaller one. -/
def Sized (s : Slab τ) : Act τ → Prop
  | .new t size _ => size.toNat ≤ 2 ^ 64 - 16 ∧ (size.toNat ≤ 2 ^ 35 - 8 ∨
      ∀ b rest, (size2ind (roundup size)).toNat < 512 →
        s.tcache t (size2ind (roundup size)).toNat = b :: rest →
          roundup size ≤ roundup (s.block b).size)
  | _ => True

section

variable {debug : Bool} {s : Slab τ} {t : τ} {size : UInt64} {junk : SlabHeader}

/-- What a block of a class below 512 was made for gives that class. -/
theorem Inv.bytes_toNat (h : s.Inv debug) {b c : Nat} (hb : b ∈ s.tcache t c) :
    (roundup (s.block b).size).toNat / 8 % 2 ^ 32 = c ∧
      (s.block b).bytes.toNat = (roundup (s.block b).size).toNat + 8 := by
  obtain ⟨hc, hind⟩ := h.cached t c b hb
  have hlt := h.held.sound (p := .cached t c) hb
  have hindex := h.index b hlt
  rw [size2ind_toNat] at hindex
  have hr := roundup_toNat (s.block b).size
  have hclass : (roundup (s.block b).size).toNat / 8 % 2 ^ 32 = c := by omega
  refine ⟨hclass, ?_⟩
  rw [h.bytes b hlt, UInt64.toNat_add, show slabOverhead.toNat = 8 from rfl]
  omega

variable [DecidableEq τ]

/-- The block that a request gets is large enough exactly when the request is `Sized`. -/
theorem Inv.new_large (h : s.Inv debug) :
    size.toNat + 8 ≤ (((s.slabAlloc debug t size junk).1.block
      (s.slabAlloc debug t size junk).2).bytes).toNat ↔ s.Sized (.new t size junk) := by
  have hsize := roundup_toNat size
  have hlt := size.toNat_lt
  have hind := size2ind_toNat (roundup size)
  rcases new_cases debug t size junk s with ⟨rest, hfast, hc, hs⟩ | ⟨hptr, hmiss, hs⟩
  · rw [hs]
    generalize (s.slabAlloc debug t size junk).2 = b at hc ⊢
    obtain ⟨hclass, hbytes⟩ := h.bytes_toNat (b := b) (t := t) (by rw [hc]; exact List.mem_cons_self)
    have hround := roundup_toNat (s.block b).size
    rw [setCache_block, hbytes]
    constructor
    · intro hle
      refine ⟨by omega, .inr fun b' rest' _ hc' => ?_⟩
      rw [hc, List.cons.injEq] at hc'
      rw [← hc'.1, UInt64.le_iff_toNat_le]
      omega
    · rintro ⟨hroom, hsmall | hmade⟩
      · -- the index is exact, so the block was made for at least `roundup size`
        omega
      · have hle := hmade b rest hfast hc
        rw [UInt64.le_iff_toNat_le] at hle
        omega
  · rw [hs, hptr, create_block_self, UInt64.toNat_add, show slabOverhead.toNat = 8 from rfl]
    constructor
    · intro hle
      refine ⟨by omega, .inr fun b rest hfast hc => ?_⟩
      rw [hmiss hfast] at hc
      cases hc
    · rintro ⟨hroom, -⟩
      omega

theorem Inv.new_made (h : s.Inv debug) :
    (s.slabAlloc debug t size junk).2 < (s.slabAlloc debug t size junk).1.created := by
  rcases new_cases debug t size junk s with ⟨rest, -, hc, hs⟩ | ⟨hptr, -, hs⟩
  · rw [hs, setCache_created]
    refine h.held.sound (p := .cached t (size2ind (roundup size)).toNat) ?_
    show _ ∈ s.tcache t _
    rw [hc]
    exact List.mem_cons_self
  · rw [hs, hptr]
    exact Nat.lt_succ_self _

theorem delete_returned {ptr : Nat} : (s.next debug (.delete t ptr)).returned = s.returned := by
  by_cases h : (s.block ptr).header.ind.toNat < 512
  · simp only [next, slabDealloc_cached h]
    rfl
  · simp only [next, slabDealloc_released h]

theorem new_returned :
    (s.next debug (.new t size junk)).returned = s.returned ++ [(size, (s.slabAlloc debug t size junk).2)] :=
  rfl

omit [DecidableEq τ] in
/-- `returned` names blocks that there are. -/
def ReturnedMade (s : Slab τ) : Prop := ∀ e ∈ s.returned, e.2 < s.created

theorem ReturnedMade.next {a : Act τ} (hi : s.Inv debug) (h : s.ReturnedMade) :
    (s.next debug a).ReturnedMade := by
  have hold : ∀ e ∈ s.returned, e.2 < (s.next debug a).created :=
    fun e he => Nat.lt_of_lt_of_le (h e he) (next_block debug s a).1
  cases a with
  | new t size junk =>
    unfold ReturnedMade
    rw [new_returned]
    refine List.forall_mem_append.mpr ⟨hold, ?_⟩
    rw [List.forall_mem_singleton]
    exact hi.new_made
  | delete t ptr =>
    unfold ReturnedMade
    rw [delete_returned]
    exact hold
  | exit t => exact hold

/-- A step keeps the law exactly when its request is `Sized`. -/
theorem Inv.next_largeEnough {a : Act τ} (hi : s.Inv debug) (hm : s.ReturnedMade) :
    (s.next debug a).LargeEnough ↔ s.LargeEnough ∧ s.Sized a := by
  have hold : (∀ e ∈ s.returned, e.1.toNat + slabOverhead.toNat ≤
      ((s.next debug a).block e.2).bytes.toNat) ↔ s.LargeEnough := by
    refine forall₂_congr fun e he => ?_
    rw [(next_block debug s a).2 e.2 (hm e he)]
  cases a with
  | new t size junk =>
    unfold LargeEnough at hold ⊢
    rw [new_returned, List.forall_mem_append, hold, List.forall_mem_singleton]
    exact and_congr_right fun _ => hi.new_large
  | delete t ptr =>
    unfold LargeEnough at hold ⊢
    rw [delete_returned, hold]
    exact (and_iff_left trivial).symm
  | exit t => exact hold.trans (and_iff_left trivial).symm

/-- After a run of any number of threads every block that was returned is large enough exactly
when all requests were `Sized`. -/
theorem largeEnough_iff (h : s.Init) {acts : List (Act τ)}
    (he : (machine τ debug).AllEnabled s acts) :
    ((machine τ debug).runList s acts).LargeEnough ↔
      ((machine τ debug).restrict Sized).AllEnabled s acts := by
  have hrule := @Machine.law_iff_allEnabled _ _ (machine τ debug)
    (fun s => s.Inv debug ∧ s.ReturnedMade) LargeEnough Sized
    (fun _ _ hen hi => ⟨hi.1.next hen, hi.2.next hi.1⟩) (fun _ _ _ hi => hi.1.next_largeEnough hi.2)
  have hlaw : s.LargeEnough := by
    intro e he
    rw [h.returned] at he
    cases he
  have hmade : s.ReturnedMade := by
    intro e he
    rw [h.returned] at he
    cases he
  exact (hrule ⟨h.inv, hmade⟩ he).trans (and_iff_right hlaw)

end

/-- A frame of 20 bytes in a block made for 24. -/
theorem largeEnough_iff_reused :
    ((machine Unit true).runList (start Unit)
      [.new () 24 ⟨0, 0⟩, .delete () 0, .new () 20 ⟨0, 0⟩]).LargeEnough ↔
    ((machine Unit true).restrict Sized).AllEnabled (start Unit)
      [.new () 24 ⟨0, 0⟩, .delete () 0, .new () 20 ⟨0, 0⟩] :=
  largeEnough_iff start_init (by decide +kernel)

/-- After a frame of no bytes was freed, a request for `2 ^ 35` bytes has index 0 and gets its
block. -/
theorem tooSmall : ∃ s : Slab Unit, s.Init ∧
    (machine Unit true).AllEnabled s [.new () 0 ⟨0, 0⟩, .delete () 0, .new () 34359738368 ⟨0, 0⟩] ∧
    ∃ e ∈ ((machine Unit true).runList s
      [.new () 0 ⟨0, 0⟩, .delete () 0, .new () 34359738368 ⟨0, 0⟩]).returned,
      e = (34359738368, 0) ∧ (((machine Unit true).runList s
        [.new () 0 ⟨0, 0⟩, .delete () 0, .new () 34359738368 ⟨0, 0⟩]).block 0).bytes = 8 :=
  ⟨start Unit, start_init, by decide +kernel, (34359738368, 0), by decide +kernel, rfl, by decide +kernel⟩

end Slab

end Sqkio.Common
