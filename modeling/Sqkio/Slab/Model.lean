import Mathlib.Logic.Function.Basic
import Sqkio.Lib.Machine

/-!
# The slab allocator of coroutine frames

`SlabPoolAllocator::operator new` and `operator delete` for single objects.  A block is named
by the number of the `::operator new` that made it, which stands for its address and is
not used again.  The two functions touch the caller's own `tcache_` and the header of a
block that the caller owns, so a call is one step of its thread.
-/

namespace Sqkio.Common

open Sqkio.Lib

namespace SlabPoolAllocator

def slabMagic : BitVec 16 := 0b1010101001010101
def maxClassShift : Nat := 9
def maxFrameSize : UInt64 := (4 : UInt64) <<< 10
def baseShift : UInt64 := 3
def baseSize : UInt64 := (1 : UInt64) <<< baseShift
/-- `sizeof(SlabHeader)` -/
def slabOverhead : UInt64 := 8
def lookupMaxClass : UInt32 := (maxFrameSize >>> baseShift).toUInt32

/-- `ROUNDUP(size, BASE_SIZE)` -/
def roundup (size : UInt64) : UInt64 := ((~~~size + 1) &&& (baseSize - 1)) + size

def size2ind (size : UInt64) : UInt32 := (size >>> baseShift).toUInt32

structure SlabHeader where
  ind : BitVec (maxClassShift + 1)
  magic : BitVec 16
  deriving DecidableEq

/-- What `::operator new(bytes)` gave: the header, and the frame after it. -/
structure Block where
  bytes : UInt64
  header : SlabHeader
  -- ghost: the size for which it was made
  size : UInt64
  deriving DecidableEq

end SlabPoolAllocator

open SlabPoolAllocator

/-- The blocks, and the `tcache_` of every thread with the top of each stack first. -/
structure Slab (τ : Type) where
  tcache : τ → Nat → List Nat
  block : Nat → Block
  created : Nat
  ended : τ → Bool
  -- ghosts: blocks that are allocated, given to `::operator delete`, or were in the `tcache_` of
  -- a thread when it ended; and what the allocations returned
  live : List Nat
  released : List Nat
  lost : List Nat
  returned : List (UInt64 × Nat)

namespace Slab

variable {τ : Type}

/-- `::operator new`; the new block is `s.created`. -/
def create (b : Block) (s : Slab τ) : Slab τ :=
  { s with block := Function.update s.block s.created b, created := s.created + 1 }

/-- The header of a new block; `junk` is what the memory held.  `debug` is `!NDEBUG`. -/
def newHeader (debug : Bool) (ind : UInt32) (junk : SlabHeader) : SlabHeader where
  ind := BitVec.ofNat _ (min ind lookupMaxClass).toNat
  magic := if debug then slabMagic else junk.magic

/-- What a thread can do: allocate, free, and end. -/
inductive Act (τ : Type) where
  | new (t : τ) (size : UInt64) (junk : SlabHeader)
  | delete (t : τ) (ptr : Nat)
  | exit (t : τ)

def Act.thread : Act τ → τ
  | new t _ _ | delete t _ | exit t => t

/-- A block is freed once for each time it was allocated, by any thread. -/
def Enabled (s : Slab τ) : Act τ → Prop
  | .new t _ _ | .exit t => s.ended t = false
  | .delete t ptr => s.ended t = false ∧ ptr ∈ s.live

instance : (s : Slab τ) → (a : Act τ) → Decidable (s.Enabled a)
  | s, .new t _ _ | s, .exit t => inferInstanceAs (Decidable (s.ended t = false))
  | s, .delete t ptr => inferInstanceAs (Decidable (s.ended t = false ∧ ptr ∈ s.live))

structure Init (s : Slab τ) : Prop where
  tcache : ∀ t c, s.tcache t c = []
  created : s.created = 0
  ended : ∀ t, s.ended t = false
  live : s.live = []
  released : s.released = []
  lost : s.lost = []
  returned : s.returned = []

/-- Nothing has been allocated. -/
def start (τ : Type) : Slab τ where
  tcache _ _ := []
  block _ := ⟨0, ⟨0, 0⟩, 0⟩
  created := 0
  ended _ := false
  live := []
  released := []
  lost := []
  returned := []

theorem start_init : (start τ).Init := ⟨fun _ _ => rfl, rfl, fun _ => rfl, rfl, rfl, rfl, rfl⟩

variable [DecidableEq τ]

def setCache (t : τ) (ind : Nat) (stack : List Nat) (s : Slab τ) : Slab τ :=
  { s with tcache := Function.update s.tcache t (Function.update (s.tcache t) ind stack) }

def slabAlloc (debug : Bool) (t : τ) (size : UInt64) (junk : SlabHeader) (s : Slab τ) : Slab τ × Nat :=
  let rsize := roundup size
  let ind := size2ind rsize
  match decide (ind < lookupMaxClass), s.tcache t ind.toNat with
  | true, ptr :: rest => (s.setCache t ind.toNat rest, ptr)
  | _, _ => (s.create ⟨rsize + slabOverhead, newHeader debug ind junk, size⟩, s.created)

def slabDealloc (t : τ) (ptr : Nat) (s : Slab τ) : Slab τ :=
  let ind := (s.block ptr).header.ind.toNat
  if ind < lookupMaxClass.toNat then s.setCache t ind (ptr :: s.tcache t ind)
  else { s with released := ptr :: s.released }

/-- The storage of `thread_local` variables goes with the thread. -/
def exit (t : τ) (s : Slab τ) : Slab τ :=
  { s with
    tcache := Function.update s.tcache t fun _ => []
    ended := Function.update s.ended t true
    lost := s.lost ++ (List.range lookupMaxClass.toNat).flatMap (s.tcache t) }

def next (debug : Bool) (s : Slab τ) : Act τ → Slab τ
  | .new t size junk =>
    let r := s.slabAlloc debug t size junk
    { r.1 with live := r.2 :: s.live, returned := s.returned ++ [(size, r.2)] }
  | .delete t ptr => { s.slabDealloc t ptr with live := s.live.erase ptr }
  | .exit t => s.exit t

/-! ## What the two functions do -/

omit [DecidableEq τ] in
@[simp] theorem lookupMaxClass_toNat : lookupMaxClass.toNat = 512 := rfl

omit [DecidableEq τ] in
theorem newHeader_ind (debug : Bool) (ind : UInt32) (junk : SlabHeader) :
    (newHeader debug ind junk).ind.toNat = min ind.toNat 512 := by
  have hmin : (min ind lookupMaxClass).toNat = min ind.toNat 512 := by
    rw [show min ind lookupMaxClass = if ind ≤ lookupMaxClass then ind else lookupMaxClass from rfl]
    split
    next h =>
      rw [UInt32.le_iff_toNat_le, lookupMaxClass_toNat] at h
      omega
    next h =>
      rw [UInt32.le_iff_toNat_le, lookupMaxClass_toNat] at h
      rw [lookupMaxClass_toNat]
      omega
  rw [newHeader, BitVec.toNat_ofNat, hmin, Nat.mod_eq_of_lt]
  exact Nat.lt_of_le_of_lt (Nat.min_le_right _ _) (by decide)

section

variable {debug : Bool} {t : τ} {size : UInt64} {junk : SlabHeader} {s : Slab τ} {ptr : Nat}

theorem slabAlloc_hit {rest : List Nat} (hind : (size2ind (roundup size)).toNat < 512)
    (hc : s.tcache t (size2ind (roundup size)).toNat = ptr :: rest) :
    s.slabAlloc debug t size junk = (s.setCache t (size2ind (roundup size)).toNat rest, ptr) := by
  have hlt : decide (size2ind (roundup size) < lookupMaxClass) = true :=
    decide_eq_true (UInt32.lt_iff_toNat_lt.mpr hind)
  unfold slabAlloc
  simp only [hlt, hc]

theorem slabAlloc_miss (h : (size2ind (roundup size)).toNat < 512 →
      s.tcache t (size2ind (roundup size)).toNat = []) :
    s.slabAlloc debug t size junk = (s.create ⟨roundup size + slabOverhead,
      newHeader debug (size2ind (roundup size)) junk, size⟩, s.created) := by
  unfold slabAlloc
  simp only
  split
  next ptr rest hlt hc =>
    have hlt' := UInt32.lt_iff_toNat_lt.mp (of_decide_eq_true hlt)
    rw [h hlt'] at hc
    cases hc
  · rfl

theorem slabDealloc_cached (h : (s.block ptr).header.ind.toNat < 512) :
    s.slabDealloc t ptr = s.setCache t (s.block ptr).header.ind.toNat
      (ptr :: s.tcache t (s.block ptr).header.ind.toNat) := if_pos h

theorem slabDealloc_released (h : ¬ (s.block ptr).header.ind.toNat < 512) :
    s.slabDealloc t ptr = { s with released := ptr :: s.released } := if_neg h

end

def machine (τ : Type) [DecidableEq τ] (debug : Bool) : Machine (Slab τ) (Act τ) where
  init := Init
  enabled := Enabled
  next := next debug

instance (debug : Bool) (s : Slab τ) (a : Act τ) : Decidable ((machine τ debug).enabled s a) :=
  inferInstanceAs (Decidable (s.Enabled a))

end Slab

end Sqkio.Common
