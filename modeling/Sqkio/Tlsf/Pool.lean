import Mathlib.Algebra.Group.Nat.Defs
import Mathlib.Logic.Function.Basic
import Sqkio.Lib.Machine

/-!
# The pool behind `TlsfPoolAllocator`

`tlsf_malloc` and `tlsf_free` work on the pool that `mp` of the calling thread points to.  `mp` is `__thread`,
and only `init_memory_pool` stores to it, which runs once, in the constructor `initialize_tlsf` on the main
thread.

    on the main thread   → the pool of `initialize_tlsf`
    on another one       → a null pointer

What `malloc_ex` and `free_ex` do with a pool is in `Sqkio.Tlsf.Model`; here a call is recorded with the pool it gets.
-/

namespace Sqkio.Common

open Sqkio.Lib

namespace TlsfPoolAllocator

/-- An address; `0` is the null pointer. -/
abbrev Ptr := UInt64

def TLSF_SIGNATURE : UInt32 := 0x2A59FA59

/-- `sizeof(tlsf_t)` -/
def sizeofTlsf : UInt64 := 6264

def BHDR_OVERHEAD : UInt64 := 16

def PTR_MASK : UInt64 := 7

inductive BadAlloc where
  | badAlloc
  deriving DecidableEq

/-- `new`, `new[]`, and both with `std::nothrow`. -/
inductive NewForm where
  | single
  | array
  | singleNothrow
  | arrayNothrow
  deriving DecidableEq

/-- `delete`, `delete[]`, and both with `std::nothrow`. -/
inductive DeleteForm where
  | single
  | array
  | singleNothrow
  | arrayNothrow
  deriving DecidableEq

/-- A call of `malloc_ex(size, mem_pool)`, or of `free_ex(ptr, mem_pool)` with the pool that `ptr` was allocated
from. -/
inductive Call where
  | mallocEx (size : UInt64) (memPool : Ptr)
  | freeEx (ptr memPool : Ptr) (owner : Option Ptr)
  deriving DecidableEq

/-- The pool is one that has been set up, and the block is from it. -/
def Call.Sound (made : List Ptr) : Call → Prop
  | mallocEx _ memPool => memPool ∈ made
  | freeEx ptr memPool owner => memPool ∈ made ∧ (ptr ≠ 0 → owner = some memPool)

/-- `sz` of `initialize_tlsf`; `mb` is what `atoi` makes of `COMMON_ALLOCATOR_SIZE_MB`, if it is set. -/
def poolSize (mb : Option Int32) : UInt64 :=
  let sz : UInt64 := match mb with
    | some n => n.toInt64.toUInt64
    | none => 0
  let sz := if sz = 0 then 256 else sz
  sz <<< 20

end TlsfPoolAllocator

open TlsfPoolAllocator

/-- `mp` of every thread, and the word at every address that a pool may have. -/
structure Tlsf (τ : Type) where
  mp : τ → Ptr
  signature : Ptr → UInt32
  -- ghosts: the pools that `init_memory_pool` has set up, the calls that reached the pool functions, the
  -- blocks that the program has, and the pool that a block was allocated from
  made : List Ptr
  calls : List Call
  live : List Ptr
  owner : Ptr → Option Ptr

namespace Tlsf

variable {τ : Type}

section

variable [DecidableEq τ]

/-- `init_memory_pool` on thread `t`.  A pool with a signature counts as initialised. -/
def initMemoryPool (t : τ) (memPoolSize : UInt64) (memPool : Ptr) (s : Tlsf τ) : Tlsf τ :=
  if memPool = 0 ∨ memPoolSize = 0 ∨ memPoolSize < sizeofTlsf + BHDR_OVERHEAD * 8 then s
  else if memPool &&& PTR_MASK ≠ 0 then s
  else if s.signature memPool = TLSF_SIGNATURE then { s with mp := Function.update s.mp t memPool }
  else
    { s with
      mp := Function.update s.mp t memPool
      signature := Function.update s.signature memPool TLSF_SIGNATURE
      made := memPool :: s.made }

/-- `initialize_tlsf` on thread `t`; `pool` is what `malloc(sz)` returned. -/
def initializeTlsf (t : τ) (mb : Option Int32) (pool : Ptr) (s : Tlsf τ) : Tlsf τ :=
  s.initMemoryPool t (poolSize mb) pool

end

/-- `tlsf_malloc`; `ret` is what `malloc_ex(size, mp)` returns. -/
def tlsfMalloc (t : τ) (size : UInt64) (ret : Ptr) (s : Tlsf τ) : Tlsf τ × Ptr :=
  ({ s with
    calls := s.calls ++ [.mallocEx size (s.mp t)]
    owner := if ret = 0 then s.owner else Function.update s.owner ret (some (s.mp t)) }, ret)

def tlsfFree (t : τ) (ptr : Ptr) (s : Tlsf τ) : Tlsf τ :=
  { s with calls := s.calls ++ [.freeEx ptr (s.mp t) (s.owner ptr)] }

def newImpl (isNoExcept : Bool) (t : τ) (size : UInt64) (ret : Ptr) (s : Tlsf τ) : Tlsf τ × Except BadAlloc Ptr :=
  let r := s.tlsfMalloc t size ret
  (r.1, if isNoExcept then .ok r.2 else if r.2 ≠ 0 then .ok r.2 else .error .badAlloc)

def freeImpl (t : τ) (ptr : Ptr) (s : Tlsf τ) : Tlsf τ := s.tlsfFree t ptr

def operatorNew (form : NewForm) (t : τ) (size : UInt64) (ret : Ptr) (s : Tlsf τ) : Tlsf τ × Except BadAlloc Ptr :=
  match form with
  | .single => s.newImpl false t size ret
  | .array => s.newImpl false t size ret
  | .singleNothrow => s.newImpl true t size ret
  | .arrayNothrow => s.newImpl true t size ret

def operatorDelete (form : DeleteForm) (t : τ) (ptr : Ptr) (s : Tlsf τ) : Tlsf τ :=
  match form with
  | .single => s.freeImpl t ptr
  | .array => s.freeImpl t ptr
  | .singleNothrow => s.freeImpl t ptr
  | .arrayNothrow => s.freeImpl t ptr

inductive Act (τ : Type) where
  | new (t : τ) (form : NewForm) (size : UInt64) (ret : Ptr)
  | delete (t : τ) (form : DeleteForm) (ptr : Ptr)

def Act.thread : Act τ → τ
  | new t _ _ _ | delete t _ _ => t

/-- The program has a block from when it is returned to it until it frees it. -/
def next (s : Tlsf τ) : Act τ → Tlsf τ
  | .new t form size ret =>
    match s.operatorNew form t size ret with
    | (s', .ok ptr) => if ptr = 0 then s' else { s' with live := ptr :: s.live }
    | (s', .error _) => s'
  | .delete t form ptr => { s.operatorDelete form t ptr with live := s.live.erase ptr }

/-- `malloc_ex` returns no block that is in use, and the program frees a null pointer or a block that it has, on
any thread. -/
def Enabled (s : Tlsf τ) : Act τ → Prop
  | .new _ _ _ ret => ret ∉ s.live
  | .delete _ _ ptr => ptr = 0 ∨ ptr ∈ s.live

instance (s : Tlsf τ) : (a : Act τ) → Decidable (s.Enabled a)
  | .new _ _ _ ret => inferInstanceAs (Decidable (ret ∉ s.live))
  | .delete _ _ ptr => inferInstanceAs (Decidable (ptr = 0 ∨ ptr ∈ s.live))

/-- Before the constructors run, with the contents of the memory. -/
def unset (signature : Ptr → UInt32) : Tlsf τ where
  mp _ := 0
  signature
  made := []
  calls := []
  live := []
  owner _ := none

variable [DecidableEq τ]

/-- `initialize_tlsf` has run on the main thread. -/
def start (main : τ) (mb : Option Int32) (pool : Ptr) (signature : Ptr → UInt32) : Tlsf τ :=
  (unset signature).initializeTlsf main mb pool

def machine (main : τ) : Machine (Tlsf τ) (Act τ) where
  init s := ∃ mb pool signature, s = start main mb pool signature
  enabled := Enabled
  next := next

instance (main : τ) (s : Tlsf τ) (a : Act τ) : Decidable ((machine main).enabled s a) :=
  inferInstanceAs (Decidable (s.Enabled a))

def Sound (s : Tlsf τ) : Prop := ∀ c ∈ s.calls, c.Sound s.made

/-- `malloc` gave memory that is aligned to a word and does not begin with the signature by chance.  That the pool
is not larger than the tables can hold is a condition on its size (`TlsfT.Usable`, `TlsfT.initializeTlsf_isSome_iff`):
the calls here only follow the pointer `mp`. -/
def Usable (pool : Ptr) (signature : Ptr → UInt32) : Prop :=
  pool ≠ 0 ∧ pool &&& PTR_MASK = 0 ∧ signature pool ≠ TLSF_SIGNATURE

/-! ## The start-up -/

theorem toNat_toUInt64 (n : Int32) : n.toInt64.toUInt64.toNat =
    n.toBitVec.toNat + if 2 ^ 31 ≤ n.toBitVec.toNat then 2 ^ 64 - 2 ^ 32 else 0 := by
  have hlt := n.toBitVec.isLt
  have hbits : n.toInt64.toUInt64.toBitVec = n.toBitVec.signExtend 64 := rfl
  have hnat := congrArg BitVec.toNat hbits
  rw [BitVec.toNat_signExtend, BitVec.toNat_setWidth, BitVec.msb_eq_decide, Nat.mod_eq_of_lt (by omega)] at hnat
  simp only [Nat.reduceSub, decide_eq_true_eq] at hnat
  exact hnat

theorem shiftLeft_ge {sz : UInt64} (h : sz ≠ 0) (hint : sz.toNat < 2 ^ 31 ∨ 2 ^ 64 - 2 ^ 31 ≤ sz.toNat) :
    2 ^ 20 ≤ (sz <<< 20).toNat := by
  have hpos : sz.toNat ≠ 0 := fun hz => h (UInt64.toNat_inj.mp hz)
  have hlt := sz.toNat_lt
  rw [UInt64.toNat_shiftLeft, show (20 : UInt64).toNat % 64 = 20 from rfl, Nat.shiftLeft_eq]
  omega

/-- Whatever the environment says, the size is large enough for a pool. -/
theorem poolSize_ge (mb : Option Int32) : 2 ^ 20 ≤ (poolSize mb).toNat := by
  cases mb with
  | none => decide
  | some n =>
    show 2 ^ 20 ≤ ((if n.toInt64.toUInt64 = 0 then 256 else n.toInt64.toUInt64) <<< 20).toNat
    split
    · decide
    next hne =>
      have hlt := n.toBitVec.isLt
      apply shiftLeft_ge hne
      rw [toNat_toUInt64]
      split
      · right
        omega
      · left
        omega

section

variable {main : τ} {mb : Option Int32} {pool : Ptr} {signature : Ptr → UInt32} {s : Tlsf τ}

/-- What `initialize_tlsf` leaves: only the main thread's pointer can be set, and the pool is set up if the memory
is usable. -/
theorem start_mp (t : τ) : (start main mb pool signature).mp t ∈ (start main mb pool signature).made ↔
    t = main ∧ Usable pool signature := by
  have hsize : ¬(poolSize mb = 0 ∨ poolSize mb < sizeofTlsf + BHDR_OVERHEAD * 8) := by
    have hge := poolSize_ge mb
    rintro (hzero | hlt)
    · rw [hzero] at hge
      exact absurd hge (by decide)
    · rw [UInt64.lt_iff_toNat_lt] at hlt
      exact absurd (Nat.lt_of_le_of_lt hge hlt) (by decide)
  have hunset : ∀ t', t' ≠ main → Function.update (fun _ => (0 : Ptr)) main pool t' = 0 :=
    fun t' ht' => Function.update_of_ne ht' _ _
  unfold start initializeTlsf initMemoryPool Usable
  by_cases hpool : pool = 0
  · rw [if_pos (.inl hpool)]
    exact iff_of_false (fun hmem => by cases hmem) fun h => h.2.1 hpool
  · rw [if_neg (not_or.mpr ⟨hpool, hsize⟩)]
    split
    next halign => exact iff_of_false (fun hmem => by cases hmem) fun h => halign h.2.2.1
    next halign =>
      rw [not_not] at halign
      split
      next hsig => exact iff_of_false (fun hmem => by cases hmem) fun h => h.2.2.2 hsig
      next hsig =>
        show Function.update (fun _ => (0 : Ptr)) main pool t ∈ [pool] ↔ _
        rw [List.mem_singleton]
        constructor
        · intro hmp
          refine ⟨?_, hpool, halign, hsig⟩
          by_contra ht
          rw [hunset t ht] at hmp
          exact hpool hmp.symm
        · rintro ⟨rfl, -⟩
          exact Function.update_self _ _ _

theorem start_made : ∀ p ∈ (start main mb pool signature).made, p = pool := by
  unfold start initializeTlsf initMemoryPool
  split
  · exact fun p hp => by cases hp
  · split
    · exact fun p hp => by cases hp
    · split
      · exact fun p hp => by cases hp
      · exact fun p hp => List.mem_singleton.mp hp

theorem start_calls : (start main mb pool signature).calls = [] ∧ (start main mb pool signature).live = [] := by
  unfold start initializeTlsf initMemoryPool
  split
  · exact ⟨rfl, rfl⟩
  · split
    · exact ⟨rfl, rfl⟩
    · split <;> exact ⟨rfl, rfl⟩

/-! ## One call -/

omit [DecidableEq τ] in
/-- All forms of `new` do the same to the pool; a program that gets no block gets `ret = 0` or an exception. -/
theorem next_new (t : τ) (form : NewForm) (size : UInt64) (ret : Ptr) :
    s.next (.new t form size ret) =
      { (s.tlsfMalloc t size ret).1 with live := if ret = 0 then s.live else ret :: s.live } := by
  by_cases hret : ret = 0
  · subst hret
    cases form <;> rfl
  · cases form <;> simp [next, operatorNew, newImpl, tlsfMalloc, hret]

omit [DecidableEq τ] in
theorem next_delete (t : τ) (form : DeleteForm) (ptr : Ptr) :
    s.next (.delete t form ptr) = { s.tlsfFree t ptr with live := s.live.erase ptr } := by
  cases form <;> rfl

/-- One pool at most is set up, only on the main thread is it the calling thread's, and the pool of a block is that
of a `malloc_ex`. -/
structure Inv (main : τ) (pool : Ptr) (signature : Ptr → UInt32) (s : Tlsf τ) : Prop where
  mp : ∀ t, s.mp t ∈ s.made ↔ t = main ∧ Usable pool signature
  made : ∀ p ∈ s.made, p = pool
  blocks : ∀ ptr ∈ s.live, ∃ size p, s.owner ptr = some p ∧ .mallocEx size p ∈ s.calls

theorem start_inv (mb : Option Int32) : Inv main pool signature (start main mb pool signature) := by
  refine ⟨start_mp, start_made, fun ptr hptr => ?_⟩
  rw [start_calls.2] at hptr
  cases hptr

omit [DecidableEq τ] in
theorem Inv.next (h : Inv main pool signature s) {a : Act τ} (he : s.Enabled a) :
    Inv main pool signature (s.next a) := by
  cases a with
  | new t form size ret =>
    rw [next_new]
    refine ⟨h.mp, h.made, fun ptr hptr => ?_⟩
    show ∃ size' p, (if ret = 0 then s.owner else Function.update s.owner ret (some (s.mp t))) ptr = some p ∧
      Call.mallocEx size' p ∈ s.calls ++ [.mallocEx size (s.mp t)]
    have hold : ptr ∈ s.live → ∃ size' p, s.owner ptr = some p ∧
        Call.mallocEx size' p ∈ s.calls ++ [.mallocEx size (s.mp t)] := by
      intro hmem
      obtain ⟨size', p, howner, hcall⟩ := h.blocks ptr hmem
      exact ⟨size', p, howner, List.mem_append_left _ hcall⟩
    change ptr ∈ (if ret = 0 then s.live else ret :: s.live) at hptr
    split
    next hret =>
      rw [if_pos hret] at hptr
      exact hold hptr
    next hret =>
      rw [if_neg hret, List.mem_cons] at hptr
      rcases eq_or_ne ptr ret with rfl | hne
      · rw [Function.update_self]
        exact ⟨size, s.mp t, rfl, List.mem_concat_self⟩
      · rw [Function.update_of_ne hne]
        exact hold (hptr.resolve_left hne)
  | delete t form ptr =>
    rw [next_delete]
    refine ⟨h.mp, h.made, fun ptr' hptr' => ?_⟩
    obtain ⟨size, p, howner, hcall⟩ := h.blocks ptr' (List.mem_of_mem_erase hptr')
    exact ⟨size, p, howner, List.mem_append_left _ hcall⟩

omit [DecidableEq τ] in
theorem Inv.sound_next (h : Inv main pool signature s) {a : Act τ} (he : s.Enabled a) :
    (s.next a).Sound ↔ s.Sound ∧ a.thread = main ∧ Usable pool signature := by
  have happend : ∀ c, (∀ c' ∈ s.calls ++ [c], c'.Sound s.made) ↔ s.Sound ∧ c.Sound s.made := by
    intro c
    rw [List.forall_mem_append, List.forall_mem_singleton]
    exact Iff.rfl
  cases a with
  | new t form size ret =>
    rw [next_new]
    exact (happend (.mallocEx size (s.mp t))).trans (and_congr_right fun _ => h.mp t)
  | delete t form ptr =>
    rw [next_delete]
    refine (happend (.freeEx ptr (s.mp t) (s.owner ptr))).trans (and_congr_right fun hsound => ?_)
    refine Iff.trans (and_iff_left_of_imp fun hmade hptr => ?_) (h.mp t)
    -- the block came from a pool that has been set up, and there is only one
    obtain ⟨size, p, howner, hcall⟩ := h.blocks ptr (he.resolve_left hptr)
    have hp : p ∈ s.made := hsound _ hcall
    rw [howner, h.made p hp, h.made _ hmade]

/-- **The pool of every call.**  For every size in the environment, every result of the start-up's `malloc` and
every program of any number of threads: all calls get a pool that has been set up and every block goes back to its
own, exactly when all calls are made on the main thread and the memory was usable. -/
theorem calls_sound_iff (main : τ) (mb : Option Int32) (pool : Ptr) (signature : Ptr → UInt32) {acts : List (Act τ)}
    (he : (machine main).AllEnabled (start main mb pool signature) acts) :
    ((machine main).runList (start main mb pool signature) acts).Sound ↔
      ∀ a ∈ acts, a.thread = main ∧ Usable pool signature := by
  have hrun := @Machine.law_iff_allEnabled _ _ (machine main) (Inv main pool signature) Sound
    (fun _ a => a.thread = main ∧ Usable pool signature) (fun _ _ hen hi => hi.next hen)
    (fun _ _ hen hi => hi.sound_next hen) acts _ (start_inv mb) he
  rw [hrun, Machine.restrict_allEnabled_iff, and_iff_right he]
  refine and_iff_right fun c hc => ?_
  rw [start_calls.1] at hc
  cases hc

end

/-! ## A worker thread -/

def zeroed : Ptr → UInt32 := fun _ => 0

/-- Three calls on the main thread. -/
theorem calls_sound_iff_main : ((machine 0).runList (start 0 none 0x10000 zeroed)
      [.new 0 .single 64 0x12000, .new 0 .arrayNothrow 32 0x12050, .delete 0 .single 0x12000]).Sound ↔
    ∀ a ∈ ([.new 0 .single 64 0x12000, .new 0 .arrayNothrow 32 0x12050, .delete 0 .single 0x12000] :
      List (Act Nat)), a.thread = 0 ∧ Usable 0x10000 zeroed :=
  calls_sound_iff 0 none 0x10000 zeroed (by decide +kernel)

/-- The main thread allocates a block, and a worker thread frees it and allocates one itself: both calls get a null
pointer for their pool. -/
theorem worker_gets_no_pool :
    (machine 0).AllEnabled (start 0 none 0x10000 zeroed)
      [.new 0 .single 64 0x12000, .delete 1 .single 0x12000, .new 1 .single 64 0] ∧
    ((machine 0).runList (start 0 none 0x10000 zeroed)
      [.new 0 .single 64 0x12000, .delete 1 .single 0x12000, .new 1 .single 64 0]).calls =
        [.mallocEx 64 0x10000, .freeEx 0x12000 0 (some 0x10000), .mallocEx 64 0] ∧
    ¬((machine 0).runList (start 0 none 0x10000 zeroed)
      [.new 0 .single 64 0x12000, .delete 1 .single 0x12000, .new 1 .single 64 0]).Sound := by
  refine ⟨by decide +kernel, by decide +kernel, fun hsound => ?_⟩
  have hfree := hsound (.freeEx 0x12000 0 (some 0x10000)) (by decide +kernel)
  have hpool := Option.some.inj (hfree.2 (by decide))
  revert hpool
  decide

end Tlsf

end Sqkio.Common
