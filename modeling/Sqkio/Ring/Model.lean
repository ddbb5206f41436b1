import Sqkio.Lib.Machine
import Sqkio.Ring.Copy
import Mathlib.Logic.Function.Basic

/-!
# The ring and the atomic steps of `enqueue` and `dequeue`

A call is a program counter (`Pc`) with the call's registers; `Local.step` does the
next atomic access of a call: a load, a compare-exchange, a tail store or one slot
word.  Arithmetic between two accesses belongs to the access before it.  Any number
of threads run calls interleaved (`machine`); a run of one call alone is
`Ring.Seq`'s business.

History variables (`Hist`) count the positions reserved and released on each side
without wrapping and remember what every call was passed and who reserved a position;
no step reads them.
-/

namespace Sqkio.Common

open Sqkio.Lib

inductive RingSyncType
  | mt     -- SQK_RING_SYNC_MT
  | st     -- SQK_RING_SYNC_ST
  | mtRts  -- SQK_RING_SYNC_MT_RTS
  | mtHts  -- SQK_RING_SYNC_MT_HTS
  deriving DecidableEq, Repr

/-- The producer (`prod_`) or the consumer (`cons_`) half of a ring. -/
inductive Side
  | prod
  | cons
  deriving DecidableEq, Repr

def Side.other : Side → Side
  | .prod => .cons
  | .cons => .prod

/-- `RingHeadTail`.  All layouts of the union keep `head_` and `tail_` in the same two
32-bit halves; the HTS word `raw_` is the pair. -/
structure HeadTail where
  head : UInt32
  tail : UInt32
  deriving DecidableEq, Repr

/-- A ring with its slot area, in words of the width the copy routines of `T` use. -/
structure Ring (W : Type) where
  size : UInt32
  mask : UInt32
  capacity : UInt32
  prod : HeadTail
  cons : HeadTail
  slots : Nat → W

/-- The template arguments of `Ring`. -/
structure Config where
  T : ElemType
  prodSync : RingSyncType
  consSync : RingSyncType
  transactionalProd : Bool
  transactionalCons : Bool

def Config.sync (cfg : Config) : Side → RingSyncType
  | .prod => cfg.prodSync
  | .cons => cfg.consSync

def Config.transactional (cfg : Config) : Side → Bool
  | .prod => cfg.transactionalProd
  | .cons => cfg.transactionalCons

namespace Ring

variable {W τ : Type}

/-- `Ring::init` on a slot area with arbitrary contents. -/
def init (sz : UInt32) (slots : Nat → W) : Ring W where
  size := sz
  mask := sz - 1
  capacity := sz - 1
  prod := ⟨0, 0⟩
  cons := ⟨0, 0⟩
  slots := slots

def ht (r : Ring W) : Side → HeadTail
  | .prod => r.prod
  | .cons => r.cons

def setHt (r : Ring W) (d : Side) (x : HeadTail) : Ring W :=
  match d with
  | .prod => { r with prod := x }
  | .cons => { r with cons := x }

/-- A call of the `n`-element operation behind `enqueue` (`prod`) and `dequeue` (`cons`):
`obj` is the entry read by the one and written by the other. -/
structure Call (W : Type) where
  side : Side
  n : UInt32
  obj : Nat → W

inductive Pc
  | idle
  | loadHead                                    -- `old_head = load(head_)` before the loop
  | reloadHead                                  -- `old_head = this->cons_.head_` in the loop
  | loadTail (oldHead : UInt32)                 -- the other side's `tail_`, then `n`
  | moveHead (oldHead n : UInt32)               -- compare-exchange (MT) or store (ST) of `head_`
  | htsLoad                                     -- `op.raw_ = load(ht.raw_)` before the loop
  | htsWait                                     -- the load inside `hts_head_wait`
  | htsLoadTail (op : HeadTail)
  | htsMoveHead (op : HeadTail) (n : UInt32)    -- compare-exchange of `ht.raw_`
  | copy (oldHead n : UInt32) (todo : List Copy)
  | waitTail (oldHead n : UInt32)               -- `sqk_wait_until_equal_32`
  | storeTail (oldHead n : UInt32)
  | done (n : UInt32)                           -- returned `n`
  | abort                                       -- RTS: `assert(0)`
  deriving DecidableEq, Repr

/-- What a step means for the history variables. -/
inductive Event
  | tau
  | load                   -- an attempt's load of its head
  | reserve (n : UInt32)   -- the head moved on by `n`
  | publish (n : UInt32)   -- the tail moved on by `n`
  deriving DecidableEq, Repr

/-! ## Moving the head -/

/-- `if (n > free_entries) { n = transactional ? 0 : free_entries; }` -/
def clip (transactional : Bool) (n entries : UInt32) : UInt32 :=
  if n > entries then (if transactional then 0 else entries) else n

/-- `move_prod_head`, MT and ST. -/
def moveProdHead (cfg : Config) (r : Ring W) (max : UInt32) : Pc → Ring W × Pc × Event
  | .loadHead => (r, .loadTail r.prod.head, .load)
  | .loadTail oldHead =>
    let freeEntries := r.capacity + r.cons.tail - oldHead
    let n := clip cfg.transactionalProd max freeEntries
    (r, if n = 0 then .done 0 else .moveHead oldHead n, .tau)
  | .moveHead oldHead n =>
    let newHead := oldHead + n
    let moved := ({ r with prod := { r.prod with head := newHead } },
      Pc.copy oldHead n (enqueueElements cfg.T r.size r.mask oldHead n), Event.reserve n)
    if cfg.prodSync = .mt then
      -- a failed compare-exchange leaves the current head in `old_head`
      if r.prod.head = oldHead then moved else (r, .loadTail r.prod.head, .load)
    else moved
  | pc => (r, pc, .tau)

/-- `move_prod_head`, HTS. -/
def moveProdHeadHts (cfg : Config) (r : Ring W) (num : UInt32) : Pc → Ring W × Pc × Event
  | .htsLoad | .htsWait =>
    -- `hts_head_wait`
    (r, if r.prod.head ≠ r.prod.tail then .htsWait else .htsLoadTail r.prod, .load)
  | .htsLoadTail op =>
    let freeEntries := r.capacity + r.cons.tail - op.head
    let n := clip cfg.transactionalProd num freeEntries
    (r, if n = 0 then .done 0 else .htsMoveHead op n, .tau)
  | .htsMoveHead op n =>
    let np : HeadTail := ⟨op.head + n, op.tail⟩
    if r.prod = op then
      ({ r with prod := np }, .copy op.head n (enqueueElements cfg.T r.size r.mask op.head n), .reserve n)
    else (r, if r.prod.head ≠ r.prod.tail then .htsWait else .htsLoadTail r.prod, .load)
  | pc => (r, pc, .tau)

/-- `move_cons_head`, MT and ST. -/
def moveConsHead (cfg : Config) (r : Ring W) (max : UInt32) : Pc → Ring W × Pc × Event
  | .loadHead => (r, .reloadHead, .load)
  | .reloadHead => (r, .loadTail r.cons.head, .load)
  | .loadTail oldHead =>
    let entries := r.prod.tail - oldHead
    let n := clip cfg.transactionalCons max entries
    (r, if n = 0 then .done 0 else .moveHead oldHead n, .tau)
  | .moveHead oldHead n =>
    let newHead := oldHead + n
    let moved := ({ r with cons := { r.cons with head := newHead } },
      Pc.copy oldHead n (dequeueElements cfg.T r.size r.mask oldHead n), Event.reserve n)
    if cfg.consSync = .st then moved
    else if r.cons.head = oldHead then moved else (r, .reloadHead, .load)
  | pc => (r, pc, .tau)

/-- `move_cons_head`, HTS. -/
def moveConsHeadHts (cfg : Config) (r : Ring W) (num : UInt32) : Pc → Ring W × Pc × Event
  | .htsLoad | .htsWait =>
    (r, if r.cons.head ≠ r.cons.tail then .htsWait else .htsLoadTail r.cons, .load)
  | .htsLoadTail op =>
    let entries := r.prod.tail - op.head
    let n := clip cfg.transactionalCons num entries
    (r, if n = 0 then .done 0 else .htsMoveHead op n, .tau)
  | .htsMoveHead op n =>
    let np : HeadTail := ⟨op.head + n, op.tail⟩
    if r.cons = op then
      ({ r with cons := np }, .copy op.head n (dequeueElements cfg.T r.size r.mask op.head n), .reserve n)
    else (r, if r.cons.head ≠ r.cons.tail then .htsWait else .htsLoadTail r.cons, .load)
  | pc => (r, pc, .tau)

/-- The head-moving function that `enqueue` / `dequeue` calls for the side's sync type. -/
def moveHeadOf (cfg : Config) (r : Ring W) (d : Side) (n : UInt32) (pc : Pc) : Ring W × Pc × Event :=
  match d, cfg.sync d with
  | .prod, .mtHts => moveProdHeadHts cfg r n pc
  | .prod, _ => moveProdHead cfg r n pc
  | .cons, .mtHts => moveConsHeadHts cfg r n pc
  | .cons, _ => moveConsHead cfg r n pc

/-! ## Publishing -/

/-- First step of `update_tail` after the last copy: `single` calls and HTS calls do
not wait for their predecessors. -/
def updateTailStart (sync : RingSyncType) (oldHead n : UInt32) : Pc :=
  if sync = .mt then .waitTail oldHead n else .storeTail oldHead n

/-- `update_tail` of either side; the MT/ST and the HTS overload store the same value. -/
def updateTail (r : Ring W) (d : Side) : Pc → Ring W × Pc × Event
  | .waitTail oldHead n =>
    (r, if (r.ht d).tail = oldHead then .storeTail oldHead n else .waitTail oldHead n, .tau)
  | .storeTail oldHead n =>
    (r.setHt d { r.ht d with tail := oldHead + n }, .done n, .publish n)
  | pc => (r, pc, .tau)

/-! ## One call -/

/-- A thread's registers. -/
structure Local (W : Type) where
  call : Call W
  pc : Pc

/-- `enqueue` / `dequeue` up to the first access. -/
def Local.start (cfg : Config) (c : Call W) : Local W where
  call := c
  pc := match cfg.sync c.side with
    | .mt | .st => .loadHead
    | .mtHts => .htsLoad
    | .mtRts => .abort

/-- One word copy of `enqueue_elements` (`ring[…] = obj[…]`) or `dequeue_elements`. -/
def Local.copyWord (r : Ring W) (c : Call W) (cp : Copy) : Ring W × Call W :=
  match c.side with
  | .prod => ({ r with slots := Function.update r.slots cp.ring (c.obj cp.obj) }, c)
  | .cons => (r, { c with obj := Function.update c.obj cp.obj (r.slots cp.ring) })

/-- The next atomic access of a call. -/
def Local.step (cfg : Config) (r : Ring W) (l : Local W) : Ring W × Local W × Event :=
  match l.pc with
  | .copy oldHead n [] =>
    (r, { l with pc := updateTailStart (cfg.sync l.call.side) oldHead n }, .tau)
  | .copy oldHead n (cp :: todo) =>
    let m := Local.copyWord r l.call cp
    (m.1, { call := m.2, pc := .copy oldHead n todo }, .tau)
  | .waitTail _ _ | .storeTail _ _ =>
    let m := updateTail r l.call.side l.pc
    (m.1, { l with pc := m.2.1 }, m.2.2)
  | pc =>
    let m := moveHeadOf cfg r l.call.side l.call.n pc
    (m.1, { l with pc := m.2.1 }, m.2.2)

/-- The call has returned (or none was made yet). -/
def Pc.isIdle : Pc → Bool
  | .idle | .done _ => true
  | _ => false

/-! ## Threads -/

/-- Who reserved a position: the `index`-th element of the `call`-th call of `thread`. -/
structure Owner (τ : Type) where
  thread : τ
  call : Nat
  index : Nat
  deriving DecidableEq, Repr

/-- History variables. -/
structure Hist (τ W : Type) where
  resv : Side → Nat                -- positions reserved so far
  rel : Side → Nat                 -- positions released so far
  loaded : τ → Nat                 -- `resv` at the thread's last load of its head
  start : τ → Nat                  -- first position of the thread's last reservation
  calls : τ → Nat                  -- calls the thread has made
  passed : τ → Nat → Nat → W       -- words of the entry passed to a call of a thread
  owner : Side → Nat → Owner τ     -- who reserved a position

/-- Word `w` of the element passed to the `enqueue` that reserved position `p`. -/
def Hist.elem (h : Hist τ W) (words p w : Nat) : W :=
  let o := h.owner .prod p
  h.passed o.thread o.call (o.index * words + w)

structure State (τ W : Type) where
  ring : Ring W
  loc : τ → Local W
  hist : Hist τ W

variable [DecidableEq τ]

def Hist.record (h : Hist τ W) (t : τ) (d : Side) : Event → Hist τ W
  | .tau => h
  | .load => { h with loaded := Function.update h.loaded t (h.resv d) }
  | .reserve n =>
    let a := h.resv d
    { h with
      resv := Function.update h.resv d (a + n.toNat)
      start := Function.update h.start t a
      owner := Function.update h.owner d fun p =>
        if a ≤ p ∧ p < a + n.toNat then ⟨t, h.calls t, p - a⟩ else h.owner d p }
  | .publish n => { h with rel := Function.update h.rel d (h.rel d + n.toNat) }

/-- A call of `t` that is passed `obj`. -/
def Hist.recordCall (h : Hist τ W) (t : τ) (obj : Nat → W) : Hist τ W :=
  { h with
    calls := Function.update h.calls t (h.calls t + 1)
    passed := Function.update h.passed t (Function.update (h.passed t) (h.calls t + 1) obj) }

/-- What a run is about: the ring's type and size, the one thread of an ST side, and the
bursts its calls may ask for. -/
structure Params (τ : Type) where
  cfg : Config
  sz : UInt32
  stThread : Side → τ
  bursts : UInt32 → Prop

/-- Fewer than `2 ^ 32 - size` positions were reserved on the side of `t`'s call since `t`
last loaded that side's head. -/
def Fresh (P : Params τ) (s : State τ W) (t : τ) : Prop :=
  s.hist.resv (s.loc t).call.side - s.hist.loaded t + P.sz.toNat < 2 ^ 32

/-- The next access is the compare-exchange (or store) that moves the head. -/
def Pc.atMove : Pc → Prop
  | .moveHead _ _ | .htsMoveHead _ _ => True
  | _ => False

instance : DecidablePred Pc.atMove
  | .moveHead _ _ | .htsMoveHead _ _ => isTrue trivial
  | .idle | .loadHead | .reloadHead | .loadTail _ | .htsLoad | .htsWait | .htsLoadTail _
  | .copy _ _ _ | .waitTail _ _ | .storeTail _ _ | .done _ | .abort => isFalse id

instance (P : Params τ) (s : State τ W) (t : τ) : Decidable (Fresh P s t) :=
  inferInstanceAs (Decidable (_ < _))

inductive Act (τ W : Type)
  | call (t : τ) (c : Call W)
  | exec (t : τ)

def Act.thread : Act τ W → τ
  | .call t _ | .exec t => t

def Enabled (P : Params τ) (s : State τ W) : Act τ W → Prop
  | .call t c => (s.loc t).pc.isIdle = true ∧ P.bursts c.n ∧
      (P.cfg.sync c.side = .st → t = P.stThread c.side)
  | .exec t => (s.loc t).pc.isIdle = false ∧ ((s.loc t).pc.atMove → Fresh P s t)

instance (P : Params τ) [DecidablePred P.bursts] (s : State τ W) :
    (a : Act τ W) → Decidable (Enabled P s a)
  | .call t c => inferInstanceAs (Decidable ((s.loc t).pc.isIdle = true ∧ P.bursts c.n ∧
      (P.cfg.sync c.side = .st → t = P.stThread c.side)))
  | .exec t => inferInstanceAs (Decidable ((s.loc t).pc.isIdle = false ∧
      ((s.loc t).pc.atMove → Fresh P s t)))

def next (P : Params τ) (s : State τ W) : Act τ W → State τ W
  | .call t c =>
    { s with
      loc := Function.update s.loc t (Local.start P.cfg c)
      hist := s.hist.recordCall t c.obj }
  | .exec t =>
    let m := (s.loc t).step P.cfg s.ring
    { ring := m.1
      loc := Function.update s.loc t m.2.1
      hist := s.hist.record t (s.loc t).call.side m.2.2 }

/-- A fresh ring of size `sz`, every thread outside a call. -/
structure Init (P : Params τ) (s : State τ W) : Prop where
  ring : ∃ slots, s.ring = Ring.init P.sz slots
  idle : ∀ t, (s.loc t).pc = .idle
  resv : ∀ d, s.hist.resv d = 0
  rel : ∀ d, s.hist.rel d = 0

def machine (W : Type) (P : Params τ) : Machine (State τ W) (Act τ W) where
  init := Init P
  enabled := Enabled P
  next := next P

instance (P : Params τ) [DecidablePred P.bursts] (s : State τ W) (a : Act τ W) :
    Decidable ((machine W P).enabled s a) := inferInstanceAs (Decidable (Enabled P s a))

/-- The state before any call, with `x` in every slot word. -/
def State.fresh [Inhabited τ] (P : Params τ) (x : W) : State τ W where
  ring := Ring.init P.sz fun _ => x
  loc := fun _ => ⟨⟨.prod, 1, fun _ => x⟩, .idle⟩
  hist := {
    resv := fun _ => 0
    rel := fun _ => 0
    loaded := fun _ => 0
    start := fun _ => 0
    calls := fun _ => 0
    passed := fun _ _ _ => x
    owner := fun _ _ => ⟨default, 0, 0⟩ }

omit [DecidableEq τ] in
theorem State.fresh_init [Inhabited τ] (P : Params τ) (x : W) : Init P (State.fresh P x) :=
  ⟨⟨_, rfl⟩, fun _ => rfl, fun _ => rfl, fun _ => rfl⟩

end Ring

end Sqkio.Common
