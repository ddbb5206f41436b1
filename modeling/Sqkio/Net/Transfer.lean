import Sqkio.Core.Awaker

/-!
# Operations of an `Endpoint` and `CompletionQueue::poll`

`send`, `recv`, `write` and `read` each post a request with the address of an awaker in their
own frame as its context, and suspend there.  The provider completes the requests in any order;
`poll` takes the oldest completion, guesses from its flags which class of awaker the context
points to, and wakes it.

No branch of `poll` is for `FI_READ`, and `wake` goes through a queue that drops what it has no
room for.  `served_iff` says that these two are all that goes wrong.
-/

namespace Sqkio.Net.Fab

open Sqkio.Lib

/-- `fi_addr_t` -/
abbrev Address := UInt64

inductive Op where
  | send
  | recv
  | write
  | read
  deriving DecidableEq

/-- What the scheduler resumes: the coroutine of an operation, or another one. -/
inductive Handle where
  | op (n : Nat)
  | other (k : Nat)
  deriving DecidableEq

/-- An awaker that a context points to, by its class. -/
inductive Waker (H : Type) where
  | void (a : Awaker Unit H)
  | address (a : Awaker Address H)
  deriving DecidableEq

namespace Waker

variable {H σ : Type}

def handle : Waker H → Option H
  | void a => a.handle
  | address a => a.handle

def awaitSuspend (w : Waker H) (h : H) : Waker H :=
  match w with
  | void a => void (a.awaitSuspend h)
  | address a => address (a.awaitSuspend h)

/-- `await_resume`, with the address if there is one. -/
def awaitResume : Waker H → Waker H × Option Address
  | void a => (void a.awaitResume.1, none)
  | address a => (address a.awaitResume.1, some a.awaitResume.2)

/-- `static_cast<Awaker<Address>*>(op_context)->wake(addr)`.  `Awaker_Base` comes first in either
class, so `handle_` is found in both. -/
def wakeAddress (enqueue : H → σ → σ) (w : Waker H) (addr : Address) (s : σ) : Waker H × σ :=
  match w with
  | void a => (void a, (a.wake enqueue () s).2)
  | address a => (address (a.wake enqueue addr s).1, (a.wake enqueue addr s).2)

/-- `static_cast<Awaker<void>*>(op_context)->wake()` -/
def wakeVoid (enqueue : H → σ → σ) (w : Waker H) (s : σ) : Waker H × σ :=
  match w with
  | void a => (void (a.wake enqueue () s).1, (a.wake enqueue () s).2)
  | address a => (address a, (a.wake enqueue a.ret s).2)

variable (w : Waker H) (enqueue : H → σ → σ) (addr : Address) (h : H) (s : σ)

@[simp] theorem handle_awaitSuspend : (w.awaitSuspend h).handle = some h := by
  cases w <;> rfl

@[simp] theorem awaitResume_awaitSuspend : (w.awaitSuspend h).awaitResume.2 = w.awaitResume.2 := by
  cases w <;> rfl

@[simp] theorem handle_wakeAddress : (w.wakeAddress enqueue addr s).1.handle = w.handle := by
  cases w <;> rfl

/-- The value that `wake` stores is there for `await_resume` if the object has room for it. -/
theorem awaitResume_wakeAddress :
    (w.wakeAddress enqueue addr s).1.awaitResume.2 = w.awaitResume.2.map fun _ => addr := by
  cases w <;> rfl

@[simp] theorem wakeVoid_fst : (w.wakeVoid enqueue s).1 = w := by
  cases w <;> rfl

theorem wakeAddress_snd : (w.wakeAddress enqueue addr s).2 = w.handle.elim s (enqueue · s) := by
  cases w <;> rfl

theorem wakeVoid_snd : (w.wakeVoid enqueue s).2 = w.handle.elim s (enqueue · s) := by
  cases w <;> rfl

end Waker

/-- `fi_cq_msg_entry` followed by `addr_`. -/
structure CompletionQueueMsgEntry where
  opContext : Nat
  flags : UInt64
  addr : Address
  deriving DecidableEq

/-- `fi_cq_err_entry`: `buf` stands where `CompletionQueueMsgEntry` has `addr_`. -/
structure CompletionQueueErrEntry where
  opContext : Nat
  flags : UInt64
  buf : UInt64
  deriving DecidableEq

/-- An entry of the provider's queue, read by `fi_cq_readfrom` or by `fi_cq_readerr`. -/
inductive Completion where
  | success (ent : CompletionQueueMsgEntry)
  | error (ent : CompletionQueueErrEntry)
  deriving DecidableEq

/-- The entry that `poll` goes on with; `memcpy(&ent, &err_ent, sizeof(ent))` for an error. -/
def Completion.ent : Completion → CompletionQueueMsgEntry
  | success ent => ent
  | error ent => ⟨ent.opContext, ent.flags, ent.buf⟩

/-- The frame of an operation's coroutine; `results` is a ghost: what `co_await waker` returned,
each time the coroutine was resumed there. -/
structure Frame where
  op : Op
  waker : Waker Handle
  results : List (Option Address)
  deriving DecidableEq

/-- The scheduler with `run`'s variable `handle`, the provider's completion queue and the frames
of the operations posted so far; their numbers are the contexts. -/
structure Transfer where
  sched : SQKScheduler Handle
  handle : Handle
  cq : List Completion
  frames : Nat → Frame
  posted : Nat
  -- ghosts: how each operation was completed, the operations whose completion `poll` has taken
  completion : Nat → Option Completion
  polled : List Nat

namespace Transfer

inductive Act where
  /-- A coroutine calls an operation and suspends in it; `ret_` of its awaker is not initialised. -/
  | call (op : Op) (ret : Address)
  /-- The provider completes an operation. -/
  | deliver (c : Completion)
  | poll
  /-- Another coroutine is passed to the scheduler. -/
  | enqueue (k : Nat)
  /-- One pass of the loop in `run`. -/
  | pass

def setFrame (n : Nat) (f : Frame) (s : Transfer) : Transfer :=
  { s with frames := Function.update s.frames n f }

/-- The awaker declared by an operation: `write` has an `Awaker<Address>` too. -/
def waker (op : Op) (ret : Address) : Waker Handle :=
  match op with
  | .send | .read => .void ⟨none, ()⟩
  | .recv | .write => .address ⟨none, ret⟩

def call (op : Op) (ret : Address) (s : Transfer) : Transfer :=
  { s.setFrame s.posted ⟨op, (waker op ret).awaitSuspend (.op s.posted), []⟩ with posted := s.posted + 1 }

def deliver (c : Completion) (s : Transfer) : Transfer :=
  { s with cq := s.cq ++ [c], completion := Function.update s.completion c.ent.opContext (some c) }

/-- `wake` of the awaker of operation `n`. -/
def wake (n : Nat) (r : Waker Handle × SQKScheduler Handle) (s : Transfer) : Transfer :=
  { s.setFrame n { s.frames n with waker := r.1 } with sched := r.2 }

/-- The branches of `poll` on the flags of an entry; `bits` are `FI_SEND`, `FI_RECV`, `FI_WRITE`
and `FI_READ`. -/
def dispatch (bits : Op → UInt64) (ent : CompletionQueueMsgEntry) (s : Transfer) : Transfer :=
  let n := ent.opContext
  if ent.flags &&& bits .recv ≠ 0 then
    s.wake n ((s.frames n).waker.wakeAddress SQKScheduler.push ent.addr s.sched)
  else if ent.flags &&& (bits .send ||| bits .write) ≠ 0 then
    s.wake n ((s.frames n).waker.wakeVoid SQKScheduler.push s.sched)
  else s

/-- `CompletionQueue::poll`, with what it returns. -/
def poll (bits : Op → UInt64) (s : Transfer) : Transfer × Int :=
  match s.cq with
  | [] => (s, 0)
  | c :: cq => (dispatch bits c.ent { s with cq, polled := s.polled ++ [c.ent.opContext] }, 1)

/-- `handle.resume()`; the operation returns after its `co_await`, and only `recv` uses the value. -/
def resume (handle : Handle) (s : Transfer) : Transfer :=
  match handle with
  | .op n =>
    let f := s.frames n
    let r := f.waker.awaitResume
    let result := if f.op = .recv then r.2 else none
    s.setFrame n { f with waker := r.1, results := f.results ++ [result] }
  | .other _ => s

/-- One pass of the loop in `run`. -/
def pass (s : Transfer) : Transfer :=
  let r := s.sched.dequeue s.handle
  let s := { s with sched := r.1, handle := r.2.2 }
  if r.2.1 = 0 then s else s.resume s.handle

def next (bits : Op → UInt64) (s : Transfer) : Act → Transfer
  | .call op ret => s.call op ret
  | .deliver c => s.deliver c
  | .poll => (s.poll bits).1
  | .enqueue k => { s with sched := s.sched.push (.other k) }
  | .pass => s.pass

/-- Flags of a completion of `op`: its own bit, and none of the other three. -/
def Marks (bits : Op → UInt64) (op : Op) (flags : UInt64) : Prop :=
  flags &&& bits op ≠ 0 ∧ ∀ op', op' ≠ op → flags &&& bits op' = 0

/-- The provider completes an operation that was posted once, with its context and its flag. -/
def Enabled (bits : Op → UInt64) (s : Transfer) : Act → Prop
  | .deliver c => c.ent.opContext < s.posted ∧ s.completion c.ent.opContext = none ∧
      Marks bits (s.frames c.ent.opContext).op c.ent.flags
  | _ => True

instance (bits : Op → UInt64) (op : Op) (flags : UInt64) : Decidable (Marks bits op flags) :=
  decidable_of_iff (flags &&& bits op ≠ 0 ∧ ∀ op' ∈ [Op.send, .recv, .write, .read],
    op' ≠ op → flags &&& bits op' = 0)
    (and_congr_right fun _ => ⟨fun h op' => h op' (by cases op' <;> decide), fun h op' _ => h op'⟩)

instance (bits : Op → UInt64) : (s : Transfer) → (a : Act) → Decidable (s.Enabled bits a)
  | s, .deliver c => inferInstanceAs (Decidable (_ ∧ s.completion c.ent.opContext = none ∧ _))
  | _, .call _ _ | _, .poll | _, .enqueue _ | _, .pass => isTrue trivial

structure Init (s : Transfer) : Prop where
  sched : s.sched.Fresh
  cq : s.cq = []
  posted : s.posted = 0
  frames : ∀ n, (s.frames n).results = []
  completion : ∀ n, s.completion n = none
  polled : s.polled = []

def machine (bits : Op → UInt64) : Machine Transfer Act where
  init := Init
  enabled := Enabled bits
  next := next bits

instance (bits : Op → UInt64) (s : Transfer) (a : Act) : Decidable ((machine bits).enabled s a) :=
  inferInstanceAs (Decidable (s.Enabled bits a))

/-- The provider reports success. -/
def Succeeds (_ : Transfer) : Act → Prop
  | .deliver c => ∃ ent, c = .success ent
  | _ => True

instance : (s : Transfer) → (a : Act) → Decidable (s.Succeeds a)
  | _, .deliver (.success ent) => isTrue ⟨ent, rfl⟩
  | _, .deliver (.error _) => isFalse fun h => by cases h.choose_spec
  | _, .call _ _ | _, .poll | _, .enqueue _ | _, .pass => isTrue trivial

/-- An operation whose completion was polled has been resumed once or is waiting for it, the others
have not, and `recv` returns the address of its own completion. -/
structure Served (s : Transfer) : Prop where
  once : ∀ n ∈ s.polled, (s.frames n).results.length + s.sched.waiting.count (.op n) = 1
  only : ∀ n, n ∉ s.polled → (s.frames n).results = [] ∧ Handle.op n ∉ s.sched.waiting
  address : ∀ n, (s.frames n).op = .recv → ∀ r ∈ (s.frames n).results,
    ∃ ent, s.completion n = some (.success ent) ∧ r = some ent.addr

/-- The completion that `poll` takes is not that of a `read`, and the queue has room. -/
def Handed (s : Transfer) : Act → Prop
  | .poll => ∀ c ∈ s.cq.head?,
      (s.frames c.ent.opContext).op ≠ .read ∧ s.sched.waiting.length < 1023
  | _ => True

/-! ## What `poll` does with a completion -/

section

variable {bits : Op → UInt64} {s : Transfer}

theorem Marks.recv {op : Op} {flags : UInt64} (h : Marks bits op flags) :
    flags &&& bits .recv ≠ 0 ↔ op = .recv := by
  constructor
  · intro hne
    by_contra hop
    exact hne (h.2 .recv (Ne.symm hop))
  · rintro rfl
    exact h.1

theorem Marks.sendWrite {op : Op} {flags : UInt64} (h : Marks bits op flags) :
    flags &&& (bits .send ||| bits .write) ≠ 0 ↔ op = .send ∨ op = .write := by
  have hor : flags &&& (bits .send ||| bits .write) = flags &&& bits .send ||| flags &&& bits .write := by
    apply UInt64.toBitVec_inj.mp
    exact BitVec.and_or_distrib_left
  rw [hor, ne_eq, UInt64.or_eq_zero_iff]
  constructor
  · intro hne
    by_contra hop
    rw [not_or] at hop
    exact hne ⟨h.2 .send (Ne.symm hop.1), h.2 .write (Ne.symm hop.2)⟩
  · rintro (rfl | rfl) ⟨hsend, hwrite⟩
    · exact h.1 hsend
    · exact h.1 hwrite

variable {ent : CompletionQueueMsgEntry}

theorem dispatch_recv (h : Marks bits .recv ent.flags) : s.dispatch bits ent =
    s.wake ent.opContext
      ((s.frames ent.opContext).waker.wakeAddress SQKScheduler.push ent.addr s.sched) :=
  if_pos (h.recv.mpr rfl)

theorem dispatch_void {op : Op} (h : Marks bits op ent.flags) (hop : op = .send ∨ op = .write) :
    s.dispatch bits ent =
      s.wake ent.opContext ((s.frames ent.opContext).waker.wakeVoid SQKScheduler.push s.sched) := by
  have hnot : ¬ op = .recv := by
    rintro rfl
    simp at hop
  unfold dispatch
  dsimp only
  rw [if_neg (h.recv.not.mpr hnot), if_pos (h.sendWrite.mpr hop)]

/-- The completion of a `read` is taken for an unexpected event. -/
theorem dispatch_read (h : Marks bits .read ent.flags) : s.dispatch bits ent = s := by
  unfold dispatch
  dsimp only
  rw [if_neg (h.recv.not.mpr (by decide)), if_neg (h.sendWrite.not.mpr (by decide))]

/-- The effect of `dispatch` on the awaker and the scheduler, for every operation. -/
theorem dispatch_eq {op : Op} (h : Marks bits op ent.flags) : ∃ w : Waker Handle,
    s.dispatch bits ent =
      { s.setFrame ent.opContext { s.frames ent.opContext with waker := w } with
        sched := if op = .read then s.sched
          else (s.frames ent.opContext).waker.handle.elim s.sched (SQKScheduler.push · s.sched) } ∧
      w.handle = (s.frames ent.opContext).waker.handle ∧
      w.awaitResume.2 = if op = .recv
        then (s.frames ent.opContext).waker.awaitResume.2.map fun _ => ent.addr
        else (s.frames ent.opContext).waker.awaitResume.2 := by
  cases op with
  | recv =>
    refine ⟨((s.frames ent.opContext).waker.wakeAddress SQKScheduler.push ent.addr s.sched).1, ?_,
      Waker.handle_wakeAddress .., Waker.awaitResume_wakeAddress ..⟩
    rw [dispatch_recv h, wake, Waker.wakeAddress_snd]
    rfl
  | send =>
    refine ⟨(s.frames ent.opContext).waker, ?_, rfl, rfl⟩
    rw [dispatch_void h (.inl rfl), wake, Waker.wakeVoid_snd, Waker.wakeVoid_fst]
    rfl
  | write =>
    refine ⟨(s.frames ent.opContext).waker, ?_, rfl, rfl⟩
    rw [dispatch_void h (.inr rfl), wake, Waker.wakeVoid_snd, Waker.wakeVoid_fst]
    rfl
  | read =>
    refine ⟨(s.frames ent.opContext).waker, ?_, rfl, rfl⟩
    rw [dispatch_read h, if_pos rfl, setFrame, Function.update_eq_self]

end

/-! ## The invariant -/

structure Inv (bits : Op → UInt64) (s : Transfer) : Prop where
  ready : s.sched.Ready s.sched.waiting
  entries : ∀ c ∈ s.cq, s.completion c.ent.opContext = some c ∧ c.ent.opContext ∉ s.polled
  distinct : (s.cq.map (·.ent.opContext)).Nodup
  completed : ∀ n c, s.completion n = some c →
    c.ent.opContext = n ∧ n < s.posted ∧ Marks bits (s.frames n).op c.ent.flags
  polled : ∀ n ∈ s.polled, s.completion n ≠ none
  suspended : ∀ n, n < s.posted → (s.frames n).results = [] →
    (s.frames n).waker.handle = some (.op n)
  value : ∀ n, n < s.posted → (s.frames n).op = .recv → (s.frames n).waker.awaitResume.2 ≠ none ∧
    ∀ c, n ∈ s.polled → s.completion n = some c →
      (s.frames n).waker.awaitResume.2 = some c.ent.addr
  only : ∀ n, n ∉ s.polled → (s.frames n).results = [] ∧ Handle.op n ∉ s.sched.waiting
  address : ∀ n, (s.frames n).op = .recv → ∀ r ∈ (s.frames n).results,
    ∃ c, s.completion n = some c ∧ r = some c.ent.addr

theorem Init.inv {bits : Op → UInt64} {s : Transfer} (h : s.Init) : s.Inv bits := by
  have hready := h.sched.ready
  constructor
  case ready => exact hready.waiting
  case entries => simp [h.cq]
  case distinct => simp [h.cq]
  case completed => simp [h.completion]
  case polled => simp [h.polled]
  case suspended => simp [h.posted]
  case value => simp [h.posted]
  case only => exact fun n _ => ⟨h.frames n, by simp [hready.waiting_eq]⟩
  case address => simp [h.frames]

namespace Inv

variable {bits : Op → UInt64} {s : Transfer}

theorem fresh (h : s.Inv bits) {n : Nat} (hn : s.posted ≤ n) : n ∉ s.polled ∧ s.completion n = none := by
  have hnone : s.completion n = none := by
    by_contra hne
    obtain ⟨c, hc⟩ := Option.ne_none_iff_exists'.mp hne
    have hlt := (h.completed n c hc).2.1
    omega
  exact ⟨fun hp => h.polled n hp hnone, hnone⟩

/-- What `poll` does when it takes a completion: the handle of the operation goes to the scheduler,
unless the operation is a `read`. -/
theorem poll_eq (h : s.Inv bits) {c : Completion} {cq : List Completion} (hcq : s.cq = c :: cq) :
    ∃ w : Waker Handle, (s.poll bits).1 =
      { s with
        cq
        polled := s.polled ++ [c.ent.opContext]
        frames := Function.update s.frames c.ent.opContext { s.frames c.ent.opContext with waker := w }
        sched := if (s.frames c.ent.opContext).op = .read then s.sched
          else (s.sched.enqueue (.op c.ent.opContext)).1 } ∧
      w.handle = some (.op c.ent.opContext) ∧
      ((s.frames c.ent.opContext).op = .recv → w.awaitResume.2 = some c.ent.addr) := by
  obtain ⟨hcomp, hpolled⟩ := h.entries c (by simp [hcq])
  obtain ⟨-, hlt, hmarks⟩ := h.completed _ c hcomp
  have hhandle := h.suspended _ hlt (h.only _ hpolled).1
  obtain ⟨w, hstep, hw, hret⟩ := dispatch_eq (s := { s with cq, polled := s.polled ++ [c.ent.opContext] }) hmarks
  refine ⟨w, ?_, hw.trans hhandle, fun hop => ?_⟩
  · rw [poll, hcq]
    refine hstep.trans ?_
    simp only [hhandle, Option.elim_some]
    rfl
  · obtain ⟨a, ha⟩ := Option.ne_none_iff_exists'.mp (h.value _ hlt hop).1
    rw [hret, if_pos hop, ha]
    rfl

theorem call (h : s.Inv bits) (op : Op) (ret : Address) : (s.call op ret).Inv bits := by
  have hfresh := h.fresh (Nat.le_refl s.posted)
  have hhandle : ((waker op ret).awaitSuspend (.op s.posted)).handle = some (.op s.posted) :=
    Waker.handle_awaitSuspend ..
  have hret : op = .recv → ((waker op ret).awaitSuspend (.op s.posted)).awaitResume.2 ≠ none := by
    rintro rfl
    rw [Waker.awaitResume_awaitSuspend]
    exact Option.some_ne_none ret
  obtain ⟨hready, hentries, hdistinct, hcompleted, hpolled, hsuspended, hvalue, honly, haddress⟩ := h
  constructor <;> simp only [Transfer.call, setFrame, Function.update_apply]
  case ready => exact hready
  case entries => exact hentries
  case distinct => exact hdistinct
  case completed =>
    intro n c hc
    obtain ⟨hctx, hlt, hmarks⟩ := hcompleted n c hc
    rw [if_neg (Nat.ne_of_lt hlt)]
    exact ⟨hctx, Nat.lt_succ_of_lt hlt, hmarks⟩
  case polled => exact hpolled
  case suspended =>
    intro n hn
    split
    next heq =>
      subst heq
      exact fun _ => hhandle
    next hne => exact hsuspended n (by omega)
  case value =>
    intro n hn
    split
    next heq =>
      subst heq
      exact fun hop => ⟨hret hop, fun c hp => absurd hp hfresh.1⟩
    next hne => exact hvalue n (by omega)
  case only =>
    intro n hn
    obtain ⟨hnil, hout⟩ := honly n hn
    split
    · exact ⟨rfl, hout⟩
    · exact ⟨hnil, hout⟩
  case address =>
    intro n
    split
    · intro _ r hr
      cases hr
    · exact haddress n

theorem deliver (h : s.Inv bits) {c : Completion} (he : Enabled bits s (.deliver c)) :
    (s.deliver c).Inv bits := by
  obtain ⟨hlt, hnone, hmarks⟩ := he
  -- an operation that was completed before is another one
  have hother : ∀ {n c'}, s.completion n = some c' → n ≠ c.ent.opContext := by
    rintro n c' hc' rfl
    rw [hnone] at hc'
    cases hc'
  obtain ⟨hready, hentries, hdistinct, hcompleted, hpolled, hsuspended, hvalue, honly, haddress⟩ := h
  have hnotPolled : c.ent.opContext ∉ s.polled := fun hp => hpolled _ hp hnone
  constructor <;> simp only [Transfer.deliver, Function.update_apply]
  case ready => exact hready
  case entries =>
    refine List.forall_mem_append.mpr ⟨fun c' hc' => ?_, List.forall_mem_singleton.mpr ⟨if_pos rfl, hnotPolled⟩⟩
    obtain ⟨hcomp, hnp⟩ := hentries c' hc'
    exact ⟨(if_neg (hother hcomp)).trans hcomp, hnp⟩
  case distinct =>
    rw [List.map_append]
    refine List.nodup_append.mpr ⟨hdistinct, List.nodup_singleton _, fun n hn m hm => ?_⟩
    obtain ⟨c', hc', rfl⟩ := List.mem_map.mp hn
    rw [List.mem_singleton.mp hm]
    exact hother (hentries c' hc').1
  case completed =>
    intro n c' hc'
    split at hc'
    next heq =>
      cases hc'
      rw [heq]
      exact ⟨rfl, hlt, hmarks⟩
    · exact hcompleted n c' hc'
  case polled =>
    intro n hn
    rw [if_neg (ne_of_mem_of_not_mem hn hnotPolled)]
    exact hpolled n hn
  case suspended => exact hsuspended
  case value =>
    intro n hn hop
    refine ⟨(hvalue n hn hop).1, fun c' hp hc' => ?_⟩
    rw [if_neg (ne_of_mem_of_not_mem hp hnotPolled)] at hc'
    exact (hvalue n hn hop).2 c' hp hc'
  case only => exact honly
  case address =>
    intro n hop r hr
    obtain ⟨c', hc', hval⟩ := haddress n hop r hr
    exact ⟨c', (if_neg (hother hc')).trans hc', hval⟩

theorem poll (h : s.Inv bits) : (s.poll bits).1.Inv bits := by
  cases hcq : s.cq with
  | nil =>
    rw [show (s.poll bits).1 = s by rw [Transfer.poll, hcq]]
    exact h
  | cons c cq =>
    obtain ⟨w, hstep, hw, hret⟩ := h.poll_eq hcq
    rw [hstep]
    have henqueue := h.ready.enqueue (.op c.ent.opContext)
    have hwaiting := h.ready.enqueue_waiting (.op c.ent.opContext)
    obtain ⟨hready, hentries, hdistinct, hcompleted, hpolled, hsuspended, hvalue, honly, haddress⟩ := h
    rw [hcq] at hentries hdistinct
    constructor <;> simp only [Function.update_apply]
    case ready =>
      split
      · exact hready
      · exact henqueue
    case entries =>
      intro c' hc'
      obtain ⟨hcomp, hnp⟩ := hentries c' (List.mem_cons_of_mem _ hc')
      refine ⟨hcomp, fun hp => ?_⟩
      rcases List.mem_append.mp hp with hp | hp
      · exact hnp hp
      · have heq := List.mem_singleton.mp hp
        exact (List.nodup_cons.mp hdistinct).1 (List.mem_map.mpr ⟨c', hc', heq⟩)
    case distinct => exact (List.nodup_cons.mp hdistinct).2
    case completed =>
      intro n c' hc'
      obtain ⟨hctx, hlt, hmarks⟩ := hcompleted n c' hc'
      refine ⟨hctx, hlt, ?_⟩
      split
      next heq => exact heq ▸ hmarks
      · exact hmarks
    case polled =>
      refine List.forall_mem_append.mpr ⟨hpolled, List.forall_mem_singleton.mpr ?_⟩
      rw [(hentries c List.mem_cons_self).1]
      exact Option.some_ne_none c
    case suspended =>
      intro n hlt
      split
      next heq => exact fun _ => heq ▸ hw
      · exact hsuspended n hlt
    case value =>
      intro n hn
      split
      next heq =>
        subst heq
        intro hop
        rw [hret hop]
        refine ⟨Option.some_ne_none _, fun c' _ hc' => ?_⟩
        rw [(hentries c List.mem_cons_self).1] at hc'
        cases hc'
        rfl
      next hne =>
        intro hop
        refine ⟨(hvalue n hn hop).1, fun c' hp => (hvalue n hn hop).2 c' ?_⟩
        exact (List.mem_append.mp hp).resolve_right fun hm => hne (List.mem_singleton.mp hm)
    case only =>
      intro n hn
      rw [List.mem_append, List.mem_singleton, not_or] at hn
      obtain ⟨hnil, hout⟩ := honly n hn.1
      rw [if_neg hn.2]
      refine ⟨hnil, ?_⟩
      split
      · exact hout
      · rw [hwaiting]
        split
        · intro hm
          rcases List.mem_append.mp hm with hm | hm
          · exact hout hm
          · exact hn.2 (Handle.op.inj (List.mem_singleton.mp hm))
        · exact hout
    case address =>
      intro n
      split
      next heq => exact heq ▸ haddress c.ent.opContext
      · exact haddress n

theorem enqueue (h : s.Inv bits) (k : Nat) : (s.next bits (.enqueue k)).Inv bits := by
  refine ⟨h.ready.push (.other k), h.entries, h.distinct, h.completed, h.polled, h.suspended, h.value, ?_,
    h.address⟩
  intro n hn
  refine ⟨(h.only n hn).1, fun hmem => (h.only n hn).2 ?_⟩
  rcases h.ready.mem_push hmem with hmem | heq
  · exact hmem
  · cases heq

/-- A pass of the loop, with no handle or with the oldest one taken to its resumption. -/
theorem pass_cases (h : s.Inv bits) : ∃ sched : SQKScheduler Handle, ∃ handle, sched.Ready sched.waiting ∧
    ((s.sched.waiting = [] ∧ sched.waiting = [] ∧ s.pass = { s with sched, handle }) ∨
      (s.sched.waiting = handle :: sched.waiting ∧ s.pass = resume handle { s with sched, handle })) := by
  obtain ⟨hready, hcases⟩ := h.ready.dequeue_cases s.handle
  refine ⟨(s.sched.dequeue s.handle).1, (s.sched.dequeue s.handle).2.2, hready, ?_⟩
  rcases hcases with ⟨hnil, hnil', hzero⟩ | ⟨handle, hcons, hone⟩
  · exact .inl ⟨hnil, hnil', if_pos hzero⟩
  · rw [hone]
    refine .inr ⟨hcons, ?_⟩
    simp only [Transfer.pass, hone]
    exact if_neg (show ¬ (1 : UInt32) = 0 by decide)

theorem pass (h : s.Inv bits) : s.pass.Inv bits := by
  obtain ⟨sched, handle, hready, ⟨-, hnil, hstep⟩ | ⟨hcons, hstep⟩⟩ := h.pass_cases
  · rw [hstep]
    refine ⟨hready, h.entries, h.distinct, h.completed, h.polled, h.suspended, h.value, fun n hn => ?_,
      h.address⟩
    exact ⟨(h.only n hn).1, by simp [hnil]⟩
  · rw [hstep]
    obtain ⟨-, hentries, hdistinct, hcompleted, hpolled, hsuspended, hvalue, honly, haddress⟩ := h
    rw [hcons] at honly
    have honly' : ∀ n, n ∉ s.polled → (s.frames n).results = [] ∧ Handle.op n ∉ sched.waiting := fun n hn =>
      ⟨(honly n hn).1, fun hmem => (honly n hn).2 (List.mem_cons_of_mem _ hmem)⟩
    cases handle with
    | other k => exact ⟨hready, hentries, hdistinct, hcompleted, hpolled, hsuspended, hvalue, honly', haddress⟩
    | op n =>
      have hn : n ∈ s.polled := by
        by_contra hn
        exact (honly n hn).2 List.mem_cons_self
      have hret : ∀ w : Waker Handle, w.awaitResume.1.awaitResume.2 = w.awaitResume.2 := by
        intro w
        cases w <;> rfl
      constructor <;> simp only [resume, setFrame, Function.update_apply]
      case ready => exact hready
      case entries => exact hentries
      case distinct => exact hdistinct
      case completed =>
        intro m c hc
        obtain ⟨hctx, hlt, hmarks⟩ := hcompleted m c hc
        refine ⟨hctx, hlt, ?_⟩
        split
        next heq => exact heq ▸ hmarks
        · exact hmarks
      case polled => exact hpolled
      case suspended =>
        intro m hm
        split
        · exact fun hnil => absurd hnil (List.concat_ne_nil _ _)
        · exact hsuspended m hm
      case value =>
        intro m hm
        split
        next heq =>
          subst heq
          rw [hret]
          exact hvalue m hm
        · exact hvalue m hm
      case only =>
        intro m hm
        have hne : m ≠ n := by
          rintro rfl
          exact hm hn
        rw [if_neg hne]
        exact honly' m hm
      case address =>
        obtain ⟨c, hc⟩ := Option.ne_none_iff_exists'.mp (hpolled n hn)
        intro m
        split
        next heq =>
          intro hop r hr
          rcases List.mem_append.mp hr with hr | hr
          · exact heq ▸ haddress n hop r hr
          · rw [List.mem_singleton, if_pos hop] at hr
            have hval := (hvalue n (hcompleted n c hc).2.1 hop).2 c hn hc
            exact ⟨c, heq ▸ hc, hr.trans hval⟩
        · exact haddress m

theorem next (h : s.Inv bits) {a : Act} (he : Enabled bits s a) : (s.next bits a).Inv bits := by
  cases a with
  | call op ret => exact h.call op ret
  | deliver c => exact h.deliver he
  | poll => exact h.poll
  | enqueue k => exact h.enqueue k
  | pass => exact h.pass

end Inv

/-! ## The law -/

theorem pass_ghosts (s : Transfer) : s.pass.polled = s.polled ∧ s.pass.completion = s.completion := by
  unfold pass
  dsimp only
  split
  · exact ⟨rfl, rfl⟩
  · unfold resume
    split <;> exact ⟨rfl, rfl⟩

theorem poll_completion (bits : Op → UInt64) (s : Transfer) :
    (s.poll bits).1.completion = s.completion := by
  unfold poll
  split
  · rfl
  · dsimp only [dispatch]
    split_ifs <;> rfl

/-- How often operation `n` has been resumed or will be. -/
def handed (s : Transfer) (n : Nat) : Nat :=
  (s.frames n).results.length + s.sched.waiting.count (.op n)

/-- Each operation whose completion was polled is handed to the run loop once. -/
def Once (s : Transfer) : Prop := ∀ n ∈ s.polled, s.handed n = 1

/-- Every completion so far was a success. -/
def Succeeded (s : Transfer) : Prop := ∀ n c, s.completion n = some c → ∃ ent, c = .success ent

section

variable {bits : Op → UInt64} {s t : Transfer}

theorem Once.congr (hpolled : t.polled = s.polled) (hhanded : ∀ n, t.handed n = s.handed n) :
    t.Once ↔ s.Once := by
  unfold Once
  rw [hpolled]
  simp only [hhanded]

theorem Inv.served_iff_once (h : s.Inv bits) (hs : s.Succeeded) : s.Served ↔ s.Once := by
  constructor
  · exact fun hserved => hserved.once
  · intro honce
    refine ⟨honce, h.only, fun n hop r hr => ?_⟩
    obtain ⟨c, hc, rfl⟩ := h.address n hop r hr
    obtain ⟨ent, rfl⟩ := hs n c hc
    exact ⟨ent, hc, rfl⟩

theorem Inv.call_handed (h : s.Inv bits) (op : Op) (ret : Address) (n : Nat) :
    (s.call op ret).handed n = s.handed n := by
  have hzero := h.only s.posted (h.fresh (Nat.le_refl _)).1
  simp only [handed, Transfer.call, setFrame, Function.update_apply]
  split
  next heq => rw [heq, hzero.1]
  · rfl

theorem Inv.pass_handed (h : s.Inv bits) (n : Nat) : s.pass.handed n = s.handed n := by
  obtain ⟨sched, handle, -, ⟨hnil, hnil', hstep⟩ | ⟨hcons, hstep⟩⟩ := h.pass_cases
  · simp only [hstep, handed, hnil', hnil]
  · simp only [hstep, handed, hcons]
    cases handle with
    | other k => simp [resume]
    | op m =>
      simp only [resume, setFrame, Function.update_apply]
      by_cases hm : n = m
      · subst hm
        simp
        omega
      · have hne : ¬ Handle.op m = Handle.op n := fun h => hm (Handle.op.inj h).symm
        rw [if_neg hm, List.count_cons_of_ne hne]

theorem Inv.enqueue_handed (h : s.Inv bits) (k n : Nat) :
    (s.next bits (.enqueue k)).handed n = s.handed n := by
  have hwaiting := h.ready.enqueue_waiting (.other k)
  show (s.frames n).results.length + (s.sched.enqueue (.other k)).1.waiting.count (.op n) = _
  rw [hwaiting]
  split
  · simp [handed]
  · rfl

/-- A `poll` keeps the law exactly when the handle of the operation gets into the queue. -/
theorem Inv.poll_once (h : s.Inv bits) : (s.poll bits).1.Once ↔ s.Once ∧ s.Handed .poll := by
  cases hcq : s.cq with
  | nil =>
    rw [show (s.poll bits).1 = s by rw [Transfer.poll, hcq]]
    exact (and_iff_left (by simp [Handed, hcq])).symm
  | cons c cq =>
    obtain ⟨w, hstep, -, -⟩ := h.poll_eq hcq
    have hpolled := (h.entries c (by simp [hcq])).2
    have hzero := h.only _ hpolled
    have hwaiting := h.ready.enqueue_waiting (.op c.ent.opContext)
    -- the operation itself was not handed over before, and the others are left alone
    have hself : (s.poll bits).1.handed c.ent.opContext = 1 ↔
        (s.frames c.ent.opContext).op ≠ .read ∧ s.sched.waiting.length < 1023 := by
      have hcount : s.sched.waiting.count (.op c.ent.opContext) = 0 := List.count_eq_zero.mpr hzero.2
      simp only [hstep, handed, Function.update_self, hzero.1]
      by_cases hop : (s.frames c.ent.opContext).op = .read
      · simp [hop, hcount]
      · by_cases hroom : s.sched.waiting.length < 1023
        · simp [hop, hroom, hwaiting, hcount]
        · simp [hop, hroom, hwaiting, hcount]
    have hothers : ∀ n, n ≠ c.ent.opContext → (s.poll bits).1.handed n = s.handed n := by
      intro n hn
      have hne : ¬ Handle.op c.ent.opContext = Handle.op n := fun h => hn (Handle.op.inj h).symm
      simp only [hstep, handed, Function.update_of_ne hn]
      split
      · rfl
      · rw [hwaiting]
        split
        · simp [hne]
        · rfl
    have hhanded : s.Handed .poll ↔
        (s.frames c.ent.opContext).op ≠ .read ∧ s.sched.waiting.length < 1023 := by
      simp [Handed, hcq]
    have hafter : (s.poll bits).1.polled = s.polled ++ [c.ent.opContext] := by rw [hstep]
    rw [hhanded, ← hself, Once, hafter, List.forall_mem_append, List.forall_mem_singleton]
    refine and_congr_left fun _ => forall₂_congr fun n hn => ?_
    rw [hothers n (fun heq => hpolled (heq ▸ hn))]

theorem Inv.next_once (h : s.Inv bits) (a : Act) : (s.next bits a).Once ↔ s.Once ∧ s.Handed a := by
  cases a with
  | call op ret =>
    have hsame : (s.call op ret).Once ↔ s.Once := Once.congr rfl (h.call_handed op ret)
    exact hsame.trans (and_iff_left trivial).symm
  | deliver c => exact (and_iff_left trivial).symm
  | poll => exact h.poll_once
  | enqueue k =>
    have hsame : (s.next bits (.enqueue k)).Once ↔ s.Once := Once.congr rfl (h.enqueue_handed k)
    exact hsame.trans (and_iff_left trivial).symm
  | pass =>
    have hsame : s.pass.Once ↔ s.Once := Once.congr s.pass_ghosts.1 h.pass_handed
    exact hsame.trans (and_iff_left trivial).symm

theorem Succeeded.next (hs : s.Succeeded) {a : Act} (ha : s.Succeeds a) : (s.next bits a).Succeeded := by
  have hkept : ∀ t : Transfer, t.completion = s.completion → t.Succeeded := by
    intro t ht n c hc
    exact hs n c (ht ▸ hc)
  cases a with
  | call op ret => exact hkept _ rfl
  | deliver c =>
    intro n d hd
    simp only [Transfer.next, deliver, Function.update_apply] at hd
    split at hd
    · cases hd
      exact ha
    · exact hs n d hd
  | poll => exact hkept _ (poll_completion bits s)
  | enqueue k => exact hkept _ rfl
  | pass => exact hkept _ s.pass_ghosts.2

/-- For every sequence of calls and every order of the successful completions, polls and passes: the
operations are served exactly when no `poll` takes the completion of a `read`, or finds the queue of
the scheduler full. -/
theorem served_iff (h : s.Init) {acts : List Act}
    (he : ((machine bits).restrict Succeeds).AllEnabled s acts) :
    ((machine bits).runList s acts).Served ↔
      (((machine bits).restrict Succeeds).restrict Handed).AllEnabled s acts := by
  have hrule := @Machine.law_iff_allEnabled _ _ ((machine bits).restrict Succeeds) (Inv bits) Once Handed
    (fun _ _ hen hi => hi.next hen.1) (fun _ a _ hi => hi.next_once a)
  have hstart : s.Succeeded := by simp [Succeeded, h.completion]
  obtain ⟨hend, hsucc⟩ := @Machine.inv_runList _ _ ((machine bits).restrict Succeeds)
    (fun t => t.Inv bits ∧ t.Succeeded) (fun _ _ hen hi => ⟨hi.1.next hen.1, hi.2.next hen.2⟩) acts s
    ⟨h.inv, hstart⟩ he
  have honce : s.Once := by simp [Once, h.polled]
  exact (hend.served_iff_once hsucc).trans ((hrule h.inv he).trans (and_iff_right honce))

end

/-! ## One operation or two -/

/-- `FI_READ`, `FI_WRITE`, `FI_RECV` and `FI_SEND` are the bits 8 to 11. -/
def fiBits : Op → UInt64
  | .read => 0x100
  | .write => 0x200
  | .recv => 0x400
  | .send => 0x800

/-- No operation is posted and no coroutine is queued. -/
def idle : Transfer where
  sched := .init fun _ => .other 0
  handle := .other 0
  cq := []
  frames _ := ⟨.send, .void ⟨none, ()⟩, []⟩
  posted := 0
  completion _ := none
  polled := []

theorem idle_init : idle.Init :=
  ⟨SQKScheduler.init_fresh _, rfl, rfl, fun _ => rfl, fun _ => rfl, rfl⟩

/-- A `write` posted after a `recv` completes first. -/
theorem served_iff_reordered :
    ((machine fiBits).runList idle [.call .recv 0, .call .write 0, .deliver (.success ⟨1, 0x204, 0⟩),
      .deliver (.success ⟨0, 0x402, 7⟩), .poll, .poll, .pass, .pass]).Served ↔
    (((machine fiBits).restrict Succeeds).restrict Handed).AllEnabled idle
      [.call .recv 0, .call .write 0, .deliver (.success ⟨1, 0x204, 0⟩),
        .deliver (.success ⟨0, 0x402, 7⟩), .poll, .poll, .pass, .pass] :=
  served_iff idle_init (by decide +kernel)

/-- The completion of a `read` is polled, nothing is queued, and its coroutine is never resumed. -/
theorem never_resumed : ∃ s : Transfer, s.Init ∧
    ((machine fiBits).restrict Succeeds).AllEnabled s
      [.call .read 0, .deliver (.success ⟨0, 0x104, 0⟩), .poll] ∧
    ((machine fiBits).runList s
      [.call .read 0, .deliver (.success ⟨0, 0x104, 0⟩), .poll]).polled = [0] ∧
    ((machine fiBits).runList s
      [.call .read 0, .deliver (.success ⟨0, 0x104, 0⟩), .poll]).sched.waiting = [] ∧
    (((machine fiBits).runList s
      [.call .read 0, .deliver (.success ⟨0, 0x104, 0⟩), .poll]).frames 0).results = [] :=
  ⟨idle, idle_init, by decide +kernel, by decide +kernel, by decide +kernel, by decide +kernel⟩

end Transfer

end Sqkio.Net.Fab
