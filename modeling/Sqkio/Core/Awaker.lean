import Sqkio.Core.Scheduler

/-!
# `Awaker`, `CheckableAwaker` and `SuspendYield`

The three things besides a child task that a coroutine can wait at.  `handle_` holds the
waiting coroutine from `await_suspend` until `await_resume`; `wake` in between passes it
to the scheduler and leaves it where it is.

`wake` and `SuspendYield::await_suspend` act on a program state `σ` through the
`enqueue` of the scheduler in it.
-/

namespace Sqkio

variable {T H σ : Type}

structure Awaker (T H : Type) where
  handle : Option H
  ret : T
  deriving DecidableEq

namespace Awaker

def awaitReady (_ : Awaker T H) : Bool := false

def awaitSuspend (a : Awaker T H) (handle : H) : Awaker T H := { a with handle := some handle }

/-- `return std::move(ret_)`; the value stays for the moved-from object. -/
def awaitResume (a : Awaker T H) : Awaker T H × T := ({ a with handle := none }, a.ret)

def wake (enqueue : H → σ → σ) (a : Awaker T H) (ret : T) (s : σ) : Awaker T H × σ :=
  ({ a with ret }, a.handle.elim s (enqueue · s))

end Awaker

structure CheckableAwaker (T H : Type) extends Awaker T H where
  awaked : Bool
  deriving DecidableEq

namespace CheckableAwaker

def awaitReady (a : CheckableAwaker T H) : Bool := a.awaked

def awaitSuspend (a : CheckableAwaker T H) (handle : H) : CheckableAwaker T H :=
  ⟨a.toAwaker.awaitSuspend handle, false⟩

def awaitResume (a : CheckableAwaker T H) : CheckableAwaker T H × T :=
  ({ a with toAwaker := a.toAwaker.awaitResume.1 }, a.toAwaker.awaitResume.2)

def wake (enqueue : H → σ → σ) (a : CheckableAwaker T H) (ret : T) (s : σ) :
    CheckableAwaker T H × σ :=
  (⟨(a.toAwaker.wake enqueue ret s).1, true⟩, (a.toAwaker.wake enqueue ret s).2)

end CheckableAwaker

/-- An object that `co_await` or `wake` is applied to, by its static type. -/
inductive AnyAwaker (T H : Type) where
  | awaker (a : Awaker T H)
  | checkable (a : CheckableAwaker T H)
  deriving DecidableEq

namespace AnyAwaker

def handle : AnyAwaker T H → Option H
  | awaker a => a.handle
  | checkable a => a.handle

def awaitReady : AnyAwaker T H → Bool
  | awaker a => a.awaitReady
  | checkable a => a.awaitReady

def awaitSuspend (x : AnyAwaker T H) (handle : H) : AnyAwaker T H :=
  match x with
  | awaker a => awaker (a.awaitSuspend handle)
  | checkable a => checkable (a.awaitSuspend handle)

def awaitResume : AnyAwaker T H → AnyAwaker T H × T
  | awaker a => (awaker a.awaitResume.1, a.awaitResume.2)
  | checkable a => (checkable a.awaitResume.1, a.awaitResume.2)

def wake (enqueue : H → σ → σ) (x : AnyAwaker T H) (ret : T) (s : σ) : AnyAwaker T H × σ :=
  match x with
  | awaker a => (awaker (a.wake enqueue ret s).1, (a.wake enqueue ret s).2)
  | checkable a => (checkable (a.wake enqueue ret s).1, (a.wake enqueue ret s).2)

variable (x : AnyAwaker T H) (enqueue : H → σ → σ) (ret : T) (h : H) (s : σ)

@[simp] theorem handle_awaitSuspend : (x.awaitSuspend h).handle = some h := by
  cases x <;> rfl

@[simp] theorem handle_awaitResume : x.awaitResume.1.handle = none := by
  cases x <;> rfl

@[simp] theorem handle_wake : (x.wake enqueue ret s).1.handle = x.handle := by
  cases x <;> rfl

theorem wake_snd : (x.wake enqueue ret s).2 = x.handle.elim s (enqueue · s) := by
  cases x <;> rfl

/-- What `wake` passed is what the next `await_resume` returns. -/
@[simp] theorem awaitResume_wake : (x.wake enqueue ret s).1.awaitResume.2 = ret := by
  cases x <;> rfl

@[simp] theorem awaitResume_awaitSuspend : (x.awaitSuspend h).awaitResume.2 = x.awaitResume.2 := by
  cases x <;> rfl

end AnyAwaker

/-- `SuspendYield::await_suspend`. -/
def SuspendYield.awaitSuspend (enqueue : H → σ → σ) (handle : H) (s : σ) : σ := enqueue handle s

/-- A promise's `caller_`: empty, `std::noop_coroutine()` or the frame that awaits it. -/
inductive Caller (H : Type) where
  | null
  | noop
  | frame (handle : H)
  deriving DecidableEq

end Sqkio
