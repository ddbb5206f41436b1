import Sqkio.Core.Awaker

/-!
# `wake` on another thread

The statements of one `wake(v)` on a foreign thread, one at a time between those of one
`co_await` of the same awaker on the scheduler thread, in any order.  The awaker is an
`Awaker` or a `CheckableAwaker`.  `wake` publishes the handle before it stores `ret_`, so
`await_resume` may read what was there before: `returnsWoken_iff` says when.
-/

namespace Sqkio

open Sqkio.Lib

variable {T H : Type}

namespace AnyAwaker

def ret : AnyAwaker T H → T
  | awaker a => a.ret
  | checkable a => a.ret

def setHandle (handle : Option H) : AnyAwaker T H → AnyAwaker T H
  | awaker a => awaker { a with handle }
  | checkable a => checkable { a with handle }

def setRet (ret : T) : AnyAwaker T H → AnyAwaker T H
  | awaker a => awaker { a with ret }
  | checkable a => checkable { a with ret }

/-- Only a `CheckableAwaker` has the flag. -/
def setAwaked (awaked : Bool) : AnyAwaker T H → AnyAwaker T H
  | awaker a => awaker a
  | checkable a => checkable { a with awaked }

variable (x : AnyAwaker T H)

@[simp] theorem ret_setHandle (handle : Option H) : (x.setHandle handle).ret = x.ret := by
  cases x <;> rfl

@[simp] theorem ret_setRet (ret : T) : (x.setRet ret).ret = ret := by
  cases x <;> rfl

@[simp] theorem ret_setAwaked (awaked : Bool) : (x.setAwaked awaked).ret = x.ret := by
  cases x <;> rfl

end AnyAwaker

/-- The next statement of `wake`. -/
inductive WakePc where
  | test
  | publish
  | storeRet
  | storeAwaked
  | done
  deriving DecidableEq

/-- The next statement of `co_await`, from its `await_suspend` on. -/
inductive AwaitPc (T : Type) where
  | storeHandle
  | clearAwaked
  /-- Suspended, until the run loop gets the handle from the queue. -/
  | suspended
  | clearHandle
  | moveRet
  | returned (ret : T)
  deriving DecidableEq

/-- The awaker, the handles published in the queue, and the two threads. -/
structure WakeRace (T H : Type) where
  awaker : AnyAwaker T H
  queue : List H
  wake : WakePc
  await : AwaitPc T
  deriving DecidableEq

namespace WakeRace

inductive Thread where
  | waker
  | scheduler

/-- One statement of `wake(v)`. -/
def stepWake (v : T) (s : WakeRace T H) : WakeRace T H :=
  match s.wake with
  | .test => { s with wake := if s.awaker.handle.isSome then .publish else .storeRet }
  -- `handle_` is read again
  | .publish => { s with queue := s.queue ++ s.awaker.handle.toList, wake := .storeRet }
  | .storeRet => { s with awaker := s.awaker.setRet v, wake := .storeAwaked }
  | .storeAwaked => { s with awaker := s.awaker.setAwaked true, wake := .done }
  | .done => s

/-- One statement of the `co_await` of the coroutine `handle`. -/
def stepAwait [DecidableEq H] (handle : H) (s : WakeRace T H) : WakeRace T H :=
  match s.await with
  | .storeHandle => { s with awaker := s.awaker.setHandle (some handle), await := .clearAwaked }
  | .clearAwaked => { s with awaker := s.awaker.setAwaked false, await := .suspended }
  | .suspended => { s with queue := s.queue.erase handle, await := .clearHandle }
  | .clearHandle => { s with awaker := s.awaker.setHandle none, await := .moveRet }
  | .moveRet => { s with await := .returned s.awaker.ret }
  | .returned _ => s

def Enabled (handle : H) (s : WakeRace T H) : Thread → Prop
  | .waker => s.wake ≠ .done
  | .scheduler => s.await = .suspended → handle ∈ s.queue

instance [DecidableEq T] [DecidableEq H] (handle : H) : (s : WakeRace T H) → (t : Thread) →
    Decidable (s.Enabled handle t)
  | s, .waker => inferInstanceAs (Decidable (s.wake ≠ .done))
  | s, .scheduler => inferInstanceAs (Decidable (s.await = .suspended → handle ∈ s.queue))

/-- `co_await` has reached `await_suspend`, and `wake` begins; the handle is not queued. -/
structure Init (handle : H) (s : WakeRace T H) : Prop where
  queue : handle ∉ s.queue
  wake : s.wake = .test
  await : s.await = .storeHandle

def machine [DecidableEq H] (handle : H) (v : T) : Machine (WakeRace T H) Thread where
  init := Init handle
  enabled := Enabled handle
  next s
    | .waker => s.stepWake v
    | .scheduler => s.stepAwait handle

instance [DecidableEq T] [DecidableEq H] (handle : H) (v : T) (s : WakeRace T H) (t : Thread) :
    Decidable ((machine handle v).enabled s t) := inferInstanceAs (Decidable (s.Enabled handle t))

/-- If `co_await` is over, it has returned `v`. -/
def ReturnsWoken (v : T) (s : WakeRace T H) : Prop := ∀ ret, s.await = .returned ret → ret = v

/-- `wake` has stored `ret_`. -/
def Stored (s : WakeRace T H) : Prop := s.wake = .storeAwaked ∨ s.wake = .done

/-- `await_resume` moves `ret_` only after `wake` has stored it, or `v` was there before. -/
def StoredFirst (v : T) (s : WakeRace T H) : Thread → Prop
  | .waker => True
  | .scheduler => s.await = .moveRet → s.Stored ∨ s.awaker.ret = v

instance [DecidableEq T] (v : T) : (s : WakeRace T H) → (t : Thread) → Decidable (s.StoredFirst v t)
  | _, .waker => isTrue trivial
  | s, .scheduler => inferInstanceAs (Decidable (s.await = .moveRet →
      (s.wake = .storeAwaked ∨ s.wake = .done) ∨ s.awaker.ret = v))

section

variable {s : WakeRace T H} {v : T} {handle : H}

/-- The stored value stays: nothing else writes `ret_`. -/
def Keeps (v : T) (s : WakeRace T H) : Prop := s.Stored → s.awaker.ret = v

theorem Keeps.stepWake (h : s.Keeps v) : (s.stepWake v).Keeps v := by
  unfold Keeps Stored at *
  cases hw : s.wake <;> simp only [WakeRace.stepWake, hw]
  case test =>
    split
    · rintro (h | h) <;> cases h
    · rintro (h | h) <;> cases h
  case publish => rintro (h | h) <;> cases h
  case storeRet => exact fun _ => AnyAwaker.ret_setRet _ _
  case storeAwaked =>
    intro _
    rw [AnyAwaker.ret_setAwaked]
    exact h (.inl hw)
  case done => exact fun _ => h (.inr hw)

theorem Keeps.stepAwait [DecidableEq H] (h : s.Keeps v) : (s.stepAwait handle).Keeps v := by
  unfold Keeps Stored at *
  cases ha : s.await <;> simp only [WakeRace.stepAwait, ha]
  case storeHandle => simpa using h
  case clearAwaked => simpa using h
  case suspended => exact h
  case clearHandle => simpa using h
  case moveRet => exact h
  case returned => exact h

theorem stepWake_await : (s.stepWake v).await = s.await := by
  cases hw : s.wake <;> simp only [stepWake, hw]

/-- A step of `co_await` keeps the law exactly when it does not move `ret_` too early. -/
theorem Keeps.stepAwait_returnsWoken [DecidableEq H] (h : s.Keeps v) :
    (s.stepAwait handle).ReturnsWoken v ↔ s.ReturnsWoken v ∧ s.StoredFirst v .scheduler := by
  unfold ReturnsWoken StoredFirst
  cases ha : s.await <;> simp only [WakeRace.stepAwait, ha]
  case moveRet =>
    constructor
    · intro hret
      exact ⟨nofun, fun _ => .inr (hret _ rfl)⟩
    · rintro ⟨-, hstored⟩ ret hret
      cases hret
      rcases hstored trivial with hst | heq
      · exact h hst
      · exact heq
  all_goals simp

/-- In every interleaving `co_await` returns `v`, if it returns, exactly when `await_resume` did
not move `ret_` before `wake` stored it (or it held `v` before). -/
theorem returnsWoken_iff [DecidableEq H] (h : s.Init handle) {ts : List Thread}
    (he : (machine handle v).AllEnabled s ts) : ((machine handle v).runList s ts).ReturnsWoken v ↔
      ((machine handle v).restrict (StoredFirst v)).AllEnabled s ts := by
  have hrule := @Machine.law_iff_allEnabled _ _ (machine handle v) (Keeps v) (ReturnsWoken v)
    (StoredFirst v)
  have hlaw : s.ReturnsWoken v := by
    intro ret hret
    rw [h.await] at hret
    cases hret
  have hkeeps : s.Keeps v := by
    rintro (hw | hw)
    · rw [h.wake] at hw
      cases hw
    · rw [h.wake] at hw
      cases hw
  refine (hrule ?_ ?_ hkeeps he).trans (and_iff_right hlaw)
  · rintro s (_ | _) - hk
    · exact hk.stepWake
    · exact hk.stepAwait
  · rintro s (_ | _) - hk
    · show (s.stepWake v).ReturnsWoken v ↔ s.ReturnsWoken v ∧ True
      rw [and_true, ReturnsWoken, stepWake_await]
      exact Iff.rfl
    · exact hk.stepAwait_returnsWoken

/-- The statements of `wake` with none of the other thread in between are the function. -/
theorem wake_alone [DecidableEq H] (hw : s.wake = .test) :
    (machine handle v).runList s [.waker, .waker, .waker, .waker] =
      { s with
        awaker := (s.awaker.wake (fun c q => q ++ [c]) v s.queue).1
        queue := (s.awaker.wake (fun c q => q ++ [c]) v s.queue).2
        wake := .done } := by
  obtain ⟨awaker, queue, wake, await⟩ := s
  obtain rfl : wake = .test := hw
  cases awaker with
  | awaker a =>
    obtain ⟨h, ret⟩ := a
    cases h with
    | none => rfl
    | some c => rfl
  | checkable a =>
    obtain ⟨⟨h, ret⟩, awaked⟩ := a
    cases h with
    | none => rfl
    | some c => rfl

end

/-! ## One coroutine -/

/-- An `Awaker` that nobody waits at holds 0. -/
def begun : WakeRace Nat Nat := ⟨.awaker ⟨none, 0⟩, [], .test, .storeHandle⟩

theorem begun_init : begun.Init 1 := ⟨List.not_mem_nil, rfl, rfl⟩

/-- The coroutine is resumed at once, but comes to `ret_` after the store. -/
theorem returnsWoken_iff_late :
    ((machine 1 7).runList begun [.scheduler, .scheduler, .waker, .waker, .scheduler, .scheduler,
      .waker, .scheduler]).ReturnsWoken 7 ↔
    ((machine 1 7).restrict (StoredFirst 7)).AllEnabled begun [.scheduler, .scheduler, .waker, .waker,
      .scheduler, .scheduler, .waker, .scheduler] :=
  returnsWoken_iff begun_init (by decide +kernel)

/-- The coroutine is resumed and moves `ret_` between the publication and the store. -/
theorem returns_old : ∃ s : WakeRace Nat Nat, s.Init 1 ∧
    (machine 1 7).AllEnabled s [.scheduler, .scheduler, .waker, .waker, .scheduler, .scheduler,
      .scheduler] ∧
    ((machine 1 7).runList s [.scheduler, .scheduler, .waker, .waker, .scheduler, .scheduler,
      .scheduler]).await = .returned 0 :=
  ⟨begun, begun_init, by decide +kernel, by decide +kernel⟩

end WakeRace

end Sqkio
