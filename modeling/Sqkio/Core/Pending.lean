import Sqkio.Core.Awaker

/-!
# Handles passed to `enqueue`, and handles resumed by `run`

Everything one thread can do with the scheduler, call by call: both `enqueue` overloads,
the calls that reach them (`co_yield`, `wake`) and the passes of the run loop.  What a
resumed coroutine does is the calls between two passes.

`Law` says that no handle is lost.  `enqueue` drops the ring's answer, so the 1024th
waiting handle is; `law_iff` is the exact boundary.
-/

namespace Sqkio

open Sqkio.Lib

/-- The scheduler, the awakers and `run`'s variable `handle`. -/
structure Loop (A T H : Type) where
  sched : SQKScheduler H
  awakers : A → AnyAwaker T H
  caller : H → Caller H
  handle : H
  -- ghosts: the handles passed to `enqueue`, what it returned, the handles resumed
  passed : List H
  returned : List Int
  resumed : List H

namespace Loop

inductive Call (A T H : Type) where
  /-- `enqueue(Task<T>)` -/
  | enqueueTask (handle : H)
  /-- `enqueue(T)` -/
  | enqueue (handle : H)
  /-- `SuspendYield::await_suspend` -/
  | yieldSuspend (handle : H)
  | awaitSuspend (a : A) (handle : H)
  | awaitResume (a : A)
  | wake (a : A) (ret : T)
  | stop
  /-- One pass of the loop in `run`. -/
  | pass

variable {A T H : Type}

/-- `scheduler->enqueue(handle)` -/
def enqueue (handle : H) (s : Loop A T H) : Loop A T H :=
  let r := s.sched.enqueue handle
  { s with sched := r.1, returned := s.returned ++ [r.2], passed := s.passed ++ [handle] }

section

variable [DecidableEq A] [DecidableEq H]

def next (s : Loop A T H) : Call A T H → Loop A T H
  | .enqueueTask handle =>
    let s := s.enqueue handle
    { s with caller := Function.update s.caller handle .noop }
  | .enqueue handle => s.enqueue handle
  | .yieldSuspend handle => SuspendYield.awaitSuspend enqueue handle s
  | .awaitSuspend a handle =>
    { s with awakers := Function.update s.awakers a ((s.awakers a).awaitSuspend handle) }
  | .awaitResume a =>
    { s with awakers := Function.update s.awakers a (s.awakers a).awaitResume.1 }
  | .wake a ret =>
    let r := (s.awakers a).wake enqueue ret s
    { r.2 with awakers := Function.update s.awakers a r.1 }
  | .stop => { s with sched := s.sched.stop }
  | .pass =>
    let r := s.sched.dequeue s.handle
    if r.2.1 = 0 then { s with sched := r.1, handle := r.2.2 }
    else { s with sched := r.1, handle := r.2.2, resumed := s.resumed ++ [r.2.2] }

/-- A fresh scheduler; the awakers may hold anything. -/
def machine (A T H : Type) [DecidableEq A] [DecidableEq H] :
    Machine (Loop A T H) (Call A T H) where
  init s := s.sched.Fresh ∧ s.passed = [] ∧ s.returned = [] ∧ s.resumed = []
  enabled _ _ := True
  next := next

end

/-- The handle that the call passes to `enqueue`. -/
def passes (s : Loop A T H) : Call A T H → Option H
  | .enqueueTask handle | .enqueue handle | .yieldSuspend handle => some handle
  | .wake a _ => (s.awakers a).handle
  | .awaitSuspend _ _ | .awaitResume _ | .stop | .pass => none

/-- If the call passes a handle to `enqueue`, fewer than 1023 are waiting. -/
def Room (s : Loop A T H) (c : Call A T H) : Prop :=
  s.passes c ≠ none → s.sched.waiting.length < 1023

/-- Whenever the calls returned 0, the handles resumed and then those waiting are the
handles passed to `enqueue`, each once and in that order. -/
def Law (s : Loop A T H) : Prop :=
  (∀ r ∈ s.returned, r = 0) → s.resumed ++ s.sched.waiting = s.passed

/-! ## What one call does -/

/-- The queue is a ready queue, no call failed, and there are not more handles than passed. -/
structure Inv (s : Loop A T H) : Prop where
  ready : s.sched.Ready s.sched.waiting
  returned : ∀ r ∈ s.returned, r = 0
  le : (s.resumed ++ s.sched.waiting).length ≤ s.passed.length

theorem Inv.law_iff {s : Loop A T H} (h : s.Inv) : s.Law ↔ s.resumed ++ s.sched.waiting = s.passed :=
  ⟨fun hl => hl h.returned, fun heq _ => heq⟩

section

variable [DecidableEq A] [DecidableEq H]

/-- The scheduler's part of a call, and its ghosts. -/
theorem next_cases (s : Loop A T H) (c : Call A T H) :
    (∃ handle, s.passes c = some handle ∧ (s.next c).sched = (s.sched.enqueue handle).1 ∧
      (s.next c).passed = s.passed ++ [handle] ∧ (s.next c).returned = s.returned ++ [0] ∧
      (s.next c).resumed = s.resumed) ∨
    (c = .pass ∧ s.passes c = none ∧ (s.next c).passed = s.passed ∧
      (s.next c).returned = s.returned ∧ (s.next c).sched = (s.sched.dequeue s.handle).1 ∧
      (s.next c).resumed = s.resumed ++
        if (s.sched.dequeue s.handle).2.1 = 0 then [] else [(s.sched.dequeue s.handle).2.2]) ∨
    (s.passes c = none ∧ (s.next c).sched.queue = s.sched.queue ∧ (s.next c).passed = s.passed ∧
      (s.next c).returned = s.returned ∧ (s.next c).resumed = s.resumed) := by
  cases c with
  | enqueueTask handle => exact .inl ⟨handle, rfl, rfl, rfl, by simp [next, enqueue], rfl⟩
  | enqueue handle => exact .inl ⟨handle, rfl, rfl, rfl, by simp [next, enqueue], rfl⟩
  | yieldSuspend handle =>
    exact .inl ⟨handle, rfl, rfl, rfl, by simp [next, SuspendYield.awaitSuspend, enqueue], rfl⟩
  | awaitSuspend a handle => exact .inr (.inr ⟨rfl, rfl, rfl, rfl, rfl⟩)
  | awaitResume a => exact .inr (.inr ⟨rfl, rfl, rfl, rfl, rfl⟩)
  | stop => exact .inr (.inr ⟨rfl, rfl, rfl, rfl, rfl⟩)
  | wake a ret =>
    simp only [passes, next, AnyAwaker.wake_snd]
    cases (s.awakers a).handle with
    | none => exact .inr (.inr ⟨rfl, rfl, rfl, rfl, rfl⟩)
    | some handle => exact .inl ⟨handle, rfl, rfl, rfl, by simp [enqueue], rfl⟩
  | pass =>
    refine .inr (.inl ⟨rfl, rfl, ?_⟩)
    simp only [next]
    split
    · exact ⟨rfl, rfl, rfl, (List.append_nil _).symm⟩
    · exact ⟨rfl, rfl, rfl, rfl⟩

/-- Room at every call keeps the law; without room the call breaks it for good. -/
theorem Inv.step {s : Loop A T H} (h : s.Inv) (c : Call A T H) :
    (s.next c).Inv ∧ ((s.next c).Law ↔ s.Law ∧ s.Room c) := by
  have hready := h.ready
  have hle := h.le
  rw [List.length_append] at hle
  rcases next_cases s c with ⟨handle, hpass, hs, hp, hr, hd⟩ | ⟨rfl, hpass, hp, hr, hs, hd⟩ |
    ⟨hpass, hs, hp, hr, hd⟩
  · have hret : ∀ r ∈ (s.next c).returned, r = 0 := by
      rw [hr]
      exact List.forall_mem_append.mpr ⟨h.returned, by simp⟩
    have hroom : s.Room c ↔ s.sched.waiting.length < 1023 := by
      simp [Room, hpass]
    by_cases hfree : s.sched.waiting.length < 1023
    · have hnext := hready.enqueue_room hfree handle
      rw [← hs] at hnext
      have hw := hnext.waiting_eq
      have hinv : (s.next c).Inv := by
        refine ⟨hnext.waiting, hret, ?_⟩
        simp only [hw, hp, hd, List.length_append, List.length_singleton]
        omega
      refine ⟨hinv, ?_⟩
      rw [hinv.law_iff, h.law_iff, hw, hp, hd, ← List.append_assoc, List.append_cancel_right_eq, hroom,
        and_iff_left hfree]
    · have hnext := hready.enqueue_full hfree handle
      rw [← hs] at hnext
      have hw := hnext.waiting_eq
      have hinv : (s.next c).Inv := by
        refine ⟨hnext.waiting, hret, ?_⟩
        simp only [hw, hp, hd, List.length_append, List.length_singleton]
        omega
      refine ⟨hinv, ?_⟩
      rw [hinv.law_iff, hroom]
      constructor
      · intro heq
        have hlen := congrArg List.length heq
        simp only [hw, hp, hd, List.length_append, List.length_singleton] at hlen
        omega
      · rintro ⟨-, hlt⟩
        exact absurd hlt hfree
  · have hroom : s.Room .pass := fun hne => absurd hpass hne
    have hstep : (s.next .pass).sched.Ready (s.next .pass).sched.waiting ∧
        (s.next .pass).resumed ++ (s.next .pass).sched.waiting = s.resumed ++ s.sched.waiting := by
      obtain ⟨hnext, ⟨hnil, hnil', hzero⟩ | ⟨w, hcons, hone⟩⟩ := hready.dequeue_cases s.handle
      · rw [hd, if_pos hzero, hs]
        refine ⟨hnext, ?_⟩
        rw [hnil, hnil', List.append_nil]
      · rw [hd, hone, if_neg (show ¬ (1 : UInt32) = 0 by decide), hs]
        refine ⟨hnext, ?_⟩
        rw [hcons, List.append_assoc]
        rfl
    have hinv : (s.next .pass).Inv := by
      refine ⟨hstep.1, by rw [hr]; exact h.returned, ?_⟩
      rw [hstep.2, hp]
      exact h.le
    refine ⟨hinv, ?_⟩
    rw [hinv.law_iff, h.law_iff, hstep.2, hp, and_iff_left hroom]
  · have hroom : s.Room c := fun hne => absurd hpass hne
    have hnext := hready.of_queue hs
    have hw := hnext.waiting_eq
    have hinv : (s.next c).Inv := by
      refine ⟨hnext.waiting, by rw [hr]; exact h.returned, ?_⟩
      rw [hw, hp, hd]
      exact h.le
    refine ⟨hinv, ?_⟩
    rw [hinv.law_iff, h.law_iff, hw, hp, hd, and_iff_left hroom]

theorem Inv.of_init {s : Loop A T H} (h : (machine A T H).init s) : s.Inv ∧ s.Law := by
  obtain ⟨hfresh, hp, hr, hd⟩ := h
  have hready := hfresh.ready
  have hinv : s.Inv := by
    refine ⟨hready.waiting, by simp [hr], ?_⟩
    simp [hready.waiting_eq, hd]
  refine ⟨hinv, ?_⟩
  rw [hinv.law_iff, hready.waiting_eq, hp, hd]
  rfl

/-- After a run, the handles resumed and then those waiting are the handles passed to
`enqueue` exactly when every call that passed one found fewer than 1023 waiting. -/
theorem law_iff_room {s : Loop A T H} (h : (machine A T H).init s) (cs : List (Call A T H)) :
    ((machine A T H).runList s cs).Law ↔ ((machine A T H).restrict Room).AllEnabled s cs := by
  obtain ⟨hinv, hlaw⟩ := Inv.of_init h
  have hall : (machine A T H).AllEnabled s cs := by
    clear hinv hlaw h
    induction cs generalizing s with
    | nil => trivial
    | cons c cs ih => exact ⟨trivial, ih⟩
  have hrule := @Machine.law_iff_allEnabled _ _ (machine A T H) Inv Law Room
    (fun _ c _ hi => (hi.step c).1) (fun _ c _ hi => (hi.step c).2)
  rw [hrule hinv hall, and_iff_right hlaw]

theorem enqueue_all {s : Loop A T H} (h : s.Inv) (hs : List H) :
    ((machine A T H).runList s (hs.map .enqueue)).Inv ∧
      ((machine A T H).runList s (hs.map .enqueue)).passed = s.passed ++ hs ∧
      ((machine A T H).runList s (hs.map .enqueue)).resumed = s.resumed := by
  induction hs generalizing s with
  | nil => exact ⟨h, (List.append_nil _).symm, rfl⟩
  | cons handle hs ih =>
    obtain ⟨hinv, hp, hr⟩ := ih (h.step (.enqueue handle)).1
    refine ⟨hinv, ?_, hr⟩
    rw [List.map_cons, Machine.runList_cons, show (machine A T H).next s (.enqueue handle) =
      s.next (.enqueue handle) from rfl, hp]
    simp [next, enqueue]

end

/-! ## One awaker and handles that are numbers -/

def start : Loop Unit Unit Nat :=
  ⟨.init fun _ => 0, fun _ => .awaker ⟨none, ()⟩, fun _ => .null, 0, [], [], []⟩

theorem start_init : (machine Unit Unit Nat).init start := ⟨SQKScheduler.init_fresh _, rfl, rfl, rfl⟩

/-- A task that is started, waits, is woken and goes on. -/
theorem law_iff_room_start :
    ((machine Unit Unit Nat).runList start
      [.enqueueTask 5, .pass, .awaitSuspend () 5, .wake () (), .pass, .awaitResume ()]).Law ↔
    ((machine Unit Unit Nat).restrict Room).AllEnabled start
      [.enqueueTask 5, .pass, .awaitSuspend () 5, .wake () (), .pass, .awaitResume ()] :=
  law_iff_room start_init _

/-- Of 1024 handles enqueued before the loop runs one is lost, and all calls return 0. -/
theorem lost_handle : ∃ s : Loop Unit Unit Nat, (machine Unit Unit Nat).init s ∧
    ¬ ((machine Unit Unit Nat).runList s ((List.range 1024).map .enqueue)).Law := by
  refine ⟨start, start_init, fun hlaw => ?_⟩
  obtain ⟨hinv, hp, hr⟩ := enqueue_all (Inv.of_init start_init).1 (List.range 1024)
  have hlen := congrArg List.length (hinv.law_iff.mp hlaw)
  have hle := hinv.ready.length_le
  rw [hp, hr, show start.resumed = [] from rfl, show start.passed = [] from rfl, List.nil_append,
    List.nil_append, List.length_range] at hlen
  omega

end Loop

end Sqkio
