import Sqkio.Core.Awaker

/-!
# Rounds of one `CheckableAwaker`

Any sequence of `wake(v)`, `co_await` and passes of the run loop on one `CheckableAwaker`.
`awaked_` is set by `wake` and cleared by `await_suspend` only, so after the first
`co_await` has completed it stays set and every later `co_await` completes at once.
`ownWakes_iff` is the exact boundary: once a `co_await` has completed, each one has to begin
after a `wake` that no earlier one has seen.
-/

namespace Sqkio

open Sqkio.Lib

/-- A `co_await` that is over: what it returned, and how often `wake` had been called. -/
structure Completion (T : Type) where
  value : T
  woken : Nat
  deriving DecidableEq

/-- The awaker, the scheduler with `run`'s variable `handle`, and the coroutine suspended in
`co_await` of the awaker. -/
structure Rounds (T H : Type) where
  awaker : CheckableAwaker T H
  sched : SQKScheduler H
  handle : H
  waiter : Option H
  -- ghosts: what `wake` was called with, the `co_await`s that are over
  wakes : List T
  completed : List (Completion T)

namespace Rounds

variable {T H : Type}

inductive Act (T H : Type) where
  | wake (ret : T)
  /-- The coroutine begins `co_await` of the awaker. -/
  | coAwait (handle : H)
  /-- One pass of the loop in `run`. -/
  | pass

/-- `await_resume` -/
def complete (s : Rounds T H) : Rounds T H :=
  { s with
    awaker := s.awaker.awaitResume.1
    completed := s.completed ++ [⟨s.awaker.awaitResume.2, s.wakes.length⟩] }

def next [DecidableEq H] (s : Rounds T H) : Act T H → Rounds T H
  | .wake ret =>
    let r := s.awaker.wake (fun handle sched => (sched.enqueue handle).1) ret s.sched
    { s with awaker := r.1, sched := r.2, wakes := s.wakes ++ [ret] }
  | .coAwait handle =>
    if s.awaker.awaitReady then s.complete
    else { s with awaker := s.awaker.awaitSuspend handle, waiter := some handle }
  | .pass =>
    let r := s.sched.dequeue s.handle
    let s := { s with sched := r.1, handle := r.2.2 }
    if r.2.1 ≠ 0 ∧ s.waiter = some s.handle then { s.complete with waiter := none } else s

/-- One waiter at a time. -/
def Enabled (s : Rounds T H) : Act T H → Prop
  | .coAwait _ => s.waiter = none
  | _ => True

structure Init (s : Rounds T H) : Prop where
  awaked : s.awaker.awaked = false
  handle : s.awaker.handle = none
  sched : s.sched.Fresh
  waiter : s.waiter = none
  wakes : s.wakes = []
  completed : s.completed = []

def machine (T H : Type) [DecidableEq H] : Machine (Rounds T H) (Act T H) where
  init := Init
  enabled := Enabled
  next := next

instance [DecidableEq H] : (s : Rounds T H) → (a : Act T H) → Decidable ((machine T H).enabled s a)
  | s, .coAwait _ => inferInstanceAs (Decidable (s.waiter = none))
  | _, .wake _ | _, .pass => isTrue trivial

/-- The law of the completed `co_await`s: the number `i + 1` of them comes after as many wakes,
each after a wake that the one before it had not seen, and returns what the last wake passed. -/
structure OwnWakes (s : Rounds T H) : Prop where
  enough : ∀ i (c : Completion T), s.completed[i]? = some c → i < c.woken
  own : s.completed.Pairwise (·.woken < ·.woken)
  latest : ∀ c ∈ s.completed, s.wakes[c.woken - 1]? = some c.value

/-- A `co_await` begins only after a wake that no earlier one has seen. -/
def Woken (s : Rounds T H) : Act T H → Prop
  | .coAwait _ => ∀ c ∈ s.completed, c.woken < s.wakes.length
  | _ => True

instance : (s : Rounds T H) → (a : Act T H) → Decidable (s.Woken a)
  | s, .coAwait _ => inferInstanceAs (Decidable (∀ c ∈ s.completed, c.woken < s.wakes.length))
  | _, .wake _ | _, .pass => isTrue trivial

/-! ## The flag -/

/-- `awaked_` says that `wake` was called at all; a coroutine is only ever suspended before that
in its `co_await`. -/
structure Inv (s : Rounds T H) : Prop where
  ready : s.sched.Ready s.sched.waiting
  queued : s.sched.waiting ≠ [] → s.wakes ≠ []
  flag : s.awaker.awaked = true ↔ s.wakes ≠ []
  waiting : s.waiter ≠ none → s.completed = []
  ret : s.wakes ≠ [] → s.wakes[s.wakes.length - 1]? = some s.awaker.ret
  seen : ∀ c ∈ s.completed, c.woken ≤ s.wakes.length
  after : s.completed ≠ [] → s.wakes ≠ []

theorem Init.inv {s : Rounds T H} (h : s.Init) : s.Inv := by
  have hready := h.sched.ready
  constructor
  case ready => exact hready.waiting
  case queued => exact fun hne => absurd hready.waiting_eq hne
  case flag => simp [h.awaked, h.wakes]
  case waiting => exact fun _ => h.completed
  case ret => exact fun hne => absurd h.wakes hne
  case seen => simp [h.completed]
  case after => exact fun hne => absurd h.completed hne

variable {s : Rounds T H}

theorem ownWakes_congr {s' : Rounds T H} (hw : s'.wakes = s.wakes) (hc : s'.completed = s.completed) :
    s'.OwnWakes ↔ s.OwnWakes := by
  constructor
  · rintro ⟨henough, hown, hlatest⟩
    rw [hc] at henough hown hlatest
    rw [hw] at hlatest
    exact ⟨henough, hown, hlatest⟩
  · rintro ⟨henough, hown, hlatest⟩
    constructor <;> rw [hc]
    case enough => exact henough
    case own => exact hown
    case latest =>
      rw [hw]
      exact hlatest

theorem OwnWakes.length_lt (h : s.OwnWakes) (hw : s.wakes ≠ [])
    (hseen : ∀ c ∈ s.completed, c.woken < s.wakes.length) : s.completed.length < s.wakes.length := by
  rcases Nat.eq_zero_or_pos s.completed.length with hzero | hpos
  · rw [hzero]
    exact List.length_pos_of_ne_nil hw
  · have hlast : s.completed.length - 1 < s.completed.length := by omega
    have henough := h.enough _ _ (List.getElem?_eq_getElem hlast)
    have hlt := hseen _ (List.getElem_mem hlast)
    omega

/-- A completion keeps the law exactly when there was a wake that no earlier one had seen. -/
theorem Inv.complete_ownWakes (h : s.Inv) (hw : s.wakes ≠ []) :
    s.complete.OwnWakes ↔ s.OwnWakes ∧ ∀ c ∈ s.completed, c.woken < s.wakes.length := by
  constructor
  · rintro ⟨henough, hown, hlatest⟩
    have hown' := List.pairwise_append.mp hown
    refine ⟨⟨fun i c hc => henough i c ?_, hown'.1, fun c hc => hlatest c (List.mem_append_left _ hc)⟩, ?_⟩
    · have hi := (List.getElem?_eq_some_iff.mp hc).1
      rw [complete, List.getElem?_append_left hi]
      exact hc
    · exact fun c hc => hown'.2.2 c hc _ (List.mem_singleton_self _)
  · rintro ⟨hlaw, hseen⟩
    constructor
    case enough =>
      intro i c hc
      rcases Nat.lt_trichotomy i s.completed.length with hi | hi | hi
      · rw [complete, List.getElem?_append_left hi] at hc
        exact hlaw.enough i c hc
      · subst hi
        simp only [complete, List.getElem?_concat_length, Option.some.injEq] at hc
        subst hc
        exact hlaw.length_lt hw hseen
      · rw [complete, List.getElem?_append_right (Nat.le_of_lt hi)] at hc
        obtain ⟨j, hj⟩ : ∃ j, i - s.completed.length = j + 1 := ⟨i - s.completed.length - 1, by omega⟩
        rw [hj] at hc
        cases hc
    case own =>
      refine List.pairwise_append.mpr ⟨hlaw.own, List.pairwise_singleton _ _, fun c hc d hd => ?_⟩
      obtain rfl := List.mem_singleton.mp hd
      exact hseen c hc
    case latest =>
      refine List.forall_mem_append.mpr ⟨hlaw.latest, ?_⟩
      rw [List.forall_mem_singleton]
      exact h.ret hw

theorem Inv.complete (h : s.Inv) (hwaiter : s.waiter = none) (hw : s.wakes ≠ []) :
    s.complete.Inv := by
  constructor
  case ready => exact h.ready
  case queued => exact h.queued
  case flag => exact h.flag
  case waiting => exact fun hne => absurd hwaiter hne
  case ret => exact h.ret
  case seen =>
    refine List.forall_mem_append.mpr ⟨h.seen, ?_⟩
    rw [List.forall_mem_singleton]
    exact Nat.le_refl _
  case after => exact fun _ => hw

/-! ## Every step -/

theorem Inv.wake [DecidableEq H] (h : s.Inv) (ret : T) : (s.next (.wake ret)).Inv ∧
    ((s.next (.wake ret)).OwnWakes ↔ s.OwnWakes) := by
  have hready : (s.next (.wake ret)).sched.Ready (s.next (.wake ret)).sched.waiting := by
    show (s.awaker.handle.elim s.sched fun handle => (s.sched.enqueue handle).1).Ready
      (s.awaker.handle.elim s.sched fun handle => (s.sched.enqueue handle).1).waiting
    cases s.awaker.handle with
    | none => exact h.ready
    | some handle =>
      by_cases hroom : s.sched.waiting.length < 1023
      · exact (h.ready.enqueue_room hroom handle).waiting
      · exact (h.ready.enqueue_full hroom handle).waiting
  have hwakes : (s.next (.wake ret)).wakes = s.wakes ++ [ret] := rfl
  have hne : (s.next (.wake ret)).wakes ≠ [] := by
    rw [hwakes]
    exact List.append_ne_nil_of_right_ne_nil _ (List.cons_ne_nil _ _)
  refine ⟨⟨hready, fun _ => hne, iff_of_true rfl hne, h.waiting, fun _ => ?_, fun c hc => ?_, fun _ => hne⟩, ?_⟩
  · rw [hwakes, List.length_append, List.length_singleton, Nat.add_sub_cancel]
    exact List.getElem?_concat_length
  · rw [hwakes, List.length_append]
    exact Nat.le_add_right_of_le (h.seen c hc)
  · -- the wakes that the completed `co_await`s had seen are still where they were
    have hkept : ∀ c ∈ s.completed, 0 < c.woken →
        (s.wakes ++ [ret])[c.woken - 1]? = s.wakes[c.woken - 1]? := by
      intro c hc hpos
      have hle := h.seen c hc
      exact List.getElem?_append_left (by omega)
    have hpos : (∀ i (c : Completion T), s.completed[i]? = some c → i < c.woken) →
        ∀ c ∈ s.completed, 0 < c.woken := by
      intro henough c hc
      obtain ⟨i, hi⟩ := List.mem_iff_getElem?.mp hc
      exact Nat.zero_lt_of_lt (henough i c hi)
    constructor
    · rintro ⟨henough, hown, hlatest⟩
      exact ⟨henough, hown, fun c hc => (hkept c hc (hpos henough c hc)).symm.trans (hlatest c hc)⟩
    · rintro ⟨henough, hown, hlatest⟩
      exact ⟨henough, hown, fun c hc => (hkept c hc (hpos henough c hc)).trans (hlatest c hc)⟩

theorem Inv.coAwait [DecidableEq H] (h : s.Inv) {handle : H} (he : s.waiter = none) :
    (s.next (.coAwait handle)).Inv ∧
      ((s.next (.coAwait handle)).OwnWakes ↔ s.OwnWakes ∧ s.Woken (.coAwait handle)) := by
  cases hflag : s.awaker.awaked with
  | true =>
    rw [show s.next (.coAwait handle) = s.complete from if_pos hflag]
    have hw := h.flag.mp hflag
    exact ⟨h.complete he hw, h.complete_ownWakes hw⟩
  | false =>
    have hnone : ¬ s.wakes ≠ [] := by
      rw [← h.flag, hflag]
      exact Bool.false_ne_true
    have hcompleted : s.completed = [] := by
      by_contra hne
      exact hnone (h.after hne)
    have hnext : s.next (.coAwait handle) =
        { s with awaker := s.awaker.awaitSuspend handle, waiter := some handle } :=
      if_neg (by rw [CheckableAwaker.awaitReady, hflag]; exact Bool.false_ne_true)
    have hwoken : s.Woken (.coAwait handle) := by
      intro c hc
      rw [hcompleted] at hc
      cases hc
    rw [hnext, and_iff_left hwoken]
    refine ⟨⟨h.ready, h.queued, ?_, fun _ => hcompleted, fun hw => absurd hw hnone, h.seen, h.after⟩, ?_⟩
    · exact iff_of_false Bool.false_ne_true hnone
    · exact ownWakes_congr rfl rfl

theorem Inv.pass [DecidableEq H] (h : s.Inv) :
    (s.next .pass).Inv ∧ ((s.next .pass).OwnWakes ↔ s.OwnWakes) := by
  obtain ⟨hready, ⟨-, hnil, hzero⟩ | ⟨c, hcons, hone⟩⟩ := h.ready.dequeue_cases s.handle
  · have hstep : s.next .pass = { s with
        sched := (s.sched.dequeue s.handle).1, handle := (s.sched.dequeue s.handle).2.2 } :=
      if_neg fun hc => hc.1 hzero
    rw [hstep]
    refine ⟨⟨hready, fun hne => absurd hnil hne, h.flag, h.waiting, h.ret, h.seen, h.after⟩, ?_⟩
    exact ownWakes_congr rfl rfl
  · have hw := h.queued (by rw [hcons]; exact List.cons_ne_nil _ _)
    -- the state in which the handle `c` is resumed
    have htaken : Inv { s with sched := (s.sched.dequeue s.handle).1, handle := c } :=
      ⟨hready, fun _ => hw, h.flag, h.waiting, h.ret, h.seen, h.after⟩
    by_cases hc : s.waiter = some c
    · have hempty := h.waiting (by rw [hc]; exact Option.some_ne_none c)
      have hstep : s.next .pass =
          Rounds.complete { s with sched := (s.sched.dequeue s.handle).1, handle := c, waiter := none } := by
        simp only [next, hone]
        exact if_pos ⟨show (1 : UInt32) ≠ 0 by decide, hc⟩
      have hinv : Inv { s with sched := (s.sched.dequeue s.handle).1, handle := c, waiter := none } :=
        ⟨hready, fun _ => hw, h.flag, fun hne => absurd rfl hne, h.ret, h.seen, h.after⟩
      rw [hstep]
      refine ⟨hinv.complete rfl hw, (hinv.complete_ownWakes hw).trans ?_⟩
      rw [and_iff_left (by simp [hempty])]
      exact ownWakes_congr rfl rfl
    · have hstep : s.next .pass = { s with sched := (s.sched.dequeue s.handle).1, handle := c } := by
        simp only [next, hone]
        exact if_neg fun hboth => hc hboth.2
      rw [hstep]
      exact ⟨htaken, ownWakes_congr rfl rfl⟩

/-- After a run all completed `co_await`s had wakes of their own exactly when each of them began
after a wake that no earlier one had seen, once one was completed. -/
theorem ownWakes_iff [DecidableEq H] (h : s.Init) {acts : List (Act T H)}
    (he : (machine T H).AllEnabled s acts) :
    ((machine T H).runList s acts).OwnWakes ↔ ((machine T H).restrict Woken).AllEnabled s acts := by
  have hrule := @Machine.law_iff_allEnabled _ _ (machine T H) Inv OwnWakes Woken
  have hlaw : s.OwnWakes := by
    constructor <;> rw [h.completed]
    case enough => exact fun i c hc => by cases hc
    case own => exact List.Pairwise.nil
    case latest => exact fun c hc => by cases hc
  refine (hrule ?_ ?_ h.inv he).trans (and_iff_right hlaw)
  · intro s a hen hi
    cases a with
    | wake ret => exact (hi.wake ret).1
    | coAwait handle => exact (hi.coAwait hen).1
    | pass => exact hi.pass.1
  · intro s a hen hi
    cases a with
    | wake ret => exact (hi.wake ret).2.trans (and_iff_left trivial).symm
    | coAwait handle => exact (hi.coAwait hen).2
    | pass => exact hi.pass.2.trans (and_iff_left trivial).symm

/-! ## Two rounds -/

/-- A fresh awaker and an empty queue. -/
def fresh : Rounds Nat Nat where
  awaker := ⟨⟨none, 0⟩, false⟩
  sched := .init fun _ => 0
  handle := 0
  waiter := none
  wakes := []
  completed := []

theorem fresh_init : fresh.Init := ⟨rfl, rfl, SQKScheduler.init_fresh _, rfl, rfl, rfl⟩

/-- The second wake comes before the second `co_await`. -/
theorem ownWakes_iff_twice :
    ((machine Nat Nat).runList fresh [.coAwait 1, .wake 7, .pass, .wake 8, .coAwait 1]).OwnWakes ↔
      ((machine Nat Nat).restrict Woken).AllEnabled fresh
        [.coAwait 1, .wake 7, .pass, .wake 8, .coAwait 1] :=
  ownWakes_iff fresh_init (by decide +kernel)

/-- The second `co_await` begins after the first has completed, and completes without a wake, with
the value that the first has moved out. -/
theorem completes_unwoken : ∃ s : Rounds Nat Nat, s.Init ∧
    (machine Nat Nat).AllEnabled s [.coAwait 1, .wake 7, .pass, .coAwait 1] ∧
    ((machine Nat Nat).runList s [.coAwait 1, .wake 7, .pass]).completed = [⟨7, 1⟩] ∧
    ((machine Nat Nat).runList s [.coAwait 1, .wake 7, .pass, .coAwait 1]).completed =
      [⟨7, 1⟩, ⟨7, 1⟩] :=
  ⟨fresh, fresh_init, by decide +kernel, by decide +kernel, by decide +kernel⟩

end Rounds

end Sqkio
