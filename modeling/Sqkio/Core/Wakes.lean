import Sqkio.Core.Inv

/-!
# One suspension, at most one resumption

`wake` queues the coroutine in `handle_` and leaves it there until `await_resume`, so a
second `wake` before the run loop gets to it queues the coroutine twice.
`resumedOnce_iff` shows that nothing else goes wrong: in a run whose queue is never
full, no coroutine is queued twice and every handle resumes the suspension it was queued
for, exactly when every `wake` is proper.
-/

namespace Sqkio

open Sqkio.Lib

variable {X V E : Type}

/-- A handle that a `wake` on `x` put into the queue is resumed while its coroutine is still
in the suspension at `x` that it was queued for. -/
def Resumption.OnTime (e : Resumption X) : Prop :=
  match e.cause with
  | .wake x n => e.alive = true ∧ e.point = .awaker x ∧ e.suspensions = n
  | _ => True

instance [DecidableEq X] (e : Resumption X) : Decidable e.OnTime :=
  match h : e.cause with
  | .start | .yield _ => isTrue (by simp [Resumption.OnTime, h])
  | .wake x n => decidable_of_iff (e.alive = true ∧ e.point = .awaker x ∧ e.suspensions = n)
      (by simp [Resumption.OnTime, h])

namespace Runtime

variable {r : Runtime X V E} {c p : Nat}

/-- No coroutine is queued twice, and no `wake` has resumed one at the wrong time. -/
def ResumedOnce (r : Runtime X V E) : Prop :=
  r.sched.waiting.Nodup ∧ ∀ e ∈ r.resumptions, e.OnTime

/-- The queue is not full. -/
def Room (r : Runtime X V E) (_ : Act X V E) : Prop := r.sched.waiting.length < 1023

instance (r : Runtime X V E) (a : Act X V E) : Decidable (r.Room a) :=
  inferInstanceAs (Decidable (r.sched.waiting.length < 1023))

/-! ## The log of resumptions -/

section

theorem awaitResume_resumptions : (r.awaitResume p c).resumptions = r.resumptions := by
  by_cases hc : (r.frames c).caller = .null
  · rw [awaitResume_destroyed hc]
    rfl
  · rw [awaitResume_kept hc]
    rfl

variable [DecidableEq X]

theorem resume_resumptions : (r.resume c).resumptions = r.resumptions := by
  unfold resume
  split
  · split
    · rfl
    · rfl
    · rfl
    · exact awaitResume_resumptions
    · rfl
    · rfl
  · rfl

theorem finalSuspend_resumptions {rest : List Activation} :
    (r.finalSuspend c rest).resumptions = r.resumptions := by
  unfold finalSuspend
  split
  · rfl
  · rfl
  · exact resume_resumptions

/-- Only the run loop resumes handles of the queue. -/
theorem next_resumptions [Inhabited V] {a : Act X V E} (ha : a ≠ .pass) :
    (r.next a).resumptions = r.resumptions := by
  cases a with
  | enqueueTask => rfl
  | wake x ret =>
    simp only [next, wake, AnyAwaker.wake_snd, setAwaker]
    cases (r.awakers x).handle <;> rfl
  | pass => exact absurd rfl ha
  | coAwaitTask =>
    simp only [next, coAwaitTask]
    split
    · exact resume_resumptions
    · rfl
  | coAwait x =>
    simp only [next, coAwait]
    split
    · split <;> rfl
    · rfl
  | coYield =>
    simp only [next, coYield]
    split <;> rfl
  | move freed =>
    simp only [next, move]
    split
    · split <;> rfl
    · rfl
  | coReturn v =>
    simp only [next, leave]
    split
    · exact finalSuspend_resumptions
    · rfl
  | throws e =>
    simp only [next, leave]
    split
    · exact finalSuspend_resumptions
    · rfl
  | back =>
    simp only [next, back]
    split
    · split
      · exact awaitResume_resumptions
      · rfl
    · rfl
    · rfl

/-- A pass resumes the oldest handle, if there is one, at the point it was queued for. -/
theorem pass_resumptions (h : r.Inv) (hl : ∀ e ∈ r.resumptions, e.OnTime) :
    ∀ e ∈ r.pass.resumptions, e.OnTime := by
  cases hq : r.queued with
  | nil =>
    rw [(pass_idle h.waits hq).1]
    exact hl
  | cons q qs =>
    obtain ⟨c, cause⟩ := q
    obtain ⟨hc, he⟩ := h.waits.ends (c, cause) (by rw [hq]; exact List.mem_cons_self)
    rw [(pass_resume h.waits hq).1, resume_resumptions]
    refine List.forall_mem_append.mpr ⟨hl, ?_⟩
    rw [List.forall_mem_singleton]
    cases cause with
    | start => trivial
    | yield n => trivial
    | wake x n => exact ⟨Live.alive hc, he.1, he.2⟩

end

/-! ## The boundary -/

section

variable [DecidableEq X]

/-- A `wake` that is not proper queues a coroutine that is queued already. -/
theorem wake_twice {x : X} {ret : V} (h : r.Inv) (hroom : r.sched.waiting.length < 1023)
    (hx : (r.awakers x).handle = some c) (hc : c ∈ r.sched.waiting) :
    ¬ (r.wake x ret).sched.waiting.Nodup := by
  have hready := h.waits.ready
  rw [← h.waits.waiting_eq] at hready
  have hnext := (hready.enqueue_room hroom c).waiting_eq
  rw [wake_some hx]
  intro hn
  rw [show ((r.enqueue (.wake x (r.since x)) c).setAwaker x _).sched.waiting =
    r.sched.waiting ++ [c] from hnext, List.nodup_append] at hn
  exact hn.2.2 c hc c (List.mem_singleton_self c) rfl

/-- In a run whose queue is never full, all states are right exactly when every `wake` that
finds a coroutine in `handle_` does not find it in the queue. -/
theorem resumedOnce_iff [Inhabited V] (h : r.Init) {acts : List (Act X V E)}
    (he : ((machine X V E).restrict Room).AllEnabled r acts) :
    (∀ n, ((machine X V E).runList r (acts.take n)).ResumedOnce) ↔
      (((machine X V E).restrict Room).restrict Proper).AllEnabled r acts := by
  have hrule := @Machine.always_iff_allEnabled _ _ ((machine X V E).restrict Room)
    (fun s => s.Inv ∧ ∀ e ∈ s.resumptions, e.OnTime) ResumedOnce Proper
  refine hrule ?_ ?_ ?_ ⟨h.inv, by rw [h.resumptions]; nofun⟩ he
  · rintro s ⟨hi, hl⟩
    refine ⟨?_, hl⟩
    rw [hi.waits.waiting_eq]
    exact hi.waits.nodup
  · rintro s a ⟨hen, -⟩ hp ⟨hi, hl⟩
    refine ⟨hi.next hen hp, ?_⟩
    by_cases ha : a = .pass
    · subst ha
      exact pass_resumptions hi hl
    · rw [show ((machine X V E).restrict Room).next s a = s.next a from rfl, next_resumptions ha]
      exact hl
  · rintro s a ⟨-, hroom⟩ ⟨hi, -⟩ hgood
    cases a with
    | wake x ret =>
      intro c hx hc
      exact wake_twice hi hroom hx hc hgood.1
    | _ => trivial

end

/-! ## One coroutine and one awaker -/

/-- A task awaits the awaker and is woken once. -/
theorem resumedOnce_iff_once :
    (∀ n, ((machine Unit Unit Unit).runList (idle Unit Unit)
      ([.enqueueTask, .pass, .coAwait (), .wake () (), .pass].take n)).ResumedOnce) ↔
    (((machine Unit Unit Unit).restrict Room).restrict Proper).AllEnabled (idle Unit Unit)
      [.enqueueTask, .pass, .coAwait (), .wake () (), .pass] :=
  resumedOnce_iff (idle_init Unit Unit) (by decide +kernel)

/-- Two wakes before the run loop gets to the first: the coroutine is queued twice, and the
second handle ends a `co_await` that it was not queued for. -/
theorem woken_twice : ∃ r : Runtime Unit Unit Unit, r.Init ∧
    ((machine Unit Unit Unit).restrict Room).AllEnabled r
      [.enqueueTask, .pass, .coAwait (), .wake () (), .wake () (), .pass, .coAwait (), .pass] ∧
    ¬ ((machine Unit Unit Unit).runList r
      [.enqueueTask, .pass, .coAwait (), .wake () (), .wake () ()]).sched.waiting.Nodup ∧
    ¬ ∀ e ∈ ((machine Unit Unit Unit).runList r
      [.enqueueTask, .pass, .coAwait (), .wake () (), .wake () (), .pass, .coAwait (),
        .pass]).resumptions, e.OnTime :=
  ⟨idle Unit Unit, idle_init Unit Unit, by decide +kernel, by decide +kernel, by decide +kernel⟩

end Runtime

end Sqkio
