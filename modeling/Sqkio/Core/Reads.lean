import Sqkio.Core.References

/-!
# Reads of promises

`MaybeSuspend<T>::await_resume` returns a `T&&` into the promise.  If the task never
suspended it has destroyed the frame by then, so the expression that moves from the
reference reads freed memory; and a reference that is held while the coroutine suspends
again outlives the frame as well.  `Holding.soundReads_iff` shows that these are the only
ways in which a promise is read after its frame is gone, or another value obtained than
was returned.
-/

namespace Sqkio.Runtime

open Sqkio.Lib

variable {X V E : Type}

/-- Promises are read while their frames are alive, and what an expression moves from a
reference is the value that the task returned. -/
structure SoundReads (r : Runtime X V E) : Prop where
  alive : ∀ d ∈ r.reads, d.alive = true
  values : ∀ m ∈ r.moves, m.returned = some (.ok m.value)

/-- A task whose value is used has suspended. -/
def Suspends (r : Runtime X V E) : Act X V E → Prop
  | .move _ => ∀ c, r.referred = some c → (r.frames c).suspensions ≠ 0
  | _ => True

variable {r : Runtime X V E} {c p : Nat} {rest : List Activation} {o : Except E V}

/-- The logs grow by reads of live frames. -/
structure ReadsLive (r r' : Runtime X V E) : Prop where
  reads : ∃ new, r'.reads = r.reads ++ new ∧ ∀ d ∈ new, d.alive = true
  moves : r'.moves = r.moves

theorem ReadsLive.sound {r' : Runtime X V E} (h : ReadsLive r r') : r'.SoundReads ↔ r.SoundReads := by
  obtain ⟨⟨new, hreads, hnew⟩, hmoves⟩ := h
  constructor
  · rintro ⟨ha, hv⟩
    rw [hreads] at ha
    rw [hmoves] at hv
    exact ⟨fun d hd => ha d (List.mem_append_left _ hd), hv⟩
  · rintro ⟨ha, hv⟩
    refine ⟨?_, by rw [hmoves]; exact hv⟩
    rw [hreads]
    exact List.forall_mem_append.mpr ⟨ha, hnew⟩

theorem ReadsLive.same {r' : Runtime X V E} (hr : r'.reads = r.reads) (hm : r'.moves = r.moves) :
    ReadsLive r r' := ⟨⟨[], by rw [hr, List.append_nil], nofun⟩, hm⟩

/-- Only moves can read a frame that is gone. -/
theorem next_readsLive [DecidableEq X] [Inhabited V] (hi : r.Inv) {a : Act X V E} (he : r.Enabled a)
    (ha : ∀ freed, a ≠ .move freed) : ReadsLive r (r.next a) := by
  have hleave : ∀ o, r.InBody → ReadsLive r (r.leave o) := by
    rintro o ⟨c, rest, hs⟩
    cases hcl : (r.frames c).caller with
    | null =>
      rw [leave_null hs hcl]
      exact .same rfl rfl
    | noop =>
      rw [leave_noop hs hcl]
      exact .same rfl rfl
    | frame p =>
      obtain ⟨hp, hpt, hne⟩ := hi.calls.body_caller hs hcl
      have hc := (hi.calls.body_running hs).1
      rw [leave_frame hs hcl hne hp hpt]
      exact ⟨⟨[⟨c, true⟩], by simp [hc.alive], by simp⟩, by simp⟩
  cases a with
  | enqueueTask => exact .same rfl rfl
  | wake x ret =>
    cases hx : (r.awakers x).handle with
    | none =>
      rw [show r.next (.wake x ret) = r.wake x ret from rfl, wake_none hx]
      exact .same rfl rfl
    | some c =>
      rw [show r.next (.wake x ret) = r.wake x ret from rfl, wake_some hx]
      exact .same rfl rfl
  | pass =>
    cases hq : r.queued with
    | nil =>
      rw [show r.next .pass = r.pass from rfl, (pass_idle hi.waits hq).1]
      exact .same rfl rfl
    | cons q qs =>
      obtain ⟨c, cause⟩ := q
      obtain ⟨hc, hends⟩ := hi.waits.ends (c, cause) (by rw [hq]; exact List.mem_cons_self)
      obtain ⟨a, received, hres, -⟩ := resume_parked (r := r.taken c cause qs) hc hends.parked
      rw [show r.next .pass = r.pass from rfl, (pass_resume hi.waits hq).1, hres]
      exact .same rfl rfl
  | coAwaitTask =>
    obtain ⟨p, rest, hs⟩ := he
    rw [show r.next .coAwaitTask = r.coAwaitTask from rfl,
      coAwaitTask_eq hs (hi.calls.body_running hs).1.1]
    exact ⟨⟨[⟨r.allocated, true⟩], by simp, by simp⟩, by simp⟩
  | coAwait x =>
    obtain ⟨c, rest, hs⟩ := he
    cases hx : (r.awakers x).awaitReady with
    | true =>
      rw [show r.next (.coAwait x) = r.coAwait x from rfl, coAwait_ready hs hx]
      exact .same rfl rfl
    | false =>
      rw [show r.next (.coAwait x) = r.coAwait x from rfl, coAwait_suspended hs hx]
      exact .same rfl rfl
  | coYield =>
    obtain ⟨c, rest, hs⟩ := he
    rw [show r.next .coYield = r.coYield from rfl, coYield_eq hs]
    exact .same rfl rfl
  | move freed => exact absurd rfl (ha freed)
  | coReturn v => exact hleave (.ok v) he
  | throws e => exact hleave (.error e) he
  | back =>
    show ReadsLive r r.back
    cases hst : r.stack with
    | nil => exact absurd hst he.1
    | cons a rest =>
      cases a with
      | body c => exact absurd ⟨c, rest, hst⟩ he.2
      | transform p c =>
        obtain ⟨hc, hnull⟩ := hi.calls.transform p c (by rw [hst]; exact List.mem_cons_self)
        by_cases hpt : (r.frames c).point = .final
        · rw [back_final hst hpt hnull]
          exact ⟨⟨[⟨c, true⟩, ⟨c, true⟩, ⟨c, true⟩], by simp [hc.alive], by simp⟩, by simp⟩
        · rw [back_suspended hst hpt]
          exact ⟨⟨[⟨c, true⟩], by simp [hc.alive], by simp⟩, rfl⟩
      | finishing c =>
        rw [back_finishing hst]
        exact .same rfl rfl

/-- A read through a reference finds the frame alive and the value returned, or the frame gone. -/
theorem use_sound {v : V} (hc : c < r.allocated)
    (hval : ∃ w, (r.frames c).returned = some (.ok w) ∧ (r.frames c).result = .ok w) :
    (r.use c v).SoundReads ↔ r.SoundReads ∧ r.Live c := by
  obtain ⟨w, hret, hres⟩ := hval
  by_cases hl : r.Live c
  · rw [and_iff_left hl]
    constructor
    · rintro ⟨ha, hv⟩
      exact ⟨fun d hd => ha d (List.mem_append_left _ hd), fun m hm => hv m (List.mem_append_left _ hm)⟩
    · rintro ⟨ha, hv⟩
      refine ⟨List.forall_mem_append.mpr ⟨ha, ?_⟩, List.forall_mem_append.mpr ⟨hv, ?_⟩⟩
      · simp [hl.alive]
      · simp [hl.alive, hres, hret, Except.toOption]
  · refine iff_of_false ?_ fun h => hl h.2
    rintro ⟨ha, -⟩
    have := ha ⟨c, r.alive c⟩ (List.mem_append_right _ (List.mem_singleton_self _))
    rw [not_alive hl hc] at this
    cases this

/-- A task without a caller that is gone never suspended. -/
theorem Promises.suspensions_of_null (h : r.Promises) (hc : c < r.allocated)
    (hnull : (r.frames c).caller = .null) (hdead : ¬ r.Live c) : (r.frames c).suspensions = 0 := by
  rcases h.destroyed c hc with hd | ⟨-, -, hfinal⟩ | ⟨-, hne⟩
  · exact absurd ⟨hc, hd⟩ hdead
  · exact h.sync c hc hnull (.inr hfinal)
  · exact absurd hnull hne

/-- A move finds the frame alive, and the value returned, exactly if the task has suspended. -/
theorem move_sound {v : V} (hi : r.Inv) (hp : r.Promises) (he : r.referred.isSome = true) :
    (r.move v).SoundReads ↔ r.SoundReads ∧ r.Suspends (.move v) := by
  obtain ⟨c, hc⟩ := Option.isSome_iff_exists.mp he
  obtain ⟨p, rest, hs, hr⟩ := referred_eq_some hc
  obtain ⟨hval, hcase⟩ := hp.reference p c rest hs hr
  have hsus : r.Suspends (.move v) ↔ (r.frames c).suspensions ≠ 0 := by
    simp [Suspends, hc]
  have huse : (r.move v).SoundReads ↔ (r.use c v).SoundReads := by
    rw [move_eq hs hr]
    exact ⟨fun h => ⟨h.alive, h.values⟩, fun h => ⟨h.alive, h.values⟩⟩
  rw [huse, use_sound (hp.referred_lt hi hs hr) hval, hsus]
  refine and_congr_right' ?_
  rcases hcase with ⟨hnull, hlt, hdead⟩ | ⟨⟨q, hq⟩, -, hfin⟩
  · -- `await_resume` has destroyed the frame
    exact iff_of_false hdead fun hne => hne (hp.suspensions_of_null hlt hnull hdead)
  · -- the task is in `final_suspend` until the running one suspends
    have hlive : r.Live c := ((hi.calls.running c).mp
      (by rw [hs]; exact List.mem_cons_of_mem _ (mem_frames hfin))).1
    exact iff_of_true hlive (hp.caller c q hlive.1 hq)

/-- A reference that is still held leads to a live frame exactly if its task has suspended
and the coroutine that got it neither has suspended since nor is gone. -/
theorem Placed.live_iff {h : Reference} (hpl : r.Placed h) (hi : r.Inv) (hp : r.Promises)
    (hbody : r.stack = [] ∨ r.InBody) :
    r.Live h.frame ↔ (r.frames h.frame).suspensions ≠ 0 ∧ r.Holds h := by
  rcases hpl.caller with ⟨hnull, hdead⟩ | ⟨⟨q, hq⟩, -⟩
  · exact iff_of_false hdead fun hout => hout.1 (hp.suspensions_of_null hpl.frame hnull hdead)
  · rw [and_iff_right (hp.caller h.frame q hpl.frame hq)]
    constructor
    · intro hl
      by_contra hout
      have hall := hpl.left hout hl
      rcases hbody with hnil | ⟨c, rest, hs⟩
      · have hfin := hpl.ended hl
        rw [hnil] at hfin
        cases hfin
      · obtain ⟨d, hd⟩ := hall (.body c) (by rw [hs]; exact List.mem_cons_self)
        cases hd
    · intro hh
      have hunder := hpl.held (by rw [hq]; nofun) hh
      exact ((hi.calls.running h.frame).mp (mem_frames hunder.mem)).1

theorem Init.soundReads (h : r.Init) : r.SoundReads :=
  ⟨by rw [h.reads]; nofun, by rw [h.moves]; nofun⟩

end Sqkio.Runtime

namespace Sqkio.Holding

open Sqkio.Lib

variable {X V E : Type} {s : Holding X V E}

/-- A task whose value is used has suspended, and a reference that is used later has been held
only until the coroutine that got it suspended again. -/
def Timely (s : Holding X V E) : Act X V E → Prop
  | .runtime a => s.rt.Suspends a
  | .use h _ => (s.rt.frames h.frame).suspensions ≠ 0 ∧ s.rt.Holds h

theorem next_sound [DecidableEq X] [Inhabited V] (hi : s.Inv) {a : Act X V E} (he : s.Enabled a) :
    (s.next a).rt.SoundReads ↔ s.rt.SoundReads ∧ s.Timely a := by
  cases a with
  | runtime a =>
    by_cases hm : ∃ freed, a = .move freed
    · obtain ⟨freed, rfl⟩ := hm
      exact Runtime.move_sound hi.rt hi.promises he
    · have hne : ∀ freed, a ≠ .move freed := fun freed ha => hm ⟨freed, ha⟩
      refine (Runtime.next_readsLive hi.rt he hne).sound.trans (and_iff_left ?_).symm
      cases a with
      | move freed => exact absurd rfl (hne freed)
      | _ => trivial
  | use h freed =>
    have hpl := hi.held h he.1
    exact (Runtime.use_sound hpl.frame hpl.value).trans
      (and_congr_right' (hpl.live_iff hi.rt hi.promises he.2))

/-- In a run whose wakes are proper, promises are read only while their frames are alive, and
the values obtained are those returned, exactly when every task whose value is used has
suspended and no reference is used after the coroutine that got it has suspended again or ended. -/
theorem soundReads_iff [DecidableEq X] [Inhabited V] (h : s.Init) {acts : List (Act X V E)}
    (he : ((machine X V E).restrict Proper).AllEnabled s acts) :
    ((machine X V E).runList s acts).rt.SoundReads ↔
      (((machine X V E).restrict Proper).restrict Timely).AllEnabled s acts := by
  have hrule := @Machine.law_iff_allEnabled _ _ ((machine X V E).restrict Proper) Inv
    (fun s => s.rt.SoundReads) Timely
  refine (hrule ?_ ?_ h.inv he).trans (and_iff_right h.rt.soundReads)
  · exact fun s a hen hi => hi.next hen.1 hen.2
  · exact fun s a hen hi => next_sound hi hen.1

/-! ## One task awaits others -/

/-- One `Awaker`, an empty queue and no task. -/
def idle (V E : Type) [Inhabited V] : Holding Unit V E := ⟨.idle V E, []⟩

theorem idle_init (V E : Type) [Inhabited V] : (idle V E).Init := ⟨Runtime.idle_init V E, rfl⟩

/-- A body that keeps `auto&& x = co_await a`, where `a` yields once and returns 5, and awaits
a task that does not suspend, before it uses `x`. -/
def keeping : List (Act Unit Nat Unit) :=
  [.enqueueTask, .pass, .coAwaitTask, .coYield, .back, .pass, .coReturn 5, .coAwaitTask, .coReturn 7,
    .back].map .runtime ++ [.use ⟨1, 0, 1⟩ 0]

theorem soundReads_iff_keeping :
    ((machine Unit Nat Unit).runList (idle Nat Unit) keeping).rt.SoundReads ↔
      (((machine Unit Nat Unit).restrict Proper).restrict Timely).AllEnabled (idle Nat Unit) keeping :=
  soundReads_iff (idle_init Nat Unit) (by decide +kernel)

/-- The child returns 5 inside `await_transform`: `await_resume` destroys its frame, and the
expression around `co_await` reads what is left there. -/
theorem reads_destroyed : ∃ s : Holding Unit Nat Unit, s.Init ∧
    ((machine Unit Nat Unit).restrict Proper).AllEnabled s
      ([.enqueueTask, .pass, .coAwaitTask, .coReturn 5, .back, .move 0].map .runtime) ∧
    (∃ d ∈ ((machine Unit Nat Unit).runList s
      ([.enqueueTask, .pass, .coAwaitTask, .coReturn 5, .back, .move 0].map .runtime)).rt.reads,
      d.alive = false) ∧
    ∃ m ∈ ((machine Unit Nat Unit).runList s
      ([.enqueueTask, .pass, .coAwaitTask, .coReturn 5, .back, .move 0].map .runtime)).rt.moves,
      m.returned = some (.ok 5) ∧ m.value = 0 :=
  ⟨idle Nat Unit, idle_init Nat Unit, by decide +kernel, by decide +kernel, by decide +kernel⟩

/-- A child that has suspended is gone as well when its caller comes back from `co_yield`. -/
example : ((machine Unit Nat Unit).runList (idle Nat Unit)
    ([.enqueueTask, .pass, .coAwaitTask, .coYield, .back, .pass, .coReturn 5, .coYield, .back,
      .pass].map .runtime ++ [.use ⟨1, 0, 1⟩ 0])).rt.moves = [⟨1, 0, some (.ok 5)⟩] := by
  decide +kernel

end Sqkio.Holding
