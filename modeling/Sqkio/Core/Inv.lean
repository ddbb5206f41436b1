import Sqkio.Core.Step

/-!
# The invariant of the runtime

`Inv` holds in every state of every run in which `wake` never meets a coroutine that is
queued already (`Proper`): `Reachable.inv`.  One theorem for each act.
-/

namespace Sqkio.Runtime

open Sqkio.Lib

variable {X V E : Type}

structure Inv (r : Runtime X V E) : Prop where
  calls : r.Calls
  waits : r.Waits

/-- A `wake` that finds a waiting coroutine does not find it in the queue. -/
def Proper (r : Runtime X V E) : Act X V E → Prop
  | .wake x _ => ∀ c, (r.awakers x).handle = some c → c ∉ r.sched.waiting
  | _ => True

instance : (r : Runtime X V E) → (a : Act X V E) → Decidable (r.Proper a)
  | r, .wake x _ =>
    match h : (r.awakers x).handle with
    | none => isTrue (by simp [Proper, h])
    | some c => decidable_of_iff (c ∉ r.sched.waiting) (by simp [Proper, h])
  | _, .enqueueTask | _, .pass | _, .coAwaitTask | _, .coAwait _ | _, .coYield | _, .move _
  | _, .coReturn _ | _, .throws _ | _, .back => isTrue trivial

variable {r : Runtime X V E} {c p : Nat} {rest : List Activation} {o : Except E V}

theorem Init.inv (h : r.Init) : r.Inv := by
  have hlive : ∀ c, ¬ r.Live c := by
    intro c hc
    have := hc.1
    rw [h.allocated] at this
    exact Nat.not_lt_zero _ this
  refine ⟨?_, ?_⟩
  · constructor <;> rw [h.stack]
    case nodup => exact List.nodup_nil
    case running => exact fun c => ⟨nofun, fun hc => absurd hc.1 (hlive c)⟩
    case nested => trivial
    case caller => exact fun c _ hc => absurd hc (hlive c)
    case child => exact fun c _ hc => absurd hc (hlive c)
    case final => exact fun c hc => absurd hc (hlive c)
    case null => exact fun c hc => absurd hc (hlive c)
    case transform => nofun
    case top => nofun
  · constructor
    case ready =>
      rw [h.queued]
      exact h.sched.ready
    case nodup =>
      rw [h.queued]
      exact List.nodup_nil
    case ends =>
      rw [h.queued]
      nofun
    case handles =>
      intro x c hx
      rw [h.awakers x] at hx
      cases hx

namespace Inv

/-! ## Suspension -/

/-- The body on top is suspended, at a point of its own. -/
theorem suspend (h : r.Inv) (hs : r.stack = .body c :: rest) {q : Point X} (hp : q.Parked) :
    ((r.suspend c q).setStack rest).Inv := by
  obtain ⟨hc, hrun⟩ := h.calls.body_running hs
  have hpt : q ≠ .running ∧ q ≠ .final ∧ ∀ d, q ≠ .child d :=
    ⟨by rintro rfl; exact hp, by rintro rfl; exact hp, by rintro d rfl; exact hp⟩
  refine ⟨h.calls.suspend hs rfl (by simp) (by simp) ?_ (by simpa using hpt.1) (by simpa using hpt.2.1)
    (by simpa using hpt.2.2), h.waits.keep rfl rfl (fun _ _ => id) rfl fun d hd hpark => ?_⟩
  · intro d hd
    rw [setStack_frames, modify_of_ne hd]
  · have hne : d ≠ c := by
      rintro rfl
      rw [hrun] at hpark
      exact hpark
    rw [setStack_frames, modify_of_ne hne]
    exact ⟨by simpa using hd, rfl, rfl⟩

theorem enqueue {e : Cause X} (h : r.Inv) (hc : r.Live c) (he : e.Ends (r.frames c))
    (hout : c ∉ r.queued.map Prod.fst) : (r.enqueue e c).Inv :=
  ⟨h.calls.congr rfl (fun _ => Iff.rfl) (fun _ => rfl) fun _ => rfl, h.waits.enqueue hc he hout⟩

/-- Only parked coroutines are queued. -/
theorem not_queued (h : r.Inv) (hpark : ¬ (r.frames c).point.Parked) : c ∉ r.queued.map Prod.fst := by
  intro hm
  obtain ⟨q, hq, rfl⟩ := List.mem_map.mp hm
  exact hpark (h.waits.ends q hq).2.parked

theorem coYield (h : r.Inv) (hs : r.stack = .body c :: rest) : r.coYield.Inv := by
  obtain ⟨hc, hrun⟩ := h.calls.body_running hs
  rw [coYield_eq hs]
  refine (h.suspend hs (q := .yield) trivial).enqueue (by simpa using hc) ?_ ?_
  · rw [setStack_frames, modify_self]
    exact ⟨rfl, rfl⟩
  · exact h.not_queued (by rw [hrun]; exact id)

section

variable [DecidableEq X]

/-- An awaker's `handle_` is cleared or kept. -/
theorem setAwaker (h : r.Inv) {x : X} {a : AnyAwaker V Nat}
    (ha : ∀ c, a.handle = some c → (r.awakers x).handle = some c) : (r.setAwaker x a).Inv := by
  refine ⟨h.calls.congr rfl (fun _ => Iff.rfl) (fun _ => rfl) fun _ => rfl,
    h.waits.keep rfl rfl (fun y d hd => ?_) rfl fun d hd _ => ⟨hd, rfl, rfl⟩⟩
  by_cases hxy : y = x
  · subst hxy
    rw [setAwaker_self] at hd
    exact ha d hd
  · rwa [setAwaker_of_ne hxy] at hd

omit [DecidableEq X] in
theorem receive (h : r.Inv) {received : Received V E} : (r.receive c received).Inv :=
  ⟨h.calls.congr rfl (by simp) (by simp) (by simp),
    h.waits.keep rfl rfl (fun _ _ => id) rfl fun d hd _ => by simpa using hd⟩

theorem coAwait {x : X} (h : r.Inv) (hs : r.stack = .body c :: rest) : (r.coAwait x).Inv := by
  obtain ⟨hc, hrun⟩ := h.calls.body_running hs
  cases hx : (r.awakers x).awaitReady with
  | true =>
    rw [coAwait_ready hs hx]
    refine (h.setAwaker fun d hd => ?_).receive
    rw [AnyAwaker.handle_awaitResume] at hd
    cases hd
  | false =>
    rw [coAwait_suspended hs hx]
    have hsus := h.suspend hs (q := .awaker x) trivial
    have hwait := hsus.waits.await x (by simpa using hc)
      (by rw [setStack_frames, modify_self])
    rw [setStack_frames, modify_self] at hwait
    exact ⟨hsus.calls.congr rfl (fun _ => Iff.rfl) (fun _ => rfl) fun _ => rfl, hwait⟩

/-! ## Ends of bodies and returns -/

omit [DecidableEq X] in
theorem parked_ne (hc : ¬ (r.frames c).point.Parked) {d : Nat} (hd : (r.frames d).point.Parked) :
    d ≠ c := by
  rintro rfl
  exact hc hd

theorem leave (h : r.Inv) (hs : r.stack = .body c :: rest) : (r.leave o).Inv := by
  obtain ⟨hc, hrun⟩ := h.calls.body_running hs
  have hpc : ¬ (r.frames c).point.Parked := by rw [hrun]; exact id
  cases hcl : (r.frames c).caller with
  | null =>
    rw [leave_null hs hcl]
    refine ⟨h.calls.finish_null hs rfl (by simp) (by simp) ?_ hcl (by simp),
      h.waits.keep rfl rfl (fun _ _ => id) rfl fun d hd hpark => ?_⟩
    · intro d hd
      simp [modify_of_ne hd]
    · simpa [modify_of_ne (parked_ne hpc hpark)] using hd
  | noop =>
    rw [leave_noop hs hcl]
    refine ⟨h.calls.finish_noop hs rfl (by simp) (by simp) (by simp) hcl,
      h.waits.keep rfl rfl (fun _ _ => id) rfl fun d hd hpark => ?_⟩
    simpa using ⟨hd, parked_ne hpc hpark⟩
  | frame p =>
    obtain ⟨hp, hpt, hne⟩ := h.calls.body_caller hs hcl
    rw [leave_frame hs hcl hne hp hpt]
    refine ⟨h.calls.finish_frame hs (by simp) (by simp) (by simp) ?_ hcl (by simp),
      h.waits.keep (by simp) (by simp) (by simp) (by simp) fun d hd hpark => ?_⟩
    · intro d hd
      simp [modify_of_ne hd]
    · have hpp : ¬ (r.frames p).point.Parked := by rw [hpt]; exact id
      simpa [modify_of_ne (parked_ne hpp hpark)] using hd

theorem back (h : r.Inv) (hs : r.stack ≠ []) (hb : ¬ r.InBody) : r.back.Inv := by
  cases hst : r.stack with
  | nil => exact absurd hst hs
  | cons a rest =>
    cases a with
    | body c => exact absurd ⟨c, rest, hst⟩ hb
    | transform p c =>
      obtain ⟨hc, hnull⟩ := h.calls.transform p c (by rw [hst]; exact List.mem_cons_self)
      have hrun : (r.frames p).point = .running :=
        ((h.calls.running p).mp (by rw [hst]; exact List.mem_cons_self)).2
      by_cases hpt : (r.frames c).point = .final
      · rw [back_final hst hpt hnull]
        refine ⟨h.calls.back_final hst (by simp) (by simp) (by simp) (by simp) hpt,
          h.waits.keep (by simp) (by simp) (by simp) (by simp) fun d hd hpark => ?_⟩
        have hpc : ¬ (r.frames c).point.Parked := by rw [hpt]; exact id
        simpa using ⟨hd, parked_ne hpc hpark⟩
      · rw [back_suspended hst hpt]
        have hne : c ≠ p := by
          rintro rfl
          exact h.calls.top c c rest hst hrun
        have hpp : ¬ (r.frames p).point.Parked := by rw [hrun]; exact id
        refine ⟨h.calls.back_suspended hst rfl (by simp) ?_ ?_ ?_ (by simp) hpt,
          h.waits.keep rfl rfl (fun _ _ => id) rfl fun d hd hpark => ?_⟩
        · intro d hd
          simp [modify_of_ne hd]
        · intro d hd
          simp [modify_of_ne hd]
        · simp
        · simpa [modify_of_ne (parked_ne hpp hpark)] using hd
    | finishing c =>
      have hrun : (r.frames c).point = .running :=
        ((h.calls.running c).mp (by rw [hst]; exact List.mem_cons_self)).2
      have hpc : ¬ (r.frames c).point.Parked := by rw [hrun]; exact id
      rw [back_finishing hst]
      refine ⟨h.calls.back_finishing hst rfl (by simp) (by simp) (by simp),
        h.waits.keep rfl rfl (fun _ _ => id) rfl fun d hd hpark => ?_⟩
      simpa using ⟨hd, parked_ne hpc hpark⟩

/-! ## New tasks, wakes and moves -/

omit [DecidableEq X] in
theorem enqueueTask [Inhabited V] (h : r.Inv) : r.enqueueTask.Inv := by
  have hnew : ∀ d, r.Live d → d ≠ r.allocated := by
    rintro d hd rfl
    exact not_live_allocated hd
  have halloc : (r.allocate.setCaller r.allocated .noop).Inv := by
    refine ⟨h.calls.spawn rfl not_live_allocated (by simp) ?_ ?_ (by simp) ?_,
      h.waits.keep rfl rfl (fun _ _ => id) rfl fun d hd _ => ?_⟩
    · intro d hd
      rw [modify_of_ne hd, allocate_of_ne hd]
    · intro d hd
      rw [modify_of_ne hd, allocate_of_ne hd]
    · rw [modify_self, allocate_self]
    · rw [modify_of_ne (hnew d hd), allocate_of_ne (hnew d hd)]
      exact ⟨by simp [hd], rfl, rfl⟩
  have hout : r.allocated ∉ r.queued.map Prod.fst := by
    intro hm
    obtain ⟨q, hq, heq⟩ := List.mem_map.mp hm
    exact hnew _ (h.waits.ends q hq).1 heq
  refine halloc.enqueue (e := .start) (by simp) ?_ hout
  simp [Cause.Ends, allocate_self]

theorem coAwaitTask [Inhabited V] (h : r.Inv) (hs : r.stack = .body p :: rest) : r.coAwaitTask.Inv := by
  have hp := (h.calls.body_running hs).1
  rw [coAwaitTask_eq hs hp.1]
  refine ⟨h.calls.call hs rfl not_live_allocated (by simp) ?_ ?_ ?_ (by simp),
    h.waits.keep (by simp) (by simp) (by simp) (by simp) fun d hd _ => ?_⟩
  · intro d hd
    simp [allocate_of_ne hd]
  · intro d hd
    simp [modify_of_ne hd, allocate_of_ne hd]
  · simp [allocate_self]
  · have hne : d ≠ r.allocated := by
      rintro rfl
      exact not_live_allocated hd
    simp [modify_of_ne hne, allocate_of_ne hne, hd]

theorem wake {x : X} {ret : V} (h : r.Inv) (hp : r.Proper (.wake x ret)) : (r.wake x ret).Inv := by
  cases hx : (r.awakers x).handle with
  | none =>
    rw [wake_none hx]
    exact h.setAwaker fun d hd => by rwa [AnyAwaker.handle_wake] at hd
  | some c =>
    obtain ⟨hc, hpt, hn⟩ := h.waits.handles x c hx
    have hout := hp c hx
    rw [h.waits.waiting_eq] at hout
    rw [wake_some hx]
    refine (h.enqueue (e := .wake x (r.since x)) hc ⟨hpt, hn.symm⟩ hout).setAwaker fun d hd => ?_
    rwa [AnyAwaker.handle_wake] at hd

omit [DecidableEq X] in
theorem move {v : V} (h : r.Inv) : (r.move v).Inv := by
  unfold Runtime.move
  split
  · split
    · exact ⟨(h.receive).calls.congr rfl (fun _ => Iff.rfl) (fun _ => rfl) fun _ => rfl,
        (h.receive).waits.keep rfl rfl (fun _ _ => id) rfl fun d hd _ => ⟨hd, rfl, rfl⟩⟩
    · exact h
  · exact h

/-! ## The run loop -/

omit [DecidableEq X] in
/-- The coroutine of the oldest handle goes on; only the awaker it waited at may change. -/
theorem go_on {t : Runtime X V E} {cause : Cause X} {qs : List (Nat × Cause X)}
    {received : Received V E} (h : r.Inv) (hs : r.stack = []) (hq : r.queued = (c, cause) :: qs)
    (hframes : t.frames = r.frames) (halloc : t.allocated = r.allocated) (hst : t.stack = [])
    (hqs : t.queued = qs) (hready : t.sched.Ready (qs.map Prod.fst)) (hsince : t.since = r.since)
    (ha : ∀ x d, (t.awakers x).handle = some d → d ≠ c ∧ (r.awakers x).handle = some d) :
    ((t.start c).receive c received).Inv := by
  obtain ⟨hc, he⟩ := h.waits.ends (c, cause) (by rw [hq]; exact List.mem_cons_self)
  have hpark := he.parked
  have hlive : ∀ d, t.Live d ↔ r.Live d := by
    intro d
    unfold Live
    rw [hframes, halloc]
  refine ⟨h.calls.start hs (by simp [hst]) (by simp [hlive]) (by simp [hframes]) ?_ hc (by simp) ?_,
    h.waits.dequeue hq hqs (by simpa using hready) (by simpa using ha) (by simpa using hsince)
      fun d hd hl => ?_⟩
  · intro d hd
    simp [modify_of_ne hd, hframes]
  · intro d hd
    rw [hd] at hpark
    exact hpark
  · simp [modify_of_ne hd, hframes, hlive, hl]

theorem pass (h : r.Inv) (hs : r.stack = []) : r.pass.Inv := by
  cases hq : r.queued with
  | nil =>
    obtain ⟨hpass, hready⟩ := pass_idle h.waits hq
    rw [hpass]
    refine ⟨h.calls.congr rfl (fun _ => Iff.rfl) (fun _ => rfl) fun _ => rfl, ?_⟩
    refine ⟨?_, h.waits.nodup, h.waits.ends, h.waits.handles⟩
    rw [show r.dequeue.queued = [] from hq]
    exact hready
  | cons q qs =>
    obtain ⟨c, cause⟩ := q
    obtain ⟨hpass, hready⟩ := pass_resume h.waits hq
    obtain ⟨hc, he⟩ := h.waits.ends (c, cause) (by rw [hq]; exact List.mem_cons_self)
    obtain ⟨a, received, hres, -, ha⟩ := resume_parked (r := r.taken c cause qs) hc he.parked
    rw [hpass, hres]
    refine h.go_on (t := { r.taken c cause qs with awakers := a }) hs hq rfl rfl hs rfl hready rfl
      fun x d hd => ?_
    rcases ha x with ⟨hpt, hx⟩ | ⟨-, hx, -⟩
    · rw [show ({ r.taken c cause qs with awakers := a } : Runtime X V E).awakers x = a x from rfl, hx] at hd
      refine ⟨?_, hd⟩
      rintro rfl
      exact hpt (h.waits.handles x d hd).2.1
    · rw [show ({ r.taken c cause qs with awakers := a } : Runtime X V E).awakers x = a x from rfl, hx,
        AnyAwaker.handle_awaitResume] at hd
      cases hd

/-! ## Every act -/

theorem next [Inhabited V] (h : r.Inv) {a : Act X V E} (he : r.Enabled a) (hp : r.Proper a) :
    (r.next a).Inv := by
  cases a with
  | enqueueTask => exact h.enqueueTask
  | wake x ret => exact h.wake hp
  | pass => exact h.pass he
  | coAwaitTask =>
    obtain ⟨c, rest, hs⟩ := he
    exact h.coAwaitTask hs
  | coAwait x =>
    obtain ⟨c, rest, hs⟩ := he
    exact h.coAwait hs
  | coYield =>
    obtain ⟨c, rest, hs⟩ := he
    exact h.coYield hs
  | move freed => exact h.move
  | coReturn v =>
    obtain ⟨c, rest, hs⟩ := he
    exact h.leave hs
  | throws e =>
    obtain ⟨c, rest, hs⟩ := he
    exact h.leave hs
  | back => exact h.back he.1 he.2

end

end Inv

/-- `Inv` holds along every run whose wakes are proper. -/
theorem Reachable.inv [DecidableEq X] [Inhabited V]
    (h : ((machine X V E).restrict Proper).Reachable r) : r.Inv := by
  have hrule := @Machine.Reachable.inv _ _ ((machine X V E).restrict Proper) Inv
    (fun _ hi => Init.inv hi) (fun _ _ _ hi he => hi.next he.1 he.2)
  exact hrule h

end Sqkio.Runtime
