import Sqkio.Core.Waits

/-!
# What each act does

The operations a step is made of change one component each; the first section says
so.  The equations after it give each act's outcome in the states where it happens, with
the calls of `resume()` and `await_resume` carried out.
-/

namespace Sqkio

variable {X V E : Type}

/-- What `await_resume` gives for a task that ended with `o`. -/
def Received.of (c : Nat) : Except E V → Received V E
  | .ok _ => .reference c
  | .error e => .exception c e

namespace Runtime

section

variable {r : Runtime X V E} {c d : Nat} {f : Frame X V E → Frame X V E}

/-! ## Components -/

theorem modify_apply : (r.modify c f).frames d = if d = c then f (r.frames c) else r.frames d :=
  Function.update_apply ..

@[simp] theorem modify_self : (r.modify c f).frames c = f (r.frames c) := Function.update_self ..

theorem modify_of_ne (h : d ≠ c) : (r.modify c f).frames d = r.frames d := Function.update_of_ne h ..

/-- A field that `f` keeps is kept in all frames. -/
theorem modify_field {α : Type} (g : Frame X V E → α) (hf : ∀ x, g (f x) = g x) (d : Nat) :
    g ((r.modify c f).frames d) = g (r.frames d) := by
  by_cases h : d = c
  · subst h
    rw [modify_self, hf]
  · rw [modify_of_ne h]

@[simp] theorem modify_caller (hf : ∀ x, (f x).caller = x.caller) :
    ((r.modify c f).frames d).caller = (r.frames d).caller := modify_field (·.caller) hf d

@[simp] theorem modify_point (hf : ∀ x, (f x).point = x.point) :
    ((r.modify c f).frames d).point = (r.frames d).point := modify_field (·.point) hf d

@[simp] theorem modify_suspensions (hf : ∀ x, (f x).suspensions = x.suspensions) :
    ((r.modify c f).frames d).suspensions = (r.frames d).suspensions :=
  modify_field (·.suspensions) hf d

@[simp] theorem modify_result (hf : ∀ x, (f x).result = x.result) :
    ((r.modify c f).frames d).result = (r.frames d).result := modify_field (·.result) hf d

@[simp] theorem modify_returned (hf : ∀ x, (f x).returned = x.returned) :
    ((r.modify c f).frames d).returned = (r.frames d).returned := modify_field (·.returned) hf d

@[simp] theorem modify_received (hf : ∀ x, (f x).received = x.received) :
    ((r.modify c f).frames d).received = (r.frames d).received := modify_field (·.received) hf d

@[simp] theorem modify_destroyed (hf : ∀ x, (f x).destroyed = x.destroyed) :
    ((r.modify c f).frames d).destroyed = (r.frames d).destroyed :=
  modify_field (·.destroyed) hf d

@[simp] theorem modify_live (hf : ∀ x, (f x).destroyed = x.destroyed) :
    (r.modify c f).Live d ↔ r.Live d := by
  unfold Live
  rw [modify_destroyed hf]
  rfl

@[simp] theorem destroy_live {destroyer : Destroyer} :
    (r.destroy c destroyer).Live d ↔ r.Live d ∧ d ≠ c := by
  unfold Live
  by_cases h : d = c
  · subst h
    simp
  · rw [modify_of_ne h, and_iff_left h]
    rfl

theorem Live.alive (h : r.Live c) : r.alive c = true := by
  rw [Runtime.alive, h.2]
  rfl

@[simp] theorem modify_alive (hf : ∀ x, (f x).destroyed = x.destroyed) :
    (r.modify c f).alive d = r.alive d := by
  unfold Runtime.alive
  rw [modify_destroyed hf]

theorem allocate_self [Inhabited V] :
    r.allocate.frames r.allocated = ⟨.null, .ok default, .initial, .nothing, 0, none, []⟩ :=
  Function.update_self ..

theorem allocate_apply [Inhabited V] : r.allocate.frames d =
    if d = r.allocated then ⟨.null, .ok default, .initial, .nothing, 0, none, []⟩ else r.frames d :=
  Function.update_apply ..

theorem allocate_of_ne [Inhabited V] (h : d ≠ r.allocated) : r.allocate.frames d = r.frames d :=
  Function.update_of_ne h ..

@[simp] theorem allocate_alive [Inhabited V] : r.allocate.alive r.allocated = true := by
  unfold Runtime.alive
  rw [allocate_self]
  rfl

@[simp] theorem allocate_live [Inhabited V] : r.allocate.Live d ↔ r.Live d ∨ d = r.allocated := by
  unfold Live
  by_cases h : d = r.allocated
  · subst h
    rw [allocate_self]
    exact ⟨fun _ => .inr rfl, fun _ => ⟨Nat.lt_succ_self _, rfl⟩⟩
  · rw [allocate_of_ne h, or_iff_left h]
    exact and_congr_left' (by simp only [allocate]; omega)

theorem not_live_allocated : ¬ r.Live r.allocated := fun h => Nat.lt_irrefl _ h.1

theorem not_alive (h : ¬ r.Live c) (hc : c < r.allocated) : r.alive c = false := by
  rw [Runtime.alive, List.isEmpty_eq_false_iff]
  exact fun hd => h ⟨hc, hd⟩

@[simp] theorem modify_stack : (r.modify c f).stack = r.stack := rfl
@[simp] theorem modify_sched : (r.modify c f).sched = r.sched := rfl
@[simp] theorem modify_awakers : (r.modify c f).awakers = r.awakers := rfl
@[simp] theorem modify_queued : (r.modify c f).queued = r.queued := rfl
@[simp] theorem modify_since : (r.modify c f).since = r.since := rfl
@[simp] theorem modify_allocated : (r.modify c f).allocated = r.allocated := rfl
@[simp] theorem modify_reads : (r.modify c f).reads = r.reads := rfl
@[simp] theorem modify_moves : (r.modify c f).moves = r.moves := rfl
@[simp] theorem modify_resumptions : (r.modify c f).resumptions = r.resumptions := rfl

@[simp] theorem setStack_frames (s : List Activation) : (r.setStack s).frames = r.frames := rfl
@[simp] theorem setStack_stack (s : List Activation) : (r.setStack s).stack = s := rfl
@[simp] theorem setStack_moves (s : List Activation) : (r.setStack s).moves = r.moves := rfl
@[simp] theorem setStack_sched (s : List Activation) : (r.setStack s).sched = r.sched := rfl
@[simp] theorem setStack_awakers (s : List Activation) : (r.setStack s).awakers = r.awakers := rfl
@[simp] theorem setStack_queued (s : List Activation) : (r.setStack s).queued = r.queued := rfl
@[simp] theorem setStack_since (s : List Activation) : (r.setStack s).since = r.since := rfl

@[simp] theorem setStack_allocated (s : List Activation) : (r.setStack s).allocated = r.allocated := rfl
@[simp] theorem setStack_reads (s : List Activation) : (r.setStack s).reads = r.reads := rfl
@[simp] theorem setStack_alive (s : List Activation) : (r.setStack s).alive c = r.alive c := rfl

@[simp] theorem read_reads : (r.read c).reads = r.reads ++ [⟨c, r.alive c⟩] := rfl
@[simp] theorem read_moves : (r.read c).moves = r.moves := rfl
@[simp] theorem read_alive : (r.read c).alive d = r.alive d := rfl
@[simp] theorem read_frames : (r.read c).frames = r.frames := rfl
@[simp] theorem read_stack : (r.read c).stack = r.stack := rfl
@[simp] theorem read_sched : (r.read c).sched = r.sched := rfl
@[simp] theorem read_awakers : (r.read c).awakers = r.awakers := rfl
@[simp] theorem read_queued : (r.read c).queued = r.queued := rfl
@[simp] theorem read_since : (r.read c).since = r.since := rfl
@[simp] theorem read_allocated : (r.read c).allocated = r.allocated := rfl

@[simp] theorem start_frames : (r.start c).frames = (r.setPoint c .running).frames := rfl
@[simp] theorem start_stack : (r.start c).stack = .body c :: r.stack := rfl
@[simp] theorem start_reads : (r.start c).reads = r.reads := rfl
@[simp] theorem start_moves : (r.start c).moves = r.moves := rfl
@[simp] theorem start_alive : (r.start c).alive d = r.alive d := by
  show (r.setPoint c .running).alive d = r.alive d
  simp
@[simp] theorem start_sched : (r.start c).sched = r.sched := rfl
@[simp] theorem start_awakers : (r.start c).awakers = r.awakers := rfl
@[simp] theorem start_queued : (r.start c).queued = r.queued := rfl
@[simp] theorem start_since : (r.start c).since = r.since := rfl
@[simp] theorem start_allocated : (r.start c).allocated = r.allocated := rfl

@[simp] theorem enqueue_frames {e : Cause X} : (r.enqueue e c).frames = r.frames := rfl
@[simp] theorem enqueue_stack {e : Cause X} : (r.enqueue e c).stack = r.stack := rfl
@[simp] theorem enqueue_awakers {e : Cause X} : (r.enqueue e c).awakers = r.awakers := rfl
@[simp] theorem enqueue_allocated {e : Cause X} : (r.enqueue e c).allocated = r.allocated := rfl

@[simp] theorem allocate_stack [Inhabited V] : r.allocate.stack = r.stack := rfl
@[simp] theorem allocate_reads [Inhabited V] : r.allocate.reads = r.reads := rfl
@[simp] theorem allocate_moves [Inhabited V] : r.allocate.moves = r.moves := rfl
@[simp] theorem allocate_sched [Inhabited V] : r.allocate.sched = r.sched := rfl
@[simp] theorem allocate_awakers [Inhabited V] : r.allocate.awakers = r.awakers := rfl
@[simp] theorem allocate_queued [Inhabited V] : r.allocate.queued = r.queued := rfl
@[simp] theorem allocate_allocated [Inhabited V] : r.allocate.allocated = r.allocated + 1 := rfl
@[simp] theorem allocate_since [Inhabited V] : r.allocate.since = r.since := rfl

@[simp] theorem start_live : (r.start c).Live d ↔ r.Live d := by
  show (r.setPoint c .running).Live d ↔ r.Live d
  simp
@[simp] theorem setStack_live (s : List Activation) : (r.setStack s).Live c ↔ r.Live c := Iff.rfl
@[simp] theorem read_live : (r.read d).Live c ↔ r.Live c := Iff.rfl

end

section

variable {r : Runtime X V E} {c p : Nat} {rest : List Activation} {o : Except E V}

theorem awaitResume_kept (hc : (r.frames c).caller ≠ .null) :
    r.awaitResume p c = (r.read c).receive p (.of c (r.frames c).result) := by
  unfold awaitResume
  simp only [if_neg hc]
  cases (r.frames c).result <;> rfl

theorem awaitResume_destroyed (hc : (r.frames c).caller = .null) :
    r.awaitResume p c =
      ((r.read c).destroy c .awaitResume).receive p (.of c (r.frames c).result) := by
  unfold awaitResume
  simp only [if_pos hc]
  cases (r.frames c).result <;> rfl

variable [DecidableEq X]

@[simp] theorem setAwaker_self {x : X} {a : AnyAwaker V Nat} : (r.setAwaker x a).awakers x = a :=
  Function.update_self ..

theorem setAwaker_of_ne {x y : X} {a : AnyAwaker V Nat} (h : y ≠ x) :
    (r.setAwaker x a).awakers y = r.awakers y := Function.update_of_ne h ..

@[simp] theorem setAwaker_frames {x : X} {a : AnyAwaker V Nat} :
    (r.setAwaker x a).frames = r.frames := rfl

@[simp] theorem setAwaker_stack {x : X} {a : AnyAwaker V Nat} :
    (r.setAwaker x a).stack = r.stack := rfl

@[simp] theorem setAwaker_allocated {x : X} {a : AnyAwaker V Nat} :
    (r.setAwaker x a).allocated = r.allocated := rfl

@[simp] theorem setAwaker_queued {x : X} {a : AnyAwaker V Nat} :
    (r.setAwaker x a).queued = r.queued := rfl

/-! ## `co_return` and exceptions -/

theorem leave_null (hs : r.stack = .body c :: rest) (hc : (r.frames c).caller = .null) :
    r.leave o = ((r.store c o).setPoint c .final).setStack rest := by
  unfold leave finalSuspend
  simp only [hs, modify_self, hc]

theorem leave_noop (hs : r.stack = .body c :: rest) (hc : (r.frames c).caller = .noop) :
    r.leave o = ((r.store c o).destroy c .pastFinal).setStack rest := by
  unfold leave finalSuspend
  simp only [hs, modify_self, hc]

theorem leave_frame (hs : r.stack = .body c :: rest) (hc : (r.frames c).caller = .frame p)
    (hne : p ≠ c) (hp : r.Live p) (hpt : (r.frames p).point = .child c) :
    r.leave o = ((((r.store c o).setStack (.finishing c :: rest)).start p).read c).receive p (.of c o) := by
  unfold leave finalSuspend resume
  have halive : ((r.store c o).setStack (.finishing c :: rest)).alive p = true :=
    Live.alive (by simpa using hp)
  simp only [hs, modify_self, hc, halive, if_true, setStack_frames, modify_of_ne hne, hpt]
  rw [awaitResume_kept]
  · simp [start, modify_of_ne hne.symm]
  · simp [start, modify_of_ne hne.symm, hc]

theorem leave_frame_frames (hs : r.stack = .body c :: rest) (hc : (r.frames c).caller = .frame p)
    (hne : p ≠ c) (hp : r.Live p) (hpt : (r.frames p).point = .child c) (d : Nat) :
    (r.leave o).frames d = if d = p then { r.frames p with point := .running, received := .of c o }
      else if d = c then { r.frames c with result := o, returned := some o } else r.frames d := by
  simp only [leave_frame hs hc hne hp hpt, modify_apply, read_frames, start_frames, setStack_frames,
    if_true, if_neg hne]
  split <;> rfl

/-! ## Returns -/

theorem back_final (hs : r.stack = .transform p c :: rest) (hpt : (r.frames c).point = .final)
    (hc : (r.frames c).caller = .null) :
    r.back = (((((r.setStack (.body p :: rest)).read c).read c).read c).destroy c .awaitResume).receive p
      (.of c (r.frames c).result) := by
  unfold back
  simp only [hs, if_pos hpt]
  exact awaitResume_destroyed hc

theorem back_final_frames (hs : r.stack = .transform p c :: rest) (hpt : (r.frames c).point = .final)
    (hc : (r.frames c).caller = .null) (hne : p ≠ c) (hl : r.Live c) (d : Nat) :
    r.back.frames d = if d = p then { r.frames p with received := .of c (r.frames c).result }
      else if d = c then { r.frames c with destroyed := [.awaitResume] } else r.frames d := by
  simp only [back_final hs hpt hc, modify_apply, read_frames, setStack_frames, if_neg hne, hl.2,
    List.nil_append]

theorem back_suspended (hs : r.stack = .transform p c :: rest) (hpt : (r.frames c).point ≠ .final) :
    r.back = (((r.read c).setCaller c (.frame p)).suspend p (.child c)).setStack rest := by
  unfold back
  simp only [hs, if_neg hpt]

theorem back_finishing (hs : r.stack = .finishing c :: rest) :
    r.back = (r.destroy c .pastFinal).setStack rest := by
  unfold back
  simp only [hs]

/-! ## Suspension and resumption -/

theorem resume_ready (hc : r.Live c) (hpt : (r.frames c).point = .initial ∨ (r.frames c).point = .yield) :
    r.resume c = (r.start c).receive c .nothing := by
  unfold resume
  rw [if_pos hc.alive]
  rcases hpt with h | h <;> simp only [h]

theorem resume_awaker {x : X} (hc : r.Live c) (hpt : (r.frames c).point = .awaker x) :
    r.resume c = ((r.setAwaker x (r.awakers x).awaitResume.1).start c).receive c
      (.value (r.awakers x).awaitResume.2) := by
  unfold resume
  rw [if_pos hc.alive]
  simp only [hpt]

/-- A parked coroutine goes on; only the awaker it stands at changes. -/
theorem resume_parked (hc : r.Live c) (hpt : (r.frames c).point.Parked) :
    ∃ a received, r.resume c = (start c { r with awakers := a }).receive c received ∧
      (∀ d, received ≠ .reference d) ∧
      ∀ x, ((r.frames c).point ≠ .awaker x ∧ a x = r.awakers x) ∨
        ((r.frames c).point = .awaker x ∧ a x = (r.awakers x).awaitResume.1 ∧
          received = .value (r.awakers x).awaitResume.2) := by
  cases h : (r.frames c).point with
  | child d => rw [h] at hpt; exact hpt.elim
  | running => rw [h] at hpt; exact hpt.elim
  | final => rw [h] at hpt; exact hpt.elim
  | initial => exact ⟨r.awakers, .nothing, resume_ready hc (.inl h), nofun, fun _ => .inl ⟨nofun, rfl⟩⟩
  | yield => exact ⟨r.awakers, .nothing, resume_ready hc (.inr h), nofun, fun _ => .inl ⟨nofun, rfl⟩⟩
  | awaker x =>
    refine ⟨_, _, resume_awaker hc h, nofun, fun y => ?_⟩
    by_cases hxy : y = x
    · subst hxy
      exact .inr ⟨rfl, setAwaker_self, rfl⟩
    · refine .inl ⟨?_, setAwaker_of_ne hxy⟩
      rw [ne_eq, Point.awaker.injEq]
      exact fun heq => hxy heq.symm

theorem coAwait_ready {x : X} (hs : r.stack = .body c :: rest) (hx : (r.awakers x).awaitReady = true) :
    r.coAwait x = (r.setAwaker x (r.awakers x).awaitResume.1).receive c
      (.value (r.awakers x).awaitResume.2) := by
  unfold coAwait
  simp only [hs, if_pos hx]

theorem coAwait_suspended {x : X} (hs : r.stack = .body c :: rest)
    (hx : (r.awakers x).awaitReady = false) :
    r.coAwait x = { ((r.suspend c (.awaker x)).setStack rest).setAwaker x
        ((r.awakers x).awaitSuspend c) with
      since := Function.update r.since x ((r.frames c).suspensions + 1) } := by
  unfold coAwait
  simp [hs, hx, setAwaker]

omit [DecidableEq X] in
theorem coYield_eq (hs : r.stack = .body c :: rest) :
    r.coYield = ((r.suspend c .yield).setStack rest).enqueue (.yield ((r.frames c).suspensions + 1)) c := by
  unfold coYield SuspendYield.awaitSuspend
  simp [hs]

theorem coAwaitTask_eq [Inhabited V] (hs : r.stack = .body p :: rest) (hp : p < r.allocated) :
    r.coAwaitTask = ((((r.allocate.receive p .nothing).setStack (.transform p r.allocated :: rest)).read
      r.allocated).start r.allocated).receive r.allocated .nothing := by
  have hne : r.allocated ≠ p := by omega
  have hframe : ((r.allocate.receive p .nothing).frames r.allocated) =
      ⟨.null, .ok default, .initial, .nothing, 0, none, []⟩ := by
    rw [modify_of_ne hne]
    exact allocate_self
  unfold coAwaitTask
  simp only [hs]
  refine resume_ready ⟨?_, ?_⟩ (.inl ?_)
  · exact Nat.lt_succ_self _
  · simp only [read_frames, setStack_frames, hframe]
  · simp only [read_frames, setStack_frames, hframe]

theorem coAwaitTask_frames [Inhabited V] (hs : r.stack = .body p :: rest) (hp : p < r.allocated)
    (d : Nat) : r.coAwaitTask.frames d = if d = r.allocated
      then ⟨.null, .ok default, .running, .nothing, 0, none, []⟩
      else if d = p then { r.frames p with received := .nothing } else r.frames d := by
  have hne : r.allocated ≠ p := Nat.ne_of_gt hp
  simp only [coAwaitTask_eq hs hp, modify_apply, start_frames, read_frames, setStack_frames,
    allocate_apply, if_true, if_neg hne, if_neg hne.symm]
  split <;> rfl

omit [DecidableEq X] in
theorem enqueueTask_frames [Inhabited V] (d : Nat) : r.enqueueTask.frames d =
    if d = r.allocated then ⟨.noop, .ok default, .initial, .nothing, 0, none, []⟩ else r.frames d := by
  simp only [enqueueTask, modify_apply, enqueue_frames, allocate_apply, if_true]
  split <;> rfl

/-- The state in which the oldest handle `c` is resumed. -/
def taken (c : Nat) (cause : Cause X) (qs : List (Nat × Cause X)) (r : Runtime X V E) : Runtime X V E :=
  { r with
    sched := (r.sched.dequeue r.handle).1
    handle := c
    queued := qs
    resumptions := r.resumptions ++
      [⟨c, cause, (r.frames c).point, (r.frames c).suspensions, r.alive c⟩] }

omit [DecidableEq X] in
@[simp] theorem taken_frames {cause : Cause X} {qs : List (Nat × Cause X)} :
    (r.taken c cause qs).frames = r.frames := rfl

omit [DecidableEq X] in
@[simp] theorem taken_stack {cause : Cause X} {qs : List (Nat × Cause X)} :
    (r.taken c cause qs).stack = r.stack := rfl

omit [DecidableEq X] in
@[simp] theorem taken_allocated {cause : Cause X} {qs : List (Nat × Cause X)} :
    (r.taken c cause qs).allocated = r.allocated := rfl

omit [DecidableEq X] in
@[simp] theorem taken_queued {cause : Cause X} {qs : List (Nat × Cause X)} :
    (r.taken c cause qs).queued = qs := rfl

omit [DecidableEq X] in
@[simp] theorem taken_awakers {cause : Cause X} {qs : List (Nat × Cause X)} :
    (r.taken c cause qs).awakers = r.awakers := rfl

theorem pass_idle (h : r.Waits) (hq : r.queued = []) :
    r.pass = r.dequeue ∧ r.dequeue.sched.Ready [] := by
  have hready := h.ready
  rw [hq] at hready
  obtain ⟨hnext, hzero⟩ := hready.dequeue_empty r.handle
  exact ⟨if_pos hzero, hnext⟩

theorem pass_resume {cause : Cause X} {qs : List (Nat × Cause X)} (h : r.Waits)
    (hq : r.queued = (c, cause) :: qs) :
    r.pass = (r.taken c cause qs).resume c ∧ (r.taken c cause qs).sched.Ready (qs.map Prod.fst) := by
  have hready := h.ready
  rw [hq, List.map_cons] at hready
  obtain ⟨hnext, hone⟩ := hready.dequeue_oldest r.handle
  have hhandle : r.dequeue.handle = c := by rw [dequeue, hone]
  refine ⟨?_, hnext⟩
  have hrec : r.dequeue.record = r.taken c cause qs := by
    unfold record taken
    rw [hhandle, show r.dequeue.queued = (c, cause) :: qs from hq]
    rfl
  rw [pass, if_neg (by rw [hone]; exact show ¬ (1 : UInt32) = 0 by decide), hrec, hhandle]

/-! ## Awakers and moves -/

omit [DecidableEq X] in
theorem move_eq {freed : V} (hs : r.stack = .body p :: rest)
    (hr : (r.frames p).received = .reference c) :
    r.move freed = { (r.read c).receive p (.value
        (if r.alive c then (r.frames c).result.toOption.getD freed else freed)) with
      moves := r.moves ++ [⟨c, if r.alive c then (r.frames c).result.toOption.getD freed else freed,
        (r.frames c).returned⟩] } := by
  unfold move
  simp only [hs, hr]

theorem wake_none {x : X} {ret : V} (hx : (r.awakers x).handle = none) :
    r.wake x ret = r.setAwaker x ((r.awakers x).wake (enqueue (.wake x (r.since x))) ret r).1 := by
  unfold wake
  dsimp only
  rw [AnyAwaker.wake_snd, hx]
  rfl

theorem wake_some {x : X} {ret : V} (hx : (r.awakers x).handle = some c) :
    r.wake x ret = (r.enqueue (.wake x (r.since x)) c).setAwaker x
      ((r.awakers x).wake (enqueue (.wake x (r.since x))) ret r).1 := by
  unfold wake
  dsimp only
  rw [AnyAwaker.wake_snd, hx]
  rfl

end

end Runtime

end Sqkio
