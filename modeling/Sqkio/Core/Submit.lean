import Sqkio.Core.Awaker

/-!
# Tasks submitted from other threads

`SQKScheduler::enqueue(Task<T>)` publishes the handle and then writes `caller_`.  Any number of
threads run it, one of the two statements at a time, between the passes of the run loop.
The bodies are left open: a running task may suspend, be queued or resumed again by
whatever it waits for, and end, in any order.  If it ends before its `caller_` is written,
`final_suspend` takes it for a child that ran inside `await_transform` and leaves the frame.
-/

namespace Sqkio

open Sqkio.Lib

/-- Where a top-level task stands. -/
inductive TaskPoint where
  | initial
  | suspended
  | running
  | final
  deriving DecidableEq

/-- The frame of a top-level task with its promise. -/
structure TaskFrame where
  caller : Caller Nat
  point : TaskPoint
  destroyed : Nat
  deriving DecidableEq

/-- The scheduler with `run`'s variable `handle`, the frames by their numbers, and what each
producer thread has still to write: the task it has published. -/
structure Submit (τ : Type) where
  sched : SQKScheduler Nat
  handle : Nat
  frames : Nat → TaskFrame
  allocated : Nat
  pending : τ → Option Nat
  running : Option Nat
  -- ghosts: the tasks that reached `final_suspend` with the `caller_` they found, and the writes
  -- of `caller_`, each with whether its frame was there
  finals : List (Nat × Caller Nat)
  writes : List (Nat × Bool)

namespace Submit

variable {τ : Type}

inductive Act (τ : Type) where
  /-- `queue_->enqueue(handle)` of a fresh task in thread `t`. -/
  | publish (t : τ)
  /-- `handle.promise().caller_ = std::noop_coroutine()` in thread `t`. -/
  | write (t : τ)
  /-- One pass of the loop in `run`. -/
  | pass
  /-- Somebody passes the handle to the scheduler: an awaker's `wake`, or `co_yield`. -/
  | requeue (c : Nat)
  /-- The `final_suspend` of a child resumes the task. -/
  | resume (c : Nat)
  | suspend
  /-- The running task reaches `final_suspend`. -/
  | finish

def setFrame (c : Nat) (f : TaskFrame) (s : Submit τ) : Submit τ :=
  { s with frames := Function.update s.frames c f }

/-- `coroutine_handle::resume()`; nothing is modelled for a handle that is not suspended. -/
def resume (c : Nat) (s : Submit τ) : Submit τ :=
  let f := s.frames c
  if f.destroyed = 0 ∧ (f.point = .initial ∨ f.point = .suspended) then
    { s.setFrame c { f with point := .running } with running := some c }
  else s

def suspend (s : Submit τ) : Submit τ :=
  match s.running with
  | some c => { s.setFrame c { s.frames c with point := .suspended } with running := none }
  | none => s

/-- `final_suspend` with `resume_caller`: without a `caller_` the coroutine stays at its end. -/
def finish (s : Submit τ) : Submit τ :=
  match s.running with
  | some c =>
    let f := s.frames c
    let g := if f.caller = .null then { f with point := .final }
      else { f with destroyed := f.destroyed + 1 }
    { s.setFrame c g with running := none, finals := s.finals ++ [(c, f.caller)] }
  | none => s

def enqueue (c : Nat) (s : Submit τ) : Submit τ := { s with sched := (s.sched.enqueue c).1 }

/-- One pass of the loop in `run`. -/
def pass (s : Submit τ) : Submit τ :=
  let r := s.sched.dequeue s.handle
  let s := { s with sched := r.1, handle := r.2.2 }
  if r.2.1 = 0 then s else s.resume s.handle

section

variable [DecidableEq τ]

def publish (t : τ) (s : Submit τ) : Submit τ :=
  { (s.setFrame s.allocated ⟨.null, .initial, 0⟩).enqueue s.allocated with
    allocated := s.allocated + 1
    pending := Function.update s.pending t (some s.allocated) }

def write (t : τ) (s : Submit τ) : Submit τ :=
  match s.pending t with
  | some c =>
    let f := s.frames c
    { s.setFrame c { f with caller := .noop } with
      pending := Function.update s.pending t none
      writes := s.writes ++ [(c, f.destroyed == 0)] }
  | none => s

def next (s : Submit τ) : Act τ → Submit τ
  | .publish t => s.publish t
  | .write t => s.write t
  | .pass => s.pass
  | .requeue c => s.enqueue c
  | .resume c => s.resume c
  | .suspend => s.suspend
  | .finish => s.finish

end

/-- The run loop goes on when the task it resumed has returned; a producer takes its two
statements in turn. -/
def Enabled (s : Submit τ) : Act τ → Prop
  | .publish t => s.pending t = none
  | .write t => s.pending t ≠ none
  | .pass => s.running = none
  | .requeue c => c < s.allocated
  | .resume c => s.running = none ∧ c < s.allocated
  | .suspend | .finish => s.running ≠ none

instance : (s : Submit τ) → (a : Act τ) → Decidable (s.Enabled a)
  | s, .publish t => inferInstanceAs (Decidable (s.pending t = none))
  | s, .write t => inferInstanceAs (Decidable (s.pending t ≠ none))
  | s, .pass => inferInstanceAs (Decidable (s.running = none))
  | s, .requeue c => inferInstanceAs (Decidable (c < s.allocated))
  | s, .resume c => inferInstanceAs (Decidable (s.running = none ∧ c < s.allocated))
  | s, .suspend | s, .finish => inferInstanceAs (Decidable (s.running ≠ none))

structure Init (s : Submit τ) : Prop where
  sched : s.sched.Fresh
  allocated : s.allocated = 0
  pending : ∀ t, s.pending t = none
  running : s.running = none
  finals : s.finals = []
  writes : s.writes = []
  frames : ∀ c, (s.frames c).destroyed = 0

def machine (τ : Type) [DecidableEq τ] : Machine (Submit τ) (Act τ) where
  init := Init
  enabled := Enabled
  next := next

instance [DecidableEq τ] (s : Submit τ) (a : Act τ) : Decidable ((machine τ).enabled s a) :=
  inferInstanceAs (Decidable (s.Enabled a))

/-- A task that ends finds the noop coroutine and is destroyed once; `caller_` is written only
while the frame is there. -/
structure Submitted (s : Submit τ) : Prop where
  found : ∀ e ∈ s.finals, e.2 = .noop
  once : ∀ c, (s.frames c).destroyed = if c ∈ s.finals.map Prod.fst then 1 else 0
  writes : ∀ w ∈ s.writes, w.2 = true

structure Inv (s : Submit τ) : Prop where
  ready : s.sched.Ready s.sched.waiting
  queued : ∀ c ∈ s.sched.waiting, c < s.allocated
  caller : ∀ c, c < s.allocated →
    ((∀ t, s.pending t ≠ some c) ∧ (s.frames c).caller = .noop) ∨
      ((∃ t, s.pending t = some c) ∧ (s.frames c).caller = .null ∧ (s.frames c).destroyed = 0)
  pending : ∀ t c, s.pending t = some c → c < s.allocated
  distinct : ∀ t u c, s.pending t = some c → s.pending u = some c → t = u
  running : ∀ c, s.running = some c →
    c < s.allocated ∧ (s.frames c).point = .running ∧ (s.frames c).destroyed = 0
  ended : ∀ c, c < s.allocated →
    (c ∈ s.finals.map Prod.fst ↔ (s.frames c).destroyed ≠ 0 ∨ (s.frames c).point = .final)
  finals : ∀ c ∈ s.finals.map Prod.fst, c < s.allocated
  writes : ∀ w ∈ s.writes, w.2 = true
  fresh : ∀ c, s.allocated ≤ c → (s.frames c).destroyed = 0

theorem Init.inv {s : Submit τ} (h : s.Init) : s.Inv := by
  have hready := h.sched.ready
  have hnone : ∀ c, ¬ c < s.allocated := by
    intro c
    rw [h.allocated]
    exact Nat.not_lt_zero c
  constructor
  case ready => exact hready.waiting
  case queued => simp [hready.waiting_eq]
  case caller => exact fun c hc => absurd hc (hnone c)
  case pending => simp [h.pending]
  case distinct => simp [h.pending]
  case running => simp [h.running]
  case ended => exact fun c hc => absurd hc (hnone c)
  case finals => simp [h.finals]
  case writes => simp [h.writes]
  case fresh => exact fun c _ => h.frames c

theorem setFrame_self (s : Submit τ) (c : Nat) (f : TaskFrame) : (s.setFrame c f).frames c = f := by
  unfold setFrame
  exact Function.update_self _ _ _

theorem setFrame_of_ne (s : Submit τ) {c d : Nat} (f : TaskFrame) (hd : d ≠ c) :
    (s.setFrame c f).frames d = s.frames d := by
  unfold setFrame
  exact Function.update_of_ne hd _ _

namespace Inv

variable {s s' : Submit τ} {c : Nat}

theorem not_ended (h : s.Inv) (hc : c < s.allocated) (hdestroyed : (s.frames c).destroyed = 0)
    (hpoint : (s.frames c).point ≠ .final) : c ∉ s.finals.map Prod.fst := by
  rw [h.ended c hc]
  rintro (hd | hp)
  · exact hd hdestroyed
  · exact hpoint hp

/-- `c` runs on, suspends or ends: only its frame changes, and `caller_` stays. -/
theorem change (h : s.Inv) (hc : c < s.allocated) (hsched : s'.sched = s.sched)
    (hallocated : s'.allocated = s.allocated) (hpending : s'.pending = s.pending)
    (hwrites : s'.writes = s.writes) (hframes : ∀ d, d ≠ c → s'.frames d = s.frames d)
    (hcaller : (s'.frames c).caller = (s.frames c).caller)
    (hnull : (s.frames c).caller = .null → (s'.frames c).destroyed = 0)
    (hrunning : ∀ d, s'.running = some d →
      d = c ∧ (s'.frames c).point = .running ∧ (s'.frames c).destroyed = 0)
    (hother : ∀ d, d ≠ c → (d ∈ s'.finals.map Prod.fst ↔ d ∈ s.finals.map Prod.fst))
    (hended : c ∈ s'.finals.map Prod.fst ↔ (s'.frames c).destroyed ≠ 0 ∨ (s'.frames c).point = .final) :
    s'.Inv := by
  constructor
  case ready =>
    rw [hsched]
    exact h.ready
  case queued =>
    rw [hsched, hallocated]
    exact h.queued
  case caller =>
    intro d hd
    rw [hallocated] at hd
    rw [hpending]
    rcases eq_or_ne d c with rfl | hne
    · rw [hcaller]
      rcases h.caller d hd with hnoop | ⟨hwait, hcl, -⟩
      · exact .inl hnoop
      · exact .inr ⟨hwait, hcl, hnull hcl⟩
    · rw [hframes d hne]
      exact h.caller d hd
  case pending =>
    rw [hpending, hallocated]
    exact h.pending
  case distinct =>
    rw [hpending]
    exact h.distinct
  case running =>
    intro d hd
    obtain ⟨rfl, hpoint, hdestroyed⟩ := hrunning d hd
    exact ⟨hallocated ▸ hc, hpoint, hdestroyed⟩
  case ended =>
    intro d hd
    rw [hallocated] at hd
    rcases eq_or_ne d c with rfl | hne
    · exact hended
    · rw [hother d hne, hframes d hne]
      exact h.ended d hd
  case finals =>
    intro d hd
    rw [hallocated]
    rcases eq_or_ne d c with rfl | hne
    · exact hc
    · exact h.finals d ((hother d hne).mp hd)
  case writes =>
    rw [hwrites]
    exact h.writes
  case fresh =>
    intro d hd
    rw [hallocated] at hd
    rw [hframes d (Nat.ne_of_gt (Nat.lt_of_lt_of_le hc hd))]
    exact h.fresh d hd

/-- A handle of a task is queued, or dropped by a full queue. -/
theorem enqueue_ready (h : s.Inv) (c : Nat) : (s.enqueue c).sched.Ready (s.enqueue c).sched.waiting ∧
    ∀ d ∈ (s.enqueue c).sched.waiting, d < s.allocated ∨ d = c := by
  refine ⟨h.ready.push c, fun d hd => ?_⟩
  rcases h.ready.mem_push hd with hd | hd
  · exact .inl (h.queued d hd)
  · exact .inr hd

theorem requeue (h : s.Inv) (hc : c < s.allocated) : (s.enqueue c).Inv := by
  obtain ⟨hready, hqueued⟩ := h.enqueue_ready c
  refine ⟨hready, fun d hd => ?_, h.caller, h.pending, h.distinct, h.running, h.ended, h.finals,
    h.writes, h.fresh⟩
  rcases hqueued d hd with hd | rfl
  · exact hd
  · exact hc

/-- A suspended task runs on. -/
theorem resume (h : s.Inv) (hc : c < s.allocated) : (s.resume c).Inv := by
  unfold Submit.resume
  dsimp only
  split
  next hf =>
    have hout : c ∉ s.finals.map Prod.fst := by
      refine h.not_ended hc hf.1 ?_
      rcases hf.2 with hp | hp <;> simp [hp]
    refine h.change hc rfl rfl rfl rfl (fun d hd => s.setFrame_of_ne _ hd) ?_ ?_ ?_ (fun _ _ => Iff.rfl) ?_
    all_goals simp only [setFrame_self]
    · exact fun _ => hf.1
    · rintro d ⟨⟩
      exact ⟨rfl, trivial, hf.1⟩
    · exact iff_of_false hout (by simp [hf.1])
  · exact h

theorem suspend (h : s.Inv) (hc : s.running = some c) : s.suspend.Inv := by
  obtain ⟨hlt, hpoint, hdestroyed⟩ := h.running c hc
  have hout : c ∉ s.finals.map Prod.fst := h.not_ended hlt hdestroyed (by simp [hpoint])
  unfold Submit.suspend
  simp only [hc]
  refine h.change hlt rfl rfl rfl rfl (fun d hd => s.setFrame_of_ne _ hd) ?_ ?_ nofun (fun _ _ => Iff.rfl) ?_
  all_goals simp only [setFrame_self]
  · exact fun _ => hdestroyed
  · exact iff_of_false hout (by simp [hdestroyed])

theorem finish (h : s.Inv) (hc : s.running = some c) : s.finish.Inv := by
  obtain ⟨hlt, hpoint, hdestroyed⟩ := h.running c hc
  unfold Submit.finish
  simp only [hc]
  refine h.change hlt rfl rfl rfl rfl (fun d hd => s.setFrame_of_ne _ hd) ?_ ?_ nofun ?_ ?_
  all_goals simp only [setFrame_self]
  · split <;> rfl
  · intro hnull
    rw [if_pos hnull]
    exact hdestroyed
  · intro d hd
    simp [hd]
  · refine iff_of_true (by simp) ?_
    split
    · exact .inr rfl
    · exact .inl (Nat.succ_ne_zero _)

theorem pass (h : s.Inv) : s.pass.Inv := by
  obtain ⟨hready, ⟨-, hnil, hzero⟩ | ⟨c, hcons, hone⟩⟩ := h.ready.dequeue_cases s.handle
  · have hstep : s.pass = { s with
        sched := (s.sched.dequeue s.handle).1, handle := (s.sched.dequeue s.handle).2.2 } := if_pos hzero
    rw [hstep]
    exact ⟨hready, by simp [hnil], h.caller, h.pending, h.distinct, h.running, h.ended, h.finals, h.writes, h.fresh⟩
  · have hqueued := h.queued
    rw [hcons] at hqueued
    have htaken : Inv { s with sched := (s.sched.dequeue s.handle).1, handle := c } :=
      ⟨hready, fun d hd => hqueued d (List.mem_cons_of_mem _ hd), h.caller, h.pending, h.distinct, h.running,
        h.ended, h.finals, h.writes, h.fresh⟩
    have hstep : s.pass =
        Submit.resume c { s with sched := (s.sched.dequeue s.handle).1, handle := c } := by
      simp only [Submit.pass, hone]
      exact if_neg (show ¬ (1 : UInt32) = 0 by decide)
    rw [hstep]
    exact htaken.resume (hqueued c List.mem_cons_self)

section

variable [DecidableEq τ] {t : τ}

theorem publish_pending (ht : s.pending t = none) (u : τ) (d : Nat) :
    (s.publish t).pending u = some d ↔ s.pending u = some d ∨ u = t ∧ d = s.allocated := by
  simp only [Submit.publish, Function.update_apply]
  split
  next hu =>
    subst hu
    rw [ht]
    simp [eq_comm]
  next hu => simp [hu]

theorem publish (h : s.Inv) (ht : s.pending t = none) : (s.publish t).Inv := by
  obtain ⟨hready', hqueued'⟩ := h.enqueue_ready s.allocated
  have hpend := publish_pending ht
  have hself : (s.publish t).frames s.allocated = ⟨.null, .initial, 0⟩ := s.setFrame_self _ _
  have hother : ∀ d, d ≠ s.allocated → (s.publish t).frames d = s.frames d :=
    fun d hd => s.setFrame_of_ne _ hd
  have hnew : s.allocated ∉ s.finals.map Prod.fst := fun hm => Nat.lt_irrefl _ (h.finals _ hm)
  constructor
  case ready => exact hready'
  case queued =>
    intro d hd
    rcases hqueued' d hd with hd | rfl
    · exact Nat.lt_succ_of_lt hd
    · exact Nat.lt_succ_self _
  case caller =>
    intro d hd
    rcases Nat.lt_succ_iff_lt_or_eq.mp hd with hlt | rfl
    · have hne := Nat.ne_of_lt hlt
      simp only [ne_eq, hpend, hother d hne, hne, and_false, or_false]
      exact h.caller d hlt
    · rw [hself]
      exact .inr ⟨⟨t, (hpend t _).mpr (.inr ⟨rfl, rfl⟩)⟩, rfl, rfl⟩
  case pending =>
    intro u d hu
    rcases (hpend u d).mp hu with hu | ⟨-, rfl⟩
    · exact Nat.lt_succ_of_lt (h.pending u d hu)
    · exact Nat.lt_succ_self _
  case distinct =>
    intro u v d hu hv
    rcases (hpend u d).mp hu with hu' | ⟨hut, hd⟩
    · rcases (hpend v d).mp hv with hv' | ⟨-, hd⟩
      · exact h.distinct u v d hu' hv'
      · exact absurd hd (Nat.ne_of_lt (h.pending u d hu'))
    · rcases (hpend v d).mp hv with hv' | ⟨hvt, -⟩
      · exact absurd hd (Nat.ne_of_lt (h.pending v d hv'))
      · rw [hut, hvt]
  case running =>
    intro d hd
    obtain ⟨hlt, hd⟩ := h.running d hd
    rw [hother d (Nat.ne_of_lt hlt)]
    exact ⟨Nat.lt_succ_of_lt hlt, hd⟩
  case ended =>
    intro d hd
    rcases Nat.lt_succ_iff_lt_or_eq.mp hd with hlt | rfl
    · rw [hother d (Nat.ne_of_lt hlt)]
      exact h.ended d hlt
    · rw [hself]
      exact iff_of_false hnew (by simp)
  case finals => exact fun d hd => Nat.lt_succ_of_lt (h.finals d hd)
  case writes => exact h.writes
  case fresh =>
    intro d hd
    rw [hother d (Nat.ne_of_gt hd)]
    exact h.fresh d (Nat.le_of_succ_le hd)

theorem write_pending (h : s.Inv) (ht : s.pending t = some c) (u : τ) (d : Nat) :
    (s.write t).pending u = some d ↔ s.pending u = some d ∧ d ≠ c := by
  unfold Submit.write
  simp only [ht, Function.update_apply]
  split
  next hu =>
    subst hu
    rw [ht]
    simp [eq_comm]
  next hu =>
    refine (and_iff_left_of_imp fun hd => ?_).symm
    rintro rfl
    exact hu (h.distinct u t d hd ht)

theorem write (h : s.Inv) (ht : s.pending t = some c) : (s.write t).Inv := by
  have hlt := h.pending t c ht
  have hpend := h.write_pending ht
  have hdestroyed : (s.frames c).destroyed = 0 := by
    rcases h.caller c hlt with ⟨hnone, -⟩ | ⟨-, -, hd⟩
    · exact absurd ht (hnone t)
    · exact hd
  have hstep : s.write t = { s.setFrame c { s.frames c with caller := .noop } with
      pending := Function.update s.pending t none
      writes := s.writes ++ [(c, (s.frames c).destroyed == 0)] } := by
    simp only [Submit.write, ht]
  have hself : (s.write t).frames c = { s.frames c with caller := .noop } := by
    rw [hstep]
    exact s.setFrame_self _ _
  have hother : ∀ d, d ≠ c → (s.write t).frames d = s.frames d := by
    intro d hd
    rw [hstep]
    exact s.setFrame_of_ne _ hd
  have hrest : (s.write t).sched = s.sched ∧ (s.write t).allocated = s.allocated ∧
      (s.write t).running = s.running ∧ (s.write t).finals = s.finals ∧
      (s.write t).writes = s.writes ++ [(c, (s.frames c).destroyed == 0)] := by
    rw [hstep]
    exact ⟨rfl, rfl, rfl, rfl, rfl⟩
  obtain ⟨hsched, hallocated, hrunning, hfinals, hwrites⟩ := hrest
  -- of the frame of `c` only `caller_` changes
  have hframe : ∀ d, ((s.write t).frames d).point = (s.frames d).point ∧
      ((s.write t).frames d).destroyed = (s.frames d).destroyed := by
    intro d
    rcases eq_or_ne d c with rfl | hne
    · rw [hself]
      exact ⟨rfl, rfl⟩
    · rw [hother d hne]
      exact ⟨rfl, rfl⟩
  constructor
  case ready =>
    rw [hsched]
    exact h.ready
  case queued =>
    rw [hsched, hallocated]
    exact h.queued
  case caller =>
    intro d hd
    rw [hallocated] at hd
    rcases eq_or_ne d c with rfl | hne
    · rw [hself]
      exact .inl ⟨fun u hu => ((hpend u d).mp hu).2 rfl, rfl⟩
    · simp only [ne_eq, hpend, hother d hne, hne, not_false_eq_true, and_true]
      exact h.caller d hd
  case pending =>
    intro u d hu
    rw [hallocated]
    exact h.pending u d ((hpend u d).mp hu).1
  case distinct =>
    intro u v d hu hv
    exact h.distinct u v d ((hpend u d).mp hu).1 ((hpend v d).mp hv).1
  case running =>
    intro d hd
    rw [hrunning] at hd
    rw [hallocated, (hframe d).1, (hframe d).2]
    exact h.running d hd
  case ended =>
    intro d hd
    rw [hallocated] at hd
    rw [hfinals, (hframe d).1, (hframe d).2]
    exact h.ended d hd
  case finals =>
    rw [hfinals, hallocated]
    exact h.finals
  case writes =>
    intro w hw
    rw [hwrites] at hw
    rcases List.mem_append.mp hw with hw | hw
    · exact h.writes w hw
    · rw [List.mem_singleton.mp hw]
      simp [hdestroyed]
  case fresh =>
    intro d hd
    rw [hallocated] at hd
    rw [(hframe d).2]
    exact h.fresh d hd

end

end Inv

/-! ## The law -/

section

variable {s s' : Submit τ} {c : Nat}

/-- Nothing that the law is about changes. -/
theorem Submitted.congr (hd : ∀ c, (s'.frames c).destroyed = (s.frames c).destroyed)
    (hf : s'.finals = s.finals) (hw : s'.writes = s.writes) : s'.Submitted ↔ s.Submitted := by
  constructor
  · rintro ⟨h1, h2, h3⟩
    refine ⟨hf ▸ h1, fun c => ?_, hw ▸ h3⟩
    rw [← hd, ← hf]
    exact h2 c
  · rintro ⟨h1, h2, h3⟩
    refine ⟨hf ▸ h1, fun c => ?_, hw ▸ h3⟩
    rw [hd, hf]
    exact h2 c

variable [DecidableEq τ]

theorem Inv.next {a : Act τ} (h : s.Inv) (he : s.Enabled a) : (s.next a).Inv := by
  cases a with
  | publish t => exact h.publish he
  | write t =>
    obtain ⟨c, hc⟩ := Option.ne_none_iff_exists'.mp he
    exact h.write hc
  | pass => exact h.pass
  | requeue c => exact h.requeue he
  | resume c => exact h.resume he.2
  | suspend =>
    obtain ⟨c, hc⟩ := Option.ne_none_iff_exists'.mp he
    exact h.suspend hc
  | finish =>
    obtain ⟨c, hc⟩ := Option.ne_none_iff_exists'.mp he
    exact h.finish hc

end

/-! ## One producer -/

def idle (τ : Type) : Submit τ where
  sched := .init fun _ => 0
  handle := 0
  frames _ := ⟨.null, .initial, 0⟩
  allocated := 0
  pending _ := none
  running := none
  finals := []
  writes := []

theorem idle_init (τ : Type) : (idle τ).Init :=
  ⟨SQKScheduler.init_fresh _, rfl, fun _ => rfl, rfl, rfl, rfl, fun _ => rfl⟩

end Submit

end Sqkio
