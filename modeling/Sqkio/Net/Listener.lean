import Sqkio.Lib.Machine
import Sqkio.Net.EventQueue

/-!
# Connection requests and `PassiveEndpoint::next`

Any number of `next()` tasks wait at the one `Awaker<Info>` of a `PassiveEndpoint`.  It holds one
handle and one `Info`, so a request that is read while no task waits there, or before the task
woken by the one before it has run, is overwritten or handed to nobody.

`kept_of_waited`: as long as every request finds its own waiting task, none is lost and none is
returned twice.
-/

namespace Sqkio.Net.Fab

open Sqkio.Lib

/-- What the scheduler resumes: the `n`-th `next()` task, or another coroutine. -/
inductive Waiter where
  | next (n : Nat)
  | other (k : Nat)
  deriving DecidableEq

/-- The event queue with the `PassiveEndpoint` as object 0, registered under `fid`. -/
structure Listener (I : Type) extends EventQueue I Waiter where
  fid : Fid
  -- `run`'s variable `handle`
  handle : Waiter
  started : Nat
  finished : List Nat
  -- ghosts: the requests read by `poll`, what the `next()` tasks returned
  events : List I
  returned : List (Option I)

namespace Listener

variable {I : Type}

inductive Act (I : Type) where
  /-- A `next()` task begins: `co_await awaker_` suspends it. -/
  | start
  /-- `poll` reads an `FI_CONNREQ`. -/
  | event (info : I)
  /-- Another coroutine is passed to the scheduler. -/
  | enqueue (k : Nat)
  /-- One pass of the loop in `run`. -/
  | pass

def start (s : Listener I) : Listener I :=
  { s with
    toEventQueue := s.setEp 0 ((s.eps 0).map (·.awaitSuspend (.next s.started)))
    started := s.started + 1 }

def event (info : I) (s : Listener I) : Listener I :=
  { s with toEventQueue := s.poll .connreq ⟨s.fid, info⟩, events := s.events ++ [info] }

/-- `handle.resume()`: a `next()` task takes the `Info` and returns it.  Nothing is modelled for one
that has returned. -/
def resume (handle : Waiter) (s : Listener I) : Listener I :=
  match handle, s.eps 0 with
  | .next n, some ep =>
    if n ∈ s.finished then s
    else
      { s with
        toEventQueue := s.setEp 0 (some ep.awaitResume.1)
        finished := s.finished ++ [n]
        returned := s.returned ++ [ep.awaitResume.2] }
  | _, _ => s

/-- One pass of the loop in `run`. -/
def pass (s : Listener I) : Listener I :=
  let r := s.sched.dequeue s.handle
  let s := { s with sched := r.1, handle := r.2.2 }
  if r.2.1 = 0 then s else s.resume s.handle

def next (s : Listener I) : Act I → Listener I
  | .start => s.start
  | .event info => s.event info
  | .enqueue k => { s with sched := s.sched.push (.other k) }
  | .pass => s.pass

structure Init (s : Listener I) : Prop where
  sched : s.sched.Fresh
  eps : ∃ info, s.eps 0 = some (.passiveEndpoint s.fid ⟨none, info⟩)
  peps : s.peps s.fid = some 0
  started : s.started = 0
  finished : s.finished = []
  events : s.events = []
  returned : s.returned = []

def machine (I : Type) : Machine (Listener I) (Act I) where
  init := Init
  enabled _ _ := True
  next := next

/-- The requests are returned in order and each once; when no woken task is left to run, as many are
returned as there are both tasks and requests for. -/
structure Kept (s : Listener I) : Prop where
  order : s.returned <+: s.events.map some
  taken : (∀ n, Waiter.next n ∉ s.sched.waiting) →
    s.returned.length = min s.started s.events.length

/-- The handle in `awaker_`. -/
def waiter (s : Listener I) : Option Waiter := (s.eps 0).bind Ep.handle

/-- A request is read while a task waits for it, every request before it has been taken, and the
scheduler has room. -/
def Waited (s : Listener I) : Act I → Prop
  | .event _ => s.waiter.isSome = true ∧ (∀ n, n < s.started → Waiter.next n ∉ s.sched.waiting) ∧
      s.sched.waiting.length < 1023
  | _ => True

instance : (s : Listener I) → (a : Act I) → Decidable (s.Waited a)
  | s, .event _ => inferInstanceAs (Decidable (s.waiter.isSome = true ∧
      (∀ n, n < s.started → Waiter.next n ∉ s.sched.waiting) ∧ s.sched.waiting.length < 1023))
  | _, .start | _, .enqueue _ | _, .pass => isTrue trivial

instance (s : Listener I) (a : Act I) : Decidable ((machine I).enabled s a) := isTrue trivial

/-! ## The invariant -/

/-- The woken tasks that have not run. -/
def woken (ws : List Waiter) : List Nat :=
  ws.filterMap fun w => match w with
    | .next n => some n
    | .other _ => none

@[simp] theorem mem_woken {n : Nat} {ws : List Waiter} : n ∈ woken ws ↔ .next n ∈ ws := by
  simp only [woken, List.mem_filterMap]
  constructor
  · rintro ⟨w, hw, hn⟩
    cases w with
    | next m =>
      cases hn
      exact hw
    | other k => cases hn
  · exact fun h => ⟨_, h, rfl⟩

@[simp] theorem woken_append (ws ws' : List Waiter) : woken (ws ++ ws') = woken ws ++ woken ws' :=
  List.filterMap_append

/-- `a` is the awaker.  Either no task is woken and all requests are returned, or one task is, and it
is the last request that it will return. -/
structure Inv (s : Listener I) (a : Awaker (Option I) Waiter) : Prop where
  ready : s.sched.Ready s.sched.waiting
  peps : s.peps s.fid = some 0
  eps : s.eps 0 = some (.passiveEndpoint s.fid a)
  handle : ∀ w, a.handle = some w → ∃ n, w = .next n ∧ n < s.started ∧ n ∉ s.finished
  finished : s.finished.Nodup ∧ ∀ n ∈ s.finished, n < s.started
  length : s.finished.length = s.returned.length
  woken : (woken s.sched.waiting = [] ∧ s.events.map some = s.returned) ∨
    ∃ n, Listener.woken s.sched.waiting = [n] ∧ n < s.started ∧ n ∉ s.finished ∧
      s.events.map some = s.returned ++ [a.ret]

theorem Init.inv {s : Listener I} (h : s.Init) : ∃ a, s.Inv a := by
  obtain ⟨info, heps⟩ := h.eps
  have hready := h.sched.ready
  refine ⟨⟨none, info⟩, ?_⟩
  constructor
  case ready => exact hready.waiting
  case peps => exact h.peps
  case eps => exact heps
  case handle => simp
  case finished => simp [h.finished]
  case length => simp [h.finished, h.returned]
  case woken => exact .inl ⟨by simp [hready.waiting_eq, Listener.woken], by simp [h.events, h.returned]⟩

section

variable {s : Listener I} {a : Awaker (Option I) Waiter}

namespace Inv

theorem start (h : s.Inv a) : s.start.Inv (a.awaitSuspend (.next s.started)) := by
  obtain ⟨hready, hpeps, heps, hhandle, hfinished, hlength, hwoken⟩ := h
  constructor <;> simp only [Listener.start, EventQueue.setEp, Function.update_self]
  case ready => exact hready
  case peps => exact hpeps
  case eps =>
    rw [heps]
    rfl
  case handle =>
    rintro w hw
    cases hw
    exact ⟨s.started, rfl, Nat.lt_succ_self _, fun hmem => Nat.lt_irrefl _ (hfinished.2 _ hmem)⟩
  case finished => exact ⟨hfinished.1, fun n hn => Nat.lt_succ_of_lt (hfinished.2 n hn)⟩
  case length => exact hlength
  case woken =>
    rcases hwoken with hnone | ⟨n, hn, hlt, hrest⟩
    · exact .inl hnone
    · exact .inr ⟨n, hn, Nat.lt_succ_of_lt hlt, hrest⟩

/-- A request that finds a waiting task and no woken one wakes that task, and waits in `ret_`. -/
theorem event (h : s.Inv a) {info : I} (hw : s.Waited (.event info)) :
    (s.event info).Inv { a with ret := some info } := by
  obtain ⟨hsome, hnone, hroom⟩ := hw
  obtain ⟨w, hw⟩ := Option.isSome_iff_exists.mp hsome
  rw [waiter, h.eps, Option.bind_some] at hw
  obtain ⟨n, rfl, hlt, hunfinished⟩ := h.handle w hw
  have hstep : s.poll .connreq ⟨s.fid, info⟩ =
      { s.setEp 0 (some (.passiveEndpoint s.fid { a with ret := some info })) with
        sched := s.sched.push (.next n) } := by
    simp only [EventQueue.poll, EventQueue.deref, h.peps, Option.elim_some, EventQueue.wakeEp, h.eps,
      Awaker.wake]
    rw [show a.handle = some (.next n) from hw]
    rfl
  have henqueued := h.ready.enqueue_room hroom (.next n)
  obtain ⟨hready, hpeps, heps, hhandle, hfinished, hlength, hwoken⟩ := h
  have hbefore : Listener.woken s.sched.waiting = [] ∧ s.events.map some = s.returned := by
    rcases hwoken with hbefore | ⟨m, hm, hlt', -⟩
    · exact hbefore
    · have hmem : m ∈ Listener.woken s.sched.waiting := by simp [hm]
      exact absurd (mem_woken.mp hmem) (hnone m hlt')
  constructor <;> simp only [Listener.event, hstep, EventQueue.setEp, Function.update_self]
  case ready => exact henqueued.waiting
  case peps => exact hpeps
  case handle => exact hhandle
  case finished => exact hfinished
  case length => exact hlength
  case woken =>
    refine .inr ⟨n, ?_, hlt, hunfinished, ?_⟩
    · rw [SQKScheduler.push, henqueued.waiting_eq, woken_append, hbefore.1]
      rfl
    · rw [List.map_append, hbefore.2]
      rfl

theorem enqueue (h : s.Inv a) (k : Nat) : (s.next (.enqueue k)).Inv a := by
  have hwaiting := h.ready.enqueue_waiting (.other k)
  have hsame : Listener.woken (s.sched.push (.other k)).waiting = Listener.woken s.sched.waiting := by
    rw [SQKScheduler.push, hwaiting]
    split
    · rw [woken_append]
      exact List.append_nil _
    · rfl
  exact ⟨h.ready.enqueue _, h.peps, h.eps, h.handle, h.finished, h.length, hsame ▸ h.woken⟩

theorem pass (h : s.Inv a) : ∃ a', s.pass.Inv a' := by
  obtain ⟨hready, ⟨hnil, hnil', hzero⟩ | ⟨w, hcons, hone⟩⟩ := h.ready.dequeue_cases s.handle
  · have hstep : s.pass = { s with
        sched := (s.sched.dequeue s.handle).1, handle := (s.sched.dequeue s.handle).2.2 } := if_pos hzero
    have hwoken := h.woken
    rw [hnil, ← hnil'] at hwoken
    rw [hstep]
    exact ⟨a, hready, h.peps, h.eps, h.handle, h.finished, h.length, hwoken⟩
  · have hstep : s.pass =
        Listener.resume w { s with sched := (s.sched.dequeue s.handle).1, handle := w } := by
      simp only [Listener.pass, hone]
      exact if_neg (show ¬ (1 : UInt32) = 0 by decide)
    rw [hstep]
    obtain ⟨-, hpeps, heps, hhandle, hfinished, hlength, hwoken⟩ := h
    rw [hcons] at hwoken
    cases w with
    | other k => exact ⟨a, hready, hpeps, heps, hhandle, hfinished, hlength, hwoken⟩
    | next n =>
      -- the task that runs is the one woken by the last request
      obtain ⟨m, hm, hlt, hunfinished, hlast⟩ := hwoken.resolve_left fun hnone => by cases hnone.1
      obtain ⟨rfl, hempty⟩ := List.cons.inj hm
      refine ⟨⟨none, none⟩, ?_⟩
      constructor <;>
        simp only [Listener.resume, heps, if_neg hunfinished, EventQueue.setEp, Function.update_self]
      case ready => exact hready
      case peps => exact hpeps
      case eps => rfl
      case handle => exact fun w hw => by cases hw
      case finished =>
        refine ⟨?_, List.forall_mem_append.mpr ⟨hfinished.2, List.forall_mem_singleton.mpr hlt⟩⟩
        refine List.nodup_append.mpr ⟨hfinished.1, List.nodup_singleton _, fun p hp q hq => ?_⟩
        rw [List.mem_singleton.mp hq]
        rintro rfl
        exact hunfinished hp
      case length => rw [List.length_append, List.length_append, hlength, List.length_singleton, List.length_singleton]
      case woken => exact .inl ⟨hempty, hlast⟩

theorem next (h : s.Inv a) {act : Act I} (hw : s.Waited act) : ∃ a', (s.next act).Inv a' := by
  cases act with
  | start => exact ⟨_, h.start⟩
  | event info => exact ⟨_, h.event hw⟩
  | enqueue k => exact ⟨a, h.enqueue k⟩
  | pass => exact h.pass

/-- As many requests as tasks at most: each returned request has a task of its own. -/
theorem kept (h : s.Inv a) : s.Kept := by
  obtain ⟨-, -, -, -, hfinished, hlength, hwoken⟩ := h
  constructor
  case order =>
    rcases hwoken with ⟨-, heq⟩ | ⟨n, -, -, -, heq⟩
    · rw [heq]
    · rw [heq]
      exact List.prefix_append _ _
  case taken =>
    intro hnone
    have hle : s.finished.length ≤ s.started := by
      have hsub : List.Subperm s.finished (List.range s.started) :=
        hfinished.1.subperm fun n hn => List.mem_range.mpr (hfinished.2 n hn)
      exact hsub.length_le.trans_eq List.length_range
    rcases hwoken with ⟨-, heq⟩ | ⟨n, hn, -⟩
    · have hevents := congrArg List.length heq
      rw [List.length_map] at hevents
      omega
    · have hmem : n ∈ Listener.woken s.sched.waiting := by simp [hn]
      exact absurd (mem_woken.mp hmem) (hnone n)

end Inv

/-- In every state that is reached while each request is read when a task waits for it, every request
before it has been taken and the scheduler has room, the requests are returned in order, each once,
and none is lost. -/
theorem kept_of_waited (h : ((machine I).restrict Waited).Reachable s) : s.Kept := by
  obtain ⟨a, hinv⟩ : ∃ a, s.Inv a := by
    induction h with
    | init h0 => exact Init.inv h0
    | step act _ hen ih =>
      obtain ⟨a, ha⟩ := ih
      exact ha.next hen.2
  exact hinv.kept

end

/-! ## One request or two -/

/-- No task has begun. -/
def idle : Listener Nat where
  sched := .init fun _ => .other 0
  peps fid := if fid = 5 then some 0 else none
  map _ := none
  eps o := if o = 0 then some (.passiveEndpoint 5 ⟨none, none⟩) else none
  accepts _ := ⟨none, ()⟩
  undefined := false
  fid := 5
  handle := .other 0
  started := 0
  finished := []
  events := []
  returned := []

theorem idle_init : idle.Init :=
  ⟨SQKScheduler.init_fresh _, ⟨none, rfl⟩, rfl, rfl, rfl, rfl, rfl⟩

/-- Each request is read after the task that will return it has begun. -/
theorem kept_of_waited_twice : ((machine Nat).runList idle
    [.start, .event 1, .pass, .start, .event 2, .pass]).Kept :=
  kept_of_waited (Machine.Reachable.runList (.init idle_init) (by decide +kernel))

/-- A request is read before the first task begins: it is lost, and the second one is returned. -/
theorem lost : ∃ s : Listener Nat, s.Init ∧ (machine Nat).AllEnabled s [.event 1, .start, .event 2, .pass] ∧
    ((machine Nat).runList s [.event 1, .start, .event 2, .pass]).events = [1, 2] ∧
    ((machine Nat).runList s [.event 1, .start, .event 2, .pass]).returned = [some 2] ∧
    ¬ ((machine Nat).runList s [.event 1, .start, .event 2, .pass]).Kept := by
  have hevents : ((machine Nat).runList idle [.event 1, .start, .event 2, .pass]).events = [1, 2] := by
    decide +kernel
  have hreturned : ((machine Nat).runList idle [.event 1, .start, .event 2, .pass]).returned = [some 2] := by
    decide +kernel
  refine ⟨idle, idle_init, by decide +kernel, hevents, hreturned, fun hkept => ?_⟩
  have horder := hkept.order
  rw [hevents, hreturned] at horder
  exact absurd horder (by decide)

end Listener

end Sqkio.Net.Fab
