import Sqkio.Core.Awaker

/-!
# Coroutine frames, activations and the run loop

One thread running `Task` coroutines.  A coroutine is named by the number of its frame,
which stands for `coroutine_handle::address()` and is not used again after the frame is
gone.  The bodies are left open: whenever a body runs, any of the things a body can do may
come next (`Act`), so a run of `machine` is a run of some program.

Resuming is a call: `stack` holds the activations, innermost first, and `back` is the
return from a call of `resume()`.  After `resume()` of a handle that is not suspended
nothing more is modelled; the log keeps the call.
-/

namespace Sqkio

open Sqkio.Lib

/-- Where a coroutine stands. -/
inductive Point (X : Type) where
  | initial
  | awaker (x : X)
  | yield
  /-- At the `co_await` of the task with frame `c`. -/
  | child (c : Nat)
  | running
  | final
  deriving DecidableEq

/-- The two places where frames are destroyed. -/
inductive Destroyer where
  | awaitResume
  | pastFinal
  deriving DecidableEq

/-- What `co_await` gave to the body: for the task with frame `c` a `T&&` into its promise, or
the exception it ended with. -/
inductive Received (V E : Type) where
  | nothing
  | value (v : V)
  | reference (c : Nat)
  | exception (c : Nat) (e : E)
  deriving DecidableEq

/-- A coroutine frame with its promise. -/
structure Frame (X V E : Type) where
  caller : Caller Nat
  result : Except E V
  point : Point X
  received : Received V E
  -- ghosts: how often it has suspended, what its body ended with, who destroyed it
  suspensions : Nat
  returned : Option (Except E V)
  destroyed : List Destroyer

/-- A call that has not returned. -/
inductive Activation where
  /-- The body of `c`. -/
  | body (c : Nat)
  /-- `await_transform` of `p` in `task.resume()` of `c`. -/
  | transform (p c : Nat)
  /-- `final_suspend` of `c` in `caller_.resume()`. -/
  | finishing (c : Nat)
  deriving DecidableEq

def Activation.frame : Activation → Nat
  | body c => c
  | transform p _ => p
  | finishing c => c

/-- Why a handle is in the queue; `n` numbers the suspension it is to end. -/
inductive Cause (X : Type) where
  | start
  | yield (n : Nat)
  | wake (x : X) (n : Nat)
  deriving DecidableEq

/-- A handle resumed by `run`, and where its coroutine stood then. -/
structure Resumption (X : Type) where
  frame : Nat
  cause : Cause X
  point : Point X
  suspensions : Nat
  alive : Bool
  deriving DecidableEq

/-- A read of the promise in `frame`. -/
structure Read where
  frame : Nat
  alive : Bool
  deriving DecidableEq

/-- A move from the `T&&` into the promise in `frame`, what it obtained, and what the body
of that task had returned. -/
structure Move (V E : Type) where
  frame : Nat
  value : V
  returned : Option (Except E V)
  deriving DecidableEq

structure Runtime (X V E : Type) where
  sched : SQKScheduler Nat
  handle : Nat
  awakers : X → AnyAwaker V Nat
  frames : Nat → Frame X V E
  allocated : Nat
  stack : List Activation
  -- ghosts: `queue_` with the causes, the suspension each `handle_` belongs to, the logs
  queued : List (Nat × Cause X)
  since : X → Nat
  resumptions : List (Resumption X)
  reads : List Read
  moves : List (Move V E)

namespace Runtime

variable {X V E : Type}

/-- The frame is allocated and not destroyed. -/
def Live (r : Runtime X V E) (c : Nat) : Prop := c < r.allocated ∧ (r.frames c).destroyed = []

def alive (r : Runtime X V E) (c : Nat) : Bool := (r.frames c).destroyed.isEmpty

def modify (c : Nat) (f : Frame X V E → Frame X V E) (r : Runtime X V E) : Runtime X V E :=
  { r with frames := Function.update r.frames c (f (r.frames c)) }

abbrev setCaller (c : Nat) (caller : Caller Nat) (r : Runtime X V E) : Runtime X V E :=
  r.modify c ({ · with caller })

abbrev setPoint (c : Nat) (point : Point X) (r : Runtime X V E) : Runtime X V E :=
  r.modify c ({ · with point })

abbrev receive (c : Nat) (received : Received V E) (r : Runtime X V E) : Runtime X V E :=
  r.modify c ({ · with received })

/-- `c` stands at `point` and is suspended once more. -/
abbrev suspend (c : Nat) (point : Point X) (r : Runtime X V E) : Runtime X V E :=
  r.modify c fun f => { f with point, suspensions := f.suspensions + 1 }

/-- `return_value` or `unhandled_exception` -/
abbrev store (c : Nat) (o : Except E V) (r : Runtime X V E) : Runtime X V E :=
  r.modify c ({ · with result := o, returned := some o })

/-- `coroutine_handle::destroy()`, or the end of a coroutine that runs past `final_suspend`. -/
abbrev destroy (c : Nat) (destroyer : Destroyer) (r : Runtime X V E) : Runtime X V E :=
  r.modify c fun f => { f with destroyed := f.destroyed ++ [destroyer] }

def setStack (stack : List Activation) (r : Runtime X V E) : Runtime X V E := { r with stack }

def read (c : Nat) (r : Runtime X V E) : Runtime X V E :=
  { r with reads := r.reads ++ [⟨c, r.alive c⟩] }

/-- `scheduler->enqueue(handle)` -/
def enqueue (cause : Cause X) (handle : Nat) (r : Runtime X V E) : Runtime X V E :=
  { r with
    sched := (r.sched.enqueue handle).1
    queued := if r.sched.waiting.length < 1023 then r.queued ++ [(handle, cause)] else r.queued }

/-- `queue_->dequeue(handle)` -/
def dequeue (r : Runtime X V E) : Runtime X V E :=
  { r with sched := (r.sched.dequeue r.handle).1, handle := (r.sched.dequeue r.handle).2.2 }

/-- The ghosts when `run` is about to resume `handle`. -/
def record (r : Runtime X V E) : Runtime X V E :=
  let f := r.frames r.handle
  let cause := (r.queued.head?.map Prod.snd).getD .start
  { r with
    queued := r.queued.tail
    resumptions := r.resumptions ++ [⟨r.handle, cause, f.point, f.suspensions, r.alive r.handle⟩] }

/-- A new frame, at its `initial_suspend`; `result_` holds a `T{}`. -/
def allocate [Inhabited V] (r : Runtime X V E) : Runtime X V E :=
  { r.modify r.allocated fun _ => ⟨.null, .ok default, .initial, .nothing, 0, none, []⟩ with
    allocated := r.allocated + 1 }

/-- `MaybeSuspend<T>::await_resume` in `p`, on the promise of `c`. -/
def awaitResume (p c : Nat) (r : Runtime X V E) : Runtime X V E :=
  let promise := r.frames c
  let r := r.read c
  let r := if promise.caller = .null then r.destroy c .awaitResume else r
  r.receive p (match promise.result with
    | .ok _ => .reference c
    | .error e => .exception c e)

/-- The body of `c` runs on. -/
def start (c : Nat) (r : Runtime X V E) : Runtime X V E :=
  (r.setPoint c .running).setStack (.body c :: r.stack)

section

variable [DecidableEq X]

def setAwaker (x : X) (a : AnyAwaker V Nat) (r : Runtime X V E) : Runtime X V E :=
  { r with awakers := Function.update r.awakers x a }

/-- `coroutine_handle::resume()` -/
def resume (c : Nat) (r : Runtime X V E) : Runtime X V E :=
  if r.alive c then
    match (r.frames c).point with
    | .initial | .yield => (r.start c).receive c .nothing
    | .awaker x =>
      let a := (r.awakers x).awaitResume
      ((r.setAwaker x a.1).start c).receive c (.value a.2)
    | .child d => (r.start c).awaitResume c d
    | .running | .final => r
  else r

/-- `final_suspend` with `resume_caller`. -/
def finalSuspend (c : Nat) (rest : List Activation) (r : Runtime X V E) : Runtime X V E :=
  match (r.frames c).caller with
  | .null => (r.setPoint c .final).setStack rest
  | .noop => (r.destroy c .pastFinal).setStack rest
  | .frame p => (r.setStack (.finishing c :: rest)).resume p

/-- The way from `co_return`, or from an exception, to the end of the body. -/
def leave (o : Except E V) (r : Runtime X V E) : Runtime X V E :=
  match r.stack with
  | .body c :: rest => (r.store c o).finalSuspend c rest
  | _ => r

/-- One pass of the loop in `run`. -/
def pass (r : Runtime X V E) : Runtime X V E :=
  if (r.sched.dequeue r.handle).2.1 = 0 then r.dequeue else r.dequeue.record.resume r.dequeue.handle

/-- `co_await` of an awaker. -/
def coAwait (x : X) (r : Runtime X V E) : Runtime X V E :=
  match r.stack with
  | .body c :: rest =>
    if (r.awakers x).awaitReady then
      let a := (r.awakers x).awaitResume
      (r.setAwaker x a.1).receive c (.value a.2)
    else
      let r := ((r.suspend c (.awaker x)).setStack rest).setAwaker x ((r.awakers x).awaitSuspend c)
      { r with since := Function.update r.since x (r.frames c).suspensions }
  | _ => r

/-- `co_yield nullptr` -/
def coYield (r : Runtime X V E) : Runtime X V E :=
  match r.stack with
  | .body c :: rest =>
    let r := (r.suspend c .yield).setStack rest
    SuspendYield.awaitSuspend (enqueue (.yield (r.frames c).suspensions)) c r
  | _ => r

/-- `wake(ret)` -/
def wake (x : X) (ret : V) (r : Runtime X V E) : Runtime X V E :=
  let a := (r.awakers x).wake (enqueue (.wake x (r.since x))) ret r
  a.2.setAwaker x a.1

/-- The expression around `co_await` moves from the `T&&` it got.  In a frame that is gone
it finds `freed`. -/
def move (freed : V) (r : Runtime X V E) : Runtime X V E :=
  match r.stack with
  | .body p :: _ =>
    match (r.frames p).received with
    | .reference c =>
      let v := if r.alive c then (r.frames c).result.toOption.getD freed else freed
      { (r.read c).receive p (.value v) with
        moves := r.moves ++ [⟨c, v, (r.frames c).returned⟩] }
    | _ => r
  | _ => r

/-- `scheduler->enqueue(task)` of a fresh task. -/
def enqueueTask [Inhabited V] (r : Runtime X V E) : Runtime X V E :=
  let c := r.allocated
  (r.allocate.enqueue .start c).setCaller c .noop

/-- `co_await` of a fresh task: `await_transform` calls `task.resume()`. -/
def coAwaitTask [Inhabited V] (r : Runtime X V E) : Runtime X V E :=
  match r.stack with
  | .body p :: rest =>
    let c := r.allocated
    -- `S_ASSERT` reads `caller_` of the promise first
    (((r.allocate.receive p .nothing).setStack (.transform p c :: rest)).read c).resume c
  | _ => r

/-- A call of `resume()` returns into the innermost activation. -/
def back (r : Runtime X V E) : Runtime X V E :=
  match r.stack with
  | .transform p c :: rest =>
    if (r.frames c).point = .final then
      -- `task.done()`, then `await_ready` answers true and nothing suspends
      (((r.setStack (.body p :: rest)).read c).read c).awaitResume p c
    else (((r.read c).setCaller c (.frame p)).suspend p (.child c)).setStack rest
  | .finishing c :: rest =>
    -- `FinalSuspend(true)`: the coroutine does not suspend and is gone
    (r.destroy c .pastFinal).setStack rest
  | _ => r

end

/-- What can happen next. -/
inductive Act (X V E : Type) where
  | enqueueTask
  | wake (x : X) (ret : V)
  | pass
  | coAwaitTask
  | coAwait (x : X)
  | coYield
  | move (freed : V)
  | coReturn (v : V)
  | throws (e : E)
  | back

def next [DecidableEq X] [Inhabited V] (r : Runtime X V E) : Act X V E → Runtime X V E
  | .enqueueTask => r.enqueueTask
  | .wake x ret => r.wake x ret
  | .pass => r.pass
  | .coAwaitTask => r.coAwaitTask
  | .coAwait x => r.coAwait x
  | .coYield => r.coYield
  | .move freed => r.move freed
  | .coReturn v => r.leave (.ok v)
  | .throws e => r.leave (.error e)
  | .back => r.back

/-- A body runs. -/
def InBody (r : Runtime X V E) : Prop := ∃ c rest, r.stack = .body c :: rest

instance (r : Runtime X V E) : Decidable r.InBody :=
  match h : r.stack with
  | .body c :: rest => isTrue ⟨c, rest, h⟩
  | [] | .transform _ _ :: _ | .finishing _ :: _ => isFalse (by simp [InBody, h])

/-- The task whose reference the running body got last. -/
def referred (r : Runtime X V E) : Option Nat :=
  match r.stack with
  | .body p :: _ =>
    match (r.frames p).received with
    | .reference c => some c
    | _ => none
  | _ => none

def Enabled (r : Runtime X V E) : Act X V E → Prop
  | .enqueueTask | .wake _ _ => r.stack = [] ∨ r.InBody
  | .pass => r.stack = []
  | .coAwaitTask | .coAwait _ | .coYield | .coReturn _ | .throws _ => r.InBody
  | .move _ => r.referred.isSome = true
  | .back => r.stack ≠ [] ∧ ¬ r.InBody

instance : (r : Runtime X V E) → (a : Act X V E) → Decidable (r.Enabled a)
  | r, .enqueueTask | r, .wake _ _ => inferInstanceAs (Decidable (r.stack = [] ∨ r.InBody))
  | r, .pass => inferInstanceAs (Decidable (r.stack = []))
  | r, .coAwaitTask | r, .coAwait _ | r, .coYield | r, .coReturn _ | r, .throws _ =>
    inferInstanceAs (Decidable r.InBody)
  | r, .move _ => inferInstanceAs (Decidable (r.referred.isSome = true))
  | r, .back => inferInstanceAs (Decidable (r.stack ≠ [] ∧ ¬ r.InBody))

/-- Nothing has been made yet; the awakers wait for nobody. -/
structure Init (r : Runtime X V E) : Prop where
  sched : r.sched.Fresh
  awakers : ∀ x, (r.awakers x).handle = none
  allocated : r.allocated = 0
  stack : r.stack = []
  queued : r.queued = []
  resumptions : r.resumptions = []
  reads : r.reads = []
  moves : r.moves = []

/-- One `Awaker` and an empty queue. -/
def idle (V E : Type) [Inhabited V] : Runtime Unit V E where
  sched := .init fun _ => 0
  handle := 0
  awakers _ := .awaker ⟨none, default⟩
  frames _ := ⟨.null, .ok default, .initial, .nothing, 0, none, []⟩
  allocated := 0
  stack := []
  queued := []
  since _ := 0
  resumptions := []
  reads := []
  moves := []

theorem idle_init (V E : Type) [Inhabited V] : (idle V E).Init :=
  ⟨SQKScheduler.init_fresh _, fun _ => rfl, rfl, rfl, rfl, rfl, rfl, rfl⟩

def machine (X V E : Type) [DecidableEq X] [Inhabited V] : Machine (Runtime X V E) (Act X V E) where
  init := Init
  enabled := Enabled
  next := next

instance [DecidableEq X] [Inhabited V] (r : Runtime X V E) (a : Act X V E) :
    Decidable ((machine X V E).enabled r a) := inferInstanceAs (Decidable (r.Enabled a))

end Runtime

end Sqkio
