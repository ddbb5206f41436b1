import Sqkio.Core.Reads

/-!
# Programs of tasks

A `Body` is what the source of a coroutine says: a finite tree of `co_await`s,
`co_yield`s, `throw`s and `co_return`s.  `eval` is its meaning as an ordinary function that
calls the awaited tasks and blocks at the awakers.  `Program.next` runs bodies on the
runtime: each step of the running body is one of the runtime's acts.
-/

namespace Sqkio

open Sqkio.Lib

variable {X Q V E : Type}

/-- `Q` names what is asked of the owner of an awaker, who wakes it with the reply. -/
inductive Body (X Q V E : Type) where
  | coReturn (v : V)
  | throws (e : E)
  /-- `co_yield nullptr` -/
  | coYield (next : Body X Q V E)
  /-- `v = co_await x` -/
  | awaker (x : X) (q : Q) (next : V → Body X Q V E)
  /-- `v = co_await task` in a `try` with a handler; without one, `handler` is `throws`. -/
  | task (body : Body X Q V E) (next : V → Body X Q V E) (handler : E → Body X Q V E)
  /-- `co_await task` whose value is not used, or of a `Task<void>`. -/
  | discard (body next : Body X Q V E) (handler : E → Body X Q V E)

/-- The body as a nested function call. -/
def Body.eval (reply : Q → V) : Body X Q V E → Except E V
  | coReturn v => .ok v
  | throws e => .error e
  | coYield next => next.eval reply
  | awaker _ q next => (next (reply q)).eval reply
  | task body next handler =>
    match body.eval reply with
    | .ok v => (next v).eval reply
    | .error e => (handler e).eval reply
  | discard body next handler =>
    match body.eval reply with
    | .ok _ => next.eval reply
    | .error e => (handler e).eval reply

/-- What is left of a body: still to start with `b`, or in the `co_await` that `b` starts
with. -/
inductive Code (X Q V E : Type) where
  | start (b : Body X Q V E)
  | inside (b : Body X Q V E)

def Code.body : Code X Q V E → Body X Q V E
  | start b | inside b => b

/-- What a `co_await` of a task gave to the body, and what the task had stored. -/
structure Delivery (V E : Type) where
  outcome : Except E (Option V)
  stored : Option (Except E V)
  deriving DecidableEq

/-- The outcome is the stored one; `none` stands for a value that is not used. -/
def Delivery.Exact (d : Delivery V E) : Prop :=
  match d.outcome with
  | .ok (some v) => d.stored = some (.ok v)
  | .ok none => ∃ v, d.stored = some (.ok v)
  | .error e => d.stored = some (.error e)

structure Program (X Q V E : Type) where
  rt : Runtime X V E
  code : Nat → Code X Q V E
  /-- What is asked of the owner of each awaker. -/
  request : X → Q
  -- ghosts: the whole body of each task, the task that awaits it, what was delivered
  body : Nat → Body X Q V E
  parent : Nat → Option Nat
  delivered : List (Delivery V E)

namespace Program

def setCode (c : Nat) (code : Code X Q V E) (s : Program X Q V E) : Program X Q V E :=
  { s with code := Function.update s.code c code }

/-- The task with frame `c` is given its body. -/
def setBody (c : Nat) (b : Body X Q V E) (parent : Option Nat) (s : Program X Q V E) :
    Program X Q V E :=
  { s with
    code := Function.update s.code c (.start b)
    body := Function.update s.body c b
    parent := Function.update s.parent c parent }

/-- The `co_await` of the task with frame `d` is over, and `c` goes on with `b`. -/
def deliver (c d : Nat) (outcome : Except E (Option V)) (b : Body X Q V E) (s : Program X Q V E) :
    Program X Q V E :=
  { s.setCode c (.start b) with
    delivered := s.delivered ++ [⟨outcome, (s.rt.frames d).returned⟩] }

variable [DecidableEq X] [Inhabited V]

/-- The running body `c` starts with `b`. -/
def exec (c : Nat) (b : Body X Q V E) (s : Program X Q V E) : Program X Q V E :=
  let d := s.rt.allocated
  match b with
  | .coReturn v => { s with rt := s.rt.leave (.ok v) }
  | .throws e => { s with rt := s.rt.leave (.error e) }
  | .coYield next => { s.setCode c (.start next) with rt := s.rt.coYield }
  | .awaker x q _ =>
    { s.setCode c (.inside b) with rt := s.rt.coAwait x, request := Function.update s.request x q }
  | .task body _ _ | .discard body _ _ =>
    { (s.setCode c (.inside b)).setBody d body (some c) with rt := s.rt.coAwaitTask }

omit [DecidableEq X] [Inhabited V] in
/-- The running body `c` goes on from the `co_await` that `b` starts with. -/
def goOn (c : Nat) (b : Body X Q V E) (freed : V) (s : Program X Q V E) : Program X Q V E :=
  match b, (s.rt.frames c).received with
  | .awaker _ _ next, .value v => s.setCode c (.start (next v))
  | .task _ next _, .reference d =>
    -- the variable is initialised from the `T&&`
    let rt := s.rt.move freed
    match (rt.frames c).received with
    | .value v => { s.deliver c d (.ok (some v)) (next v) with rt }
    | _ => s
  | .task _ _ handler, .exception d e => s.deliver c d (.error e) (handler e)
  | .discard _ next _, .reference d => s.deliver c d (.ok none) next
  | .discard _ _ handler, .exception d e => s.deliver c d (.error e) (handler e)
  | _, _ => s

inductive Step (X Q V E : Type) where
  /-- `scheduler->enqueue(task)` of a new top-level task. -/
  | enqueue (b : Body X Q V E)
  /-- The owner of `x` wakes it with the reply. -/
  | wake (x : X)
  | pass
  /-- The running body goes on; `freed` is what it would find in freed memory. -/
  | run (freed : V)
  | back

def next (reply : Q → V) (s : Program X Q V E) : Step X Q V E → Program X Q V E
  | .enqueue b => { s.setBody s.rt.allocated b none with rt := s.rt.enqueueTask }
  | .wake x => { s with rt := s.rt.wake x (reply (s.request x)) }
  | .pass => { s with rt := s.rt.pass }
  | .run freed =>
    match s.rt.stack with
    | .body c :: _ =>
      match s.code c with
      | .start b => s.exec c b
      | .inside b => s.goOn c b freed
    | _ => s
  | .back => { s with rt := s.rt.back }

/-- The queue has room for another handle. -/
def Room (s : Program X Q V E) : Prop := s.rt.sched.waiting.length < 1023

/-- The awaker lets a coroutine wait, and none waits there. -/
def Free (s : Program X Q V E) (x : X) : Prop :=
  (s.rt.awakers x).handle = none ∧ (s.rt.awakers x).awaitReady = false

/-- A coroutine waits at the awaker that has not been woken since. -/
def Waiting (s : Program X Q V E) (x : X) : Prop :=
  ∃ c, (s.rt.awakers x).handle = some c ∧ c ∉ s.rt.sched.waiting

/-- The control is where the step begins; the queue is never asked to hold more than it can,
a coroutine awaits an awaker alone, and an awaker is woken once while it waits. -/
def Enabled (s : Program X Q V E) : Step X Q V E → Prop
  | .enqueue _ => (s.rt.stack = [] ∨ s.rt.InBody) ∧ s.Room
  | .wake x => (s.rt.stack = [] ∨ s.rt.InBody) ∧ s.Room ∧ s.Waiting x
  | .pass => s.rt.stack = []
  | .run _ => s.rt.InBody ∧ ∀ c rest, s.rt.stack = .body c :: rest →
    (∀ b, s.code c = .start (.coYield b) → s.Room) ∧
      ∀ x q b, s.code c = .start (.awaker x q b) → s.Free x
  | .back => s.rt.stack ≠ [] ∧ ¬ s.rt.InBody

instance (s : Program X Q V E) : Decidable s.Room :=
  inferInstanceAs (Decidable (s.rt.sched.waiting.length < 1023))

instance (s : Program X Q V E) (x : X) : Decidable (s.Free x) :=
  inferInstanceAs (Decidable (_ ∧ _))

instance (s : Program X Q V E) (x : X) : Decidable (s.Waiting x) :=
  match h : (s.rt.awakers x).handle with
  | none => isFalse (by simp [Waiting, h])
  | some c => decidable_of_iff (c ∉ s.rt.sched.waiting) (by simp [Waiting, h])

instance : (s : Program X Q V E) → (a : Step X Q V E) → Decidable (s.Enabled a)
  | s, .enqueue _ => inferInstanceAs (Decidable ((s.rt.stack = [] ∨ s.rt.InBody) ∧ s.Room))
  | s, .wake x =>
    inferInstanceAs (Decidable ((s.rt.stack = [] ∨ s.rt.InBody) ∧ s.Room ∧ s.Waiting x))
  | s, .pass => inferInstanceAs (Decidable (s.rt.stack = []))
  | s, .back => inferInstanceAs (Decidable (s.rt.stack ≠ [] ∧ ¬ s.rt.InBody))
  | s, .run _ =>
    match h : s.rt.stack with
    | .body c :: rest =>
      match hcode : s.code c with
      | .start (.coYield _) => decidable_of_iff s.Room (by simp [Enabled, Runtime.InBody, h, hcode])
      | .start (.awaker x _ _) => decidable_of_iff (s.Free x) (by simp [Enabled, Runtime.InBody, h, hcode])
      | .start (.coReturn _) | .start (.throws _) | .start (.task _ _ _) | .start (.discard _ _ _)
      | .inside _ => isTrue (by simp [Enabled, Runtime.InBody, h, hcode])
    | [] | .transform _ _ :: _ | .finishing _ :: _ => isFalse (by simp [Enabled, Runtime.InBody, h])

/-- The run of any number of top-level tasks, when the owners of the awakers give `reply`. -/
def machine (reply : Q → V) : Machine (Program X Q V E) (Step X Q V E) where
  init s := s.rt.Init ∧ s.delivered = []
  enabled := Enabled
  next := next reply

instance (reply : Q → V) (s : Program X Q V E) (a : Step X Q V E) :
    Decidable ((machine reply).enabled s a) := inferInstanceAs (Decidable (s.Enabled a))

end Program

end Sqkio
