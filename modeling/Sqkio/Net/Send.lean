import Sqkio.Net.Transfer

/-!
# The retry loop of `Endpoint::send`

`send` calls `fi_send` again and again as long as it returns `-EAGAIN`, and suspends only after that.
The provider has no room until `CompletionQueue::poll` has reaped a `send`, and the task that polls runs
on the same thread.

    a send begins with room        → one iteration posts it, and it suspends       (iterate_room)
    a send begins without room     → it is in its loop after any number of steps   (Stuck.spins)

`returns_iff`: the run loop gets control back after every resumption exactly when each `send` begins
while the provider has room.
-/

namespace Sqkio.Net.Fab

open Sqkio.Lib

def eagain : Int := 11

/-- What the coroutine of a handle that is not yet, or never, in an operation will do. -/
inductive Role where
  /-- A `send` that has not begun. -/
  | sender
  /-- `for (;;) { cq.poll(); co_yield nullptr; }` -/
  | poller
  | other
  deriving DecidableEq

/-- Which code the one thread is in. -/
inductive Control where
  | runLoop
  /-- `for (;;)` in `send`. -/
  | sendLoop
  deriving DecidableEq

/-- The operations in flight, with the depth of the provider's transmit queue and the tasks. -/
structure Sending extends Transfer where
  depth : Nat
  control : Control
  spawned : Nat
  role : Nat → Role

namespace Sending

inductive Act where
  /-- A task is passed to the scheduler. -/
  | spawn (role : Role)
  /-- A coroutine that the run loop has resumed awaits a `send`, which begins at once. -/
  | call
  /-- Another operation is posted. -/
  | post (op : Op) (ret : Address)
  /-- The provider completes an operation. -/
  | deliver (c : Completion)
  /-- One pass of the loop in `run`. -/
  | pass
  /-- One iteration of the loop in `send`. -/
  | iterate

/-- The `send`s that are posted and not yet reaped by `poll`. -/
def outstanding (s : Transfer) : Nat :=
  (List.range s.posted).countP fun n => (s.frames n).op == .send && !s.polled.contains n

/-- What `fi_send` returns. -/
def fiSend (s : Sending) : Int := if outstanding s.toTransfer < s.depth then 0 else -eagain

/-- `rc = fi_send(...); if (rc != -EAGAIN) break;` and what follows the loop. -/
def iterate (s : Sending) : Sending :=
  let rc := s.fiSend
  if rc = -eagain then s
  -- `throw std::system_error(-rc, std::system_category())`
  else if rc ≠ 0 then { s with control := .runLoop }
  else { s with toTransfer := s.toTransfer.call .send 0, control := .runLoop }

def spawn (role : Role) (s : Sending) : Sending :=
  { s with
    sched := s.sched.push (.other s.spawned)
    spawned := s.spawned + 1
    role := Function.update s.role s.spawned role }

/-- `handle.resume()` of a task that is in no operation. -/
def resumeTask (bits : Op → UInt64) (k : Nat) (s : Sending) : Sending :=
  match s.role k with
  | .sender => { s with control := .sendLoop, role := Function.update s.role k .other }
  | .poller => { s with toTransfer := (s.toTransfer.poll bits).1.next bits (.enqueue k) }
  | .other => s

/-- One pass of the loop in `run`. -/
def pass (bits : Op → UInt64) (s : Sending) : Sending :=
  let r := s.sched.dequeue s.handle
  let s := { s with toTransfer := s.toTransfer.pass }
  if r.2.1 = 0 then s
  else
    match r.2.2 with
    | .op _ => s
    | .other k => s.resumeTask bits k

def next (bits : Op → UInt64) (s : Sending) : Act → Sending
  | .spawn role => s.spawn role
  | .call => { s with control := .sendLoop }
  | .post op ret => { s with toTransfer := s.toTransfer.call op ret }
  | .deliver c => { s with toTransfer := s.toTransfer.deliver c }
  | .pass => s.pass bits
  | .iterate => s.iterate

/-- The thread is in one place; the provider goes on by itself. -/
def Enabled (bits : Op → UInt64) (s : Sending) : Act → Prop
  | .spawn _ => True
  | .call | .pass => s.control = .runLoop
  | .post op _ => s.control = .runLoop ∧ op ≠ .send
  | .deliver c => s.toTransfer.Enabled bits (.deliver c)
  | .iterate => s.control = .sendLoop

instance (bits : Op → UInt64) : (s : Sending) → (a : Act) → Decidable (s.Enabled bits a)
  | _, .spawn _ => isTrue trivial
  | s, .call | s, .pass => inferInstanceAs (Decidable (s.control = .runLoop))
  | s, .post op _ => inferInstanceAs (Decidable (s.control = .runLoop ∧ op ≠ .send))
  | s, .deliver c => inferInstanceAs (Decidable (s.toTransfer.Enabled bits (.deliver c)))
  | s, .iterate => inferInstanceAs (Decidable (s.control = .sendLoop))

structure Init (s : Sending) : Prop where
  transfer : s.toTransfer.Init
  control : s.control = .runLoop

def machine (bits : Op → UInt64) : Machine Sending Act where
  init := Init
  enabled := Enabled bits
  next := next bits

instance (bits : Op → UInt64) (s : Sending) (a : Act) : Decidable ((machine bits).enabled s a) :=
  inferInstanceAs (Decidable (s.Enabled bits a))

/-- The thread is back in the run loop after finitely many iterations. -/
def Returns (s : Sending) : Prop := ∃ n, (iterate^[n] s).control = .runLoop

/-- The handle that `run` takes next is that of a `send` that has not begun. -/
def begins (s : Sending) : Bool :=
  match s.sched.waiting.head? with
  | some (.other k) => s.role k == .sender
  | _ => false

/-- A `send` begins while the provider has room. -/
def Roomy (s : Sending) : Act → Prop
  | .call => outstanding s.toTransfer < s.depth
  | .pass => s.begins = true → outstanding s.toTransfer < s.depth
  | _ => True

instance : (s : Sending) → (a : Act) → Decidable (s.Roomy a)
  | s, .call => inferInstanceAs (Decidable (outstanding s.toTransfer < s.depth))
  | s, .pass => inferInstanceAs (Decidable (s.begins = true → outstanding s.toTransfer < s.depth))
  | _, .spawn _ | _, .post .. | _, .deliver _ | _, .iterate => isTrue trivial

/-! ## The loop -/

section

variable {bits : Op → UInt64} {s : Sending}

theorem iterate_room (h : outstanding s.toTransfer < s.depth) :
    s.iterate = { s with toTransfer := s.toTransfer.call .send 0, control := .runLoop } := by
  have hrc : s.fiSend = 0 := if_pos h
  simp only [iterate, hrc]
  rfl

theorem iterate_full (h : ¬outstanding s.toTransfer < s.depth) : s.iterate = s :=
  if_pos (if_neg h)

theorem returns_iff_room :
    s.Returns ↔ (s.control = .sendLoop → outstanding s.toTransfer < s.depth) := by
  constructor
  · rintro ⟨n, hn⟩ hcontrol
    by_contra hfull
    rw [Function.iterate_fixed (iterate_full hfull) n, hcontrol] at hn
    cases hn
  · intro hroom
    cases hcontrol : s.control with
    | runLoop => exact ⟨0, hcontrol⟩
    | sendLoop =>
      refine ⟨1, ?_⟩
      show (iterate s).control = _
      rw [iterate_room (hroom hcontrol)]

/-- The thread is in the loop of a `send`, and the provider has no room. -/
structure Stuck (s : Sending) : Prop where
  control : s.control = .sendLoop
  full : ¬outstanding s.toTransfer < s.depth

theorem Stuck.next (h : s.Stuck) {a : Act} (he : s.Enabled bits a) : (s.next bits a).Stuck := by
  have haway : s.control ≠ .runLoop := by
    rw [h.control]
    nofun
  cases a with
  | spawn role => exact ⟨h.control, h.full⟩
  | call => exact absurd he haway
  | post op ret => exact absurd he.1 haway
  | deliver c => exact ⟨h.control, h.full⟩
  | pass => exact absurd he haway
  | iterate =>
    have hsame : s.next bits .iterate = s := iterate_full h.full
    rw [hsame]
    exact h

/-- Whatever the provider completes, the `send` stays in its loop. -/
theorem Stuck.spins (h : s.Stuck) {acts : List Act} (he : (machine bits).AllEnabled s acts) :
    ((machine bits).runList s acts).Stuck :=
  @Machine.inv_runList _ _ (machine bits) Stuck (fun _ _ hen hi => hi.next hen) acts s h he

/-! ## The invariant -/

/-- A `send` that is in its loop finds room. -/
structure Inv (bits : Op → UInt64) (s : Sending) : Prop where
  transfer : s.toTransfer.Inv bits
  room : s.control = .sendLoop → outstanding s.toTransfer < s.depth

theorem Init.inv (h : s.Init) : s.Inv bits :=
  ⟨h.transfer.inv, fun hcontrol => by rw [h.control] at hcontrol; cases hcontrol⟩

/-- A pass of the run loop: no handle, the handle of an operation, or a task. -/
theorem Inv.pass_eq (h : s.Inv bits) :
    (s.begins = false ∧ s.pass bits = { s with toTransfer := s.toTransfer.pass }) ∨
    ∃ k, (s.begins = true ↔ s.role k = .sender) ∧
      s.pass bits = resumeTask bits k { s with toTransfer := s.toTransfer.pass } ∧
      outstanding s.toTransfer.pass = outstanding s.toTransfer := by
  obtain ⟨-, ⟨hnil, -, hzero⟩ | ⟨w, hcons, hone⟩⟩ := h.transfer.ready.dequeue_cases s.handle
  · refine .inl ⟨by simp [begins, hnil], ?_⟩
    simp only [pass, hzero, if_true]
  · have hone' : ¬ (1 : UInt32) = 0 := by decide
    cases w with
    | op n =>
      refine .inl ⟨by simp [begins, hcons], ?_⟩
      simp only [pass, hone, if_neg hone']
    | other k =>
      refine .inr ⟨k, by simp [begins, hcons], by simp only [pass, hone, if_neg hone'], ?_⟩
      simp only [Transfer.pass, hone, if_neg hone']
      rfl

theorem Inv.pass (h : s.Inv bits) (hcontrol : s.control = .runLoop) (hr : s.Roomy .pass) :
    (s.pass bits).Inv bits := by
  have htransfer := h.transfer.pass
  have hidle : ∀ t : Sending, t.control = .runLoop → t.toTransfer.Inv bits → t.Inv bits :=
    fun t ht hinv => ⟨hinv, fun hloop => by rw [ht] at hloop; cases hloop⟩
  rcases h.pass_eq with ⟨-, heq⟩ | ⟨k, hbegins, heq, hsame⟩
  · rw [heq]
    exact hidle _ hcontrol htransfer
  · rw [heq]
    unfold resumeTask
    split
    next hrole =>
      refine ⟨htransfer, fun _ => ?_⟩
      show outstanding s.toTransfer.pass < s.depth
      rw [hsame]
      exact hr (hbegins.mpr hrole)
    · exact hidle _ hcontrol (htransfer.poll.enqueue k)
    · exact hidle _ hcontrol htransfer

theorem Inv.next (h : s.Inv bits) {a : Act} (he : s.Enabled bits a) (hr : s.Roomy a) :
    (s.next bits a).Inv bits := by
  cases a with
  | spawn role => exact ⟨h.transfer.enqueue s.spawned, h.room⟩
  | call => exact ⟨h.transfer, fun _ => hr⟩
  | post op ret => exact ⟨h.transfer.call op ret, fun hloop => by cases he.1.symm.trans hloop⟩
  | deliver c => exact ⟨h.transfer.deliver he, h.room⟩
  | pass => exact h.pass he hr
  | iterate =>
    have hstep : s.next bits .iterate = _ := iterate_room (h.room he)
    rw [hstep]
    exact ⟨h.transfer.call .send 0, nofun⟩

/-- A `send` that begins without room does not return. -/
theorem Inv.roomy (h : s.Inv bits) {a : Act} (hn : (s.next bits a).Returns) : s.Roomy a := by
  rw [returns_iff_room] at hn
  cases a with
  | spawn role => trivial
  | call => exact hn rfl
  | post op ret => trivial
  | deliver c => trivial
  | pass =>
    intro hbegins
    rcases h.pass_eq with ⟨hnone, -⟩ | ⟨k, hrole, heq, hsame⟩
    · rw [hbegins] at hnone
      cases hnone
    · have hresume : s.next bits .pass = { s with
          toTransfer := s.toTransfer.pass, control := .sendLoop, role := Function.update s.role k .other } := by
        refine heq.trans ?_
        simp only [resumeTask, hrole.mp hbegins]
      rw [hresume] at hn
      exact hsame ▸ hn rfl
  | iterate => trivial

/-- **The run loop.**  For every depth of the transmit queue, every number of `send`s and every order of
passes and completions: the run loop gets control back after finitely many iterations in all states, exactly
when each `send` begins while fewer are posted and not yet reaped than the queue holds. -/
theorem returns_iff (h : s.Init) {acts : List Act} (he : (machine bits).AllEnabled s acts) :
    (∀ n, ((machine bits).runList s (acts.take n)).Returns) ↔
      ((machine bits).restrict Roomy).AllEnabled s acts :=
  @Machine.always_iff_allEnabled _ _ (machine bits) (Inv bits) Returns Roomy
    (fun _ hi => returns_iff_room.mpr hi.room) (fun _ _ hen hr hi => hi.next hen hr)
    (fun _ _ _ hi hn => hi.roomy hn) acts s h.inv he

end

/-! ## A queue for one `send` -/

/-- Nothing is posted, and the queue holds one `send`. -/
def idle : Sending where
  toTransfer := .idle
  depth := 1
  control := .runLoop
  spawned := 0
  role _ := .other

theorem idle_init : idle.Init := ⟨Transfer.idle_init, rfl⟩

/-- The second `send` begins when the first has been reaped. -/
def reaped : List Act :=
  [.spawn .sender, .spawn .poller, .pass, .iterate, .deliver (.success ⟨0, 0x802, 0⟩), .pass, .spawn .sender,
    .pass, .pass, .pass, .iterate]

theorem returns_iff_reaped : (∀ n, ((machine Transfer.fiBits).runList idle (reaped.take n)).Returns) ↔
    ((machine Transfer.fiBits).restrict Roomy).AllEnabled idle reaped :=
  returns_iff idle_init (by decide +kernel)

/-- Two `send`s are ready before the task that polls. -/
def crowded : List Act :=
  [.spawn .sender, .spawn .sender, .spawn .poller, .pass, .iterate, .deliver (.success ⟨0, 0x802, 0⟩), .pass]

/-- The second one is in its loop for ever: the completion that would make room is there, and nothing
reaps it. -/
theorem second_send_spins : ∃ s : Sending, s.Init ∧ (machine Transfer.fiBits).AllEnabled s crowded ∧
    ((machine Transfer.fiBits).runList s crowded).cq.length = 1 ∧
    ¬((machine Transfer.fiBits).runList s crowded).Returns ∧
    ∀ acts, (machine Transfer.fiBits).AllEnabled ((machine Transfer.fiBits).runList s crowded) acts →
      ((machine Transfer.fiBits).runList ((machine Transfer.fiBits).runList s crowded) acts).control = .sendLoop := by
  have hstuck : ((machine Transfer.fiBits).runList idle crowded).Stuck := ⟨by decide +kernel, by decide +kernel⟩
  refine ⟨idle, idle_init, by decide +kernel, by decide +kernel, fun hn => ?_, fun acts he => ?_⟩
  · exact hstuck.full (returns_iff_room.mp hn hstuck.control)
  · exact (hstuck.spins he).control

end Sending

end Sqkio.Net.Fab
