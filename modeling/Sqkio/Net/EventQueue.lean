import Sqkio.Core.Awaker

/-!
# `EventQueue`: the registered endpoints and `poll`

`peps_` keeps a `PassiveEndpoint` or an `Endpoint` for the address of its `fid`, both behind a
`void*`; `map_` keeps the awaker of an `accept`.  `poll` looks an event up in one of the two.
For `FI_CONNREQ` and `FI_SHUTDOWN` it warns when the `fid` is not there, and goes on with the
iterator all the same.  What an entry points to it casts to the class that the event is for.

    past `end()`, object gone, or of the other class   → `undefined`, and the program may do anything
    otherwise                                          → the awaker of the object is woken
-/

namespace Sqkio.Net.Fab

open Sqkio.Lib

/-- The address of a `fid`. -/
abbrev Fid := Nat

inductive Event where
  | connreq
  | shutdown
  /-- Any other event, as `FI_CONNECTED`. -/
  | other
  deriving DecidableEq

/-- `fi_eq_cm_entry` -/
structure EqCmEntry (I : Type) where
  fid : Fid
  info : I
  deriving DecidableEq

/-- A registered object, by its class, with its `fid` and the awaker that `poll` wakes.  An `Info`
that was moved from holds no pointer. -/
inductive Ep (I H : Type) where
  | passiveEndpoint (fid : Fid) (awaker : Awaker (Option I) H)
  | endpoint (fid : Fid) (stopWaker : Awaker Unit H)
  deriving DecidableEq

/-- The pointer that `poll` dereferences after its look-up in `peps_`. -/
inductive Deref where
  | nothing
  /-- `iter->second` of `peps_.end()`. -/
  | pastEnd
  | entry (o : Nat)
  deriving DecidableEq

/-- The scheduler, the two maps of the queue, the objects that `peps_` points to by their numbers,
and the awakers of the `accept`s. -/
structure EventQueue (I H : Type) where
  sched : SQKScheduler H
  peps : Fid → Option Nat
  map : Fid → Option Nat
  eps : Nat → Option (Ep I H)
  accepts : Nat → Awaker Unit H
  -- ghost: a `poll` has used a pointer that leads to no object of the class it was cast to
  undefined : Bool

variable {I H : Type}

/-- The class to which `poll` casts what an entry points to. -/
def Event.casts : Event → Ep I H → Bool
  | connreq, .passiveEndpoint .. => true
  | shutdown, .endpoint .. => true
  | _, _ => false

namespace Ep

def fid : Ep I H → Fid
  | passiveEndpoint fid _ => fid
  | endpoint fid _ => fid

def handle : Ep I H → Option H
  | passiveEndpoint _ a => a.handle
  | endpoint _ a => a.handle

def isEndpoint : Ep I H → Bool
  | passiveEndpoint .. => false
  | endpoint .. => true

/-- `co_await awaker_` in `next`, or `co_await stop_waker_` in `wait_disconn`. -/
def awaitSuspend (ep : Ep I H) (handle : H) : Ep I H :=
  match ep with
  | passiveEndpoint fid a => passiveEndpoint fid (a.awaitSuspend handle)
  | endpoint fid a => endpoint fid (a.awaitSuspend handle)

/-- `await_resume`, with the pointer that is moved out of `ret_`. -/
def awaitResume : Ep I H → Ep I H × Option I
  | passiveEndpoint fid a => (passiveEndpoint fid { a.awaitResume.1 with ret := none }, a.awaitResume.2)
  | endpoint fid a => (endpoint fid a.awaitResume.1, none)

@[simp] theorem fid_awaitSuspend (ep : Ep I H) (handle : H) : (ep.awaitSuspend handle).fid = ep.fid := by
  cases ep <;> rfl

@[simp] theorem fid_awaitResume (ep : Ep I H) : ep.awaitResume.1.fid = ep.fid := by
  cases ep <;> rfl

end Ep

namespace EventQueue

/-- `peps_.emplace(ep->get_fid(), ep)` -/
def addEp (fid : Fid) (o : Nat) (s : EventQueue I H) : EventQueue I H :=
  if s.peps fid = none then { s with peps := Function.update s.peps fid (some o) } else s

/-- `peps_.erase(ep->get_fid())` -/
def delEp (fid : Fid) (s : EventQueue I H) : EventQueue I H :=
  { s with peps := Function.update s.peps fid none }

def setEp (o : Nat) (ep : Option (Ep I H)) (s : EventQueue I H) : EventQueue I H :=
  { s with eps := Function.update s.eps o ep }

def deref (event : Event) (fid : Fid) (s : EventQueue I H) : Deref :=
  match event with
  | .connreq | .shutdown => (s.peps fid).elim .pastEnd .entry
  | .other => .nothing

/-- The `fid` of the live object of the event's class that a dereferenced pointer leads to. -/
def target (event : Event) (deref : Deref) (s : EventQueue I H) : Option Fid :=
  match deref with
  | .entry o => ((s.eps o).filter event.casts).map Ep.fid
  | .pastEnd | .nothing => none

/-- `poll` of the event finds an object of its class, or looks for none. -/
def defined (event : Event) (fid : Fid) (s : EventQueue I H) : Bool :=
  match s.deref event fid with
  | .entry o => (s.eps o).any event.casts
  | .pastEnd => false
  | .nothing => true

/-- `wake` of the awaker in the object that an entry points to. -/
def wakeEp (event : Event) (o : Nat) (info : I) (s : EventQueue I H) : EventQueue I H :=
  match event, s.eps o with
  | .connreq, some (.passiveEndpoint fid a) =>
    let r := a.wake SQKScheduler.push (some info) s.sched
    { s.setEp o (some (.passiveEndpoint fid r.1)) with sched := r.2 }
  | .shutdown, some (.endpoint fid a) =>
    let r := a.wake SQKScheduler.push () s.sched
    { s.setEp o (some (.endpoint fid r.1)) with sched := r.2 }
  -- the object is gone, or its bytes are those of the other class
  | _, _ => { s with undefined := true }

/-- `EventQueue::poll` of an entry that `fi_eq_read` has returned. -/
def poll (event : Event) (ent : EqCmEntry I) (s : EventQueue I H) : EventQueue I H :=
  match s.deref event ent.fid with
  | .entry o => s.wakeEp event o ent.info
  | .pastEnd => { s with undefined := true }
  | .nothing =>
    match s.map ent.fid with
    | some n =>
      let r := (s.accepts n).wake SQKScheduler.push () s.sched
      { s with
        sched := r.2
        map := Function.update s.map ent.fid none
        accepts := Function.update s.accepts n r.1 }
    | none => s

/-! ## What a `poll` leaves as it is -/

variable (event : Event) (ent : EqCmEntry I) (s : EventQueue I H)

/-- The objects are the same, each with its `fid`; only their awakers are written. -/
def SameEps (s t : EventQueue I H) : Prop := ∀ o, (t.eps o).map Ep.fid = (s.eps o).map Ep.fid

theorem setEp_sameEps {o : Nat} {ep ep' : Ep I H} (h : s.eps o = some ep) (hfid : ep'.fid = ep.fid) :
    s.SameEps (s.setEp o (some ep')) := by
  intro p
  simp only [setEp, Function.update_apply]
  split
  next heq => simp [heq, h, hfid]
  · rfl

theorem wakeEp_sameEps (o : Nat) (info : I) : s.SameEps (s.wakeEp event o info) := by
  unfold wakeEp
  split
  next fid a h => exact s.setEp_sameEps h rfl
  next fid a h => exact s.setEp_sameEps h rfl
  · exact fun _ => rfl

/-- `emplace` writes `peps_` only. -/
theorem addEp_eq (fid : Fid) (o : Nat) : s.addEp fid o =
    { s with peps := if s.peps fid = none then Function.update s.peps fid (some o) else s.peps } := by
  unfold addEp
  split <;> rfl

theorem wakeEp_peps (o : Nat) (info : I) : (s.wakeEp event o info).peps = s.peps := by
  unfold wakeEp
  split <;> rfl

/-- `wake` of an object leaves the handles where they are, and passes one to the scheduler at most. -/
theorem wakeEp_rest (o : Nat) (info : I) : (s.wakeEp event o info).map = s.map ∧
    (s.wakeEp event o info).accepts = s.accepts ∧
    ((s.wakeEp event o info).sched = s.sched ∨ ∃ ep handle, s.eps o = some ep ∧ ep.handle = some handle ∧
      (s.wakeEp event o info).sched = s.sched.push handle) := by
  have hwake : ∀ (T : Type) (a : Awaker T H) (ret : T), (a.wake SQKScheduler.push ret s.sched).2 = s.sched ∨
      ∃ handle, a.handle = some handle ∧ (a.wake SQKScheduler.push ret s.sched).2 = s.sched.push handle := by
    intro T a ret
    cases hhandle : a.handle with
    | none => exact .inl (by simp only [Awaker.wake, hhandle, Option.elim_none])
    | some handle => exact .inr ⟨handle, rfl, by simp only [Awaker.wake, hhandle, Option.elim_some]⟩
  unfold wakeEp
  split
  next fid a hep =>
    refine ⟨rfl, rfl, (hwake _ a (some info)).imp_right ?_⟩
    rintro ⟨handle, hhandle, hsched⟩
    exact ⟨_, handle, hep, hhandle, hsched⟩
  next fid a hep =>
    refine ⟨rfl, rfl, (hwake _ a ()).imp_right ?_⟩
    rintro ⟨handle, hhandle, hsched⟩
    exact ⟨_, handle, hep, hhandle, hsched⟩
  · exact ⟨rfl, rfl, .inl rfl⟩

theorem of_wakeEp {o o' : Nat} {info : I} {ep' : Ep I H} (hep' : (s.wakeEp event o info).eps o' = some ep') :
    ∃ ep, s.eps o' = some ep ∧ ep.handle = ep'.handle := by
  unfold wakeEp at hep'
  split at hep'
  next fid a hep =>
    simp only [setEp, Function.update_apply] at hep'
    split at hep'
    next heq =>
      subst heq
      cases hep'
      exact ⟨_, hep, rfl⟩
    · exact ⟨ep', hep', rfl⟩
  next fid a hep =>
    simp only [setEp, Function.update_apply] at hep'
    split at hep'
    next heq =>
      subst heq
      cases hep'
      exact ⟨_, hep, rfl⟩
    · exact ⟨ep', hep', rfl⟩
  · exact ⟨ep', hep', rfl⟩

theorem poll_sameEps : s.SameEps (s.poll event ent) := by
  unfold poll
  split
  next o _ => exact s.wakeEp_sameEps event o ent.info
  · exact fun _ => rfl
  · split <;> exact fun _ => rfl

theorem poll_peps : (s.poll event ent).peps = s.peps := by
  unfold poll
  split
  next o _ => exact s.wakeEp_peps event o ent.info
  · rfl
  · split <;> rfl

/-- An `FI_CONNREQ` or `FI_SHUTDOWN` wakes one object at most. -/
theorem poll_eq (hevent : event ≠ .other) :
    s.poll event ent = { s with undefined := true } ∨ ∃ o, s.poll event ent = s.wakeEp event o ent.info := by
  have hderef : s.deref event ent.fid = (s.peps ent.fid).elim .pastEnd .entry := by
    cases event with
    | connreq => rfl
    | shutdown => rfl
    | other => exact absurd rfl hevent
  rw [poll, hderef]
  cases s.peps ent.fid with
  | none => exact .inl rfl
  | some o => exact .inr ⟨o, rfl⟩

theorem wakeEp_undefined (hevent : event ≠ .other) (o : Nat) (info : I) :
    (s.wakeEp event o info).undefined = (s.undefined || !(s.eps o).any event.casts) := by
  have hgone : (s.undefined || !false) = true := Bool.or_true _
  have hthere : (s.undefined || !true) = s.undefined := Bool.or_false _
  unfold wakeEp
  cases event with
  | other => exact absurd rfl hevent
  | connreq =>
    cases s.eps o with
    | none => exact hgone.symm
    | some ep =>
      cases ep with
      | passiveEndpoint fid a => exact hthere.symm
      | endpoint fid a => exact hgone.symm
  | shutdown =>
    cases s.eps o with
    | none => exact hgone.symm
    | some ep =>
      cases ep with
      | passiveEndpoint fid a => exact hgone.symm
      | endpoint fid a => exact hthere.symm

/-- **The mark**: a `poll` that finds no object of the class it casts to. -/
theorem poll_undefined : (s.poll event ent).undefined = (s.undefined || !s.defined event ent.fid) := by
  unfold poll defined
  cases hderef : s.deref event ent.fid with
  | pastEnd => exact (Bool.or_true _).symm
  | entry o =>
    refine s.wakeEp_undefined event ?_ o ent.info
    rintro rfl
    cases hderef
  | nothing =>
    dsimp only
    split <;> exact (Bool.or_false _).symm

end EventQueue

end Sqkio.Net.Fab
