import Sqkio.Net.Registry

/-!
# `Endpoint::accept` and the entries of `map_`

`accept` adds its awaker to `map_` under the `fid` of its endpoint; `emplace` leaves an entry that is
there as it is.  Only an event takes an entry out again, and `~Endpoint` does not.

`named_iff`: in all states of a run `map_` names for each `fid` the most recent `accept` that still
waits on the `Endpoint` that has it, and nothing else, exactly when every `accept` and every destructor
finds no entry for its `fid`.
-/

namespace Sqkio.Net.Fab

open Sqkio.Lib

/-- What the scheduler resumes: the coroutine of the `n`-th `accept`, or another one. -/
inductive AcceptHandle where
  | accept (n : Nat)
  | other (k : Nat)
  deriving DecidableEq

/-- The registered endpoints and the `accept`s, with ghosts: the most recent `accept` on each endpoint,
and those that an event has woken. -/
structure Accepting (I : Type) extends Registry I AcceptHandle where
  made : Nat
  -- the `this` of an `accept`
  self : Nat → Nat
  latest : Nat → Option Nat
  woken : Nat → Bool

namespace Accepting

variable {I : Type}

inductive Act (I : Type) where
  | construct (ep : Ep I AcceptHandle) (fail : Option CtorCall)
  | destroy (o : Nat)
  /-- An `accept` begins; `rc` is what `fi_accept` returns. -/
  | accept (o : Nat) (rc : Int)
  /-- `poll` reads an event. -/
  | event (event : Event) (ent : EqCmEntry I)
  /-- `next` or `wait_disconn` waits at an object, or goes on after it. -/
  | suspend (o : Nat) (k : Nat)
  | resume (o : Nat)
  /-- Another coroutine is passed to the scheduler. -/
  | enqueue (k : Nat)
  /-- One pass of the loop in `run`. -/
  | pass

def fidOf (o : Nat) (s : Accepting I) : Option Fid := (s.eps o).map Ep.fid

/-- `map_.emplace(get_fid(), &awaker); co_await awaker;` -/
def accept (o : Nat) (rc : Int) (s : Accepting I) : Accepting I :=
  match s.fidOf o with
  | some fid =>
    -- `MAYBE_THROW(fi_accept, ep_, nullptr, 0)`
    if rc ≠ 0 then s
    else
      { s with
        map := if s.map fid = none then Function.update s.map fid (some s.made) else s.map
        accepts := Function.update s.accepts s.made (Awaker.awaitSuspend ⟨none, ()⟩ (.accept s.made))
        made := s.made + 1
        self := Function.update s.self s.made o
        latest := Function.update s.latest o (some s.made)
        woken := Function.update s.woken s.made false }
  | none => s

/-- `EventQueue::poll`; an event of another kind wakes what `map_` names. -/
def event (event : Event) (ent : EqCmEntry I) (s : Accepting I) : Accepting I :=
  { s with
    toRegistry := s.toRegistry.event event ent
    woken := match event, s.map ent.fid with
      | .other, some n => Function.update s.woken n true
      | _, _ => s.woken }

/-- `handle.resume()`: an `accept` goes on after its `co_await` and returns. -/
def run (handle : AcceptHandle) (s : Accepting I) : Accepting I :=
  match handle with
  | .accept n => { s with accepts := Function.update s.accepts n (s.accepts n).awaitResume.1 }
  | .other _ => s

/-- One pass of the loop in `run`. -/
def pass (s : Accepting I) : Accepting I :=
  let r := s.sched.dequeue s.handle
  let s := { s with sched := r.1, handle := r.2.2 }
  if r.2.1 = 0 then s else s.run s.handle

def next (s : Accepting I) : Act I → Accepting I
  | .construct ep fail => { s with toRegistry := s.toRegistry.construct ep fail }
  | .destroy o => { s with toRegistry := s.toRegistry.destroy o }
  | .accept o rc => s.accept o rc
  | .event event ent => s.event event ent
  | .suspend o k => { s with toRegistry := s.toRegistry.next (.suspend o (.other k)) }
  | .resume o => { s with toRegistry := s.toRegistry.next (.resume o) }
  | .enqueue k => { s with sched := s.sched.push (.other k) }
  | .pass => s.pass

/-- The provider opens a `fid` at an address that is not in use, with no coroutine waiting at the new
object; a `PassiveEndpoint` has no `accept`. -/
def Enabled (s : Accepting I) : Act I → Prop
  | .construct ep fail => s.opened ep.fid = false ∧ Registry.Fails ep fail ∧ ep.handle = none
  | .destroy o | .suspend o _ | .resume o => (s.eps o).isSome = true
  | .accept o _ => (s.eps o).any Ep.isEndpoint = true
  | .event .. | .enqueue _ | .pass => True

instance : (s : Accepting I) → (a : Act I) → Decidable (s.Enabled a)
  | s, .construct ep fail =>
    inferInstanceAs (Decidable (s.opened ep.fid = false ∧ Registry.Fails ep fail ∧ ep.handle = none))
  | s, .destroy o | s, .suspend o _ | s, .resume o => inferInstanceAs (Decidable ((s.eps o).isSome = true))
  | s, .accept o _ => inferInstanceAs (Decidable ((s.eps o).any Ep.isEndpoint = true))
  | _, .event .. | _, .enqueue _ | _, .pass => isTrue trivial

structure Init (s : Accepting I) : Prop where
  registry : s.toRegistry.Init
  sched : s.sched.Fresh
  map : ∀ fid, s.map fid = none
  latest : ∀ o, s.latest o = none
  made : s.made = 0

def machine (I : Type) : Machine (Accepting I) (Act I) where
  init := Init
  enabled := Enabled
  next := next

instance (s : Accepting I) (a : Act I) : Decidable ((machine I).enabled s a) :=
  inferInstanceAs (Decidable (s.Enabled a))

/-- The `n`-th `accept` is the most recent one on the object that now has the `fid`, and no event has
woken it. -/
def Due (fid : Fid) (n : Nat) (s : Accepting I) : Prop :=
  ∃ o, s.fidOf o = some fid ∧ s.latest o = some n ∧ s.woken n = false

/-- An entry of `map_` refers to the awaker of an `accept` that is suspended on the live object with
that `fid`, and an event for a `fid` wakes the most recent such `accept`. -/
structure Named (s : Accepting I) : Prop where
  entry : ∀ fid n, s.map fid = some n →
    (s.accepts n).handle = some (.accept n) ∧ s.fidOf (s.self n) = some fid
  due : ∀ fid n, s.map fid = some n ↔ s.Due fid n
  event : ∀ ent n, s.Due ent.fid n → (s.event .other ent).sched = s.sched.push (.accept n)

/-- The entry of `map_` for the `fid` of an object. -/
def entryOf (o : Nat) (s : Accepting I) : Option Nat := (s.fidOf o).bind s.map

/-- A successful `accept` and a destructor find no entry for their `fid`. -/
def Vacant (s : Accepting I) : Act I → Prop
  | .accept o rc => rc ≠ 0 ∨ s.entryOf o = none
  | .destroy o => s.entryOf o = none
  | _ => True

instance : (s : Accepting I) → (a : Act I) → Decidable (s.Vacant a)
  | s, .accept o rc => inferInstanceAs (Decidable (rc ≠ 0 ∨ s.entryOf o = none))
  | s, .destroy o => inferInstanceAs (Decidable (s.entryOf o = none))
  | _, .construct .. | _, .event .. | _, .suspend .. | _, .resume _ => isTrue trivial
  | _, .enqueue _ | _, .pass => isTrue trivial

/-! ## The invariant -/

/-- `map_` names what is due, an `accept` that no event has woken is suspended, the scheduler holds none
of those, and no other awaker has the handle of an `accept`. -/
structure Inv (s : Accepting I) : Prop where
  registry : s.toRegistry.Inv
  ready : s.sched.Ready s.sched.waiting
  due : ∀ fid n, s.map fid = some n ↔ s.Due fid n
  latest : ∀ o n, s.latest o = some n → s.self n = o ∧ n < s.made ∧ o < s.created
  suspended : ∀ n, n < s.made → s.woken n = false → (s.accepts n).handle = some (.accept n)
  waiting : ∀ n, .accept n ∈ s.sched.waiting → s.woken n = true ∧ n < s.made
  others : ∀ o ep n, s.eps o = some ep → ep.handle ≠ some (.accept n)

theorem Init.inv {s : Accepting I} (h : s.Init) : s.Inv := by
  have hready := h.sched.ready
  constructor
  case registry => exact h.registry.inv
  case ready => exact hready.waiting
  case due => simp [h.map, Due, h.latest]
  case latest => simp [h.latest]
  case suspended => simp [h.made]
  case waiting => simp [hready.waiting_eq]
  case others => simp [h.registry.eps]

section

variable {s : Accepting I}

namespace Inv

/-- An open `fid` belongs to one object. -/
theorem fidOf_inj (h : s.Inv) {o o' : Nat} {fid : Fid} (ho : s.fidOf o = some fid)
    (ho' : s.fidOf o' = some fid) : o = o' := by
  obtain ⟨ep, hep, rfl⟩ := Option.map_eq_some_iff.mp ho
  obtain ⟨ep', hep', hfid⟩ := Option.map_eq_some_iff.mp ho'
  have hpeps := (h.registry.entry o ep hep).1
  rw [← hfid, (h.registry.entry o' ep' hep').1] at hpeps
  exact (Option.some.inj hpeps).symm

theorem lt_created (h : s.Inv) {o : Nat} {fid : Fid} (ho : s.fidOf o = some fid) : o < s.created := by
  obtain ⟨ep, hep, -⟩ := Option.map_eq_some_iff.mp ho
  exact (h.registry.entry o ep hep).2

/-- `map_` names an `accept` under one `fid` only. -/
theorem due_fid (h : s.Inv) {fid fid' : Fid} {n : Nat} (hd : s.Due fid n) (hd' : s.Due fid' n) :
    fid = fid' := by
  obtain ⟨o, ho, hlatest, -⟩ := hd
  obtain ⟨o', ho', hlatest', -⟩ := hd'
  have hsame : o = o' := (h.latest o n hlatest).1.symm.trans (h.latest o' n hlatest').1
  rw [hsame, ho', Option.some.injEq] at ho
  exact ho.symm

theorem named (h : s.Inv) : s.Named := by
  have hsuspended : ∀ fid n, s.Due fid n → (s.accepts n).handle = some (.accept n) := by
    rintro fid n ⟨o, -, hlatest, hwoken⟩
    exact h.suspended n (h.latest o n hlatest).2.1 hwoken
  constructor
  case entry =>
    intro fid n hmap
    have hdue := (h.due fid n).mp hmap
    refine ⟨hsuspended fid n hdue, ?_⟩
    obtain ⟨o, ho, hlatest, -⟩ := hdue
    rw [(h.latest o n hlatest).1]
    exact ho
  case due => exact h.due
  case event =>
    intro ent n hdue
    simp only [Accepting.event, Registry.event, EventQueue.poll, EventQueue.deref,
      (h.due ent.fid n).mpr hdue, Awaker.wake]
    rw [hsuspended ent.fid n hdue]
    rfl

/-- A step on the registered objects that changes neither `map_`, the `accept`s nor what is due. -/
theorem registry_step (h : s.Inv) {r : Registry I AcceptHandle} (hr : r.Inv)
    (hready : r.sched.Ready r.sched.waiting) (hmap : r.map = s.map) (haccepts : r.accepts = s.accepts)
    (hcreated : s.created ≤ r.created)
    (hdue : ∀ fid n, Due fid n { s with toRegistry := r } ↔ s.Due fid n)
    (hwaiting : ∀ n, .accept n ∈ r.sched.waiting → .accept n ∈ s.sched.waiting)
    (hothers : ∀ o ep n, r.eps o = some ep → ep.handle ≠ some (.accept n)) :
    Inv { s with toRegistry := r } := by
  constructor
  case registry => exact hr
  case ready => exact hready
  case due =>
    intro fid n
    rw [hdue, ← h.due]
    show r.map fid = _ ↔ _
    rw [hmap]
  case latest =>
    intro o n hlatest
    obtain ⟨hself, hn, ho⟩ := h.latest o n hlatest
    exact ⟨hself, hn, Nat.lt_of_lt_of_le ho hcreated⟩
  case suspended =>
    intro n hn hwoken
    show (r.accepts n).handle = _
    rw [haccepts]
    exact h.suspended n hn hwoken
  case waiting => exact fun n hn => h.waiting n (hwaiting n hn)
  case others => exact hothers

/-- The same objects with the same `fid`s leave the same due. -/
theorem due_congr {r : Registry I AcceptHandle}
    (hfid : ∀ o n, s.latest o = some n → (r.eps o).map Ep.fid = s.fidOf o) (fid : Fid) (n : Nat) :
    Due fid n { s with toRegistry := r } ↔ s.Due fid n := by
  refine exists_congr fun o => ?_
  show (r.eps o).map Ep.fid = _ ∧ s.latest o = _ ∧ _ ↔ _
  constructor
  · rintro ⟨ho, hlatest, hwoken⟩
    exact ⟨(hfid o n hlatest).symm.trans ho, hlatest, hwoken⟩
  · rintro ⟨ho, hlatest, hwoken⟩
    exact ⟨(hfid o n hlatest).trans ho, hlatest, hwoken⟩

theorem construct (h : s.Inv) {ep : Ep I AcceptHandle} {fail : Option CtorCall}
    (he : s.Enabled (.construct ep fail)) : (s.next (.construct ep fail)).Inv := by
  obtain ⟨hmap, haccepts, hsched⟩ := s.construct_rest ep fail
  refine h.registry_step (h.registry.construct he.1) ?_ hmap haccepts (Registry.created_construct ep fail)
    (due_congr fun o n hlatest => ?_) ?_ fun o ep' n hep => ?_
  · rw [hsched]
    exact h.ready
  · exact congrArg _ (Registry.eps_construct (Nat.ne_of_lt (h.latest o n hlatest).2.2) ep fail)
  · rw [hsched]
    exact fun _ hn => hn
  · rcases Registry.of_construct hep with hold | rfl
    · exact h.others o ep' n hold
    · rw [he.2.2]
      nofun

/-- Nothing is due at an object whose `fid` has no entry. -/
theorem destroy (h : s.Inv) {o : Nat} (hv : s.Vacant (.destroy o)) : (s.next (.destroy o)).Inv := by
  cases hep : s.eps o with
  | none =>
    have hsame : s.toRegistry.destroy o = s.toRegistry := by rw [Registry.destroy, hep]
    simp only [Accepting.next, hsame]
    exact h
  | some ep =>
    have hfid : s.fidOf o = some ep.fid := congrArg _ hep
    have hvacant : s.map ep.fid = none := by
      have hentry : s.entryOf o = none := hv
      rw [entryOf, hfid, Option.bind_some] at hentry
      exact hentry
    have hdestroy := Registry.destroy_eq hep
    have hr := h.registry.destroy (o := o)
    simp only [Accepting.next]
    rw [hdestroy] at hr ⊢
    refine h.registry_step hr h.ready rfl rfl (Nat.le_refl _) (fun fid n => ?_) (fun _ hn => hn)
      fun o' ep' n hep' => ?_
    · refine exists_congr fun o' => ?_
      show (Function.update s.eps o none o').map Ep.fid = _ ∧ s.latest o' = _ ∧ _ ↔ _
      by_cases ho : o' = o
      · subst ho
        rw [Function.update_self]
        refine iff_of_false (fun hd => by cases hd.1) fun hd => ?_
        obtain rfl : ep.fid = fid := Option.some.inj (hfid.symm.trans hd.1)
        rw [(h.due _ n).mpr ⟨o', hd⟩] at hvacant
        cases hvacant
      · rw [Function.update_of_ne ho]
        exact Iff.rfl
    · have heps : Function.update s.eps o none o' = some ep' := hep'
      rw [Function.update_apply] at heps
      split at heps
      · cases heps
      · exact h.others o' ep' n heps

/-- An `FI_CONNREQ` or `FI_SHUTDOWN` reaches the awakers of the objects only. -/
theorem poll_object (h : s.Inv) {event : Event} (hevent : event ≠ .other) (ent : EqCmEntry I) :
    (s.poll event ent).map = s.map ∧ (s.poll event ent).accepts = s.accepts ∧
    (s.poll event ent).sched.Ready (s.poll event ent).sched.waiting ∧
    (∀ n, .accept n ∈ (s.poll event ent).sched.waiting → .accept n ∈ s.sched.waiting) ∧
    ∀ o ep n, (s.poll event ent).eps o = some ep → ep.handle ≠ some (.accept n) := by
  rcases s.poll_eq event ent hevent with heq | ⟨o, heq⟩
  · rw [heq]
    exact ⟨rfl, rfl, h.ready, fun _ hn => hn, h.others⟩
  · rw [heq]
    obtain ⟨hmap, haccepts, hsched⟩ := s.wakeEp_rest event o ent.info
    refine ⟨hmap, haccepts, ?_, fun n hn => ?_, fun o' ep' n hep' => ?_⟩
    · rcases hsched with hsame | ⟨-, handle, -, -, hpush⟩
      · rw [hsame]
        exact h.ready
      · rw [hpush]
        exact h.ready.push handle
    · rcases hsched with hsame | ⟨ep, handle, hep, hhandle, hpush⟩
      · rw [hsame] at hn
        exact hn
      · rw [hpush] at hn
        rcases h.ready.mem_push hn with hn | rfl
        · exact hn
        · exact absurd hhandle (h.others o ep n hep)
    · obtain ⟨ep, hep, hhandle⟩ := s.of_wakeEp event hep'
      rw [← hhandle]
      exact h.others o' ep n hep

theorem event_object (h : s.Inv) {event : Event} (hevent : event ≠ .other) (ent : EqCmEntry I) :
    (s.next (.event event ent)).Inv := by
  have hstep : s.next (.event event ent) = { s with toRegistry := s.toRegistry.event event ent } := by
    cases event with
    | connreq => rfl
    | shutdown => rfl
    | other => exact absurd rfl hevent
  have hfid : ∀ o n, s.latest o = some n → ((s.toRegistry.event event ent).eps o).map Ep.fid = s.fidOf o :=
    fun o n _ => s.poll_sameEps event ent o
  obtain ⟨hmap, haccepts, hready, hwaiting, hothers⟩ := h.poll_object hevent ent
  rw [hstep]
  exact h.registry_step (h.registry.event event ent) hready hmap haccepts (Nat.le_refl _) (due_congr hfid)
    hwaiting hothers

/-- Another event wakes the `accept` that `map_` names for its `fid`, and erases the entry. -/
theorem poll_other (h : s.Inv) {ent : EqCmEntry I} {n : Nat} (hmap : s.map ent.fid = some n) :
    s.poll .other ent = { s with
      sched := s.sched.push (.accept n)
      map := Function.update s.map ent.fid none
      accepts := Function.update s.accepts n { s.accepts n with ret := () } } := by
  obtain ⟨o, -, hlatest, hwoken⟩ := (h.due ent.fid n).mp hmap
  have hsuspended := h.suspended n (h.latest o n hlatest).2.1 hwoken
  simp only [EventQueue.poll, EventQueue.deref, hmap, Awaker.wake, hsuspended]
  rfl

theorem woken_event {ent : EqCmEntry I} {n : Nat} (hmap : s.map ent.fid = some n) (m : Nat) :
    (s.event .other ent).woken m = false ↔ m ≠ n ∧ s.woken m = false := by
  simp only [Accepting.event, hmap, Function.update_apply]
  split
  next heq => exact iff_of_false (fun hw => by cases hw) fun hw => hw.1 heq
  next hne => exact (and_iff_right hne).symm

/-- After it nothing is due for that `fid`. -/
theorem due_event (h : s.Inv) {ent : EqCmEntry I} {n : Nat} (hmap : s.map ent.fid = some n) (fid : Fid)
    (m : Nat) : Due fid m (s.event .other ent) ↔ fid ≠ ent.fid ∧ s.Due fid m := by
  have hfid : ∀ o, (s.event .other ent).fidOf o = s.fidOf o := s.poll_sameEps .other ent
  have hdue := (h.due ent.fid n).mp hmap
  constructor
  · rintro ⟨o', ho', hlatest', hw⟩
    rw [hfid] at ho'
    obtain ⟨hne, hw⟩ := (woken_event hmap m).mp hw
    refine ⟨?_, o', ho', hlatest', hw⟩
    rintro rfl
    obtain ⟨o, ho, hlatest, -⟩ := hdue
    obtain rfl := h.fidOf_inj ho ho'
    exact hne (Option.some.inj (hlatest'.symm.trans hlatest))
  · rintro ⟨hne, o', ho', hlatest', hw⟩
    refine ⟨o', (hfid o').trans ho', hlatest', (woken_event hmap m).mpr ⟨?_, hw⟩⟩
    rintro rfl
    exact hne (h.due_fid ⟨o', ho', hlatest', hw⟩ hdue)

theorem event_named (h : s.Inv) {ent : EqCmEntry I} {n : Nat} (hmap : s.map ent.fid = some n) :
    (s.event .other ent).Inv := by
  have hr := h.registry.event .other ent
  have hpoll := h.poll_other hmap
  constructor
  case registry => exact hr
  case ready =>
    simp only [Accepting.event, Registry.event, hpoll]
    exact h.ready.push _
  case due =>
    intro fid m
    rw [h.due_event hmap, ← h.due]
    simp only [Accepting.event, Registry.event, hpoll, Function.update_apply]
    split
    next heq => exact iff_of_false (fun hnone => by cases hnone) fun hd => hd.1 heq
    next hne => exact (and_iff_right hne).symm
  case latest => exact h.latest
  case suspended =>
    intro m hm hw
    obtain ⟨hne, hw⟩ := (woken_event hmap m).mp hw
    simp only [Accepting.event, Registry.event, hpoll, Function.update_of_ne hne]
    exact h.suspended m hm hw
  case waiting =>
    intro m hm
    simp only [Accepting.event, Registry.event, hpoll] at hm
    simp only [Accepting.event, hmap, Function.update_apply]
    rcases h.ready.mem_push hm with hm | heq
    · obtain ⟨hw, hlt⟩ := h.waiting m hm
      refine ⟨?_, hlt⟩
      split
      · rfl
      · exact hw
    · obtain rfl := AcceptHandle.accept.inj heq
      obtain ⟨o, -, hlatest, -⟩ := (h.due ent.fid m).mp hmap
      exact ⟨if_pos rfl, (h.latest o m hlatest).2.1⟩
  case others =>
    intro o ep m hep
    simp only [Accepting.event, Registry.event, hpoll] at hep
    exact h.others o ep m hep

theorem event_other (h : s.Inv) (ent : EqCmEntry I) : (s.next (.event .other ent)).Inv := by
  cases hmap : s.map ent.fid with
  | none =>
    have hr := h.registry.event .other ent
    have hpoll : s.poll .other ent = s.toEventQueue := by
      simp only [EventQueue.poll, EventQueue.deref, hmap]
    simp only [Accepting.next, Accepting.event, hmap]
    refine h.registry_step hr ?_ ?_ ?_ (Nat.le_refl _) (due_congr fun o n _ => ?_) ?_ ?_
    all_goals simp only [Registry.event, hpoll]
    · exact h.ready
    · rfl
    · exact fun _ hn => hn
    · exact h.others
  | some n => exact h.event_named hmap

theorem enqueue (h : s.Inv) (k : Nat) : (s.next (.enqueue k)).Inv := by
  obtain ⟨hregistry, hready, hdue, hlatest, hsuspended, hwaiting, hothers⟩ := h
  refine ⟨hregistry.congr rfl (fun _ => rfl) rfl rfl, hready.push _, hdue, hlatest, hsuspended,
    fun n hn => ?_, hothers⟩
  rcases hready.mem_push hn with hn | hn
  · exact hwaiting n hn
  · cases hn

/-- `next` and `wait_disconn` leave the `fid`s as they are. -/
theorem update (h : s.Inv) {o : Nat} {f : Ep I AcceptHandle → Ep I AcceptHandle}
    (hf : ∀ ep, (f ep).fid = ep.fid)
    (hhandle : ∀ ep n, ep.handle ≠ some (.accept n) → (f ep).handle ≠ some (.accept n)) :
    Inv { s with toRegistry := { s.toRegistry with toEventQueue := s.setEp o ((s.eps o).map f) } } := by
  refine h.registry_step (h.registry.update hf) h.ready rfl rfl (Nat.le_refl _) (due_congr fun o' n _ => ?_)
    (fun _ hn => hn) fun o' ep n hep => ?_
  · simp only [EventQueue.setEp, Function.update_apply]
    split
    next heq =>
      subst heq
      rw [Option.map_map]
      exact congrArg (Option.map · (s.eps o')) (funext hf)
    · rfl
  · simp only [EventQueue.setEp, Function.update_apply] at hep
    split at hep
    · obtain ⟨ep', hep', rfl⟩ := Option.map_eq_some_iff.mp hep
      exact hhandle ep' n (h.others o ep' n hep')
    · exact h.others o' ep n hep

/-- An `accept` that runs was woken before. -/
theorem pass (h : s.Inv) : s.pass.Inv := by
  obtain ⟨hready, hcases⟩ := h.ready.dequeue_cases s.handle
  have hdequeued : Inv { s with
      sched := (s.sched.dequeue s.handle).1, handle := (s.sched.dequeue s.handle).2.2 } := by
    obtain ⟨hregistry, -, hdue, hlatest, hsuspended, hwaiting, hothers⟩ := h
    refine ⟨hregistry.congr rfl (fun _ => rfl) rfl rfl, hready, hdue, hlatest, hsuspended,
      fun n hn => ?_, hothers⟩
    rcases hcases with ⟨-, hnil, -⟩ | ⟨w, hcons, -⟩
    · rw [hnil] at hn
      cases hn
    · refine hwaiting n ?_
      rw [hcons]
      exact List.mem_cons_of_mem _ hn
  rcases hcases with ⟨-, -, hzero⟩ | ⟨w, hcons, hone⟩
  · have hpass : s.pass = { s with
        sched := (s.sched.dequeue s.handle).1, handle := (s.sched.dequeue s.handle).2.2 } := if_pos hzero
    rw [hpass]
    exact hdequeued
  · have hpass : s.pass = Accepting.run w { s with sched := (s.sched.dequeue s.handle).1, handle := w } := by
      simp only [Accepting.pass, hone]
      exact if_neg (by decide)
    rw [hone] at hdequeued
    rw [hpass]
    cases w with
    | other k => exact hdequeued
    | accept n =>
      have hwoken := (h.waiting n (by simp [hcons])).1
      obtain ⟨hregistry, hready, hdue, hlatest, hsuspended, hwaiting, hothers⟩ := hdequeued
      refine ⟨hregistry.congr rfl (fun _ => rfl) rfl rfl, hready, hdue, hlatest,
        fun m hm hw => ?_, hwaiting, hothers⟩
      have hne : m ≠ n := by
        rintro rfl
        exact Bool.false_ne_true (hw.symm.trans hwoken)
      exact (congrArg Awaker.handle (Function.update_of_ne hne _ _)).trans (hsuspended m hm hw)

theorem accept_eq {o : Nat} {fid : Fid} (ho : s.fidOf o = some fid) (hmap : s.map fid = none) :
    s.accept o 0 = { s with
      map := Function.update s.map fid (some s.made)
      accepts := Function.update s.accepts s.made (Awaker.awaitSuspend ⟨none, ()⟩ (.accept s.made))
      made := s.made + 1
      self := Function.update s.self s.made o
      latest := Function.update s.latest o (some s.made)
      woken := Function.update s.woken s.made false } := by
  simp only [Accepting.accept, ho, hmap, if_true]
  rfl

theorem ne_made (h : s.Inv) {o n : Nat} (hlatest : s.latest o = some n) : n ≠ s.made :=
  Nat.ne_of_lt (h.latest o n hlatest).2.1

/-- An `accept` that finds no entry is due for the `fid` of its endpoint. -/
theorem due_accept (h : s.Inv) {o : Nat} {fid : Fid} (ho : s.fidOf o = some fid) (hmap : s.map fid = none)
    (fid' : Fid) (n : Nat) :
    Due fid' n (s.accept o 0) ↔ fid' = fid ∧ n = s.made ∨ fid' ≠ fid ∧ s.Due fid' n := by
  simp only [accept_eq ho hmap, Due, fidOf, Function.update_apply]
  constructor
  · rintro ⟨o', ho', hl, hw⟩
    split at hl
    next heq =>
      subst heq
      exact .inl ⟨Option.some.inj (ho'.symm.trans ho), (Option.some.inj hl).symm⟩
    next hne =>
      rw [if_neg (h.ne_made hl)] at hw
      refine .inr ⟨?_, o', ho', hl, hw⟩
      rintro rfl
      exact hne (h.fidOf_inj ho' ho)
  · rintro (⟨rfl, rfl⟩ | ⟨hne, o', ho', hl, hw⟩)
    · exact ⟨o, ho, if_pos rfl, if_pos rfl⟩
    · have hneo : o' ≠ o := by
        rintro rfl
        exact hne (Option.some.inj (ho'.symm.trans ho))
      exact ⟨o', ho', by rw [if_neg hneo, hl], by rw [if_neg (h.ne_made hl), hw]⟩

/-- It adds its own. -/
theorem accept_vacant (h : s.Inv) {o : Nat} {fid : Fid} (ho : s.fidOf o = some fid) (hmap : s.map fid = none) :
    (s.accept o 0).Inv := by
  have hstep := accept_eq ho hmap
  constructor
  case registry =>
    rw [hstep]
    exact h.registry.congr rfl (fun _ => rfl) rfl rfl
  case ready =>
    rw [hstep]
    exact h.ready
  case due =>
    intro fid' n
    rw [h.due_accept ho hmap, ← h.due, hstep]
    simp only [Function.update_apply]
    split
    next heq => simp [heq, eq_comm]
    next hne => simp [hne]
  case latest =>
    intro o' n
    simp only [hstep, Function.update_apply]
    intro hl
    split at hl
    next heq =>
      obtain rfl := Option.some.inj hl
      exact ⟨by rw [if_pos rfl, heq], Nat.lt_succ_self _, heq ▸ h.lt_created ho⟩
    · rw [if_neg (h.ne_made hl)]
      obtain ⟨hself, hn, hc⟩ := h.latest o' n hl
      exact ⟨hself, Nat.lt_succ_of_lt hn, hc⟩
  case suspended =>
    intro n
    simp only [hstep, Function.update_apply]
    intro hn hw
    split
    next heq =>
      rw [heq]
      rfl
    next hne =>
      rw [if_neg hne] at hw
      exact h.suspended n (Nat.lt_of_le_of_ne (Nat.le_of_lt_succ hn) hne) hw
  case waiting =>
    intro n hn
    rw [hstep] at hn ⊢
    obtain ⟨hw, hlt⟩ := h.waiting n hn
    exact ⟨(Function.update_of_ne (Nat.ne_of_lt hlt) _ _).trans hw, Nat.lt_succ_of_lt hlt⟩
  case others =>
    rw [hstep]
    exact h.others

theorem accept (h : s.Inv) {o : Nat} {rc : Int} (hv : s.Vacant (.accept o rc)) : (s.accept o rc).Inv := by
  by_cases hrc : rc = 0
  · subst hrc
    have hentry : s.entryOf o = none := hv.resolve_left fun hne => hne rfl
    cases ho : s.fidOf o with
    | none =>
      have hsame : s.accept o 0 = s := by simp only [Accepting.accept, ho]
      rw [hsame]
      exact h
    | some fid =>
      rw [entryOf, ho, Option.bind_some] at hentry
      exact h.accept_vacant ho hentry
  · have hsame : s.accept o rc = s := by
      unfold Accepting.accept
      split
      · exact if_pos hrc
      · rfl
    rw [hsame]
    exact h

theorem next (h : s.Inv) {a : Act I} (he : s.Enabled a) (hv : s.Vacant a) : (s.next a).Inv := by
  cases a with
  | construct ep fail => exact h.construct he
  | destroy o => exact h.destroy hv
  | accept o rc => exact h.accept hv
  | event event ent =>
    by_cases hevent : event = .other
    · subst hevent
      exact h.event_other ent
    · exact h.event_object hevent ent
  | suspend o k =>
    refine h.update (fun ep => ep.fid_awaitSuspend _) fun ep n _ => ?_
    cases ep with
    | passiveEndpoint fid a => nofun
    | endpoint fid a => nofun
  | resume o =>
    refine h.update (fun ep => ep.fid_awaitResume) fun ep n _ => ?_
    cases ep with
    | passiveEndpoint fid a => nofun
    | endpoint fid a => nofun
  | enqueue k => exact h.enqueue k
  | pass => exact h.pass

/-- A second `accept` is due and not named. -/
theorem vacant_of_accept (h : s.Inv) {o : Nat} {rc : Int} (hn : (s.next (.accept o rc)).Named) :
    s.Vacant (.accept o rc) := by
  by_contra hv
  obtain ⟨hrc, hentry⟩ := not_or.mp hv
  obtain ⟨n, hn'⟩ := Option.ne_none_iff_exists'.mp hentry
  obtain ⟨fid, hfid, hmap⟩ := Option.bind_eq_some_iff.mp hn'
  have haccept : s.next (.accept o rc) = { s with
      accepts := Function.update s.accepts s.made (Awaker.awaitSuspend ⟨none, ()⟩ (.accept s.made))
      made := s.made + 1
      self := Function.update s.self s.made o
      latest := Function.update s.latest o (some s.made)
      woken := Function.update s.woken s.made false } := by
    simp only [Accepting.next, Accepting.accept, hfid, if_neg hrc, hmap]
    rfl
  rw [haccept] at hn
  have hmade : s.map fid = some s.made :=
    (hn.due fid s.made).mpr ⟨o, hfid, Function.update_self _ _ _, Function.update_self _ _ _⟩
  obtain ⟨o', -, hlatest, -⟩ := (h.due fid n).mp hmap
  have hlt := (h.latest o' n hlatest).2.1
  rw [hmap, Option.some.injEq] at hmade
  exact absurd hmade (Nat.ne_of_lt hlt)

/-- What is due at an object is not when it is gone. -/
theorem vacant_of_destroy (h : s.Inv) {o : Nat} (hn : (s.next (.destroy o)).Named) :
    s.Vacant (.destroy o) := by
  by_contra hentry
  obtain ⟨n, hn'⟩ := Option.ne_none_iff_exists'.mp hentry
  obtain ⟨fid, hfid, hmap⟩ := Option.bind_eq_some_iff.mp hn'
  obtain ⟨ep, hep, rfl⟩ := Option.map_eq_some_iff.mp hfid
  simp only [Accepting.next] at hn
  rw [Registry.destroy_eq hep] at hn
  obtain ⟨o', ho', -⟩ := (hn.due ep.fid n).mp hmap
  have hfid' : (Function.update s.eps o none o').map Ep.fid = some ep.fid := ho'
  rw [Function.update_apply] at hfid'
  split at hfid'
  · cases hfid'
  next hne => exact hne (h.fidOf_inj hfid' hfid)

end Inv

/-- **`map_`.**  For every sequence of constructors, destructors, `accept`s, events and passes of the run
loop: in all states `map_` names just the `accept`s that are due, exactly when each `accept` and each
destructor finds no entry for its `fid`. -/
theorem named_iff (h : s.Init) {acts : List (Act I)} (he : (machine I).AllEnabled s acts) :
    (∀ n, ((machine I).runList s (acts.take n)).Named) ↔ ((machine I).restrict Vacant).AllEnabled s acts := by
  refine @Machine.always_iff_allEnabled _ _ (machine I) Inv Named Vacant (fun _ hi => hi.named)
    (fun _ _ hen hv hi => hi.next hen hv) (fun t a _ hi hn => ?_) acts s h.inv he
  cases a with
  | accept o rc => exact hi.vacant_of_accept hn
  | destroy o => exact hi.vacant_of_destroy hn
  | construct ep fail => trivial
  | event event ent => trivial
  | suspend o k => trivial
  | resume o => trivial
  | enqueue k => trivial
  | pass => trivial

end

/-! ## One endpoint or two -/

/-- Nothing is registered. -/
def empty : Accepting Nat where
  sched := .init fun _ => .other 0
  peps _ := none
  map _ := none
  eps _ := none
  accepts _ := ⟨none, ()⟩
  undefined := false
  created := 0
  opened _ := false
  handle := .other 0
  handled := []
  made := 0
  self _ := 0
  latest _ := none
  woken _ := false

theorem empty_init : empty.Init :=
  ⟨⟨fun _ => rfl, fun _ => rfl, rfl, rfl⟩, SQKScheduler.init_fresh _, fun _ => rfl, fun _ => rfl, rfl⟩

/-- Each `accept` has been woken before the next one, and before its endpoint is destroyed. -/
def wokenFirst : List (Act Nat) :=
  [.construct (.endpoint 5 ⟨none, ()⟩) none, .accept 0 0, .event .other ⟨5, 0⟩, .pass, .destroy 0,
    .construct (.endpoint 5 ⟨none, ()⟩) none, .accept 1 0, .event .other ⟨5, 0⟩]

theorem named_iff_wokenFirst :
    (∀ n, ((machine Nat).runList empty (wokenFirst.take n)).Named) ↔
      ((machine Nat).restrict Vacant).AllEnabled empty wokenFirst :=
  named_iff empty_init (by decide +kernel)

/-- An endpoint is destroyed while its `accept` waits, and another one gets its address. -/
def reused : List (Act Nat) :=
  [.construct (.endpoint 5 ⟨none, ()⟩) none, .accept 0 0, .destroy 0,
    .construct (.endpoint 5 ⟨none, ()⟩) none, .accept 1 0]

/-- `map_` keeps the first `accept`, so the event of the second endpoint wakes that one. -/
theorem stale_entry : ∃ s : Accepting Nat, s.Init ∧ (machine Nat).AllEnabled s reused ∧
    ((machine Nat).runList s reused).map 5 = some 0 ∧ ((machine Nat).runList s reused).fidOf 0 = none ∧
    (((machine Nat).runList s reused).event .other ⟨5, 0⟩).sched.waiting = [.accept 0] ∧
    ¬((machine Nat).runList s reused).Named := by
  have hmap : ((machine Nat).runList empty reused).map 5 = some 0 := by decide +kernel
  have hgone : ((machine Nat).runList empty reused).fidOf
      (((machine Nat).runList empty reused).self 0) = none := by
    decide +kernel
  refine ⟨empty, empty_init, by decide +kernel, hmap, by decide +kernel, by decide +kernel, fun hn => ?_⟩
  have hlive := (hn.entry 5 0 hmap).2
  rw [hgone] at hlive
  cases hlive

end Accepting

end Sqkio.Net.Fab
