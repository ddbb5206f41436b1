import Sqkio.Lib.Machine
import Sqkio.Net.EventQueue

/-!
# Endpoints that come and go while their events are read

`PassiveEndpoint`s and `Endpoint`s are made and destroyed on one `EventQueue`, and events are
read for any `fid`: of an object that is there, that is gone, or whose constructor threw after it
had registered the object.  The provider gives an address out again once it was closed, also to an
object of the other class.

    what `poll` dereferences is a live object of the event's class and `fid` ↔ there is one   (registered_iff)
    if all of them are, `poll` has done nothing undefined                                     (defined_of_registered)
-/

namespace Sqkio.Net.Fab

open Sqkio.Lib

/-- The libfabric calls of a constructor; an `Endpoint` registers itself after the second. -/
inductive CtorCall where
  | openFid
  | bindEq
  | bindCq
  | bindAv
  | enable
  deriving DecidableEq

/-- An event as `poll` handled it: what it dereferenced, the `fid` of the live object of the event's
class that the pointer found there points to, and whether an object of that class with the `fid` of
the event was live. -/
structure Handled where
  fid : Fid
  deref : Deref
  target : Option Fid
  live : Bool
  deriving DecidableEq

structure Registry (I H : Type) extends EventQueue I H where
  created : Nat
  opened : Fid → Bool
  -- `run`'s variable `handle`
  handle : H
  -- ghost: the events in the order they were read
  handled : List Handled

namespace Registry

variable {I H : Type}

inductive Act (I H : Type) where
  /-- A constructor, with the call that fails, if any. -/
  | construct (ep : Ep I H) (fail : Option CtorCall)
  | destroy (o : Nat)
  /-- `poll` reads an event. -/
  | event (event : Event) (ent : EqCmEntry I)
  /-- A coroutine waits for an event of the object, or goes on after it. -/
  | suspend (o : Nat) (handle : H)
  | resume (o : Nat)
  /-- The run loop takes a handle. -/
  | pass

/-- An object of the event's class with the `fid` is live. -/
def live (event : Event) (fid : Fid) (s : Registry I H) : Bool :=
  (List.range s.created).any fun o => (s.eps o).any fun ep => event.casts ep && ep.fid == fid

/-- The address is the provider's again when the `fid` is closed. -/
def setOpened (fid : Fid) (b : Bool) (s : Registry I H) : Registry I H :=
  { s with opened := Function.update s.opened fid b }

/-- `PassiveEndpoint()` and `Endpoint()`.  An exception leaves no object, and what was done before it
stays done. -/
def construct (ep : Ep I H) (fail : Option CtorCall) (s : Registry I H) : Registry I H :=
  match fail with
  | some .openFid => s
  | some .bindEq => s.setOpened ep.fid true
  | some _ =>
    let s := s.setOpened ep.fid true
    { s with toEventQueue := s.addEp ep.fid s.created, created := s.created + 1 }
  | none =>
    let s := s.setOpened ep.fid true
    { s with
      toEventQueue := (s.addEp ep.fid s.created).setEp s.created (some ep), created := s.created + 1 }

/-- `~PassiveEndpoint()` and `~Endpoint()`. -/
def destroy (o : Nat) (s : Registry I H) : Registry I H :=
  match s.eps o with
  | some ep =>
    let s := s.setOpened ep.fid false
    { s with toEventQueue := (s.delEp ep.fid).setEp o none }
  | none => s

/-- `EventQueue::poll`, with a note of what it dereferences. -/
def event (event : Event) (ent : EqCmEntry I) (s : Registry I H) : Registry I H :=
  let deref := s.deref event ent.fid
  { s with
    toEventQueue := s.poll event ent
    handled := s.handled ++ [⟨ent.fid, deref, s.target event deref, s.live event ent.fid⟩] }

def next (s : Registry I H) : Act I H → Registry I H
  | .construct ep fail => s.construct ep fail
  | .destroy o => s.destroy o
  | .event event ent => s.event event ent
  | .suspend o handle => { s with toEventQueue := s.setEp o ((s.eps o).map (·.awaitSuspend handle)) }
  | .resume o => { s with toEventQueue := s.setEp o ((s.eps o).map (·.awaitResume.1)) }
  | .pass =>
    let r := s.sched.dequeue s.handle
    { s with sched := r.1, handle := r.2.2 }

/-- Only the constructor of an `Endpoint` binds a completion queue and an address vector, and enables
it. -/
def Fails (ep : Ep I H) (fail : Option CtorCall) : Prop :=
  match ep with
  | .passiveEndpoint .. => fail = none ∨ fail = some .openFid ∨ fail = some .bindEq
  | .endpoint .. => True

instance : (ep : Ep I H) → (fail : Option CtorCall) → Decidable (Fails ep fail)
  | .passiveEndpoint .., fail =>
    inferInstanceAs (Decidable (fail = none ∨ fail = some .openFid ∨ fail = some .bindEq))
  | .endpoint .., _ => isTrue trivial

/-- The provider opens a `fid` at an address that is not in use. -/
def Enabled (s : Registry I H) : Act I H → Prop
  | .construct ep fail => s.opened ep.fid = false ∧ Fails ep fail
  | .destroy o | .suspend o _ | .resume o => (s.eps o).isSome = true
  | .event .. | .pass => True

instance : (s : Registry I H) → (a : Act I H) → Decidable (s.Enabled a)
  | s, .construct ep fail => inferInstanceAs (Decidable (s.opened ep.fid = false ∧ Fails ep fail))
  | s, .destroy o | s, .suspend o _ | s, .resume o => inferInstanceAs (Decidable ((s.eps o).isSome = true))
  | _, .event .. | _, .pass => isTrue trivial

structure Init (s : Registry I H) : Prop where
  peps : ∀ fid, s.peps fid = none
  eps : ∀ o, s.eps o = none
  handled : s.handled = []
  undefined : s.undefined = false

def machine (I H : Type) : Machine (Registry I H) (Act I H) where
  init := Init
  enabled := Enabled
  next := next

instance (s : Registry I H) (a : Act I H) : Decidable ((machine I H).enabled s a) :=
  inferInstanceAs (Decidable (s.Enabled a))

/-- What an event has to find: `poll` dereferences only an entry of `peps_` that points to a live
object of the event's class with the `fid` of the event, and drops the event when there is none. -/
structure Sound (h : Handled) : Prop where
  inRange : h.deref ≠ .pastEnd
  live : ∀ o, h.deref = .entry o → h.target = some h.fid
  dropped : h.live = false → h.deref = .nothing

def Registered (s : Registry I H) : Prop := ∀ h ∈ s.handled, Sound h

/-- An `FI_CONNREQ` (`FI_SHUTDOWN`) is read while a `PassiveEndpoint` (an `Endpoint`) with its `fid` is
live. -/
def Live (s : Registry I H) : Act I H → Prop
  | .event .connreq ent => s.live .connreq ent.fid = true
  | .event .shutdown ent => s.live .shutdown ent.fid = true
  | _ => True

/-! ## The invariant -/

/-- A live object is registered under its `fid`, an entry belongs to a `fid` that is open, and a live
object is registered under no other `fid`. -/
structure Inv (s : Registry I H) : Prop where
  entry : ∀ o ep, s.eps o = some ep → s.peps ep.fid = some o ∧ o < s.created
  opened : ∀ fid o, s.peps fid = some o → s.opened fid = true ∧ o < s.created
  target : ∀ fid o ep, s.peps fid = some o → s.eps o = some ep → ep.fid = fid

theorem Init.inv {s : Registry I H} (h : s.Init) : s.Inv := by
  constructor
  case entry => simp [h.eps]
  case opened => simp [h.peps]
  case target => simp [h.peps]

section

variable {s : Registry I H}

theorem live_iff (event : Event) (fid : Fid) (h : ∀ o ep, s.eps o = some ep → o < s.created) :
    s.live event fid = true ↔ ∃ o ep, s.eps o = some ep ∧ event.casts ep = true ∧ ep.fid = fid := by
  simp only [live, List.any_eq_true, List.mem_range, Option.any_eq_true, Bool.and_eq_true, beq_iff_eq]
  constructor
  · rintro ⟨o, -, ep, hep, hclass, hfid⟩
    exact ⟨o, ep, hep, hclass, hfid⟩
  · rintro ⟨o, ep, hep, hclass, hfid⟩
    exact ⟨o, h o ep hep, ep, hep, hclass, hfid⟩

/-- What is left of a map after an erasure was there before, under another key. -/
theorem of_update_none {α β : Type} [DecidableEq α] {f : α → Option β} {a b : α} {x : β}
    (h : Function.update f a none b = some x) : b ≠ a ∧ f b = some x := by
  rw [Function.update_apply] at h
  split at h
  · cases h
  next hne => exact ⟨hne, h⟩

namespace Inv

/-- Only the registration, and which objects are live with which `fid`, matter. -/
theorem congr (h : s.Inv) {t : Registry I H} (hpeps : t.peps = s.peps)
    (heps : s.toEventQueue.SameEps t.toEventQueue) (hopened : t.opened = s.opened)
    (hcreated : t.created = s.created) : t.Inv := by
  have hback : ∀ o ep, t.eps o = some ep → ∃ ep', s.eps o = some ep' ∧ ep'.fid = ep.fid := by
    intro o ep hep
    have hsame := heps o
    rw [hep, Option.map_some] at hsame
    exact Option.map_eq_some_iff.mp hsame.symm
  constructor
  case entry =>
    intro o ep hep
    obtain ⟨ep', hep', hfid⟩ := hback o ep hep
    rw [hpeps, hcreated, ← hfid]
    exact h.entry o ep' hep'
  case opened =>
    rw [hpeps, hopened, hcreated]
    exact h.opened
  case target =>
    intro fid o ep hfid hep
    obtain ⟨ep', hep', hfid'⟩ := hback o ep hep
    rw [hpeps] at hfid
    rw [← hfid']
    exact h.target fid o ep' hfid hep'

theorem setOpened (h : s.Inv) (fid : Fid) : (s.setOpened fid true).Inv := by
  refine ⟨h.entry, fun fid' o ho => ⟨?_, (h.opened fid' o ho).2⟩, h.target⟩
  show Function.update s.opened fid true fid' = true
  rw [Function.update_apply]
  split
  · rfl
  · exact (h.opened fid' o ho).1

theorem addEp_peps {fid : Fid} (hnone : s.peps fid = none) (o : Nat) :
    (s.addEp fid o).peps = Function.update s.peps fid (some o) := by
  rw [EventQueue.addEp, if_pos hnone]

theorem addEp_eps {fid : Fid} (hnone : s.peps fid = none) (o : Nat) : (s.addEp fid o).eps = s.eps := by
  rw [EventQueue.addEp, if_pos hnone]

/-- The constructor is past `add_ep`: the next object is registered, and not there yet. -/
theorem addEp (h : s.Inv) {fid : Fid} (hnone : s.peps fid = none) (hopen : s.opened fid = true) :
    Inv { s with toEventQueue := s.addEp fid s.created, created := s.created + 1 } := by
  constructor
  case entry =>
    intro o ep hep
    rw [addEp_eps hnone] at hep
    obtain ⟨hpep, hlt⟩ := h.entry o ep hep
    have hne : ep.fid ≠ fid := by
      rintro rfl
      rw [hnone] at hpep
      cases hpep
    rw [addEp_peps hnone, Function.update_of_ne hne]
    exact ⟨hpep, Nat.lt_succ_of_lt hlt⟩
  case opened =>
    intro fid' o ho
    rw [addEp_peps hnone] at ho
    rcases eq_or_ne fid' fid with rfl | hne
    · rw [Function.update_self] at ho
      cases ho
      exact ⟨hopen, Nat.lt_succ_self _⟩
    · rw [Function.update_of_ne hne] at ho
      exact ⟨(h.opened fid' o ho).1, Nat.lt_succ_of_lt (h.opened fid' o ho).2⟩
  case target =>
    intro fid' o ep ho hep
    rw [addEp_peps hnone] at ho
    rw [addEp_eps hnone] at hep
    rcases eq_or_ne fid' fid with rfl | hne
    · rw [Function.update_self] at ho
      cases ho
      exact absurd (h.entry _ ep hep).2 (Nat.lt_irrefl _)
    · rw [Function.update_of_ne hne] at ho
      exact h.target fid' o ep ho hep

/-- A registered object is there. -/
theorem setEp (h : s.Inv) {o : Nat} {ep : Ep I H} (hpep : s.peps ep.fid = some o)
    (honly : ∀ fid, s.peps fid = some o → ep.fid = fid) :
    Inv { s with toEventQueue := s.setEp o (some ep) } := by
  have hnew : ∀ p ep', Function.update s.eps o (some ep) p = some ep' →
      p = o ∧ ep' = ep ∨ s.eps p = some ep' := by
    intro p ep' hep'
    rw [Function.update_apply] at hep'
    split at hep'
    next heq =>
      cases hep'
      exact .inl ⟨heq, rfl⟩
    · exact .inr hep'
  constructor
  case entry =>
    intro p ep' hep'
    rcases hnew p ep' hep' with ⟨rfl, rfl⟩ | hold
    · exact ⟨hpep, (h.opened _ _ hpep).2⟩
    · exact h.entry p ep' hold
  case opened => exact h.opened
  case target =>
    intro fid p ep' hp hep'
    rcases hnew p ep' hep' with ⟨rfl, rfl⟩ | hold
    · exact honly fid hp
    · exact h.target fid p ep' hp hold

theorem construct (h : s.Inv) {ep : Ep I H} {fail : Option CtorCall}
    (he : s.opened ep.fid = false) : (s.construct ep fail).Inv := by
  have hnone : s.peps ep.fid = none := by
    by_contra hne
    obtain ⟨o, ho⟩ := Option.ne_none_iff_exists'.mp hne
    exact absurd (h.opened _ o ho).1 (by simp [he])
  have hopen : (s.setOpened ep.fid true).opened ep.fid = true := Function.update_self ..
  have hadd := (h.setOpened ep.fid).addEp hnone hopen
  unfold Registry.construct
  split
  · exact h
  · exact h.setOpened ep.fid
  · exact hadd
  · have hpeps : ((s.setOpened ep.fid true).addEp ep.fid s.created).peps =
        Function.update s.peps ep.fid (some s.created) :=
      addEp_peps (s := s.setOpened ep.fid true) hnone s.created
    refine hadd.setEp ((congrFun hpeps ep.fid).trans (Function.update_self ..)) fun fid hfid => ?_
    by_contra hne
    have hold : s.peps fid = some s.created := by
      have hfid' := (congrFun hpeps fid).symm.trans hfid
      rwa [Function.update_of_ne (Ne.symm hne)] at hfid'
    exact absurd (h.opened fid _ hold).2 (Nat.lt_irrefl _)

theorem destroy (h : s.Inv) {o : Nat} : (s.destroy o).Inv := by
  unfold Registry.destroy
  split
  next ep hep =>
    have hpep := (h.entry o ep hep).1
    constructor
    case entry =>
      intro p ep' hep'
      obtain ⟨hne, hold⟩ := of_update_none hep'
      obtain ⟨hp, hlt⟩ := h.entry p ep' hold
      refine ⟨?_, hlt⟩
      show Function.update s.peps ep.fid none ep'.fid = some p
      rw [Function.update_of_ne ?_, hp]
      intro hfid
      rw [hfid, hpep] at hp
      exact hne (Option.some.inj hp).symm
    case opened =>
      intro fid p hp
      obtain ⟨hne, hold⟩ := of_update_none hp
      refine ⟨?_, (h.opened fid p hold).2⟩
      show Function.update s.opened ep.fid false fid = true
      rw [Function.update_of_ne hne]
      exact (h.opened fid p hold).1
    case target =>
      intro fid p ep' hp hep'
      exact h.target fid p ep' (of_update_none hp).2 (of_update_none hep').2
  · exact h

theorem event (h : s.Inv) (event : Event) (ent : EqCmEntry I) : (s.event event ent).Inv :=
  h.congr (s.poll_peps event ent) (s.poll_sameEps event ent) rfl rfl

theorem update (h : s.Inv) {o : Nat} {f : Ep I H → Ep I H} (hf : ∀ ep, (f ep).fid = ep.fid) :
    Inv { s with toEventQueue := s.setEp o ((s.eps o).map f) } := by
  refine h.congr rfl (fun p => ?_) rfl rfl
  simp only [EventQueue.setEp, Function.update_apply]
  split
  next heq =>
    subst heq
    rw [Option.map_map]
    exact congrArg (Option.map · (s.eps p)) (funext hf)
  · rfl

theorem next (h : s.Inv) {a : Act I H} (he : s.Enabled a) : (s.next a).Inv := by
  cases a with
  | construct ep fail => exact h.construct he.1
  | destroy o => exact h.destroy
  | event event ent => exact h.event event ent
  | suspend o handle => exact h.update fun ep => ep.fid_awaitSuspend handle
  | resume o => exact h.update fun ep => ep.fid_awaitResume
  | pass => exact h.congr rfl (fun _ => rfl) rfl rfl

end Inv

/-! ## What constructors and destructors write -/

/-- Only the next object is made. -/
theorem eps_construct {o : Nat} (ho : o ≠ s.created) (ep : Ep I H) (fail : Option CtorCall) :
    (s.construct ep fail).eps o = s.eps o := by
  unfold construct
  split
  · rfl
  · rfl
  · simp only [EventQueue.addEp_eq]
    rfl
  · simp only [EventQueue.addEp_eq]
    exact Function.update_of_ne ho _ _

/-- An object is an old one, or the one that was passed. -/
theorem of_construct {o : Nat} {ep ep' : Ep I H} {fail : Option CtorCall}
    (hep : (s.construct ep fail).eps o = some ep') : s.eps o = some ep' ∨ ep' = ep := by
  unfold construct at hep
  split at hep
  · exact .inl hep
  · exact .inl hep
  · simp only [EventQueue.addEp_eq] at hep
    exact .inl hep
  · simp only [EventQueue.addEp_eq, EventQueue.setEp, Function.update_apply] at hep
    split at hep
    · exact .inr (Option.some.inj hep).symm
    · exact .inl hep

/-- A constructor touches neither `map_` nor an awaker. -/
theorem construct_rest (ep : Ep I H) (fail : Option CtorCall) : (s.construct ep fail).map = s.map ∧
    (s.construct ep fail).accepts = s.accepts ∧ (s.construct ep fail).sched = s.sched := by
  unfold construct
  split
  · exact ⟨rfl, rfl, rfl⟩
  · exact ⟨rfl, rfl, rfl⟩
  · simp only [EventQueue.addEp_eq]
    exact ⟨rfl, rfl, rfl⟩
  · simp only [EventQueue.addEp_eq]
    exact ⟨rfl, rfl, rfl⟩

/-- The number of an object is not given out again. -/
theorem created_construct (ep : Ep I H) (fail : Option CtorCall) :
    s.created ≤ (s.construct ep fail).created := by
  unfold construct
  split
  · exact Nat.le_refl _
  · exact Nat.le_refl _
  · exact Nat.le_succ _
  · exact Nat.le_succ _

/-- `erase`, and `fi_close`. -/
theorem destroy_eq {o : Nat} {ep : Ep I H} (hep : s.eps o = some ep) : s.destroy o =
    { s.setOpened ep.fid false with toEventQueue := (s.delEp ep.fid).setEp o none } := by
  rw [destroy, hep]
  rfl

/-! ## The law -/

/-- An event is handled soundly exactly when an object of its class with its `fid` is live. -/
theorem Inv.sound_iff (h : s.Inv) {event : Event} {fid : Fid} {deref : Deref}
    (hd : deref = (s.peps fid).elim .pastEnd .entry) :
    Sound ⟨fid, deref, s.target event deref, s.live event fid⟩ ↔ s.live event fid = true := by
  have hlive := live_iff event fid fun o ep hep => (h.entry o ep hep).2
  cases hp : s.peps fid with
  | none =>
    rw [hp, Option.elim_none] at hd
    subst hd
    refine iff_of_false (fun hs => hs.inRange rfl) fun hl => ?_
    obtain ⟨o, ep, hep, -, rfl⟩ := hlive.mp hl
    rw [(h.entry o ep hep).1] at hp
    cases hp
  | some o =>
    rw [hp, Option.elim_some] at hd
    subst hd
    constructor
    · intro hs
      obtain ⟨ep, hep, hfid⟩ := Option.map_eq_some_iff.mp (hs.live o rfl)
      obtain ⟨hep, hclass⟩ := Option.filter_eq_some_iff.mp hep
      exact hlive.mpr ⟨o, ep, hep, hclass, hfid⟩
    · intro hl
      obtain ⟨o', ep, hep, hclass, rfl⟩ := hlive.mp hl
      have hsame := (h.entry o' ep hep).1
      rw [hp, Option.some.injEq] at hsame
      subst hsame
      refine ⟨by simp, fun p hp => ?_, fun hfalse => ?_⟩
      · simp [EventQueue.target, hep, Option.filter_some, hclass]
      · exact absurd hfalse (by simp [hl])

theorem Inv.next_registered (h : s.Inv) (a : Act I H) : (s.next a).Registered ↔ s.Registered ∧ s.Live a := by
  have hkept : ∀ t : Registry I H, t.handled = s.handled → s.Live a → (t.Registered ↔ s.Registered ∧ s.Live a) := by
    intro t ht hl
    rw [and_iff_left hl, Registered, ht]
    exact Iff.rfl
  cases a with
  | construct ep fail => exact hkept _ (by simp only [Registry.next, Registry.construct]; split <;> rfl) trivial
  | destroy o => exact hkept _ (by simp only [Registry.next, Registry.destroy]; split <;> rfl) trivial
  | event event ent =>
    show (∀ e ∈ s.handled ++ [_], Sound e) ↔ _
    rw [List.forall_mem_append, List.forall_mem_singleton]
    refine and_congr_right fun _ => ?_
    cases event with
    | connreq => exact h.sound_iff rfl
    | shutdown => exact h.sound_iff rfl
    | other => exact iff_of_true ⟨by simp [EventQueue.deref], by simp [EventQueue.deref], fun _ => rfl⟩ trivial
  | suspend o handle => exact hkept _ rfl trivial
  | resume o => exact hkept _ rfl trivial
  | pass => exact hkept _ rfl trivial

/-- For every sequence of constructors, destructors and events: `poll` dereferences only entries of
live objects of the event's class with the `fid` of the event exactly when each `FI_CONNREQ` and
`FI_SHUTDOWN` is read while there is one. -/
theorem registered_iff (h : s.Init) {acts : List (Act I H)} (he : (machine I H).AllEnabled s acts) :
    ((machine I H).runList s acts).Registered ↔ ((machine I H).restrict Live).AllEnabled s acts := by
  have hrule := @Machine.law_iff_allEnabled _ _ (machine I H) Inv Registered Live
    (fun _ _ hen hi => hi.next hen) (fun _ a _ hi => hi.next_registered a)
  have hlaw : s.Registered := by simp [Registered, h.handled]
  exact (hrule h.inv he).trans (and_iff_right hlaw)

/-- `poll` does something undefined only when the pointer leads to no live object of the event's class. -/
theorem defined_of_sound {event : Event} {fid : Fid}
    (h : Sound ⟨fid, s.deref event fid, s.target event (s.deref event fid), s.live event fid⟩) :
    s.defined event fid = true := by
  unfold EventQueue.defined
  cases hd : s.deref event fid with
  | nothing => rfl
  | pastEnd => exact absurd hd h.inRange
  | entry o =>
    have htarget := h.live o hd
    dsimp only at htarget
    rw [hd] at htarget
    obtain ⟨ep, hep, -⟩ := Option.map_eq_some_iff.mp htarget
    obtain ⟨hep, hclass⟩ := Option.filter_eq_some_iff.mp hep
    dsimp only
    rw [hep]
    exact hclass

theorem next_defined (hdef : s.Registered → s.undefined = false) (a : Act I H) (h : (s.next a).Registered) :
    (s.next a).undefined = false := by
  cases a with
  | construct ep fail =>
    have hrest : (s.construct ep fail).handled = s.handled ∧ (s.construct ep fail).undefined = s.undefined := by
      unfold construct
      split
      · exact ⟨rfl, rfl⟩
      · exact ⟨rfl, rfl⟩
      · simp only [EventQueue.addEp_eq]
        exact ⟨rfl, rfl⟩
      · simp only [EventQueue.addEp_eq]
        exact ⟨rfl, rfl⟩
    have h : ∀ e ∈ (s.construct ep fail).handled, Sound e := h
    rw [hrest.1] at h
    exact hrest.2.trans (hdef h)
  | destroy o =>
    have hrest : (s.destroy o).handled = s.handled ∧ (s.destroy o).undefined = s.undefined := by
      unfold destroy
      split <;> exact ⟨rfl, rfl⟩
    have h : ∀ e ∈ (s.destroy o).handled, Sound e := h
    rw [hrest.1] at h
    exact hrest.2.trans (hdef h)
  | event event ent =>
    obtain ⟨hold, hnew⟩ := List.forall_mem_append.mp h
    refine (s.poll_undefined event ent).trans ?_
    rw [hdef hold, defined_of_sound (hnew _ (List.mem_singleton_self _))]
    rfl
  | suspend o handle => exact hdef h
  | resume o => exact hdef h
  | pass => exact hdef h

/-- A run in which all events were handled soundly has done nothing undefined. -/
theorem defined_of_registered (h : (machine I H).Reachable s) (hr : s.Registered) : s.undefined = false := by
  induction h with
  | init hi => exact hi.undefined
  | step a _ _ ih => exact next_defined ih a hr

end

/-! ## One endpoint -/

/-- Nothing is registered. -/
def empty : Registry Nat Nat where
  sched := .init fun _ => 0
  peps _ := none
  map _ := none
  eps _ := none
  accepts _ := ⟨none, ()⟩
  undefined := false
  created := 0
  opened _ := false
  handle := 0
  handled := []

theorem empty_init : empty.Init := ⟨fun _ => rfl, fun _ => rfl, rfl, rfl⟩

/-- An `Endpoint` gets an address that a `PassiveEndpoint` had, and its shutdown is read. -/
theorem registered_iff_reused :
    ((machine Nat Nat).runList empty [.construct (.passiveEndpoint 5 ⟨none, none⟩) none, .destroy 0,
      .construct (.endpoint 5 ⟨none, ()⟩) none, .event .shutdown ⟨5, 0⟩]).Registered ↔
    ((machine Nat Nat).restrict Live).AllEnabled empty
      [.construct (.passiveEndpoint 5 ⟨none, none⟩) none, .destroy 0,
        .construct (.endpoint 5 ⟨none, ()⟩) none, .event .shutdown ⟨5, 0⟩] :=
  registered_iff empty_init (by decide +kernel)

/-- The `FI_CONNREQ` of the `PassiveEndpoint` that was there finds the `Endpoint`. -/
example : ((machine Nat Nat).runList empty [.construct (.passiveEndpoint 5 ⟨none, none⟩) none, .destroy 0,
    .construct (.endpoint 5 ⟨none, ()⟩) none, .event .connreq ⟨5, 0⟩]).handled = [⟨5, .entry 1, none, false⟩] := by
  decide +kernel

/-- The `PassiveEndpoint` is destroyed before its `FI_CONNREQ` is read: `end()` is dereferenced. -/
theorem dereferences_end : ∃ s : Registry Nat Nat, s.Init ∧
    (machine Nat Nat).AllEnabled s [.construct (.passiveEndpoint 5 ⟨none, none⟩) none, .destroy 0,
      .event .connreq ⟨5, 1⟩] ∧
    ((machine Nat Nat).runList s [.construct (.passiveEndpoint 5 ⟨none, none⟩) none, .destroy 0,
      .event .connreq ⟨5, 1⟩]).handled = [⟨5, .pastEnd, none, false⟩] :=
  ⟨empty, empty_init, by decide +kernel, by decide +kernel⟩

end Registry

end Sqkio.Net.Fab
