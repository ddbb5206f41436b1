import Sqkio.Net.EventQueue
import Mathlib.Data.List.TakeWhile
import Mathlib.Order.Monotone.Basic

/-!
# Error entries in the event queue

`EventQueue::poll` reads with `fi_eq_read` alone.  It leaves an error entry where it is and
returns `-FI_EAVAIL`; only `fi_eq_readerr`, which is never called, would take it out.  So `poll` hands
on what is in front of the first error entry, and from then on returns the same error.  And it hands on
an `FI_CONNREQ` or `FI_SHUTDOWN` without an object that is registered for it to whatever it finds.

    one poll of an entry wakes the awaker registered for it                (poll_sched)
    repeated polls empty the queue and dispatch every other entry
      ↔ no error entry, and an object of its class whenever one is read    (drains_iff)
-/

namespace Sqkio.Net.Fab

/-- What the provider put into the event queue: a connection event, or an error with its `err`. -/
inductive EqEntry (I : Type) where
  | cm (event : Event) (ent : EqCmEntry I)
  | error (err : Int)
  deriving DecidableEq

def EAGAIN : Int := 11

def FI_EAVAIL : Int := 259

/-- `sizeof(fi_eq_cm_entry)` -/
def cmEntrySize : Int := 16

/-- An awaker that `poll` finds for an event. -/
inductive AwakerRef where
  /-- `awaker_` of a `PassiveEndpoint`. -/
  | next (o : Nat)
  /-- `stop_waker_` of an `Endpoint`. -/
  | stop (o : Nat)
  /-- The awaker of an `accept`. -/
  | accept (n : Nat)
  deriving DecidableEq

/-- A dispatched entry with the awaker found for it. -/
structure Dispatch (I : Type) where
  event : Event
  ent : EqCmEntry I
  awaker : Option AwakerRef
  deriving DecidableEq

/-- The event queue with the entries that the provider holds for it, oldest first. -/
structure EventSource (I H : Type) extends EventQueue I H where
  entries : List (EqEntry I)
  -- ghost: the entries dispatched so far
  dispatched : List (Dispatch I)

namespace EventSource

variable {I H : Type}

/-- The awaker that is registered for an event of `fid`. -/
def awakerFor (event : Event) (fid : Fid) (s : EventQueue I H) : Option AwakerRef :=
  match event with
  | .connreq => (s.peps fid).map .next
  | .shutdown => (s.peps fid).map .stop
  | .other => (s.map fid).map .accept

/-- The coroutine that is suspended at an awaker. -/
def waiter (s : EventQueue I H) : AwakerRef → Option H
  | .next o =>
    match s.eps o with
    | some (.passiveEndpoint _ a) => a.handle
    | _ => none
  | .stop o =>
    match s.eps o with
    | some (.endpoint _ a) => a.handle
    | _ => none
  | .accept n => (s.accepts n).handle

def dispatch (s : EventQueue I H) (e : Event × EqCmEntry I) : Dispatch I :=
  ⟨e.1, e.2, awakerFor e.1 e.2.fid s⟩

/-- `fi_eq_read`: what is left, and the entry read or the negative return value. -/
def fiEqRead : List (EqEntry I) → List (EqEntry I) × Except Int (Event × EqCmEntry I)
  | [] => ([], .error (-EAGAIN))
  | .cm event ent :: es => (es, .ok (event, ent))
  | .error err :: es => (.error err :: es, .error (-FI_EAVAIL))

/-- `EventQueue::poll`, with what it returns. -/
def poll (s : EventSource I H) : EventSource I H × Int :=
  match fiEqRead s.entries with
  | (entries, .ok (event, ent)) =>
    ({ s with
        toEventQueue := s.toEventQueue.poll event ent
        entries
        dispatched := s.dispatched ++ [dispatch s.toEventQueue (event, ent)] },
      cmEntrySize)
  | (entries, .error ret) => ({ s with entries }, ret)

/-- The other coroutines change the event queue; none of them calls `poll`. -/
def change (f : EventQueue I H → EventQueue I H) (s : EventQueue I H) : EventQueue I H :=
  { f s with undefined := s.undefined }

/-- `n` calls of `poll`; `between i` is what the other coroutines do to the event queue before the
`i`-th one. -/
def polls (between : Nat → EventQueue I H → EventQueue I H) : Nat → EventSource I H → EventSource I H
  | 0, s => s
  | n + 1, s =>
    let s := polls between n s
    (poll { s with toEventQueue := change (between n) s.toEventQueue }).1

/-- The event queue as the `n`-th `poll` finds it. -/
def found (between : Nat → EventQueue I H → EventQueue I H) (s : EventSource I H) (n : Nat) : EventQueue I H :=
  change (between n) (polls between n s).toEventQueue

/-- The connection events among the entries. -/
def normal (es : List (EqEntry I)) : List (Event × EqCmEntry I) :=
  es.filterMap fun
    | .cm event ent => some (event, ent)
    | .error _ => none

def isError : EqEntry I → Bool
  | .cm .. => false
  | .error _ => true

/-- The scheduler when it has been passed the coroutine that is suspended at the awaker for an entry. -/
def wakes (s : EventQueue I H) (e : Event × EqCmEntry I) : SQKScheduler H :=
  ((awakerFor e.1 e.2.fid s).bind (waiter s)).elim s.sched s.sched.push

/-- From the `N`-th poll on nothing is left, and every connection event has been dispatched once and in
order: the `i`-th one by the poll `time i`, which wakes the awaker registered for it then.  No poll does
anything undefined. -/
structure DrainedBy (between : Nat → EventQueue I H → EventQueue I H) (s : EventSource I H) (time : Nat → Nat)
    (N : Nat) : Prop where
  order : StrictMono time
  woken : ∀ i e, (normal s.entries)[i]? = some e →
    time i < N ∧ (polls between (time i + 1) s).sched = wakes (found between s (time i)) e
  entries : ∀ n, N ≤ n → (polls between n s).entries = []
  dispatched : ∀ n, N ≤ n → (polls between n s).dispatched =
    s.dispatched ++ (normal s.entries).mapIdx fun i e => dispatch (found between s (time i)) e
  defined : ∀ n, (polls between n s).undefined = false

/-- Repeated polls consume the whole sequence. -/
def Drains (between : Nat → EventQueue I H → EventQueue I H) (s : EventSource I H) : Prop :=
  ∃ time N, DrainedBy between s time N

/-- Each `FI_CONNREQ` (`FI_SHUTDOWN`) is read while a `PassiveEndpoint` (an `Endpoint`) is registered for it. -/
def Registered (between : Nat → EventQueue I H → EventQueue I H) (s : EventSource I H) : Prop :=
  ∀ i e, (normal s.entries)[i]? = some e → (found between s i).defined e.1 e.2.fid = true

/-! ## One poll -/

/-- A `poll` passes to the scheduler what waits at the awaker for the entry, and nothing else. -/
theorem poll_sched (event : Event) (ent : EqCmEntry I) (s : EventQueue I H) :
    (s.poll event ent).sched = wakes s (event, ent) := by
  unfold wakes
  cases event with
  | connreq =>
    simp only [EventQueue.poll, EventQueue.deref, awakerFor]
    cases s.peps ent.fid with
    | none => rfl
    | some o =>
      simp only [Option.elim_some, EventQueue.wakeEp, Option.map_some, Option.bind_some, waiter]
      cases s.eps o with
      | none => rfl
      | some ep =>
        cases ep with
        | passiveEndpoint fid a => cases a.handle <;> rfl
        | endpoint fid a => rfl
  | shutdown =>
    simp only [EventQueue.poll, EventQueue.deref, awakerFor]
    cases s.peps ent.fid with
    | none => rfl
    | some o =>
      simp only [Option.elim_some, EventQueue.wakeEp, Option.map_some, Option.bind_some, waiter]
      cases s.eps o with
      | none => rfl
      | some ep =>
        cases ep with
        | passiveEndpoint fid a => rfl
        | endpoint fid a => cases a.handle <;> rfl
  | other =>
    simp only [EventQueue.poll, EventQueue.deref, awakerFor]
    cases s.map ent.fid with
    | none => rfl
    | some n =>
      simp only [Option.map_some, Option.bind_some, waiter, Awaker.wake]

section

variable (s : EventSource I H)

theorem poll_nil (h : s.entries = []) : s.poll.1.entries = [] ∧ s.poll.1.dispatched = s.dispatched ∧
    s.poll.1.undefined = s.undefined := by
  simp [poll, h, fiEqRead]

/-- An error entry stays at the head. -/
theorem poll_error {err : Int} {es : List (EqEntry I)} (h : s.entries = .error err :: es) :
    s.poll.1.entries = s.entries ∧ s.poll.1.dispatched = s.dispatched ∧ s.poll.2 = -FI_EAVAIL := by
  simp [poll, h, fiEqRead]

theorem poll_cm {event : Event} {ent : EqCmEntry I} {es : List (EqEntry I)}
    (h : s.entries = .cm event ent :: es) : s.poll.1.entries = es ∧
    s.poll.1.dispatched = s.dispatched ++ [dispatch s.toEventQueue (event, ent)] ∧
    s.poll.1.sched = wakes s.toEventQueue (event, ent) ∧
    s.poll.1.undefined = (s.undefined || !s.defined event ent.fid) := by
  rw [← poll_sched, ← EventQueue.poll_undefined]
  simp [poll, h, fiEqRead]

end

/-! ## Many polls -/

variable {between : Nat → EventQueue I H → EventQueue I H} {s : EventSource I H}

/-- Without errors the entries are connection events. -/
theorem map_normal {es : List (EqEntry I)} (h : ∀ x ∈ es, isError x = false) :
    (normal es).map (fun e => .cm e.1 e.2) = es := by
  induction es with
  | nil => rfl
  | cons x es ih =>
    obtain ⟨hx, hes⟩ := List.forall_mem_cons.mp h
    cases x with
    | cm event ent => exact congrArg _ (ih hes)
    | error err => cases hx

theorem length_normal {es : List (EqEntry I)} (h : ∀ x ∈ es, isError x = false) :
    (normal es).length = es.length := by
  have hmap := congrArg List.length (map_normal h)
  rw [List.length_map] at hmap
  exact hmap

/-- **Progress.**  The connection events in front of the first error entry are dispatched in order,
one by each poll, and nothing else is. -/
theorem polls_eq {pre post : List (EqEntry I)} (h : s.entries = pre ++ post)
    (hpre : ∀ x ∈ pre, isError x = false) (hpost : ∀ x ∈ post.head?, isError x = true) (n : Nat) :
    (polls between n s).entries = pre.drop n ++ post ∧ (polls between n s).dispatched =
      s.dispatched ++ (normal (pre.take n)).mapIdx fun i e => dispatch (found between s i) e := by
  induction n with
  | zero => exact ⟨h, (List.append_nil _).symm⟩
  | succ n ih =>
    obtain ⟨hentries, hdispatched⟩ := ih
    let t : EventSource I H := { polls between n s with toEventQueue := found between s n }
    have hstep : polls between (n + 1) s = t.poll.1 := rfl
    have htd : t.dispatched = (polls between n s).dispatched := rfl
    have hte : t.entries = pre.drop n ++ post := hentries
    rw [hstep]
    cases hdrop : pre.drop n with
    | nil =>
      -- everything in front of the error is gone
      have hle := List.drop_eq_nil_iff.mp hdrop
      have hsame : t.poll.1.entries = t.entries ∧ t.poll.1.dispatched = t.dispatched := by
        rw [hdrop, List.nil_append] at hte
        cases post with
        | nil =>
          obtain ⟨h1, h2, -⟩ := t.poll_nil hte
          exact ⟨h1.trans hte.symm, h2⟩
        | cons x post =>
          cases x with
          | cm event ent => exact absurd (hpost _ rfl) (by simp [isError])
          | error err =>
            obtain ⟨h1, h2, -⟩ := t.poll_error hte
            exact ⟨h1, h2⟩
      rw [hsame.1, hsame.2, hte, htd, hdispatched, hdrop, List.drop_of_length_le (by omega),
        List.take_of_length_le hle, List.take_of_length_le (by omega)]
      exact ⟨rfl, rfl⟩
    | cons x rest =>
      have hx : isError x = false := hpre x (List.mem_of_mem_drop (hdrop ▸ List.mem_cons_self))
      have hrest : pre.drop (n + 1) = rest := by rw [← List.drop_drop, hdrop, List.drop_one, List.tail_cons]
      have hget : pre.take (n + 1) = pre.take n ++ [x] := by
        rw [List.take_add_one, ← List.head?_drop, hdrop]
        rfl
      have hlt : n < pre.length := by
        by_contra hge
        rw [List.drop_of_length_le (by omega)] at hdrop
        cases hdrop
      have hlength : (normal (pre.take n)).length = n := by
        rw [length_normal fun y hy => hpre y (List.mem_of_mem_take hy), List.length_take_of_le hlt.le]
      cases x with
      | error err => cases hx
      | cm event ent =>
        have hnormal : normal (pre.take n ++ [.cm event ent]) = normal (pre.take n) ++ [(event, ent)] :=
          List.filterMap_append
        rw [hdrop, List.cons_append] at hte
        obtain ⟨h1, h2, -⟩ := t.poll_cm hte
        rw [h1, h2, htd, hdispatched, hrest, hget, hnormal, List.mapIdx_concat, hlength, List.append_assoc]
        exact ⟨rfl, rfl⟩

/-- The entries up to the first error, and the rest. -/
theorem split_error (es : List (EqEntry I)) : ∃ pre post, es = pre ++ post ∧
    (∀ x ∈ pre, isError x = false) ∧ ∀ x ∈ post.head?, isError x = true := by
  refine ⟨es.takeWhile (!isError ·), es.dropWhile (!isError ·), List.takeWhile_append_dropWhile.symm, ?_, ?_⟩
  · intro x hx
    simpa using List.mem_takeWhile_imp hx
  · intro x hx
    have hhead := List.head?_dropWhile_not (!isError ·) es
    rw [Option.mem_def.mp hx] at hhead
    simpa using hhead

section

variable (h : ∀ x ∈ s.entries, isError x = false)

include h

/-- Without errors the `n`-th poll finds the entries from the `n`-th on. -/
theorem polls_entries (n : Nat) :
    (polls between n s).entries = ((normal s.entries).drop n).map fun e => .cm e.1 e.2 := by
  rw [(@polls_eq _ _ between s _ _ (List.append_nil _).symm h (by simp) n).1, List.append_nil, List.map_drop,
    map_normal h]

/-- It takes the `n`-th entry. -/
theorem polls_cm {n : Nat} {e : Event × EqCmEntry I} (he : (normal s.entries)[n]? = some e) :
    (polls between (n + 1) s).sched = wakes (found between s n) e ∧
    (polls between (n + 1) s).undefined =
      ((polls between n s).undefined || !(found between s n).defined e.1 e.2.fid) := by
  obtain ⟨hlt, heq⟩ := List.getElem?_eq_some_iff.mp he
  have hentries := @polls_entries _ _ between s h n
  rw [List.drop_eq_getElem_cons hlt, heq] at hentries
  let t : EventSource I H := { polls between n s with toEventQueue := found between s n }
  have hte : t.entries = .cm e.1 e.2 :: _ := hentries
  exact (t.poll_cm hte).2.2

/-- When nothing is left a poll does nothing. -/
theorem polls_none {n : Nat} (hn : (normal s.entries)[n]? = none) :
    (polls between (n + 1) s).undefined = (polls between n s).undefined := by
  have hentries := @polls_entries _ _ between s h n
  rw [List.drop_of_length_le (List.getElem?_eq_none_iff.mp hn)] at hentries
  let t : EventSource I H := { polls between n s with toEventQueue := found between s n }
  have hte : t.entries = [] := hentries
  exact (t.poll_nil hte).2.2

/-- Nothing undefined is done exactly when each entry finds an object of its class. -/
theorem polls_defined_iff (hs : s.undefined = false) :
    (∀ n, (polls between n s).undefined = false) ↔ Registered between s := by
  constructor
  · intro hall i e he
    have hstep := (@polls_cm _ _ between s h i e he).2
    rw [hall i, hall (i + 1), Bool.false_or] at hstep
    by_contra hno
    rw [Bool.not_eq_true] at hno
    rw [hno] at hstep
    cases hstep
  · intro hreg n
    induction n with
    | zero => exact hs
    | succ n ih =>
      cases he : (normal s.entries)[n]? with
      | none => exact (polls_none h he).trans ih
      | some e =>
        rw [(polls_cm h he).2, ih, hreg n e he]
        rfl

end

/-- **The queue drains** under repeated polls exactly when no error entry is in it, and each `FI_CONNREQ` and
`FI_SHUTDOWN` is read while an object of its class is registered for it. -/
theorem drains_iff (between : Nat → EventQueue I H → EventQueue I H) (s : EventSource I H)
    (hs : s.undefined = false) :
    Drains between s ↔ (∀ x ∈ s.entries, isError x = false) ∧ Registered between s := by
  obtain ⟨pre, post, h, hpre, hpost⟩ := split_error s.entries
  constructor
  · rintro ⟨time, N, hdrained⟩
    have hempty := hdrained.entries N (Nat.le_refl N)
    rw [(polls_eq h hpre hpost N).1, List.append_eq_nil_iff] at hempty
    have hall : ∀ x ∈ s.entries, isError x = false := by
      rw [h, hempty.2, List.append_nil]
      exact hpre
    exact ⟨hall, (polls_defined_iff hall hs).mp hdrained.defined⟩
  · rintro ⟨hall, hreg⟩
    have hpolls := @polls_eq _ _ between s _ _ (List.append_nil _).symm hall (by simp)
    refine ⟨id, s.entries.length, ?_⟩
    constructor
    case order => exact strictMono_id
    case woken =>
      intro i e he
      refine ⟨?_, (polls_cm hall he).1⟩
      rw [← length_normal hall]
      exact (List.getElem?_eq_some_iff.mp he).1
    case entries =>
      intro n hn
      rw [(hpolls n).1, List.drop_of_length_le hn, List.append_nil]
    case dispatched =>
      intro n hn
      rw [(hpolls n).2, List.take_of_length_le hn]
      rfl
    case defined => exact (polls_defined_iff hall hs).mpr hreg

/-- A `PassiveEndpoint` at 5, on which a coroutine waits in `next`, and an `accept` that waits on the `Endpoint` at
6. -/
def listening (entries : List (EqEntry Nat)) : EventSource Nat Nat where
  sched := .init fun _ => 0
  peps fid := if fid = 5 then some 0 else none
  map fid := if fid = 6 then some 0 else none
  eps o := if o = 0 then some (.passiveEndpoint 5 ⟨some 7, none⟩) else none
  accepts _ := ⟨some 8, ()⟩
  undefined := false
  entries
  dispatched := []

/-- A request and a connection. -/
theorem drains_iff_listening : Drains (fun _ q => q) (listening [.cm .connreq ⟨5, 1⟩, .cm .other ⟨6, 0⟩]) ↔
    (∀ x ∈ (listening [.cm .connreq ⟨5, 1⟩, .cm .other ⟨6, 0⟩]).entries, isError x = false) ∧
    Registered (fun _ q => q) (listening [.cm .connreq ⟨5, 1⟩, .cm .other ⟨6, 0⟩]) :=
  drains_iff _ _ rfl

/-! ## A refused connection -/

/-- The request behind the error entry is never dispatched, however often `poll` is called. -/
theorem refused_blocks : ¬ Drains (fun _ q => q) (listening [.error 111, .cm .connreq ⟨5, 1⟩]) ∧
    ∀ n, (polls (fun _ q => q) n (listening [.error 111, .cm .connreq ⟨5, 1⟩])).entries =
        [.error 111, .cm .connreq ⟨5, 1⟩] ∧
      (polls (fun _ q => q) n (listening [.error 111, .cm .connreq ⟨5, 1⟩])).dispatched = [] := by
  have hblocked : ∀ n, (polls (fun _ q => q) n (listening [.error 111, .cm .connreq ⟨5, 1⟩])).entries =
        [.error 111, .cm .connreq ⟨5, 1⟩] ∧
      (polls (fun _ q => q) n (listening [.error 111, .cm .connreq ⟨5, 1⟩])).dispatched = [] := by
    intro n
    have hsplit : (listening [.error 111, .cm .connreq ⟨5, 1⟩]).entries =
        [] ++ [.error 111, .cm .connreq ⟨5, 1⟩] := rfl
    obtain ⟨hentries, hdispatched⟩ := @polls_eq _ _ (fun _ q => q) _ _ _ hsplit (by simp) (by simp [isError]) n
    rw [List.drop_nil, List.nil_append] at hentries
    rw [List.take_nil] at hdispatched
    exact ⟨hentries, hdispatched⟩
  refine ⟨?_, hblocked⟩
  rintro ⟨time, N, hdrained⟩
  have hempty := hdrained.entries N (Nat.le_refl N)
  rw [(hblocked N).1] at hempty
  cases hempty

/-- An `FI_SHUTDOWN` of an `Endpoint` that is gone goes past `end()`. -/
example : (polls (fun _ q => q) 1 (listening [.cm .shutdown ⟨4, 0⟩])).undefined = true := by decide

end EventSource

end Sqkio.Net.Fab
