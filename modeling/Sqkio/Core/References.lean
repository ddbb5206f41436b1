import Sqkio.Core.Promises

/-!
# References held over several awaits

What `MaybeSuspend<T>::await_resume` gives to a body is a `T&&` into the promise, and the body
may keep it: an argument of a call whose other arguments await as well, or
`auto&& x = co_await task`.  `Holding` is the runtime with the references got so far, and
`use` reads one of them at any later time, in any body.

A task that has suspended stays in `final_suspend` under the coroutine that it resumes.  So
the frame is there until this one suspends or ends (`Placed`).
-/

namespace Sqkio

open Sqkio.Lib

/-- A `T&&` into the promise in `frame`, got by the body of `holder` when that had suspended
`since` times. -/
structure Reference where
  frame : Nat
  holder : Nat
  since : Nat
  deriving DecidableEq

namespace Runtime

variable {X V E : Type}

/-- The reference that the running body got last. -/
def got (r : Runtime X V E) : Option Reference :=
  match r.stack with
  | .body p :: _ => r.referred.map fun c => ⟨c, p, (r.frames p).suspensions⟩
  | _ => none

/-- The promise of `c` is read through a reference.  In a frame that is gone there is `freed`. -/
def use (c : Nat) (freed : V) (r : Runtime X V E) : Runtime X V E :=
  let v := if r.alive c then (r.frames c).result.toOption.getD freed else freed
  { r.read c with moves := r.moves ++ [⟨c, v, (r.frames c).returned⟩] }

end Runtime

structure Holding (X V E : Type) where
  rt : Runtime X V E
  held : List Reference

namespace Holding

variable {X V E : Type}

inductive Act (X V E : Type) where
  | runtime (act : Runtime.Act X V E)
  /-- A read, or a move by a program that does not use the reference again. -/
  | use (h : Reference) (freed : V)

/-- What the program may use after an act: not what it has moved from. -/
def kept (s : Holding X V E) : Runtime.Act X V E → List Reference
  | .move _ => s.held.filter fun h => s.rt.referred ≠ some h.frame
  | _ => s.held

def next [DecidableEq X] [Inhabited V] (s : Holding X V E) : Act X V E → Holding X V E
  | .runtime act =>
    let rt := s.rt.next act
    ⟨rt, rt.got.elim (s.kept act) (s.kept act).insert⟩
  | .use h freed => { s with rt := s.rt.use h.frame freed }

def Enabled (s : Holding X V E) : Act X V E → Prop
  | .runtime act => s.rt.Enabled act
  | .use h _ => h ∈ s.held ∧ (s.rt.stack = [] ∨ s.rt.InBody)

/-- Wakes are proper. -/
def Proper (s : Holding X V E) : Act X V E → Prop
  | .runtime act => s.rt.Proper act
  | .use _ _ => True

instance : (s : Holding X V E) → (a : Act X V E) → Decidable (s.Enabled a)
  | s, .runtime act => inferInstanceAs (Decidable (s.rt.Enabled act))
  | s, .use h _ => inferInstanceAs (Decidable (h ∈ s.held ∧ (s.rt.stack = [] ∨ s.rt.InBody)))

instance : (s : Holding X V E) → (a : Act X V E) → Decidable (s.Proper a)
  | s, .runtime act => inferInstanceAs (Decidable (s.rt.Proper act))
  | _, .use _ _ => isTrue trivial

/-- No task has been made, so nothing is held. -/
structure Init (s : Holding X V E) : Prop where
  rt : s.rt.Init
  held : s.held = []

def machine (X V E : Type) [DecidableEq X] [Inhabited V] : Machine (Holding X V E) (Act X V E) where
  init := Init
  enabled := Enabled
  next := next

instance [DecidableEq X] [Inhabited V] (s : Holding X V E) (a : Act X V E) :
    Decidable ((machine X V E).enabled s a) := inferInstanceAs (Decidable (s.Enabled a))

end Holding

namespace Runtime

variable {X V E : Type} {r r' : Runtime X V E} {c d p : Nat} {rest : List Activation}

/-! ## What an act does to a task that is over -/

/-- The frame is gone, or the task is in `final_suspend`. -/
def Over (r : Runtime X V E) (c : Nat) : Prop := r.Live c → .finishing c ∈ r.stack

/-- What an act does to the frame of a task. -/
structure Advances (r r' : Runtime X V E) (d : Nat) : Prop where
  live : r'.Live d → r.Live d
  caller : (r.frames d).caller ≠ .null → (r'.frames d).caller ≠ .null
  ended : r.Over d → (r'.frames d).caller = (r.frames d).caller ∧
    (r'.frames d).returned = (r.frames d).returned ∧ (r'.frames d).result = (r.frames d).result

/-- Neither does `d` suspend, nor is its frame destroyed, except by the `await_resume` of its
caller. -/
structure Stays (r r' : Runtime X V E) (d : Nat) : Prop where
  suspensions : (r'.frames d).suspensions = (r.frames d).suspensions
  live : (r.frames d).caller ≠ .null → r.Live d → r'.Live d

/-- What an act does to the activations, and which coroutine suspends or ends in it. -/
inductive Turn (r r' : Runtime X V E) : Prop
  /-- The stack stays. -/
  | keep (hs : r'.stack = r.stack) (h : ∀ d, d < r.allocated → r.Stays r' d)
  /-- The run loop resumes a coroutine. -/
  | resume (hs : r.stack = []) (h : ∀ d, d < r.allocated → r.Stays r' d)
  /-- The coroutine on top calls another one, or goes on. -/
  | call (new : List Activation) {a a' : Activation} {rest : List Activation} (hs : r.stack = a :: rest)
      (ha : ∀ d, a ≠ .finishing d) (hs' : r'.stack = new ++ a' :: rest) (hframe : a'.frame = a.frame)
      (h : ∀ d, d < r.allocated → r.Stays r' d)
  /-- It suspends. -/
  | suspend {a : Activation} (hs : r.stack = a :: r'.stack) (ha : ∀ d, a ≠ .finishing d)
      (hself : (r'.frames a.frame).suspensions = (r.frames a.frame).suspensions + 1)
      (h : ∀ d, d < r.allocated → d ≠ a.frame → r.Stays r' d)
  /-- It ends, and is gone if nobody waits in `await_transform` for it. -/
  | finish {a : Activation} (hs : r.stack = a :: r'.stack)
      (hself : (r'.frames a.frame).suspensions = (r.frames a.frame).suspensions)
      (hgone : (r.frames a.frame).caller ≠ .null → ¬ r'.Live a.frame)
      (h : ∀ d, d < r.allocated → d ≠ a.frame → r.Stays r' d)

/-- An activation of `p` lies over the `final_suspend` of `c`. -/
def Under (p c : Nat) : List Activation → Prop
  | [] => False
  | a :: rest => (a.frame = p ∧ .finishing c ∈ rest) ∨ Under p c rest

theorem Under.mem {stack : List Activation} (h : Under p c stack) : .finishing c ∈ stack := by
  induction stack with
  | nil => exact h.elim
  | cons a rest ih => exact List.mem_cons_of_mem _ (h.elim And.right ih)

theorem Under.append {stack : List Activation} (h : Under p c stack) :
    (new : List Activation) → Under p c (new ++ stack)
  | [] => h
  | _ :: new => .inr (h.append new)

theorem Under.tail {a : Activation} (h : Under p c (a :: rest)) (hne : p ≠ a.frame) : Under p c rest :=
  h.resolve_left fun heq => hne heq.1.symm

theorem Nested.rest_finishing {a : Activation} (h : r.Nested (a :: rest))
    (hne : (r.frames a.frame).caller ≠ .null) : ∀ b ∈ rest, ∃ d, b = .finishing d := by
  cases a with
  | body c => exact h.1.of_ne_null hne
  | transform c d => exact h.1.of_ne_null hne
  | finishing c => exact h.2.1

namespace Turn

theorem suspensions_le (h : r.Turn r') (hd : d < r.allocated) :
    (r.frames d).suspensions ≤ (r'.frames d).suspensions := by
  cases h with
  | keep hs h => exact (h d hd).suspensions.ge
  | resume hs h => exact (h d hd).suspensions.ge
  | call new hs ha hs' hframe h => exact (h d hd).suspensions.ge
  | @suspend a hs ha hself h =>
    by_cases hda : d = a.frame
    · rw [hda, hself]
      exact Nat.le_succ _
    · exact (h d hd hda).suspensions.ge
  | @finish a hs hself hgone h =>
    by_cases hda : d = a.frame
    · rw [hda, hself]
    · exact (h d hd hda).suspensions.ge

/-- A task in `final_suspend` stays there until it is gone. -/
theorem finishing (h : r.Turn r') (hi : r.Inv) (hl : r'.Live d) (hm : .finishing d ∈ r.stack) :
    .finishing d ∈ r'.stack := by
  cases h with
  | keep hs h =>
    rw [hs]
    exact hm
  | resume hs h =>
    rw [hs] at hm
    cases hm
  | call new hs ha hs' hframe h =>
    rw [hs, mem_under (ha d)] at hm
    rw [hs']
    exact List.mem_append_right _ (List.mem_cons_of_mem _ hm)
  | suspend hs ha hself h =>
    rw [hs, mem_under (ha d)] at hm
    exact hm
  | @finish a hs hself hgone h =>
    by_cases ha : a = .finishing d
    · subst ha
      have hnest := hi.calls.nested_top hs
      exact absurd hl (hgone hnest.1)
    · rw [hs, mem_under ha] at hm
      exact hm

/-- Once only tasks in `final_suspend` have activations, the calls return one by one. -/
theorem all_finishing (h : r.Turn r') (hne : r.stack ≠ []) (hall : ∀ a ∈ r.stack, ∃ e, a = .finishing e) :
    ∀ a ∈ r'.stack, ∃ e, a = .finishing e := by
  cases h with
  | keep hs h =>
    rw [hs]
    exact hall
  | resume hs h => exact absurd hs hne
  | @call new a a' rest hs ha hs' hframe h =>
    obtain ⟨e, he⟩ := hall a (by rw [hs]; exact List.mem_cons_self)
    exact absurd he (ha e)
  | suspend hs ha hself h => exact fun b hb => hall b (by rw [hs]; exact List.mem_cons_of_mem _ hb)
  | finish hs hself hgone h => exact fun b hb => hall b (by rw [hs]; exact List.mem_cons_of_mem _ hb)

/-- While `p` neither suspends nor ends, what lies under it stays. -/
theorem under (h : r.Turn r') (hu : Under p c r.stack) (hne : (r.frames p).caller ≠ .null)
    (hl : r'.Live p) (hsus : (r'.frames p).suspensions = (r.frames p).suspensions) :
    Under p c r'.stack := by
  cases h with
  | keep hs h =>
    rw [hs]
    exact hu
  | resume hs h =>
    rw [hs] at hu
    exact hu.elim
  | call new hs ha hs' hframe h =>
    rw [hs] at hu
    have hu' : Under p c (_ :: _) := hu.imp_left fun heq => ⟨hframe.trans heq.1, heq.2⟩
    rw [hs']
    exact hu'.append _
  | suspend hs ha hself h =>
    rw [hs] at hu
    refine hu.tail ?_
    rintro rfl
    omega
  | finish hs hself hgone h =>
    rw [hs] at hu
    refine hu.tail ?_
    rintro rfl
    exact hgone hne hl

/-- When `p` has suspended or ended, nobody runs over what was under it. -/
theorem left (h : r.Turn r') (hi : r.Inv) (hu : Under p c r.stack) (hp : p < r.allocated)
    (hne : (r.frames p).caller ≠ .null) (hl : r.Live p)
    (hout : ¬ (r'.Live p ∧ (r'.frames p).suspensions = (r.frames p).suspensions)) :
    ∀ a ∈ r'.stack, ∃ e, a = .finishing e := by
  have hstays : ¬ r.Stays r' p := fun hst => hout ⟨hst.live hne hl, hst.suspensions⟩
  cases h with
  | keep hs h => exact absurd (h p hp) hstays
  | resume hs h => exact absurd (h p hp) hstays
  | call new hs ha hs' hframe h => exact absurd (h p hp) hstays
  | @suspend a hs ha hself h =>
    obtain rfl : p = a.frame := by_contra fun hpa => hstays (h p hp hpa)
    exact (hi.calls.nested_top hs).rest_finishing hne
  | @finish a hs hself hgone h =>
    obtain rfl : p = a.frame := by_contra fun hpa => hstays (h p hp hpa)
    exact (hi.calls.nested_top hs).rest_finishing hne

end Turn

/-! ## Where the frame of a reference is -/

/-- The coroutine that got the reference has neither suspended nor been destroyed since. -/
def Holds (r : Runtime X V E) (h : Reference) : Prop :=
  r.Live h.holder ∧ h.since = (r.frames h.holder).suspensions

/-- The task that the reference is into has returned its value.  Its frame is gone if
it never suspended; else it is there while the coroutine that got the reference `Holds` it, and
until the calls of `resume()` have returned. -/
structure Placed (r : Runtime X V E) (h : Reference) : Prop where
  frame : h.frame < r.allocated
  holder : h.holder < r.allocated
  ended : r.Over h.frame
  value : ∃ v, (r.frames h.frame).returned = some (.ok v) ∧ (r.frames h.frame).result = .ok v
  since : h.since ≤ (r.frames h.holder).suspensions
  caller : ((r.frames h.frame).caller = .null ∧ ¬ r.Live h.frame) ∨
    ((∃ q, (r.frames h.frame).caller = .frame q) ∧ (r.frames h.holder).caller ≠ .null)
  held : (r.frames h.frame).caller ≠ .null → r.Holds h → Under h.holder h.frame r.stack
  left : ¬ r.Holds h → r.Live h.frame → ∀ a ∈ r.stack, ∃ d, a = .finishing d

theorem Placed.step {h : Reference} (hpl : r.Placed h) (hi : r.Inv) (halloc : r.allocated ≤ r'.allocated)
    (hadv : ∀ d, d < r.allocated → r.Advances r' d) (ht : r.Turn r') : r'.Placed h := by
  have hframe := hadv h.frame hpl.frame
  have hholder := hadv h.holder hpl.holder
  obtain ⟨hcaller, hret, hres⟩ := hframe.ended hpl.ended
  have hle := ht.suspensions_le hpl.holder
  have hsince := hpl.since
  constructor
  case frame => exact hpl.frame.trans_le halloc
  case holder => exact hpl.holder.trans_le halloc
  case ended => exact fun hl => ht.finishing hi hl (hpl.ended (hframe.live hl))
  case value =>
    rw [hret, hres]
    exact hpl.value
  case since => exact hsince.trans hle
  case caller =>
    rw [hcaller]
    exact hpl.caller.imp (And.imp_right fun hdead hl => hdead (hframe.live hl)) (And.imp_right hholder.caller)
  case held =>
    rintro hne ⟨hl, heq⟩
    rw [hcaller] at hne
    obtain ⟨-, hcl⟩ := hpl.caller.resolve_left fun hnull => hne hnull.1
    have hsus : (r'.frames h.holder).suspensions = (r.frames h.holder).suspensions := by omega
    exact ht.under (hpl.held hne ⟨hholder.live hl, by omega⟩) hcl hl hsus
  case left =>
    intro hout hl
    have hlive := hframe.live hl
    obtain ⟨⟨q, hq⟩, hcl⟩ := hpl.caller.resolve_left fun hnull => hnull.2 hlive
    by_cases hh : r.Holds h
    · refine ht.left hi (hpl.held (by rw [hq]; nofun) hh) hpl.holder hcl hh.1 fun hst => hout ⟨hst.1, ?_⟩
      rw [hst.2]
      exact hh.2
    · exact ht.all_finishing (List.ne_nil_of_mem (hpl.ended hlive)) (hpl.left hh hlive)

/-! ## Every act -/

/-- What each act does to the tasks and the activations. -/
structure Proceeds (r r' : Runtime X V E) : Prop where
  allocated : r.allocated ≤ r'.allocated
  advances : ∀ d, d < r.allocated → r.Advances r' d
  turn : r.Turn r'

/-- The act changes neither the caller of `d` nor what its promise holds, nor destroys it. -/
structure Alike (r r' : Runtime X V E) (d : Nat) : Prop where
  caller : (r'.frames d).caller = (r.frames d).caller
  returned : (r'.frames d).returned = (r.frames d).returned
  result : (r'.frames d).result = (r.frames d).result
  destroyed : (r'.frames d).destroyed = (r.frames d).destroyed

theorem Alike.of_frame (h : r'.frames d = r.frames d) : r.Alike r' d := by
  constructor <;> rw [h]

theorem Alike.advances (h : r.Alike r' d) (hd : d < r.allocated) : r.Advances r' d where
  live hl := ⟨hd, h.destroyed ▸ hl.2⟩
  caller hne := by
    rw [h.caller]
    exact hne
  ended _ := ⟨h.caller, h.returned, h.result⟩

theorem Alike.stays (h : r.Alike r' d) (halloc : r.allocated ≤ r'.allocated)
    (hsus : (r'.frames d).suspensions = (r.frames d).suspensions) : r.Stays r' d :=
  ⟨hsus, fun _ hl => ⟨hl.1.trans_le halloc, h.destroyed.trans hl.2⟩⟩

theorem Stays.of_frame (halloc : r.allocated ≤ r'.allocated) (hf : r'.frames d = r.frames d) : r.Stays r' d :=
  (Alike.of_frame hf).stays halloc (by rw [hf])

/-- Of a task that is not over the result may change. -/
theorem Advances.of_not_over (hl : r'.Live d → r.Live d)
    (hcaller : (r.frames d).caller ≠ .null → (r'.frames d).caller ≠ .null) (hout : ¬ r.Over d) :
    r.Advances r' d :=
  ⟨hl, hcaller, fun hov => absurd hov hout⟩

/-- Only the frame of `c` changes. -/
theorem Advances.except (hc : r.Advances r' c) (hf : ∀ d, d ≠ c → r'.frames d = r.frames d)
    (hd : d < r.allocated) : r.Advances r' d := by
  by_cases hdc : d = c
  · rw [hdc]
    exact hc
  · exact (Alike.of_frame (hf d hdc)).advances hd

/-- The act leaves the stack as it is. -/
theorem Proceeds.keep (halloc : r.allocated ≤ r'.allocated) (hs : r'.stack = r.stack)
    (h : ∀ d, d < r.allocated → r.Alike r' d)
    (hsus : ∀ d, d < r.allocated → (r'.frames d).suspensions = (r.frames d).suspensions) : r.Proceeds r' :=
  ⟨halloc, fun d hd => (h d hd).advances hd, .keep hs fun d hd => (h d hd).stays halloc (hsus d hd)⟩

theorem Proceeds.frames (halloc : r.allocated ≤ r'.allocated) (hs : r'.stack = r.stack)
    (hf : ∀ d, d < r.allocated → r'.frames d = r.frames d) : r.Proceeds r' :=
  .keep halloc hs (fun d hd => .of_frame (hf d hd)) fun d hd => by rw [hf d hd]

/-- The innermost coroutine `c` suspends at `point`. -/
theorem Proceeds.suspend {point : Point X} (hs : r.stack = .body c :: r'.stack)
    (halloc : r'.allocated = r.allocated) (hf : r'.frames = (r.suspend c point).frames) : r.Proceeds r' := by
  have halike : ∀ d, r.Alike r' d := fun d => by constructor <;> simp [hf]
  refine ⟨halloc.ge, fun d hd => (halike d).advances hd, .suspend hs nofun ?_ fun d _ hdc => ?_⟩
  · show (r'.frames c).suspensions = (r.frames c).suspensions + 1
    rw [hf, modify_self]
  · exact .of_frame halloc.ge (by rw [hf, modify_of_ne (c := c) hdc])

theorem not_over (hi : r.Inv) (hs : r.stack = .body c :: rest) : ¬ r.Over c :=
  fun hov => hi.calls.not_finishing hs (hov (hi.calls.body_running hs).1)

section

variable [DecidableEq X] {o : Except E V}

theorem Proceeds.leave (hi : r.Inv) (hs : r.stack = .body c :: rest) : r.Proceeds (r.leave o) := by
  have hout := not_over hi hs
  cases hcl : (r.frames c).caller with
  | null =>
    have hf : ∀ d, d ≠ c → (r.leave o).frames d = r.frames d := by
      intro d hdc
      rw [leave_null hs hcl, setStack_frames, modify_of_ne hdc, modify_of_ne hdc]
    rw [leave_null hs hcl] at hf ⊢
    exact ⟨le_rfl, fun d hd => .except (.of_not_over (by simp) (by simp) hout) hf hd,
      .finish hs (by simp) (fun hne => absurd hcl hne) fun d _ hdc => .of_frame le_rfl (hf d hdc)⟩
  | noop =>
    have hf : ∀ d, d ≠ c → (r.leave o).frames d = r.frames d := by
      intro d hdc
      rw [leave_noop hs hcl, setStack_frames, modify_of_ne hdc, modify_of_ne hdc]
    rw [leave_noop hs hcl] at hf ⊢
    exact ⟨le_rfl, fun d hd => .except (.of_not_over (by simp) (by simp) hout) hf hd,
      .finish hs (by simp) (fun _ => by simp [Activation.frame]) fun d _ hdc => .of_frame le_rfl (hf d hdc)⟩
  | frame p =>
    obtain ⟨hp, hpt, hne⟩ := hi.calls.body_caller hs hcl
    rw [leave_frame hs hcl hne hp hpt]
    refine ⟨le_rfl, fun d hd => ?_, .call [.body p] hs nofun rfl rfl fun d _ => ⟨by simp, by simp⟩⟩
    by_cases hdc : d = c
    · rw [hdc]
      exact .of_not_over (by simp) (by simp) hout
    · exact Alike.advances ⟨by simp, by simp [modify_of_ne hdc], by simp [modify_of_ne hdc], by simp⟩ hd

theorem Proceeds.back (hi : r.Inv) (hs : r.stack ≠ []) (hb : ¬ r.InBody) : r.Proceeds r.back := by
  cases hst : r.stack with
  | nil => exact absurd hst hs
  | cons a rest =>
    cases a with
    | body c => exact absurd ⟨c, rest, hst⟩ hb
    | transform p c =>
      obtain ⟨hc, hnull⟩ := hi.calls.transform p c (by rw [hst]; exact List.mem_cons_self)
      by_cases hpt : (r.frames c).point = .final
      · rw [back_final hst hpt hnull]
        refine ⟨le_rfl, fun d _ => ⟨fun hl => ?_, by simp, fun _ => by simp⟩,
          .call [] hst nofun rfl rfl fun d _ => ⟨by simp, fun hne hl => ?_⟩⟩
        · exact (by simpa using hl : r.Live d ∧ d ≠ c).1
        · have hdc : d ≠ c := by
            rintro rfl
            exact hne hnull
          simpa using ⟨hl, hdc⟩
      · rw [back_suspended hst hpt]
        have hout : ¬ r.Over c := fun hov =>
          hi.calls.top p c rest hst ((hi.calls.running c).mp (mem_frames (hov hc))).2
        have hself : ∀ d, d ≠ c →
            r.Alike ((((r.read c).setCaller c (.frame p)).suspend p (.child c)).setStack rest) d := by
          intro d hdc
          constructor <;> simp [modify_of_ne hdc]
        refine ⟨le_rfl, fun d hd => ?_, .suspend hst nofun (by simp [Activation.frame])
          fun d _ hdp => ⟨?_, fun _ hl => by simpa using hl⟩⟩
        · by_cases hdc : d = c
          · rw [hdc]
            exact .of_not_over (by simp) (by simp) hout
          · exact (hself d hdc).advances hd
        · rw [setStack_frames, modify_of_ne (c := p) hdp]
          simp
    | finishing c =>
      rw [back_finishing hst]
      refine ⟨le_rfl, fun d _ => ⟨fun hl => ?_, by simp, fun _ => by simp⟩,
        .finish hst (by simp) (fun _ => by simp [Activation.frame]) fun d _ hdc => .of_frame le_rfl ?_⟩
      · exact (by simpa using hl : r.Live d ∧ d ≠ c).1
      · rw [setStack_frames, modify_of_ne (c := c) hdc]

theorem Proceeds.pass (hi : r.Inv) (hs : r.stack = []) : r.Proceeds r.pass := by
  cases hq : r.queued with
  | nil =>
    rw [(pass_idle hi.waits hq).1]
    exact .frames le_rfl rfl fun _ _ => rfl
  | cons q qs =>
    obtain ⟨c, cause⟩ := q
    obtain ⟨hc, hends⟩ := hi.waits.ends (c, cause) (by rw [hq]; exact List.mem_cons_self)
    obtain ⟨a, received, hres, -⟩ := resume_parked (r := r.taken c cause qs) hc hends.parked
    rw [(pass_resume hi.waits hq).1, hres]
    have halike : ∀ d, r.Alike ((start c { r.taken c cause qs with awakers := a }).receive c received) d := by
      intro d
      constructor <;> simp
    exact ⟨le_rfl, fun d hd => (halike d).advances hd,
      .resume hs fun d _ => (halike d).stays le_rfl (by simp)⟩

theorem Proceeds.coAwaitTask [Inhabited V] (hi : r.Inv) (hs : r.stack = .body p :: rest) :
    r.Proceeds r.coAwaitTask := by
  have hp := (hi.calls.body_running hs).1.1
  have heq := coAwaitTask_eq hs hp
  have halloc : r.allocated ≤ r.coAwaitTask.allocated := by simp [heq]
  have hfield : ∀ {β : Type} (g : Frame X V E → β), (∀ f w, g ({ f with received := w }) = g f) →
      ∀ d, d < r.allocated → g (r.coAwaitTask.frames d) = g (r.frames d) := by
    intro β g hg d hd
    rw [coAwaitTask_frames hs hp, if_neg (Nat.ne_of_lt hd)]
    split
    next hdp => rw [hdp, hg]
    · rfl
  have halike : ∀ d, d < r.allocated → r.Alike r.coAwaitTask d := fun d hd =>
    ⟨hfield (·.caller) (fun _ _ => rfl) d hd, hfield (·.returned) (fun _ _ => rfl) d hd,
      hfield (·.result) (fun _ _ => rfl) d hd, hfield (·.destroyed) (fun _ _ => rfl) d hd⟩
  have hstack : r.coAwaitTask.stack = [.body r.allocated] ++ .transform p r.allocated :: rest := by simp [heq]
  refine ⟨halloc, fun d hd => (halike d hd).advances hd,
    .call _ hs nofun hstack rfl fun d hd => (halike d hd).stays halloc ?_⟩
  exact hfield (·.suspensions) (fun _ _ => rfl) d hd

theorem Proceeds.coAwait {x : X} (hs : r.stack = .body c :: rest) : r.Proceeds (r.coAwait x) := by
  cases hx : (r.awakers x).awaitReady with
  | true =>
    rw [coAwait_ready hs hx]
    exact .keep le_rfl rfl (fun d _ => by constructor <;> simp) fun d _ => by simp
  | false =>
    rw [coAwait_suspended hs hx]
    exact .suspend hs rfl rfl

theorem Proceeds.wake {x : X} {ret : V} : r.Proceeds (r.wake x ret) := by
  cases hx : (r.awakers x).handle with
  | none =>
    rw [wake_none hx]
    exact .frames le_rfl rfl fun _ _ => rfl
  | some c =>
    rw [wake_some hx]
    exact .frames le_rfl rfl fun _ _ => rfl

omit [DecidableEq X] in
theorem Proceeds.move {freed : V} : r.Proceeds (r.move freed) := by
  unfold Runtime.move
  split
  · split
    · exact .keep le_rfl rfl (fun d _ => by constructor <;> simp) fun d _ => by simp
    · exact .frames le_rfl rfl fun _ _ => rfl
  · exact .frames le_rfl rfl fun _ _ => rfl

theorem next_proceeds [Inhabited V] (hi : r.Inv) {a : Act X V E} (he : r.Enabled a) : r.Proceeds (r.next a) := by
  cases a with
  | enqueueTask =>
    exact .frames (Nat.le_succ _) rfl fun d hd => (enqueueTask_frames d).trans (if_neg (Nat.ne_of_lt hd))
  | wake x ret => exact .wake
  | pass => exact .pass hi he
  | coAwaitTask =>
    obtain ⟨c, rest, hs⟩ := he
    exact .coAwaitTask hi hs
  | coAwait x =>
    obtain ⟨c, rest, hs⟩ := he
    exact .coAwait hs
  | coYield =>
    obtain ⟨c, rest, hs⟩ := he
    rw [show r.next .coYield = r.coYield from rfl, coYield_eq hs]
    exact .suspend hs rfl rfl
  | move freed => exact .move
  | coReturn v =>
    obtain ⟨c, rest, hs⟩ := he
    exact .leave hi hs
  | throws e =>
    obtain ⟨c, rest, hs⟩ := he
    exact .leave hi hs
  | back => exact .back hi he.1 he.2

end

/-! ## The references held -/

theorem referred_eq_some (h : r.referred = some c) :
    ∃ p rest, r.stack = .body p :: rest ∧ (r.frames p).received = .reference c := by
  unfold referred at h
  split at h
  next p rest hs =>
    split at h
    next d hd =>
      cases h
      exact ⟨p, rest, hs, hd⟩
    · cases h
  · cases h

theorem got_eq_some {h : Reference} (hg : r.got = some h) :
    ∃ rest, r.stack = .body h.holder :: rest ∧ (r.frames h.holder).received = .reference h.frame ∧
      h.since = (r.frames h.holder).suspensions := by
  unfold got at hg
  split at hg
  next p rest hs =>
    rw [Option.map_eq_some_iff] at hg
    obtain ⟨c, hc, rfl⟩ := hg
    obtain ⟨q, rest', hs', hr⟩ := referred_eq_some hc
    rw [hs] at hs'
    cases hs'
    exact ⟨rest, hs, hr, rfl⟩
  · cases hg

/-- A reference that has just been got. -/
theorem got_placed {h : Reference} (hi : r.Inv) (hp : r.Promises) (hg : r.got = some h) : r.Placed h := by
  obtain ⟨rest, hs, hr, hsince⟩ := got_eq_some hg
  have hbody := (hi.calls.body_running hs).1
  have hholds : r.Holds h := ⟨hbody, hsince⟩
  obtain ⟨hval, hcase⟩ := hp.reference h.holder h.frame rest hs hr
  rcases hcase with ⟨hnull, hlt, hdead⟩ | ⟨hq, hcl, hfin⟩
  · exact ⟨hlt, hbody.1, fun hl => absurd hl hdead, hval, hsince.le, .inl ⟨hnull, hdead⟩,
      fun hne => absurd hnull hne, fun hout => absurd hholds hout⟩
  · have hunder : Under h.holder h.frame r.stack := by
      rw [hs]
      exact .inl ⟨rfl, hfin⟩
    exact ⟨hp.referred_lt hi hs hr, hbody.1, fun _ => hunder.mem, hval, hsince.le, .inr ⟨hq, hcl⟩,
      fun _ _ => hunder, fun hout => absurd hholds hout⟩

end Runtime

namespace Holding

variable {X V E : Type} {s : Holding X V E}

structure Inv (s : Holding X V E) : Prop where
  rt : s.rt.Inv
  promises : s.rt.Promises
  held : ∀ h ∈ s.held, s.rt.Placed h

theorem Init.inv (h : s.Init) : s.Inv where
  rt := h.rt.inv
  promises := .of_init h.rt
  held := by
    rw [h.held]
    nofun

theorem kept_subset {a : Runtime.Act X V E} : s.kept a ⊆ s.held := by
  cases a with
  | move freed => exact List.filter_subset_self ..
  | _ => exact List.Subset.refl _

theorem Inv.next [DecidableEq X] [Inhabited V] (hi : s.Inv) {a : Act X V E} (he : s.Enabled a)
    (hp : s.Proper a) : (s.next a).Inv := by
  cases a with
  | runtime a =>
    have hrt := hi.rt.next he hp
    have hpr := hi.promises.next hi.rt he
    obtain ⟨halloc, hadv, hturn⟩ := Runtime.next_proceeds hi.rt he
    have hkept : ∀ h ∈ s.kept a, (s.rt.next a).Placed h :=
      fun h hh => (hi.held h (kept_subset hh)).step hi.rt halloc hadv hturn
    refine ⟨hrt, hpr, fun h hh => ?_⟩
    cases hg : (s.rt.next a).got with
    | none =>
      refine hkept h ?_
      simpa [Holding.next, hg] using hh
    | some g =>
      have hmem : h = g ∨ h ∈ s.kept a := by simpa [Holding.next, hg] using hh
      rcases hmem with rfl | hmem
      · exact Runtime.got_placed hrt hpr hg
      · exact hkept h hmem
  | use g freed =>
    have hproc : s.rt.Proceeds (s.rt.use g.frame freed) := .frames le_rfl rfl fun _ _ => rfl
    refine ⟨⟨hi.rt.calls.congr rfl (fun _ => Iff.rfl) (fun _ => rfl) fun _ => rfl, ?_⟩,
      hi.promises.congr rfl rfl rfl,
      fun h hh => (hi.held h hh).step hi.rt hproc.allocated hproc.advances hproc.turn⟩
    exact ⟨hi.rt.waits.ready, hi.rt.waits.nodup, hi.rt.waits.ends, hi.rt.waits.handles⟩

end Holding

end Sqkio
