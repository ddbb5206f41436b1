import Sqkio.Core.Pending

/-!
# Bounded bypass

While the queue has room for every handle, a handle is resumed after exactly the handles
that were waiting when it was passed to `enqueue`, in their order, however often the ring's
counters wrap.  A task that yields in a loop therefore lets every waiting handle go first.
-/

namespace Sqkio.Loop

open Sqkio.Lib

variable {A T H : Type} [DecidableEq A] [DecidableEq H]

def Call.isPass : Call A T H → Bool
  | .pass => true
  | _ => false

/-- From `s` to `s'` the run loop resumes `ahead` and then `handle` before anything else, and it
has done so after one pass for each of them. -/
def Bypassed (ahead : List H) (handle : H) (s s' : Loop A T H) (passes : Nat) : Prop :=
  ∃ new, s'.resumed = s.resumed ++ new ∧
    (new <+: ahead ++ [handle] ∨ ahead ++ [handle] <+: new) ∧
    (ahead.length < passes → ahead ++ [handle] <+: new)

/-! ## What calls do to the waiting handles -/

variable {s : Loop A T H}

/-- `new` are the handles resumed and `later` those passed to `enqueue` in the calls. -/
structure Advance (s s' : Loop A T H) (new later : List H) : Prop where
  resumed : s'.resumed = s.resumed ++ new
  passed : s'.passed = s.passed ++ later
  waiting : new ++ s'.sched.waiting = s.sched.waiting ++ later

omit [DecidableEq A] [DecidableEq H] in
theorem Advance.refl : Advance s s [] [] :=
  ⟨(List.append_nil _).symm, (List.append_nil _).symm, (List.append_nil _).symm⟩

omit [DecidableEq A] [DecidableEq H] in
theorem Advance.trans {s' s'' : Loop A T H} {n l n' l' : List H} (h : Advance s s' n l)
    (h' : Advance s' s'' n' l') : Advance s s'' (n ++ n') (l ++ l') := by
  refine ⟨?_, ?_, ?_⟩
  · rw [h'.resumed, h.resumed, List.append_assoc]
  · rw [h'.passed, h.passed, List.append_assoc]
  · rw [List.append_assoc, h'.waiting, ← List.append_assoc, h.waiting, List.append_assoc]

/-- A pass resumes the oldest handle, if there is one. -/
theorem Inv.advance_pass (h : s.Inv) : Advance s (s.next .pass) (s.sched.waiting.take 1) [] := by
  obtain ⟨-, ⟨hnil, hnil', hzero⟩ | ⟨c, hcons, hone⟩⟩ := h.ready.dequeue_cases s.handle
  · have hstep : s.next .pass = { s with
        sched := (s.sched.dequeue s.handle).1, handle := (s.sched.dequeue s.handle).2.2 } := if_pos hzero
    rw [hstep, hnil]
    refine ⟨(List.append_nil _).symm, (List.append_nil _).symm, ?_⟩
    simp [hnil, hnil']
  · have hstep : s.next .pass =
        { s with sched := (s.sched.dequeue s.handle).1, handle := c, resumed := s.resumed ++ [c] } := by
      simp only [next, hone]
      exact if_neg (show ¬ (1 : UInt32) = 0 by decide)
    rw [hstep, hcons]
    refine ⟨rfl, (List.append_nil _).symm, ?_⟩
    rw [hcons, List.append_nil]
    rfl

/-- The other calls append the handle that they pass to `enqueue`, if they do. -/
theorem Inv.advance_call (h : s.Inv) {c : Call A T H} (hc : c.isPass = false) (hroom : s.Room c) :
    Advance s (s.next c) [] (s.passes c).toList := by
  rcases next_cases s c with ⟨handle, hpass, hs, hp, -, hd⟩ | ⟨rfl, -⟩ | ⟨hpass, hs, hp, -, hd⟩
  · have hnext := h.ready.enqueue_room (hroom (by simp [hpass])) handle
    rw [hpass]
    refine ⟨by simp [hd], by simp [hp], ?_⟩
    rw [hs, hnext.waiting_eq]
    rfl
  · cases hc
  · rw [hpass]
    refine ⟨by simp [hd], by simp [hp], ?_⟩
    rw [(h.ready.of_queue hs).waiting_eq]
    simp

/-- A run of calls, with enough passes for the `k` oldest handles. -/
theorem Inv.advance (h : s.Inv) {cs : List (Call A T H)}
    (he : ((machine A T H).restrict Room).AllEnabled s cs) :
    ∃ new later, Advance s ((machine A T H).runList s cs) new later ∧
      (cs.countP Call.isPass = 0 → new = []) ∧
      ∀ k, k ≤ s.sched.waiting.length → k ≤ cs.countP Call.isPass → k ≤ new.length := by
  induction cs generalizing s with
  | nil => exact ⟨[], [], .refl, fun _ => rfl, fun k _ hk => hk⟩
  | cons c cs ih =>
    obtain ⟨new, later, hadv, hnone, hk⟩ := ih (h.step c).1 he.2
    rw [Machine.runList_cons]
    cases hc : c.isPass with
    | true =>
      obtain rfl : c = .pass := by
        cases c <;> first | rfl | cases hc
      have hstep := h.advance_pass
      refine ⟨_, _, hstep.trans hadv, fun hzero => ?_, fun k hlen hcount => ?_⟩
      · rw [List.countP_cons, hc] at hzero
        simp at hzero
      · rw [List.countP_cons, hc] at hcount
        have hwait := congrArg List.length hstep.waiting
        simp only [List.length_append, List.length_take, List.length_nil] at hwait
        have hrest := hk (k - 1) (by
          show k - 1 ≤ (s.next .pass).sched.waiting.length
          omega) (by simp at hcount; omega)
        rw [List.length_append, List.length_take]
        omega
    | false =>
      have hstep := h.advance_call hc he.1.2
      refine ⟨_, _, hstep.trans hadv, fun hzero => ?_, fun k hlen hcount => ?_⟩
      · rw [List.countP_cons, hc] at hzero
        exact hnone (by simpa using hzero)
      · rw [List.countP_cons, hc] at hcount
        have hwait := congrArg List.length hstep.waiting
        simp only [List.length_append, List.length_nil] at hwait
        refine hk k ?_ (by simpa using hcount)
        show k ≤ (s.next c).sched.waiting.length
        omega

/-- The handles that are waiting go first, in their order. -/
theorem Inv.bypassed (h : s.Inv) {ahead : List H} {handle : H}
    (hw : s.sched.waiting = ahead ++ [handle]) {cs : List (Call A T H)}
    (he : ((machine A T H).restrict Room).AllEnabled s cs) :
    Bypassed ahead handle s ((machine A T H).runList s cs) (cs.countP Call.isPass) := by
  obtain ⟨new, later, hadv, -, hk⟩ := h.advance he
  have hwait := hadv.waiting
  rw [hw] at hwait
  have hnew : new <+: new ++ ((machine A T H).runList s cs).sched.waiting := List.prefix_append ..
  have hahead : ahead ++ [handle] <+: new ++ ((machine A T H).runList s cs).sched.waiting :=
    hwait ▸ List.prefix_append ..
  have hcompare := List.prefix_or_prefix_of_prefix hnew hahead
  refine ⟨new, hadv.resumed, hcompare, fun hlt => ?_⟩
  have hlen := hk (ahead ++ [handle]).length (by rw [hw]) (by simpa using Nat.succ_le_of_lt hlt)
  rcases hcompare with hpre | hpre
  · rw [hpre.eq_of_length_le hlen]
  · exact hpre

/-- The handle that a call passes goes after those that are waiting. -/
theorem Inv.bypassed_call (h : s.Inv) {c : Call A T H} {handle : H} (hc : s.passes c = some handle)
    {cs : List (Call A T H)} (he : ((machine A T H).restrict Room).AllEnabled s (c :: cs)) :
    Bypassed s.sched.waiting handle s ((machine A T H).runList s (c :: cs))
      (cs.countP Call.isPass) := by
  have hnot : c.isPass = false := by
    cases c <;> first | rfl | cases hc
  have hstep := h.advance_call hnot he.1.2
  rw [hc] at hstep
  obtain ⟨new, hres, hcompare, hmany⟩ := (h.step c).1.bypassed hstep.waiting he.2
  refine ⟨new, ?_, hcompare, hmany⟩
  rw [Machine.runList_cons]
  refine hres.trans ?_
  rw [hstep.resumed, List.append_nil]

theorem Inv.runList (h : s.Inv) (cs : List (Call A T H)) : ((machine A T H).runList s cs).Inv := by
  induction cs generalizing s with
  | nil => exact h
  | cons c cs ih => exact ih (h.step c).1

/-- A task that is resumed and yields goes after those that were waiting, and those that were
queued before it yielded. -/
theorem Inv.bypassed_yield (h : s.Inv) {handle : H} {ws : List H}
    (hw : s.sched.waiting = handle :: ws) {mid post : List (Call A T H)}
    (hmid : mid.countP Call.isPass = 0)
    (he : ((machine A T H).restrict Room).AllEnabled s
      (.pass :: (mid ++ .yieldSuspend handle :: post))) :
    ∃ mids, ((machine A T H).runList s (.pass :: mid)).passed = s.passed ++ mids ∧
      ((machine A T H).runList s (.pass :: mid)).resumed = s.resumed ++ [handle] ∧
      Bypassed (ws ++ mids) handle ((machine A T H).runList s (.pass :: mid))
        ((machine A T H).runList s (.pass :: (mid ++ .yieldSuspend handle :: post)))
        (post.countP Call.isPass) := by
  have hpass := h.advance_pass
  have hnext := (h.step .pass).1
  obtain ⟨hemid, hepost⟩ := Machine.allEnabled_append.mp he.2
  obtain ⟨new, mids, hadv, hnone, -⟩ := hnext.advance hemid
  obtain rfl := hnone hmid
  have hall := hpass.trans hadv
  rw [hw] at hall
  have hwait := hall.waiting
  rw [hw] at hwait
  have hlast := (hnext.runList mid).bypassed_call (c := .yieldSuspend handle) rfl hepost
  rw [show ((machine A T H).runList (s.next .pass) mid).sched.waiting = ws ++ mids by
    simpa using hwait] at hlast
  refine ⟨mids, hall.passed, hall.resumed, ?_⟩
  rw [Machine.runList_cons, Machine.runList_cons, Machine.runList_append]
  exact hlast

/-! ## The law -/

/-- In every run whose queue has room: a handle passed to `enqueue` is resumed after exactly those
waiting then; and between a resume of a task and the next after `co_yield`, those that were
waiting are resumed, and then those passed to `enqueue` before the `co_yield`. -/
theorem bounded_bypass (h : (machine A T H).init s) :
    (∀ (pre post : List (Call A T H)) (c : Call A T H) (handle : H),
      ((machine A T H).restrict Room).AllEnabled s (pre ++ c :: post) →
      ((machine A T H).runList s pre).passes c = some handle →
      Bypassed ((machine A T H).runList s pre).sched.waiting handle ((machine A T H).runList s pre)
        ((machine A T H).runList s (pre ++ c :: post)) (post.countP Call.isPass)) ∧
    ∀ (pre mid post : List (Call A T H)) (handle : H) (ws : List H),
      ((machine A T H).restrict Room).AllEnabled s
        (pre ++ .pass :: (mid ++ .yieldSuspend handle :: post)) →
      ((machine A T H).runList s pre).sched.waiting = handle :: ws → mid.countP Call.isPass = 0 →
      ∃ mids, ((machine A T H).runList s (pre ++ .pass :: mid)).passed =
          ((machine A T H).runList s pre).passed ++ mids ∧
        ((machine A T H).runList s (pre ++ .pass :: mid)).resumed =
          ((machine A T H).runList s pre).resumed ++ [handle] ∧
        Bypassed (ws ++ mids) handle ((machine A T H).runList s (pre ++ .pass :: mid))
          ((machine A T H).runList s (pre ++ .pass :: (mid ++ .yieldSuspend handle :: post)))
          (post.countP Call.isPass) := by
  have hinv := (Inv.of_init h).1
  refine ⟨?_, ?_⟩
  · intro pre post c handle he hc
    rw [Machine.runList_append]
    exact (hinv.runList pre).bypassed_call hc (Machine.allEnabled_append.mp he).2
  · intro pre mid post handle ws he hw hmid
    rw [Machine.runList_append, Machine.runList_append]
    exact (hinv.runList pre).bypassed_yield hw hmid (Machine.allEnabled_append.mp he).2

/-! ## A poller and another task -/

omit [DecidableEq A] [DecidableEq H] in
instance (c : Call A T H) : Decidable (s.Room c) :=
  inferInstanceAs (Decidable (s.passes c ≠ none → s.sched.waiting.length < 1023))

instance (c : Call A T H) : Decidable ((machine A T H).enabled s c) := isTrue trivial

/-- Task 1 yields while task 2 is waiting, and in the second run task 3 has been woken before. -/
theorem bounded_bypass_poller : Bypassed [2] 1
    ((machine Unit Unit Nat).runList start [.enqueue 1, .enqueue 2, .pass])
    ((machine Unit Unit Nat).runList start
      [.enqueue 1, .enqueue 2, .pass, .yieldSuspend 1, .pass, .pass]) 2 ∧
    ∃ mids, ((machine Unit Unit Nat).runList start [.enqueue 1, .enqueue 2, .pass, .enqueue 3]).passed =
        ((machine Unit Unit Nat).runList start [.enqueue 1, .enqueue 2]).passed ++ mids ∧
      Bypassed ([2] ++ mids) 1
        ((machine Unit Unit Nat).runList start [.enqueue 1, .enqueue 2, .pass, .enqueue 3])
        ((machine Unit Unit Nat).runList start
          [.enqueue 1, .enqueue 2, .pass, .enqueue 3, .yieldSuspend 1, .pass, .pass, .pass]) 3 := by
  have h := bounded_bypass start_init
  have hw : ((machine Unit Unit Nat).runList start [.enqueue 1, .enqueue 2, .pass]).sched.waiting = [2] := by
    decide +kernel
  refine ⟨?_, ?_⟩
  · have hcall := h.1 [.enqueue 1, .enqueue 2, .pass] [.pass, .pass] (.yieldSuspend 1) 1 (by decide +kernel) rfl
    rw [hw] at hcall
    exact hcall
  · obtain ⟨mids, hpassed, -, hyield⟩ := h.2 [.enqueue 1, .enqueue 2] [.enqueue 3] [.pass, .pass, .pass] 1 [2]
      (by decide +kernel) (by decide +kernel) rfl
    exact ⟨mids, hpassed, hyield⟩

end Sqkio.Loop
