import Sqkio.Core.Outcome

/-!
# Programs run as nested function calls

Every step of a program keeps `Sound`.  So each `co_await` of a task delivers what the task
stored, each task ends with what `eval` gives for its body, and when nothing is left to run or
to wait for, every frame has been destroyed once.

The condition is that of `Runtime.Suspends`: a task whose value is used has suspended.
-/

namespace Sqkio.Program

open Sqkio.Lib Sqkio.Runtime

variable {X Q V E : Type} {reply : Q → V} {s : Program X Q V E} {c p : Nat} {rest : List Activation}

/-- A field that a step leaves in the one frame it writes. -/
theorem field_of_ite {β : Type} (g : Frame X V E → β) {f f' : Nat → Frame X V E} {k : Frame X V E}
    (hf : ∀ d, f' d = if d = c then k else f d) (hk : g k = g (f c)) (d : Nat) : g (f' d) = g (f d) := by
  rw [hf]
  split
  next heq =>
    rw [heq]
    exact hk
  · rfl

namespace Sound

variable [DecidableEq X]

/-- The running body `c` ends with the outcome `o`. -/
theorem leave {o : Except E V} (h : s.Sound reply) (hi : s.rt.Inv) (hp : s.rt.Promises)
    (hs : s.rt.stack = .body c :: rest) (ho : (s.code c).body.eval reply = o) :
    Sound reply { s with rt := s.rt.leave o } := by
  obtain ⟨hc, hrun⟩ := hi.calls.body_running hs
  have hnone := hp.unended c hc (by rw [hrun]; nofun) (hi.calls.not_finishing hs)
  have hrest : ∀ e d, Activation.transform e d ∈ rest → .transform e d ∈ s.rt.stack := by
    intro e d hm
    rw [hs]
    exact List.mem_cons_of_mem _ hm
  cases hcl : (s.rt.frames c).caller with
  | null =>
    rw [leave_null hs hcl]
    refine ⟨h.evaluates.leave ho hc.1 hnone rfl (fun d => ?_) rfl rfl rfl,
      h.stands.stop hi c hs rfl rfl (fun d _ hl => ?_) (fun d hd => ?_) (fun _ _ => rfl) rfl
        (fun _ _ => Iff.rfl) (fun _ _ _ _ _ => ⟨rfl, rfl⟩) fun _ => ?_,
      h.family.congr rfl (by simp) rfl hrest⟩
    · simp only [setStack_frames, modify_apply]
      split <;> rfl
    · simpa using hl
    · rw [setStack_frames, modify_of_ne hd, modify_of_ne hd]
    · exact standing_running (.inr (by simp))
  | noop =>
    rw [leave_noop hs hcl]
    refine ⟨h.evaluates.leave ho hc.1 hnone rfl (fun d => ?_) rfl rfl rfl,
      h.stands.stop hi c hs rfl rfl (fun d hd hl => ?_) (fun d hd => ?_) (fun _ _ => rfl) rfl
        (fun _ _ => Iff.rfl) (fun _ _ _ _ _ => ⟨rfl, rfl⟩) fun hl => ?_,
      h.family.congr rfl (by simp) rfl hrest⟩
    · simp only [setStack_frames, modify_apply]
      split <;> rfl
    · exact (by simpa using hl : s.rt.Live d ∧ d ≠ c).1
    · rw [setStack_frames, modify_of_ne hd, modify_of_ne hd]
    · simp at hl
  | frame q =>
    obtain ⟨hq, hpt, hne⟩ := hi.calls.body_caller hs hcl
    have hawaits := (standing_child hpt).mp (h.stands.standing q hq)
    have heq : s.rt.leave o = _ := leave_frame hs hcl hne hq hpt
    have hstack : (s.rt.leave o).stack = .body q :: .finishing c :: rest := by simp [heq]
    have hframes : ∀ d, (s.rt.leave o).frames d = _ := leave_frame_frames hs hcl hne hq hpt
    have halloc : (s.rt.leave o).allocated = s.rt.allocated := by simp [heq]
    refine ⟨h.evaluates.leave ho hc.1 hnone halloc (fun d => ?_) rfl rfl rfl,
      h.stands.goOn hi hstack (fun e d hm => ?_) (fun d _ => by simp [heq]) (fun d hd => ?_) ?_ rfl rfl
        (fun d _ => by simp [heq]) (fun x d _ _ _ => ⟨by simp [heq], rfl⟩) ?_,
      h.family.congr halloc (fun d => ?_) rfl fun e d hm => ?_⟩
    · show ((s.rt.leave o).frames d).returned = _
      rw [hframes]
      split
      next hd => rw [hd, if_neg hne]
      · split <;> rfl
    · exact hrest e d (by simpa using hm)
    · show ((s.rt.leave o).frames d).point = _
      rw [hframes, if_neg hd]
      split
      next hd => rw [hd]
      · rfl
    · show ((s.rt.leave o).frames q).point = _
      rw [hframes, if_pos rfl]
    · refine Resumed.of (d := c) (o := o) hawaits (halloc ▸ hc.1) ?_ ?_
      · show ((s.rt.leave o).frames c).returned = _
        rw [hframes, if_neg hne.symm, if_pos rfl]
      · show ((s.rt.leave o).frames q).received = _
        rw [hframes, if_pos rfl]
    · show ((s.rt.leave o).frames d).caller = _
      rw [hframes]
      split
      next hd => rw [hd]
      · split
        next hd => rw [hd]
        · rfl
    · refine hrest e d ?_
      have hm' : Activation.transform e d ∈ (s.rt.leave o).stack := hm
      simpa [hstack] using hm'

/-! ## The running body suspends -/

omit [DecidableEq X] in
theorem suspend {s' : Program X Q V E} (point : Point X) (h : s.Sound reply) (hi : s.rt.Inv)
    (hs : s.rt.stack = .body c :: rest) (hs' : s'.rt.stack = rest)
    (halloc : s'.rt.allocated = s.rt.allocated) (hf : s'.rt.frames = (s.rt.suspend c point).frames)
    (hcode : ∀ d, d ≠ c → s'.code d = s.code d)
    (heval : (s'.code c).body.eval reply = (s.code c).body.eval reply) (hbody : s'.body = s.body)
    (hparent : s'.parent = s.parent) (hdel : s'.delivered = s.delivered)
    (hq : ∀ d, d ≠ c → (d ∈ s'.rt.queued.map Prod.fst ↔ d ∈ s.rt.queued.map Prod.fst))
    (hx : ∀ x d, d ≠ c → s.rt.Live d → (s.rt.frames d).point = .awaker x →
      s'.rt.awakers x = s.rt.awakers x ∧ s'.request x = s.request x)
    (hself : s'.Standing reply c) : s'.Sound reply := by
  constructor
  case evaluates =>
    refine h.evaluates.congr halloc (fun d => ?_) (fun d _ _ => ?_) hbody fun d hd => .inl (hdel ▸ hd)
    · rw [hf]
      simp
    · by_cases hd : d = c
      · rw [hd, heval]
      · rw [hcode d hd]
  case stands =>
    refine h.stands.stop hi c hs hs' rfl (fun d hd hl => ?_) (fun d hd => ?_) hcode hbody hq hx fun _ => hself
    · rw [live_def, halloc, hf, modify_of_ne hd] at hl
      exact hl
    · rw [hf, modify_of_ne hd]
  case family =>
    refine h.family.congr halloc (fun d => ?_) hparent fun e d hm => ?_
    · rw [hf]
      simp
    · rw [hs'] at hm
      rw [hs]
      exact List.mem_cons_of_mem _ hm

omit [DecidableEq X] in
theorem coYield {next : Body X Q V E} (h : s.Sound reply) (hi : s.rt.Inv)
    (hs : s.rt.stack = .body c :: rest) (hcode : s.code c = .start (.coYield next)) (hroom : s.Room) :
    Sound reply { s.setCode c (.start next) with rt := s.rt.coYield } := by
  have hq : (s.rt.coYield).queued = s.rt.queued ++ [(c, .yield ((s.rt.frames c).suspensions + 1))] := by
    rw [coYield_eq hs]
    exact if_pos hroom
  have hcode' : ∀ d, d ≠ c → (s.setCode c (.start next)).code d = s.code d :=
    fun d hd => Function.update_of_ne hd ..
  have hself : (s.setCode c (.start next)).code c = .start next := Function.update_self ..
  refine h.suspend .yield hi hs ?_ ?_ ?_ hcode' ?_ rfl rfl rfl (fun d hd => ?_) (fun x d _ _ _ => ?_) ?_
  · rw [coYield_eq hs]
    rfl
  · rw [coYield_eq hs]
    rfl
  · rw [coYield_eq hs]
    rfl
  · rw [hself, hcode]
    rfl
  · simp [hq, hd]
  · rw [coYield_eq hs]
    exact ⟨rfl, rfl⟩
  · refine (standing_ready (.inr ?_)).mpr ⟨⟨next, hself⟩, by simp [hq]⟩
    rw [coYield_eq hs]
    simp

theorem coAwait {x : X} {q : Q} {next : V → Body X Q V E} (h : s.Sound reply) (hi : s.rt.Inv)
    (hs : s.rt.stack = .body c :: rest) (hcode : s.code c = .start (.awaker x q next))
    (hfree : s.Free x) :
    Sound reply { s.setCode c (.inside (.awaker x q next)) with
      rt := s.rt.coAwait x, request := Function.update s.request x q } := by
  have hrun := (hi.calls.body_running hs).2
  have hout := hi.not_queued (c := c) (by rw [hrun]; exact id)
  have hcode' : ∀ d, d ≠ c → (s.setCode c (.inside (.awaker x q next))).code d = s.code d :=
    fun d hd => Function.update_of_ne hd ..
  have hself : (s.setCode c (.inside (.awaker x q next))).code c = .inside (.awaker x q next) :=
    Function.update_self ..
  have hrequest : Function.update s.request x q x = q := Function.update_self ..
  rw [coAwait_suspended hs hfree.2]
  refine h.suspend (.awaker x) hi hs rfl rfl rfl hcode' ?_ rfl rfl rfl (fun _ _ => Iff.rfl)
    (fun y d hd hl hpt => ?_) ?_
  · rw [hself, hcode]
    rfl
  · -- nobody else waits at an awaker that was free
    have hne : y ≠ x := by
      rintro rfl
      have hhandle := ((standing_awaker hpt).mp (h.stands.standing d hl)).1
      rw [hfree.1] at hhandle
      cases hhandle
    exact ⟨setAwaker_of_ne hne, Function.update_of_ne hne ..⟩
  · refine (standing_awaker (x := x) (by simp [setAwaker])).mpr ⟨?_, ⟨next, ?_⟩, fun hmem => absurd hmem hout⟩
    · simp
    · show _ = Code.inside (.awaker x (Function.update s.request x q x) next)
      rw [hrequest]
      exact hself

/-! ## New tasks -/

omit [DecidableEq X] in
/-- The body of a new task runs, and the task `c` awaits it. -/
theorem call {s' : Program X Q V E} {b body : Body X Q V E} {n : Nat} {f : Frame X V E} (h : s.Sound reply)
    (hi : s.rt.Inv) (hs : s.rt.stack = .body c :: rest) (hcode : s.code c = .start b)
    (hb : Awaits (.inside b) body) (hn : n = s.rt.allocated)
    (hs' : s'.rt.stack = .body n :: .transform c n :: rest) (halloc : s'.rt.allocated = n + 1)
    (hf : ∀ d, s'.rt.frames d = if d = n then f
      else if d = c then { s.rt.frames c with received := .nothing } else s.rt.frames d)
    (hcaller : f.caller = .null) (hpoint : f.point = .running) (hret : f.returned = none)
    (hq : s'.rt.queued = s.rt.queued) (ha : s'.rt.awakers = s.rt.awakers)
    (hcode' : ∀ d, s'.code d = if d = n then .start body else if d = c then .inside b else s.code d)
    (hreq : s'.request = s.request) (hbody : s'.body = Function.update s.body n body)
    (hparent : s'.parent = Function.update s.parent n (some c)) (hdel : s'.delivered = s.delivered) :
    s'.Sound reply := by
  subst hn
  obtain ⟨hc, hrun⟩ := hi.calls.body_running hs
  have hne : c ≠ s.rt.allocated := Nat.ne_of_lt hc.1
  have hold : ∀ e d, Activation.transform e d ∈ rest →
      .transform e d ∈ s.rt.stack ∧ e ≠ c ∧ e < s.rt.allocated ∧ d < s.rt.allocated := by
    intro e d hm
    have hm' : Activation.transform e d ∈ s.rt.stack := by
      rw [hs]
      exact List.mem_cons_of_mem _ hm
    refine ⟨hm', ?_, ((hi.calls.running e).mp (mem_frames hm')).1.1, (hi.calls.transform e d hm').1.1⟩
    rintro rfl
    exact hi.calls.not_mem_rest hs (mem_frames (a := .transform e d) hm)
  constructor
  case evaluates =>
    refine h.evaluates.spawn (b := body) halloc (fun d => ?_) (fun d hd => ?_) ?_ hbody hdel
    · rw [hf]
      split
      · exact hret
      · split
        next hd => rw [hd]
        · rfl
    · rw [hcode', if_neg (Nat.ne_of_lt hd)]
      split
      next heq =>
        rw [heq, hcode]
        rfl
      · rfl
    · rw [hcode', if_pos rfl]
  case stands =>
    refine h.stands.change hi s.rt.allocated (fun d hd hl => ?_) (fun d hd => ?_) (fun d hd hl hpt => ?_)
      (fun d hd => ?_) (fun d _ => by rw [hq]) (fun x d _ _ _ => ⟨by rw [ha], by rw [hreq]⟩) (fun _ => ?_)
      (fun e d hm => ?_) fun d rest' hst => ?_
    · rw [live_def, halloc, hf, if_neg hd] at hl
      refine ⟨by omega, ?_⟩
      have hdes := hl.2
      split at hdes
      next heq =>
        rw [heq]
        exact hc.2
      · exact hdes
    · rw [hf, if_neg hd]
      split
      next heq => rw [heq]
      · rfl
    · have hdc : d ≠ c := by
        rintro rfl
        exact hpt hrun
      rw [hcode', if_neg hd, if_neg hdc]
    · rw [hbody, Function.update_of_ne (Nat.ne_of_lt hd)]
    · refine standing_running (.inl ?_)
      rw [hf, if_pos rfl, hpoint]
    · rw [hs'] at hm
      rcases List.mem_cons.mp hm with heq | hm
      · cases heq
      · rcases List.mem_cons.mp hm with heq | hm
        · cases heq
          rw [hcode', if_neg hne, if_pos rfl, hbody, Function.update_self]
          exact hb
        · obtain ⟨hm', hec, he, hd⟩ := hold e d hm
          rw [hcode', if_neg (Nat.ne_of_lt he), if_neg hec, hbody, Function.update_of_ne (Nat.ne_of_lt hd)]
          exact h.stands.transform e d hm'
    · rw [hs'] at hst
      cases hst
      refine .inl ⟨body, ?_⟩
      rw [hcode', if_pos rfl]
  case family =>
    refine h.family.spawn .null (some c) halloc (fun d => ?_) hparent (.inr ⟨rfl, c, rfl, hc.1⟩)
      fun e d hm => ?_
    · rw [hf]
      split
      · exact hcaller
      · split
        next hd => rw [hd]
        · rfl
    · rw [hs'] at hm
      rcases List.mem_cons.mp hm with heq | hm
      · cases heq
      · rcases List.mem_cons.mp hm with heq | hm
        · cases heq
          exact .inl ⟨rfl, rfl⟩
        · obtain ⟨hm', -, -, hd⟩ := hold e d hm
          exact .inr ⟨hd, hm'⟩

/-- A new task with the body `body` is awaited by the running one. -/
theorem coAwaitTask [Inhabited V] {b body : Body X Q V E} (h : s.Sound reply) (hi : s.rt.Inv)
    (hs : s.rt.stack = .body c :: rest) (hcode : s.code c = .start b) (hb : Awaits (.inside b) body) :
    Sound reply { (s.setCode c (.inside b)).setBody s.rt.allocated body (some c) with
      rt := s.rt.coAwaitTask } := by
  have hc := (hi.calls.body_running hs).1
  have heq := coAwaitTask_eq hs hc.1
  refine h.call hi hs hcode hb rfl (by simp [heq]) (by simp [heq]) (coAwaitTask_frames hs hc.1)
    rfl rfl rfl (by simp [heq]) (by simp [heq]) (fun d => ?_) rfl rfl rfl rfl
  simp only [setBody, setCode, Function.update_apply]

omit [DecidableEq X] in
/-- A new top-level task is queued. -/
theorem enqueueTask [Inhabited V] {b : Body X Q V E} (h : s.Sound reply) (hi : s.rt.Inv)
    (hp : s.rt.Promises) (hroom : s.Room) :
    Sound reply { s.setBody s.rt.allocated b none with rt := s.rt.enqueueTask } := by
  have hframes : ∀ d, s.rt.enqueueTask.frames d = _ := enqueueTask_frames
  have hqueued : s.rt.enqueueTask.queued = s.rt.queued ++ [(s.rt.allocated, .start)] := if_pos hroom
  have hne : ∀ e d, Activation.transform e d ∈ s.rt.stack →
      e ≠ s.rt.allocated ∧ d < s.rt.allocated := by
    intro e d hm
    exact ⟨Nat.ne_of_lt ((hi.calls.running e).mp (mem_frames hm)).1.1, (hi.calls.transform e d hm).1.1⟩
  constructor
  case evaluates =>
    refine h.evaluates.spawn (b := b) rfl (fun d => ?_) (fun d hd => ?_) (Function.update_self ..) rfl rfl
    · rw [hframes]
      split <;> rfl
    · simp only [setBody, Function.update_of_ne (Nat.ne_of_lt hd)]
  case stands =>
    refine h.stands.change hi s.rt.allocated (fun d hd hl => ?_) (fun d hd => ?_)
      (fun d hd _ _ => Function.update_of_ne hd ..) (fun d hd => Function.update_of_ne (Nat.ne_of_lt hd) ..)
      (fun d hd => ?_) (fun _ _ _ _ _ => ⟨rfl, rfl⟩) (fun _ => ?_) (fun e d hm => ?_) fun d rest' hst => ?_
    · rw [live_def, hframes, if_neg hd] at hl
      have hlt : d < s.rt.allocated + 1 := hl.1
      exact ⟨by omega, hl.2⟩
    · rw [hframes, if_neg hd]
    · simp [hqueued, hd]
    · refine (standing_ready (.inl ?_)).mpr ⟨⟨b, Function.update_self ..⟩, by simp [hqueued]⟩
      rw [hframes, if_pos rfl]
    · obtain ⟨he, hd⟩ := hne e d hm
      simp only [setBody, Function.update_of_ne he, Function.update_of_ne (Nat.ne_of_lt hd)]
      exact h.stands.transform e d hm
    · have hd := Nat.ne_of_lt (hi.calls.body_running hst).1.1
      refine (h.stands.resumed d rest' hst).congr (Function.update_of_ne hd ..) (by rw [hframes, if_neg hd])
        (fun e he => ?_) (fun e _ _ he => ?_) (Nat.le_succ _)
      · exact Function.update_of_ne (Nat.ne_of_lt (hp.referred_lt hi hst he)) ..
      · rw [hframes, if_neg (Nat.ne_of_lt he)]
        exact ⟨Function.update_of_ne (Nat.ne_of_lt he) .., rfl⟩
  case family =>
    refine h.family.spawn .noop none rfl (fun d => ?_) rfl (.inl ⟨rfl, rfl⟩)
      fun e d hm => .inr ⟨(hne e d hm).2, hm⟩
    rw [hframes]
    split <;> rfl

/-! ## Returns from `resume()` -/

omit [DecidableEq X] in
/-- The task called by `await_transform` ended in it: the outcome goes to the body of `p`. -/
theorem back_final {s' : Program X Q V E} (h : s.Sound reply) (hi : s.rt.Inv) (hp : s.rt.Promises)
    (hs : s.rt.stack = .transform p c :: rest) (hfinal : (s.rt.frames c).point = .final)
    (hs' : s'.rt.stack = .body p :: rest) (halloc : s'.rt.allocated = s.rt.allocated)
    (hf : ∀ d, s'.rt.frames d = if d = p then
        { s.rt.frames p with received := .of c (s.rt.frames c).result }
      else if d = c then { s.rt.frames c with destroyed := [.awaitResume] } else s.rt.frames d)
    (hq : s'.rt.queued = s.rt.queued) (ha : s'.rt.awakers = s.rt.awakers) (hcode : s'.code = s.code)
    (hreq : s'.request = s.request) (hbody : s'.body = s.body) (hparent : s'.parent = s.parent)
    (hdel : s'.delivered = s.delivered) : s'.Sound reply := by
  have hmem : Activation.transform p c ∈ s.rt.stack := by
    rw [hs]
    exact List.mem_cons_self
  have hc := (hi.calls.transform p c hmem).1
  have hrun := ((hi.calls.running p).mp (mem_frames hmem)).2
  have hne : c ≠ p := by
    rintro rfl
    rw [hfinal] at hrun
    cases hrun
  have hrest : ∀ e d, Activation.transform e d ∈ rest → .transform e d ∈ s.rt.stack := by
    intro e d hm
    rw [hs]
    exact List.mem_cons_of_mem _ hm
  -- the step writes the frames of `p` and of `c`, and in both of them only one field
  have hfield : ∀ {β : Type} (g : Frame X V E → β),
      (∀ f received, g { f with received } = g f) → (∀ f destroyed, g { f with destroyed } = g f) →
      ∀ d, g (s'.rt.frames d) = g (s.rt.frames d) := by
    intro β g hreceived hdestroyed d
    rw [hf]
    split
    next hd => rw [hd, hreceived]
    · split
      next hd => rw [hd, hdestroyed]
      · rfl
  have hreturned : ∀ d, (s'.rt.frames d).returned = (s.rt.frames d).returned :=
    hfield Frame.returned (fun _ _ => rfl) fun _ _ => rfl
  have hpoint : ∀ d, (s'.rt.frames d).point = (s.rt.frames d).point :=
    hfield Frame.point (fun _ _ => rfl) fun _ _ => rfl
  have hcaller : ∀ d, (s'.rt.frames d).caller = (s.rt.frames d).caller :=
    hfield Frame.caller (fun _ _ => rfl) fun _ _ => rfl
  refine ⟨h.evaluates.congr halloc hreturned (fun d _ _ => by rw [hcode]) hbody
      fun d hd => .inl (hdel ▸ hd),
    h.stands.goOn hi hs' hrest (fun d hd hl => ?_) (fun d _ => hpoint d) ((hpoint p).trans hrun) hcode hbody
      (fun d _ => by rw [hq]) (fun x d _ _ _ => ⟨by rw [ha], by rw [hreq]⟩) ?_,
    h.family.congr halloc hcaller hparent fun e d hm => ?_⟩
  · rw [live_def, halloc, hf, if_neg hd] at hl
    refine ⟨hl.1, ?_⟩
    have hdes := hl.2
    split at hdes
    · cases hdes
    · exact hdes
  · refine Resumed.of (d := c) (o := (s.rt.frames c).result) ?_ ?_ ?_ ?_
    · rw [hcode, hbody]
      exact h.stands.transform p c hmem
    · rw [halloc]
      exact hc.1
    · rw [hreturned]
      exact hp.ended c hc (.inl hfinal)
    · rw [hf, if_pos rfl]
  · rw [hs'] at hm
    rcases List.mem_cons.mp hm with heq | hm
    · cases heq
    · exact hrest e d hm

theorem back (h : s.Sound reply) (hi : s.rt.Inv) (hp : s.rt.Promises) (hne : s.rt.stack ≠ [])
    (hb : ¬ s.rt.InBody) : Sound reply { s with rt := s.rt.back } := by
  cases hs : s.rt.stack with
  | nil => exact absurd hs hne
  | cons a rest =>
    have hrest : ∀ e d, Activation.transform e d ∈ rest → .transform e d ∈ s.rt.stack := by
      intro e d hm
      rw [hs]
      exact List.mem_cons_of_mem _ hm
    cases a with
    | body c => exact absurd ⟨c, rest, hs⟩ hb
    | transform p c =>
      have hmem : Activation.transform p c ∈ s.rt.stack := by
        rw [hs]
        exact List.mem_cons_self
      obtain ⟨hc, hnull⟩ := hi.calls.transform p c hmem
      have hrun := (hi.calls.running p).mp (mem_frames hmem)
      have hpc : p ≠ c := by
        rintro rfl
        exact hi.calls.top p p rest hs hrun.2
      by_cases hpt : (s.rt.frames c).point = .final
      · have heq := Runtime.back_final hs hpt hnull
        exact h.back_final hi hp hs hpt (by simp [heq]) (by simp [heq])
          (back_final_frames hs hpt hnull hpc hc) (by simp [heq]) (by simp [heq]) rfl rfl rfl rfl rfl
      · have heq := Runtime.back_suspended hs hpt
        have hstack : s.rt.back.stack = rest := by simp [heq]
        have halloc : s.rt.back.allocated = s.rt.allocated := by simp [heq]
        refine ⟨h.evaluates.congr halloc (by simp [heq]) (fun _ _ _ => rfl) rfl fun d hd => .inl hd,
          h.stands.stop hi p hs hstack rfl (fun d _ hl => ?_) (fun d hd => ?_) (fun _ _ => rfl) rfl
            (fun d _ => by simp [heq]) (fun x d _ _ _ => ⟨by simp [heq], rfl⟩) fun _ => ?_,
          h.family.suspended hs hstack halloc (fun d => ?_) rfl⟩
        · simpa [heq] using hl
        · simp [heq, modify_of_ne hd]
        · refine (standing_child (d := c) (by simp [heq])).mpr ?_
          exact h.stands.transform p c hmem
        · have hcaller : (s.rt.back.frames d).caller =
              (((s.rt.read c).setCaller c (.frame p)).frames d).caller := by simp [heq]
          refine hcaller.trans ?_
          rw [modify_apply]
          split <;> rfl
    | finishing c =>
      have heq := Runtime.back_finishing hs
      have hstack : s.rt.back.stack = rest := by simp [heq]
      refine ⟨h.evaluates.congr (by simp [heq]) (by simp [heq]) (fun _ _ _ => rfl) rfl fun d hd => .inl hd,
        h.stands.stop hi c hs hstack rfl (fun d hd hl => ?_) (fun d hd => ?_) (fun _ _ => rfl) rfl
          (fun d _ => by simp [heq]) (fun x d _ _ _ => ⟨by simp [heq], rfl⟩) fun hl => ?_,
        h.family.congr (by simp [heq]) (by simp [heq]) rfl fun e d hm => ?_⟩
      · exact (by simpa [heq] using hl : s.rt.Live d ∧ d ≠ c).1
      · simp [heq]
      · simp [heq] at hl
      · rw [hstack] at hm
        exact hrest e d hm

/-! ## The queue -/

/-- The owner of an awaker wakes the coroutine that waits there with the reply. -/
theorem wake {x : X} (h : s.Sound reply) (hi : s.rt.Inv) (hroom : s.Room) (hwait : s.Waiting x) :
    Sound reply { s with rt := s.rt.wake x (reply (s.request x)) } := by
  obtain ⟨c, hx, -⟩ := hwait
  obtain ⟨hc, hpt, -⟩ := hi.waits.handles x c hx
  obtain ⟨-, hcode, -⟩ := (standing_awaker hpt).mp (h.stands.standing c hc)
  have heq : s.rt.wake x (reply (s.request x)) = _ := wake_some hx
  have hframes : (s.rt.wake x (reply (s.request x))).frames = s.rt.frames := by rw [heq]; rfl
  have hstack : (s.rt.wake x (reply (s.request x))).stack = s.rt.stack := by rw [heq]; rfl
  have halloc : (s.rt.wake x (reply (s.request x))).allocated = s.rt.allocated := by rw [heq]; rfl
  have hq : (s.rt.wake x (reply (s.request x))).queued = s.rt.queued ++ [(c, .wake x (s.rt.since x))] := by
    rw [heq]
    exact if_pos hroom
  have ha : (s.rt.wake x (reply (s.request x))).awakers x =
      ((s.rt.awakers x).wake (Runtime.enqueue (.wake x (s.rt.since x))) (reply (s.request x)) s.rt).1 := by
    rw [heq]
    exact setAwaker_self
  have hothers : ∀ y, y ≠ x → (s.rt.wake x (reply (s.request x))).awakers y = s.rt.awakers y := by
    intro y hy
    rw [heq]
    exact setAwaker_of_ne hy
  generalize s.rt.wake x (reply (s.request x)) = r at hframes hstack halloc hq ha hothers ⊢
  refine ⟨h.evaluates.congr halloc (fun d => by rw [hframes]) (fun _ _ _ => rfl) rfl fun d hd => .inl hd,
    h.stands.change hi c (fun d _ hl => ?_) (fun d _ => by rw [hframes]) (fun _ _ _ _ => rfl)
      (fun _ _ => rfl) (fun d hd => ?_) (fun y d hd hl hpt' => ?_) (fun _ => ?_) (fun e d hm => ?_)
      fun d rest hst => ?_,
    h.family.congr halloc (fun d => by rw [hframes]) rfl fun e d hm => hstack ▸ hm⟩
  · rw [live_def, halloc, hframes] at hl
    exact hl
  · simp [hq, hd]
  · have hne : y ≠ x := by
      rintro rfl
      have hhandle := ((standing_awaker hpt').mp (h.stands.standing d hl)).1
      rw [hx, Option.some.injEq] at hhandle
      exact hd hhandle.symm
    exact ⟨hothers y hne, rfl⟩
  · refine (standing_awaker (x := x) (by rw [hframes, hpt])).mpr ⟨?_, hcode, fun _ => ?_⟩
    · rw [ha, AnyAwaker.handle_wake, hx]
    · rw [ha, AnyAwaker.awaitResume_wake]
  · exact h.stands.transform e d (hstack ▸ hm)
  · have hst' : s.rt.stack = .body d :: rest := hstack ▸ hst
    exact (h.stands.resumed d rest hst').congr rfl (by rw [hframes]) (fun _ _ => rfl)
      (fun _ _ _ _ => ⟨rfl, by rw [hframes]⟩) (Nat.le_of_eq halloc.symm)

omit [DecidableEq X] in
/-- Only the queue and the variable of the run loop change. -/
theorem idle (h : s.Sound reply) (hi : s.rt.Inv) {r : Runtime X V E} (hframes : r.frames = s.rt.frames)
    (hstack : r.stack = s.rt.stack) (halloc : r.allocated = s.rt.allocated) (hq : r.queued = s.rt.queued)
    (ha : r.awakers = s.rt.awakers) : Sound reply { s with rt := r } := by
  refine ⟨h.evaluates.congr halloc (fun d => by rw [hframes]) (fun _ _ _ => rfl) rfl fun d hd => .inl hd,
    h.stands.change hi s.rt.allocated (fun d _ hl => ?_) (fun d _ => by rw [hframes]) (fun _ _ _ _ => rfl)
      (fun _ _ => rfl) (fun d _ => by rw [hq]) (fun x d _ _ _ => ⟨by rw [ha], rfl⟩) (fun hl => ?_)
      (fun e d hm => h.stands.transform e d (hstack ▸ hm)) fun d rest hst => ?_,
    h.family.congr halloc (fun d => by rw [hframes]) rfl fun e d hm => hstack ▸ hm⟩
  · rw [live_def, halloc, hframes] at hl
    exact hl
  · exact absurd hl.1 (by rw [halloc]; exact Nat.lt_irrefl _)
  · exact (h.stands.resumed d rest (hstack ▸ hst)).congr rfl (by rw [hframes]) (fun _ _ => rfl)
      (fun _ _ _ _ => ⟨rfl, by rw [hframes]⟩) (Nat.le_of_eq halloc.symm)

omit [DecidableEq X] in
/-- The run loop resumes `c`. -/
theorem taken {s' : Program X Q V E} {cause : Cause X} {qs : List (Nat × Cause X)} (received : Received V E)
    (h : s.Sound reply) (hi : s.rt.Inv) (hqueued : s.rt.queued = (c, cause) :: qs)
    (hs' : s'.rt.stack = [.body c]) (halloc : s'.rt.allocated = s.rt.allocated)
    (hf : ∀ d, s'.rt.frames d = if d = c then { s.rt.frames c with point := .running, received }
      else s.rt.frames d) (hq : s'.rt.queued = qs)
    (ha : ∀ x, (s.rt.frames c).point ≠ .awaker x → s'.rt.awakers x = s.rt.awakers x)
    (hcode : s'.code = s.code) (hreq : s'.request = s.request) (hbody : s'.body = s.body)
    (hparent : s'.parent = s.parent) (hdel : s'.delivered = s.delivered)
    (hres : s'.Resumed reply c) : s'.Sound reply := by
  have hout : c ∉ qs.map Prod.fst := by
    have hn := hi.waits.nodup
    rw [hqueued, List.map_cons, List.nodup_cons] at hn
    exact hn.1
  refine ⟨h.evaluates.congr halloc (field_of_ite Frame.returned hf rfl) (fun d _ _ => by rw [hcode]) hbody
      fun d hd => .inl (hdel ▸ hd),
    h.stands.goOn hi hs' (fun e d hm => by cases hm) (fun d hd hl => ?_)
      (fun d hd => by rw [hf, if_neg hd]) (by rw [hf, if_pos rfl])
      hcode hbody (fun d hd => ?_) (fun x d hd hl hpt => ⟨ha x fun hpc => ?_, by rw [hreq]⟩) hres,
    h.family.congr halloc (field_of_ite Frame.caller hf rfl) hparent fun e d hm => ?_⟩
  · rw [live_def, halloc, hf, if_neg hd] at hl
    exact hl
  · simp [hq, hqueued, hd]
  · -- only one coroutine waits at an awaker
    have hd' := ((standing_awaker hpt).mp (h.stands.standing d hl)).1
    have hc := (hi.waits.ends (c, cause) (by rw [hqueued]; exact List.mem_cons_self)).1
    have hc' := ((standing_awaker hpc).mp (h.stands.standing c hc)).1
    rw [hd', Option.some.injEq] at hc'
    exact hd hc'
  · rw [hs', List.mem_singleton] at hm
    cases hm

theorem pass (h : s.Sound reply) (hi : s.rt.Inv) (hs : s.rt.stack = []) :
    Sound reply { s with rt := s.rt.pass } := by
  cases hq : s.rt.queued with
  | nil =>
    rw [(pass_idle hi.waits hq).1]
    exact h.idle hi rfl rfl rfl rfl rfl
  | cons q qs =>
    obtain ⟨c, cause⟩ := q
    obtain ⟨hc, he⟩ := hi.waits.ends (c, cause) (by rw [hq]; exact List.mem_cons_self)
    have hmem : c ∈ s.rt.queued.map Prod.fst := by simp [hq]
    have hstand := h.stands.standing c hc
    have hparked := he.parked
    rw [(pass_resume hi.waits hq).1]
    have hready : (s.rt.frames c).point = .initial ∨ (s.rt.frames c).point = .yield →
        Sound reply { s with rt := (s.rt.taken c cause qs).resume c } := by
      intro hpt
      have heq := resume_ready (r := s.rt.taken c cause qs) hc hpt
      refine h.taken .nothing hi hq (by simp [heq, hs])
        (by simp [heq]) (fun d => ?_) (by simp [heq]) (fun x _ => by simp [heq])
        rfl rfl rfl rfl rfl (.inl ((standing_ready hpt).mp hstand).1)
      simp only [heq, modify_apply, start_frames, taken_frames, if_true]
      split <;> rfl
    cases hpt : (s.rt.frames c).point with
    | initial => exact hready (.inl hpt)
    | yield => exact hready (.inr hpt)
    | awaker x =>
      obtain ⟨-, ⟨next, hcode⟩, hreply⟩ := (standing_awaker hpt).mp hstand
      have heq := resume_awaker (r := s.rt.taken c cause qs) hc hpt
      refine h.taken (.value (s.rt.awakers x).awaitResume.2) hi hq
        (by simp [heq, hs]) (by simp [heq]) (fun d => ?_)
        (by simp [heq]) (fun y hy => ?_) rfl rfl rfl rfl rfl (.inr ?_)
      · simp only [heq, modify_apply, start_frames, setAwaker_frames, taken_frames, taken_awakers, if_true]
        split <;> rfl
      · have hne : y ≠ x := by
          rintro rfl
          exact hy hpt
        simp [heq, setAwaker_of_ne hne]
      · have hrec : ((s.rt.taken c cause qs).resume c).frames c =
            { s.rt.frames c with point := .running, received := .value (s.rt.awakers x).awaitResume.2 } := by
          simp [heq]
        simp only [hrec]
        exact ⟨x, s.request x, next, hcode, hreply hmem⟩
    | child d => rw [hpt] at hparked; exact hparked.elim
    | running => rw [hpt] at hparked; exact hparked.elim
    | final => rw [hpt] at hparked; exact hparked.elim

/-! ## The running body goes on -/

omit [DecidableEq X] in
/-- A step of the running body that runs on, with code of the same meaning. -/
theorem advance {s' : Program X Q V E} {b : Body X Q V E} (received : Received V E) (h : s.Sound reply)
    (hi : s.rt.Inv) (hs : s.rt.stack = .body c :: rest) (hs' : s'.rt.stack = s.rt.stack)
    (halloc : s'.rt.allocated = s.rt.allocated)
    (hf : ∀ d, s'.rt.frames d = if d = c then { s.rt.frames c with received } else s.rt.frames d)
    (hq : s'.rt.queued = s.rt.queued) (ha : s'.rt.awakers = s.rt.awakers)
    (hcode : s'.code = Function.update s.code c (.start b))
    (heval : b.eval reply = (s.code c).body.eval reply) (hreq : s'.request = s.request)
    (hbody : s'.body = s.body) (hparent : s'.parent = s.parent)
    (hdel : ∀ d ∈ s'.delivered, d ∈ s.delivered ∨ d.Exact) : s'.Sound reply := by
  obtain ⟨hc, hrun⟩ := hi.calls.body_running hs
  refine ⟨h.evaluates.congr halloc (field_of_ite Frame.returned hf rfl) (fun d _ _ => ?_) hbody hdel,
    h.stands.change hi c (fun d hd hl => ?_) (fun d hd => by rw [hf, if_neg hd])
      (fun d hd _ _ => by rw [hcode, Function.update_of_ne hd])
      (fun _ _ => by rw [hbody]) (fun d _ => by rw [hq]) (fun x d _ _ _ => ⟨by rw [ha], by rw [hreq]⟩)
      (fun _ => standing_running (.inl ?_)) (fun e d hm => ?_) fun d rest' hst => ?_,
    h.family.congr halloc (field_of_ite Frame.caller hf rfl) hparent fun e d hm => hs' ▸ hm⟩
  · rw [hcode, Function.update_apply]
    split
    next heq => rw [heq, ← heval]; rfl
    · rfl
  · rw [live_def, halloc, hf, if_neg hd] at hl
    exact hl
  · rw [hf, if_pos rfl]
    exact hrun
  · have hm' : Activation.transform e d ∈ s.rt.stack := hs' ▸ hm
    have hne : e ≠ c := by
      rintro rfl
      rw [hs] at hm'
      have hm'' : Activation.transform e d ∈ rest := by simpa using hm'
      exact hi.calls.not_mem_rest hs (mem_frames (a := .transform e d) hm'')
    rw [hcode, Function.update_of_ne hne, hbody]
    exact h.stands.transform e d hm'
  · rw [hs', hs] at hst
    cases hst
    exact .inl ⟨b, by rw [hcode, Function.update_self]⟩

omit [DecidableEq X] in
/-- The value moved from the reference to a task that has suspended is the one it returned. -/
theorem move {d : Nat} (freed : V) (hi : s.rt.Inv) (hp : s.rt.Promises) (hs : s.rt.stack = .body c :: rest)
    (hr : (s.rt.frames c).received = .reference d) (hsus : (s.rt.frames d).suspensions ≠ 0) : ∃ v,
      (s.rt.frames d).returned = some (.ok v) ∧ (s.rt.move freed).frames = (s.rt.receive c (.value v)).frames := by
  obtain ⟨⟨v, hret, hres⟩, hcase⟩ := hp.reference c d rest hs hr
  have halive : s.rt.alive d = true := by
    rcases hcase with ⟨hnull, hlt, hdead⟩ | ⟨-, -, hfin⟩
    · exfalso
      rcases hp.destroyed d hlt with hd | ⟨-, -, hfinal⟩ | ⟨-, hne⟩
      · exact hdead ⟨hlt, hd⟩
      · exact hsus (hp.sync d hlt hnull (.inr hfinal))
      · exact hne hnull
    · exact ((hi.calls.running d).mp
        (by rw [hs]; exact List.mem_cons_of_mem _ (mem_frames hfin))).1.alive
  refine ⟨v, hret, ?_⟩
  rw [move_eq hs hr, halive, hres]
  rfl

omit [DecidableEq X] in
theorem awaits_inside {b body : Body X Q V E} (hawaits : Awaits (.inside b) body) :
    (∃ next handler, b = .task body next handler) ∨ ∃ next handler, b = .discard body next handler :=
  hawaits.imp (fun ⟨next, handler, heq⟩ => ⟨next, handler, by injection heq⟩)
    fun ⟨next, handler, heq⟩ => ⟨next, handler, by injection heq⟩

omit [DecidableEq X] in
theorem frames_self (d : Nat) : s.rt.frames d =
    if d = c then { s.rt.frames c with received := (s.rt.frames c).received } else s.rt.frames d := by
  split
  next heq => rw [heq]
  · rfl

omit [DecidableEq X] in
/-- The outcome of the task `d` is delivered, and the body goes on with code of the same meaning. -/
theorem deliver {b : Body X Q V E} {d : Nat} {outcome : Except E (Option V)} (h : s.Sound reply)
    (hi : s.rt.Inv) (hs : s.rt.stack = .body c :: rest)
    (heval : b.eval reply = (s.code c).body.eval reply)
    (hexact : Delivery.Exact ⟨outcome, (s.rt.frames d).returned⟩) :
    Sound reply (s.deliver c d outcome b) := by
  exact h.advance (s.rt.frames c).received hi hs rfl rfl frames_self rfl rfl rfl heval rfl rfl rfl
    (List.forall_mem_append.mpr ⟨fun e => .inl, by simpa using .inr hexact⟩)

omit [DecidableEq X] in
/-- The body goes on with the value of the task `d`, or without it. -/
theorem goOn_reference {b : Body X Q V E} {d : Nat} {freed : V} (h : s.Sound reply) (hi : s.rt.Inv)
    (hp : s.rt.Promises) (hs : s.rt.stack = .body c :: rest) (hcode : s.code c = .inside b)
    (hr : (s.rt.frames c).received = .reference d) (hawaits : Awaits (.inside b) (s.body d))
    (hsafe : ∀ body next handler, b = .task body next handler → (s.rt.frames d).suspensions ≠ 0) :
    Sound reply (s.goOn c b freed) := by
  obtain ⟨⟨v, hret, -⟩, -⟩ := hp.reference c d rest hs hr
  have heval := h.evaluates.outcome d (.ok v) (hp.referred_lt hi hs hr) hret
  rcases awaits_inside hawaits with ⟨next, handler, rfl⟩ | ⟨next, handler, rfl⟩
  · obtain ⟨w, hw, hframes⟩ := move freed hi hp hs hr (hsafe _ _ _ rfl)
    obtain rfl : v = w := by
      rw [hret] at hw
      injection hw with hw
      injection hw
    have hrec : ((s.rt.move freed).frames c).received = .value v := by rw [hframes, modify_self]
    have hgo : s.goOn c (.task (s.body d) next handler) freed =
        { s.deliver c d (.ok (some v)) (next v) with rt := s.rt.move freed } := by
      simp only [Program.goOn, hr, hrec]
    have hmove : s.rt.move freed = _ := move_eq hs hr
    rw [hgo]
    refine h.advance (.value v) hi hs (by simp [hmove]) (by simp [hmove]) (fun e => ?_)
      (by simp [hmove]) (by simp [hmove]) rfl ?_ rfl rfl rfl
      (List.forall_mem_append.mpr ⟨fun e => .inl, by simpa using .inr hret⟩)
    · rw [hframes]
      exact modify_apply
    · rw [hcode]
      simp only [Code.body, Body.eval, heval]
  · have hgo : s.goOn c (.discard (s.body d) next handler) freed = s.deliver c d (.ok none) next := by
      simp only [Program.goOn, hr]
    rw [hgo]
    refine h.deliver hi hs ?_ ⟨v, hret⟩
    rw [hcode]
    simp only [Code.body, Body.eval, heval]

omit [DecidableEq X] in
/-- The exception of the task `d` is rethrown. -/
theorem goOn_exception {b : Body X Q V E} {d : Nat} {e : E} {freed : V} (h : s.Sound reply) (hi : s.rt.Inv)
    (hs : s.rt.stack = .body c :: rest) (hcode : s.code c = .inside b)
    (hr : (s.rt.frames c).received = .exception d e) (hawaits : Awaits (.inside b) (s.body d))
    (hd : d < s.rt.allocated) (hret : (s.rt.frames d).returned = some (.error e)) :
    Sound reply (s.goOn c b freed) := by
  have heval := h.evaluates.outcome d (.error e) hd hret
  have hthrown : ∃ handler : E → Body X Q V E, b.eval reply = (handler e).eval reply ∧
      s.goOn c b freed = s.deliver c d (.error e) (handler e) := by
    rcases awaits_inside hawaits with ⟨next, handler, rfl⟩ | ⟨next, handler, rfl⟩
    · exact ⟨handler, by simp only [Body.eval, heval], by simp only [Program.goOn, hr]⟩
    · exact ⟨handler, by simp only [Body.eval, heval], by simp only [Program.goOn, hr]⟩
  obtain ⟨handler, hb, hgo⟩ := hthrown
  rw [hgo]
  refine h.deliver hi hs ?_ hret
  rw [hcode]
  exact hb.symm

omit [DecidableEq X] in
theorem goOn {b : Body X Q V E} {freed : V} (h : s.Sound reply) (hi : s.rt.Inv) (hp : s.rt.Promises)
    (hs : s.rt.stack = .body c :: rest) (hcode : s.code c = .inside b)
    (hsafe : ∀ body next handler d, b = .task body next handler →
      (s.rt.frames c).received = .reference d → (s.rt.frames d).suspensions ≠ 0) :
    Sound reply (s.goOn c b freed) := by
  have hres : s.Resumed reply c := h.stands.resumed c rest hs
  unfold Resumed at hres
  rw [hcode] at hres
  replace hres := hres.resolve_left (by rintro ⟨b, hb⟩; cases hb)
  cases hr : (s.rt.frames c).received with
  | nothing =>
    rw [hr] at hres
    exact hres.elim
  | value v =>
    rw [hr] at hres
    obtain ⟨x, q, next, heq, rfl⟩ := hres
    obtain rfl : b = .awaker x q next := by injection heq
    have hgo : s.goOn c (.awaker x q next) freed = s.setCode c (.start (next (reply q))) := by
      simp only [Program.goOn, hr]
    rw [hgo]
    refine h.advance (s.rt.frames c).received hi hs rfl rfl frames_self rfl rfl rfl ?_ rfl rfl rfl
      fun d => .inl
    rw [hcode]
    rfl
  | reference d =>
    rw [hr] at hres
    exact h.goOn_reference hi hp hs hcode hr hres fun body next handler hb => hsafe body next handler d hb hr
  | exception d e =>
    rw [hr] at hres
    obtain ⟨hawaits, hd, hret⟩ := hres
    exact h.goOn_exception hi hs hcode hr hawaits hd hret

end Sound

end Sqkio.Program
