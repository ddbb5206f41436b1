import Sqkio.Core.Adequacy

/-!
# A program ends as its nested calls do

Every step of a program is an act of the runtime or none, so `Inv` and `Promises` hold along
its runs, and with them `Sound`.  In a state where nothing is left to run or to wait for, a task
that is not gone would wait for a task made after it, which is not gone either; so all are gone.

The condition is that of `Runtime.Suspends`: a task whose value is used has suspended.
-/

namespace Sqkio.Program

open Sqkio.Lib Sqkio.Runtime

variable {X Q V E : Type}

/-- The task whose value the running body is about to use. -/
def used (s : Program X Q V E) : Option Nat :=
  match s.rt.stack with
  | .body c :: _ =>
    match s.code c with
    | .inside (.task _ _ _) => s.rt.referred
    | _ => none
  | _ => none

/-- A task whose value is used has suspended. -/
def Safe (s : Program X Q V E) : Step X Q V E → Prop
  | .run _ => ∀ d, s.used = some d → (s.rt.frames d).suspensions ≠ 0
  | _ => True

instance : (s : Program X Q V E) → (a : Step X Q V E) → Decidable (s.Safe a)
  | s, .run _ =>
    match h : s.used with
    | some d => decidable_of_iff ((s.rt.frames d).suspensions ≠ 0) (by simp [Safe, h])
    | none => isTrue (by simp [Safe, h])
  | _, .enqueue _ | _, .wake _ | _, .pass | _, .back => isTrue trivial

/-- The queue is empty, no body runs, and nobody waits for an awaker to be woken. -/
structure Quiescent (s : Program X Q V E) : Prop where
  stack : s.rt.stack = []
  queue : s.rt.sched.waiting = []
  awakers : ∀ x, ¬ s.Waiting x

/-- Who is to destroy the frame of `c`: the `await_resume` of its parent if it never suspended. -/
def destroyer (s : Program X Q V E) (c : Nat) : Destroyer :=
  if s.parent c ≠ none ∧ (s.rt.frames c).suspensions = 0 then .awaitResume else .pastFinal

/-- Each `co_await` delivered what the task had stored, tasks end as nested calls do, and in the
end each frame has been destroyed once. -/
structure Correct (reply : Q → V) (s : Program X Q V E) : Prop where
  delivered : ∀ d ∈ s.delivered, d.Exact
  outcome : ∀ c o, c < s.rt.allocated → (s.rt.frames c).returned = some o →
    (s.body c).eval reply = o
  ended : s.Quiescent → ∀ c, c < s.rt.allocated →
    (s.rt.frames c).returned = some ((s.body c).eval reply) ∧
      (s.rt.frames c).destroyed = [s.destroyer c]

variable {reply : Q → V} {s : Program X Q V E} {c : Nat}

/-! ## Steps and acts -/

section

variable [DecidableEq X] [Inhabited V]

theorem next_start {b : Body X Q V E} {rest : List Activation} {freed : V}
    (hs : s.rt.stack = .body c :: rest) (hcode : s.code c = .start b) :
    s.next reply (.run freed) = s.exec c b := by
  simp only [Program.next, hs, hcode]

theorem next_inside {b : Body X Q V E} {rest : List Activation} {freed : V}
    (hs : s.rt.stack = .body c :: rest) (hcode : s.code c = .inside b) :
    s.next reply (.run freed) = s.goOn c b freed := by
  simp only [Program.next, hs, hcode]

/-- The step leaves the runtime as it is, or is one of its acts. -/
theorem next_rt (reply : Q → V) {a : Step X Q V E} (he : s.Enabled a) : (s.next reply a).rt = s.rt ∨
    ∃ act, s.rt.Enabled act ∧ s.rt.Proper act ∧ (s.next reply a).rt = s.rt.next act := by
  cases a with
  | enqueue b => exact .inr ⟨.enqueueTask, he.1, trivial, rfl⟩
  | wake x =>
    obtain ⟨d, hd, hout⟩ := he.2.2
    refine .inr ⟨.wake x (reply (s.request x)), he.1, fun c hc => ?_, rfl⟩
    rw [hd, Option.some.injEq] at hc
    exact hc ▸ hout
  | pass => exact .inr ⟨.pass, he, trivial, rfl⟩
  | back => exact .inr ⟨.back, he, trivial, rfl⟩
  | run freed =>
    obtain ⟨hb, -⟩ := he
    obtain ⟨c, rest, hs⟩ := hb
    have hb : s.rt.InBody := ⟨c, rest, hs⟩
    cases hcode : s.code c with
    | start b =>
      rw [next_start hs hcode]
      cases b with
      | coReturn v => exact .inr ⟨.coReturn v, hb, trivial, rfl⟩
      | throws e => exact .inr ⟨.throws e, hb, trivial, rfl⟩
      | coYield next => exact .inr ⟨.coYield, hb, trivial, rfl⟩
      | awaker x q next => exact .inr ⟨.coAwait x, hb, trivial, rfl⟩
      | task body next handler => exact .inr ⟨.coAwaitTask, hb, trivial, rfl⟩
      | discard body next handler => exact .inr ⟨.coAwaitTask, hb, trivial, rfl⟩
    | inside b =>
      rw [next_inside hs hcode]
      unfold Program.goOn
      split
      next => exact .inl rfl
      next next handler d hr =>
        dsimp only
        split
        · refine .inr ⟨.move freed, ?_, trivial, rfl⟩
          simp [Runtime.Enabled, referred, hs, hr]
        · exact .inl rfl
      next => exact .inl rfl
      next => exact .inl rfl
      next => exact .inl rfl
      next => exact .inl rfl

theorem Sound.next {a : Step X Q V E} (h : s.Sound reply) (hi : s.rt.Inv) (hp : s.rt.Promises)
    (he : s.Enabled a) (hsafe : s.Safe a) : Sound reply (s.next reply a) := by
  cases a with
  | enqueue b => exact h.enqueueTask hi hp he.2
  | wake x => exact h.wake hi he.2.1 he.2.2
  | pass => exact h.pass hi he
  | back => exact h.back hi hp he.1 he.2
  | run freed =>
    obtain ⟨⟨c, rest, hs⟩, hen⟩ := he
    obtain ⟨hroom, hfree⟩ := hen c rest hs
    cases hcode : s.code c with
    | start b =>
      rw [next_start hs hcode]
      cases b with
      | coReturn v => exact h.leave hi hp hs (by rw [hcode]; rfl)
      | throws e => exact h.leave hi hp hs (by rw [hcode]; rfl)
      | coYield next => exact h.coYield hi hs hcode (hroom next hcode)
      | awaker x q next => exact h.coAwait hi hs hcode (hfree x q next hcode)
      | task body next handler => exact h.coAwaitTask hi hs hcode (.inl ⟨next, handler, rfl⟩)
      | discard body next handler => exact h.coAwaitTask hi hs hcode (.inr ⟨next, handler, rfl⟩)
    | inside b =>
      rw [next_inside hs hcode]
      refine h.goOn hi hp hs hcode fun body next handler d hb hr => hsafe d ?_
      subst hb
      simp only [used, hs, hcode, referred, hr]

end

theorem Sound.of_init (h : s.rt.Init) (hdel : s.delivered = []) : s.Sound reply := by
  have hnone : ∀ c, ¬ c < s.rt.allocated := by
    intro c
    rw [h.allocated]
    exact Nat.not_lt_zero c
  refine ⟨⟨fun c hc => absurd hc (hnone c), fun c _ hc => absurd hc (hnone c), ?_⟩,
    ⟨fun c hc => absurd hc.1 (hnone c), ?_, ?_⟩,
    ⟨fun c hc => absurd hc (hnone c), fun c _ hc => absurd hc (hnone c), ?_,
      fun c _ hc => absurd hc (hnone c)⟩⟩
  · rw [hdel]
    nofun
  · rw [h.stack]
    nofun
  · rw [h.stack]
    nofun
  · rw [h.stack]
    nofun

/-! ## The end -/

/-- A task that is left when nothing runs awaits a task made after it. -/
theorem Sound.child_of_quiescent (h : s.Sound reply) (hi : s.rt.Inv) (hq : s.Quiescent)
    (hc : s.rt.Live c) : ∃ d, c < d ∧ s.rt.Live d := by
  have hstand := h.stands.standing c hc
  have hempty : c ∉ s.rt.queued.map Prod.fst := by
    rw [← hi.waits.waiting_eq, hq.queue]
    nofun
  have hrun : (s.rt.frames c).point ≠ .running := by
    intro hrun
    have hm := (hi.calls.running c).mpr ⟨hc, hrun⟩
    rw [hq.stack] at hm
    cases hm
  cases hpt : (s.rt.frames c).point with
  | initial => exact absurd ((standing_ready (.inl hpt)).mp hstand).2 hempty
  | yield => exact absurd ((standing_ready (.inr hpt)).mp hstand).2 hempty
  | awaker x =>
    refine absurd ⟨c, ((standing_awaker hpt).mp hstand).1, ?_⟩ (hq.awakers x)
    rw [hq.queue]
    exact List.not_mem_nil
  | child d =>
    obtain ⟨hd, hcaller, -⟩ := hi.calls.child c d hc hpt
    exact ⟨d, h.family.older d c hd.1 (h.family.caller d c hd.1 hcaller), hd⟩
  | running => exact absurd hpt hrun
  | final =>
    obtain ⟨p, rest, hs⟩ := hi.calls.final c hc hpt
    rw [hq.stack] at hs
    cases hs

theorem Sound.not_live (h : s.Sound reply) (hi : s.rt.Inv) (hq : s.Quiescent) : ¬ s.rt.Live c := by
  intro hc
  -- the tasks awaited get ever younger, but there are only so many
  induction hn : s.rt.allocated - c using Nat.strongRecOn generalizing c with
  | ind n ih =>
    obtain ⟨d, hlt, hd⟩ := h.child_of_quiescent hi hq hc
    have := hd.1
    exact ih (s.rt.allocated - d) (by omega) hd rfl

theorem Sound.correct (h : s.Sound reply) (hi : s.rt.Inv) (hp : s.rt.Promises) : s.Correct reply := by
  refine ⟨h.evaluates.delivered, h.evaluates.outcome, fun hq c hc => ?_⟩
  have hdead : (s.rt.frames c).destroyed ≠ [] := fun hd => h.not_live hi hq ⟨hc, hd⟩
  obtain ⟨o, ho⟩ := Option.ne_none_iff_exists'.mp (hp.gone c hc hdead)
  refine ⟨by rw [ho, h.evaluates.outcome c o hc ho], ?_⟩
  have hnoop := h.family.noop c hc
  unfold destroyer
  rcases hp.destroyed c hc with hd | ⟨hd, hnull, hfinal⟩ | ⟨hd, hne⟩
  · exact absurd hd hdead
  · have hparent : s.parent c ≠ none := by
      rw [ne_eq, ← hnoop, hnull]
      nofun
    rw [hd, if_pos ⟨hparent, hp.sync c hc hnull (.inr hfinal)⟩]
  · rw [hd, if_neg]
    rintro ⟨hparent, hsus⟩
    cases hcaller : (s.rt.frames c).caller with
    | null => exact hne hcaller
    | noop => exact hparent (hnoop.mp hcaller)
    | frame p => exact hp.caller c p hc hcaller hsus

/-! ## Every run -/

variable [DecidableEq X] [Inhabited V]

/-- In every run in which each task whose value is used has suspended, the `co_await`s deliver
what the tasks stored, each task ends as its body does as a nested call, and when nothing is
left to run or to be woken, each frame has been destroyed once, by the one it is left to. -/
theorem correct_of_safe (h : ((machine reply).restrict Safe).Reachable s) : s.Correct reply := by
  have hrule := @Machine.Reachable.inv _ _ ((machine reply).restrict Safe)
    (fun s : Program X Q V E => s.Sound reply ∧ s.rt.Inv ∧ s.rt.Promises)
  obtain ⟨hsound, hi, hp⟩ := hrule
    (fun s hs => ⟨.of_init hs.1 hs.2, hs.1.inv, .of_init hs.1⟩)
    (fun s a _ ⟨hsound, hi, hp⟩ he => by
      refine ⟨hsound.next hi hp he.1 he.2, ?_⟩
      rcases next_rt reply he.1 with heq | ⟨act, hen, hproper, heq⟩
      · exact ⟨heq ▸ hi, heq ▸ hp⟩
      · exact ⟨heq ▸ hi.next hen hproper, heq ▸ hp.next hi hen⟩) h
  exact hsound.correct hi hp

/-! ## A task that returns 5 -/

/-- Nothing has been enqueued yet. -/
def idle : Program Unit Unit Nat Unit where
  rt := Runtime.idle Nat Unit
  code _ := .start (.coReturn 0)
  request _ := ()
  body _ := .coReturn 0
  parent _ := none
  delivered := []

/-- The parent returns the value of the child, which waits for an awaker first. -/
theorem correct_of_safe_waiting :
    let s := (machine fun _ => 5).runList idle
      [.enqueue (.task (.awaker () () .coReturn) .coReturn .throws), .pass, .run 0, .run 0, .back,
        .wake (), .pass, .run 0, .run 0, .run 0, .run 0, .back]
    s.Quiescent ∧ s.Correct fun _ => 5 := by
  have h0 : ((machine fun _ => 5).restrict Safe).init idle := ⟨idle_init Nat Unit, rfl⟩
  refine ⟨⟨by decide +kernel, by decide +kernel, by decide +kernel⟩, ?_⟩
  exact correct_of_safe (Machine.Reachable.runList (.init h0) (by decide +kernel))

/-- The child returns 5 inside `await_transform`, and the parent returns what it finds in the
memory that its `await_resume` has freed. -/
theorem delivers_freed : ∃ s : Program Unit Unit Nat Unit, (machine fun _ => 5).init s ∧
    (machine fun _ => 5).AllEnabled s [.enqueue (.task (.coReturn 5) .coReturn .throws), .pass, .run 0,
      .run 0, .back, .run 0, .run 0] ∧
    let s' := (machine fun _ => 5).runList s [.enqueue (.task (.coReturn 5) .coReturn .throws), .pass,
      .run 0, .run 0, .back, .run 0, .run 0]
    s'.delivered = [⟨.ok (some 0), some (.ok 5)⟩] ∧ (s'.rt.frames 0).returned = some (.ok 0) ∧
      (s'.body 0).eval (fun _ => 5) = .ok 5 ∧ ¬ s'.Correct fun _ => 5 := by
  refine ⟨idle, ⟨idle_init Nat Unit, rfl⟩, by decide +kernel, ?_⟩
  have hdel : ((machine fun _ => 5).runList idle [.enqueue (.task (.coReturn 5) .coReturn .throws), .pass,
      .run 0, .run 0, .back, .run 0, .run 0]).delivered = [⟨.ok (some 0), some (.ok 5)⟩] := by
    decide +kernel
  refine ⟨hdel, by decide +kernel, by decide +kernel, fun h => ?_⟩
  have hexact := h.delivered ⟨.ok (some 0), some (.ok 5)⟩ (by rw [hdel]; exact List.mem_cons_self)
  cases hexact

end Sqkio.Program
