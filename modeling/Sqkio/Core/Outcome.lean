import Sqkio.Core.Program

/-!
# Where the tasks of a program stand

`Sound` relates a running program to `eval`.  What is left of each task evaluates to what its
whole body does (`Evaluates`), every task waits for what the `co_await` in its code says
(`Stands`), and the callers are the tasks that await (`Family`).

Each part has one rule for the steps that leave it as it is and one for each way to change it.
-/

namespace Sqkio.Program

open Sqkio.Lib Sqkio.Runtime

variable {X Q V E : Type}

/-- The code is in a `co_await` of a task whose body is `b`. -/
def Awaits (code : Code X Q V E) (b : Body X Q V E) : Prop :=
  (∃ next handler, code = .inside (.task b next handler)) ∨
    ∃ next handler, code = .inside (.discard b next handler)

/-- What `c` is suspended for is what its code waits for, and what will resume it is there. -/
def Standing (reply : Q → V) (s : Program X Q V E) (c : Nat) : Prop :=
  match (s.rt.frames c).point with
  | .initial | .yield => (∃ b, s.code c = .start b) ∧ c ∈ s.rt.queued.map Prod.fst
  | .awaker x => (s.rt.awakers x).handle = some c ∧
      (∃ next, s.code c = .inside (.awaker x (s.request x) next)) ∧
      (c ∈ s.rt.queued.map Prod.fst → (s.rt.awakers x).awaitResume.2 = reply (s.request x))
  | .child d => Awaits (s.code c) (s.body d)
  | .running | .final => True

/-- The running body `c` got from its last `co_await` what its code goes on with. -/
def Resumed (reply : Q → V) (s : Program X Q V E) (c : Nat) : Prop :=
  (∃ b, s.code c = .start b) ∨
    match (s.rt.frames c).received with
    | .nothing => False
    | .value v => ∃ x q next, s.code c = .inside (.awaker x q next) ∧ v = reply q
    | .reference d => Awaits (s.code c) (s.body d)
    | .exception d e => Awaits (s.code c) (s.body d) ∧ d < s.rt.allocated ∧
        (s.rt.frames d).returned = some (.error e)

structure Stands (reply : Q → V) (s : Program X Q V E) : Prop where
  standing : ∀ c, s.rt.Live c → s.Standing reply c
  transform : ∀ c d, .transform c d ∈ s.rt.stack → Awaits (s.code c) (s.body d)
  resumed : ∀ c rest, s.rt.stack = .body c :: rest → s.Resumed reply c

structure Evaluates (reply : Q → V) (s : Program X Q V E) : Prop where
  eval : ∀ c, c < s.rt.allocated → (s.rt.frames c).returned = none →
    (s.code c).body.eval reply = (s.body c).eval reply
  outcome : ∀ c o, c < s.rt.allocated → (s.rt.frames c).returned = some o →
    (s.body c).eval reply = o
  delivered : ∀ d ∈ s.delivered, d.Exact

structure Family (s : Program X Q V E) : Prop where
  noop : ∀ c, c < s.rt.allocated → ((s.rt.frames c).caller = .noop ↔ s.parent c = none)
  caller : ∀ c p, c < s.rt.allocated → (s.rt.frames c).caller = .frame p → s.parent c = some p
  transform : ∀ p c, .transform p c ∈ s.rt.stack → s.parent c = some p
  older : ∀ c p, c < s.rt.allocated → s.parent c = some p → p < c

structure Sound (reply : Q → V) (s : Program X Q V E) : Prop where
  evaluates : s.Evaluates reply
  stands : s.Stands reply
  family : s.Family

variable {reply : Q → V} {s s' : Program X Q V E} {c p : Nat} {rest : List Activation}

/-! ## Evaluation -/

namespace Evaluates

/-- A step that ends no body and keeps the meaning of what is left of each. -/
theorem congr (h : s.Evaluates reply) (halloc : s'.rt.allocated = s.rt.allocated)
    (hret : ∀ d, (s'.rt.frames d).returned = (s.rt.frames d).returned)
    (hcode : ∀ d, d < s.rt.allocated → (s.rt.frames d).returned = none →
      (s'.code d).body.eval reply = (s.code d).body.eval reply)
    (hbody : s'.body = s.body) (hdel : ∀ d ∈ s'.delivered, d ∈ s.delivered ∨ d.Exact) :
    s'.Evaluates reply := by
  constructor
  case eval =>
    intro d hd hnone
    rw [halloc] at hd
    rw [hret] at hnone
    rw [hcode d hd hnone, hbody]
    exact h.eval d hd hnone
  case outcome =>
    intro d o hd ho
    rw [halloc] at hd
    rw [hret] at ho
    rw [hbody]
    exact h.outcome d o hd ho
  case delivered =>
    intro d hd
    rcases hdel d hd with hd | hexact
    · exact h.delivered d hd
    · exact hexact

/-- The body of `c` ends with what is left of it. -/
theorem leave {o : Except E V} (h : s.Evaluates reply) (ho : (s.code c).body.eval reply = o)
    (hc : c < s.rt.allocated) (hnone : (s.rt.frames c).returned = none)
    (halloc : s'.rt.allocated = s.rt.allocated)
    (hret : ∀ d, (s'.rt.frames d).returned = if d = c then some o else (s.rt.frames d).returned)
    (hcode : s'.code = s.code) (hbody : s'.body = s.body) (hdel : s'.delivered = s.delivered) :
    s'.Evaluates reply := by
  constructor
  case eval =>
    intro d hd hd'
    rw [halloc] at hd
    rw [hret] at hd'
    rw [hcode, hbody]
    split at hd'
    · cases hd'
    · exact h.eval d hd hd'
  case outcome =>
    intro d o' hd hd'
    rw [halloc] at hd
    rw [hret] at hd'
    rw [hbody]
    split at hd'
    next heq =>
      cases hd'
      rw [heq, ← h.eval c hc hnone]
      exact ho
    · exact h.outcome d o' hd hd'
  case delivered => exact hdel ▸ h.delivered

/-- A new task is given its body; the code of the others keeps its meaning. -/
theorem spawn {b : Body X Q V E} (h : s.Evaluates reply)
    (halloc : s'.rt.allocated = s.rt.allocated + 1)
    (hret : ∀ d, (s'.rt.frames d).returned =
      if d = s.rt.allocated then none else (s.rt.frames d).returned)
    (hcode : ∀ d, d < s.rt.allocated →
      (s'.code d).body.eval reply = (s.code d).body.eval reply)
    (hnew : s'.code s.rt.allocated = .start b)
    (hbody : s'.body = Function.update s.body s.rt.allocated b)
    (hdel : s'.delivered = s.delivered) : s'.Evaluates reply := by
  have hold : ∀ d, d < s.rt.allocated → d ≠ s.rt.allocated := fun d hd => Nat.ne_of_lt hd
  constructor
  case eval =>
    intro d hd hd'
    rw [halloc] at hd
    rw [hret] at hd'
    rw [hbody, Function.update_apply]
    split at hd'
    next heq =>
      rw [if_pos heq, heq, hnew]
      rfl
    next hne =>
      have hlt : d < s.rt.allocated := by omega
      rw [if_neg hne, hcode d hlt]
      exact h.eval d hlt hd'
  case outcome =>
    intro d o hd hd'
    rw [halloc] at hd
    rw [hret] at hd'
    rw [hbody, Function.update_apply]
    split at hd'
    · cases hd'
    next hne =>
      rw [if_neg hne]
      exact h.outcome d o (by omega) hd'
  case delivered => exact hdel ▸ h.delivered

end Evaluates

/-! ## Callers and parents -/

namespace Family

theorem congr (h : s.Family) (halloc : s'.rt.allocated = s.rt.allocated)
    (hcaller : ∀ d, (s'.rt.frames d).caller = (s.rt.frames d).caller)
    (hparent : s'.parent = s.parent)
    (htransform : ∀ p c, .transform p c ∈ s'.rt.stack → .transform p c ∈ s.rt.stack) :
    s'.Family := by
  constructor
  case noop =>
    intro d hd
    rw [hcaller, hparent]
    exact h.noop d (halloc ▸ hd)
  case caller =>
    intro d p hd hp
    rw [hcaller] at hp
    rw [hparent]
    exact h.caller d p (halloc ▸ hd) hp
  case transform =>
    intro p d hm
    rw [hparent]
    exact h.transform p d (htransform p d hm)
  case older =>
    intro d p hd hp
    rw [hparent] at hp
    exact h.older d p (halloc ▸ hd) hp

/-- The task called by `await_transform` of `p` has suspended, and is given its caller. -/
theorem suspended (h : s.Family) (hs : s.rt.stack = .transform p c :: rest)
    (hs' : s'.rt.stack = rest) (halloc : s'.rt.allocated = s.rt.allocated)
    (hcaller : ∀ d, (s'.rt.frames d).caller = if d = c then .frame p else (s.rt.frames d).caller)
    (hparent : s'.parent = s.parent) : s'.Family := by
  have hpc : s.parent c = some p := h.transform p c (by rw [hs]; exact List.mem_cons_self)
  constructor
  case noop =>
    intro d hd
    rw [hcaller, hparent]
    split
    next heq =>
      rw [heq, hpc]
      exact iff_of_false (by nofun) (by nofun)
    · exact h.noop d (halloc ▸ hd)
  case caller =>
    intro d q hd hq
    rw [hcaller] at hq
    rw [hparent]
    split at hq
    next heq =>
      cases hq
      rw [heq, hpc]
    · exact h.caller d q (halloc ▸ hd) hq
  case transform =>
    intro q d hm
    rw [hs'] at hm
    rw [hparent]
    exact h.transform q d (by rw [hs]; exact List.mem_cons_of_mem _ hm)
  case older =>
    intro d q hd hq
    rw [hparent] at hq
    exact h.older d q (halloc ▸ hd) hq

/-- A new task has no parent and the noop coroutine for a caller, or is called by its parent. -/
theorem spawn (h : s.Family) (caller : Caller Nat) (parent : Option Nat)
    (halloc : s'.rt.allocated = s.rt.allocated + 1)
    (hcaller : ∀ d, (s'.rt.frames d).caller =
      if d = s.rt.allocated then caller else (s.rt.frames d).caller)
    (hparent : s'.parent = Function.update s.parent s.rt.allocated parent)
    (hnew : (caller = .noop ∧ parent = none) ∨
      (caller = .null ∧ ∃ p, parent = some p ∧ p < s.rt.allocated))
    (htransform : ∀ q d, .transform q d ∈ s'.rt.stack →
      (d = s.rt.allocated ∧ parent = some q) ∨ (d < s.rt.allocated ∧ .transform q d ∈ s.rt.stack)) :
    s'.Family := by
  have hbelow : ∀ d, d < s'.rt.allocated → d ≠ s.rt.allocated → d < s.rt.allocated := by omega
  constructor
  case noop =>
    intro d hd
    rw [hcaller, hparent, Function.update_apply]
    split
    · rcases hnew with ⟨rfl, rfl⟩ | ⟨rfl, p, rfl, -⟩
      · exact iff_of_true rfl rfl
      · exact iff_of_false (by nofun) (by nofun)
    next hne => exact h.noop d (hbelow d hd hne)
  case caller =>
    intro d q hd hq
    rw [hcaller] at hq
    rw [hparent, Function.update_apply]
    split at hq
    · rcases hnew with ⟨rfl, -⟩ | ⟨rfl, -⟩ <;> cases hq
    next hne =>
      rw [if_neg hne]
      exact h.caller d q (hbelow d hd hne) hq
  case transform =>
    intro q d hm
    rw [hparent, Function.update_apply]
    rcases htransform q d hm with ⟨heq, hq⟩ | ⟨hlt, hm'⟩
    · rw [if_pos heq, hq]
    · rw [if_neg (Nat.ne_of_lt hlt)]
      exact h.transform q d hm'
  case older =>
    intro d q hd hq
    rw [hparent, Function.update_apply] at hq
    split at hq
    next heq =>
      rcases hnew with ⟨-, rfl⟩ | ⟨-, p, rfl, hlt⟩
      · cases hq
      · cases hq
        rw [heq]
        exact hlt
    next hne => exact h.older d q (hbelow d hd hne) hq

end Family

/-! ## Where the tasks stand -/

theorem standing_ready (hpt : (s.rt.frames c).point = .initial ∨ (s.rt.frames c).point = .yield) :
    s.Standing reply c ↔ (∃ b, s.code c = .start b) ∧ c ∈ s.rt.queued.map Prod.fst := by
  unfold Standing
  rcases hpt with hpt | hpt <;> rw [hpt]

theorem standing_awaker {x : X} (hpt : (s.rt.frames c).point = .awaker x) :
    s.Standing reply c ↔ (s.rt.awakers x).handle = some c ∧
      (∃ next, s.code c = .inside (.awaker x (s.request x) next)) ∧
      (c ∈ s.rt.queued.map Prod.fst → (s.rt.awakers x).awaitResume.2 = reply (s.request x)) := by
  unfold Standing
  rw [hpt]

theorem standing_child {d : Nat} (hpt : (s.rt.frames c).point = .child d) :
    s.Standing reply c ↔ Awaits (s.code c) (s.body d) := by
  unfold Standing
  rw [hpt]

theorem standing_running (hpt : (s.rt.frames c).point = .running ∨ (s.rt.frames c).point = .final) :
    s.Standing reply c := by
  unfold Standing
  rcases hpt with hpt | hpt <;> rw [hpt] <;> trivial

/-- Nothing that `c` is suspended for has changed. -/
theorem Standing.congr (h : s.Standing reply c)
    (hpoint : (s'.rt.frames c).point = (s.rt.frames c).point)
    (hcode : (s.rt.frames c).point ≠ .running → s'.code c = s.code c)
    (hbody : ∀ d, (s.rt.frames c).point = .child d → s'.body d = s.body d)
    (hq : c ∈ s'.rt.queued.map Prod.fst ↔ c ∈ s.rt.queued.map Prod.fst)
    (hx : ∀ x, (s.rt.frames c).point = .awaker x →
      s'.rt.awakers x = s.rt.awakers x ∧ s'.request x = s.request x) : s'.Standing reply c := by
  cases hpt : (s.rt.frames c).point with
  | initial =>
    rw [standing_ready (.inl (hpoint.trans hpt)), hcode (by rw [hpt]; nofun), hq]
    exact (standing_ready (.inl hpt)).mp h
  | yield =>
    rw [standing_ready (.inr (hpoint.trans hpt)), hcode (by rw [hpt]; nofun), hq]
    exact (standing_ready (.inr hpt)).mp h
  | awaker x =>
    obtain ⟨ha, hr⟩ := hx x hpt
    rw [standing_awaker (hpoint.trans hpt), hcode (by rw [hpt]; nofun), hq, ha, hr]
    exact (standing_awaker hpt).mp h
  | child d =>
    rw [standing_child (hpoint.trans hpt), hcode (by rw [hpt]; nofun), hbody d hpt]
    exact (standing_child hpt).mp h
  | running => exact standing_running (.inl (hpoint.trans hpt))
  | final => exact standing_running (.inr (hpoint.trans hpt))

/-- The running body has what it had. -/
theorem Resumed.congr (h : s.Resumed reply c) (hcode : s'.code c = s.code c)
    (hrec : (s'.rt.frames c).received = (s.rt.frames c).received)
    (hbody : ∀ d, (s.rt.frames c).received = .reference d → s'.body d = s.body d)
    (hexc : ∀ d e, (s.rt.frames c).received = .exception d e → d < s.rt.allocated →
      s'.body d = s.body d ∧ (s'.rt.frames d).returned = (s.rt.frames d).returned)
    (halloc : s.rt.allocated ≤ s'.rt.allocated) : s'.Resumed reply c := by
  unfold Resumed at *
  rw [hcode, hrec]
  refine h.imp_right fun h => ?_
  cases hr : (s.rt.frames c).received with
  | nothing =>
    rw [hr] at h
    exact h
  | value v =>
    rw [hr] at h
    exact h
  | reference d =>
    rw [hr] at h
    simp only [hbody d hr]
    exact h
  | exception d e =>
    rw [hr] at h
    obtain ⟨hawaits, hd, hret⟩ := h
    obtain ⟨hbody', hret'⟩ := hexc d e hr hd
    simp only [hbody', hret']
    exact ⟨hawaits, by omega, hret⟩

/-- A task that awaits the task `d` goes on with its outcome. -/
theorem Resumed.of {d : Nat} {o : Except E V} (hawaits : Awaits (s.code c) (s.body d))
    (hd : d < s.rt.allocated) (hret : (s.rt.frames d).returned = some o)
    (hrec : (s.rt.frames c).received = .of d o) : s.Resumed reply c := by
  refine .inr ?_
  rw [hrec]
  cases o with
  | ok v => exact hawaits
  | error e => exact ⟨hawaits, hd, hret⟩

/-- At most the task `p` changes its place, and the code of a running one its position. -/
theorem Stands.change (h : s.Stands reply) (hi : s.rt.Inv) (p : Nat)
    (hlive : ∀ d, d ≠ p → s'.rt.Live d → s.rt.Live d)
    (hpoint : ∀ d, d ≠ p → (s'.rt.frames d).point = (s.rt.frames d).point)
    (hcode : ∀ d, d ≠ p → s.rt.Live d → (s.rt.frames d).point ≠ .running → s'.code d = s.code d)
    (hbody : ∀ d, d < s.rt.allocated → s'.body d = s.body d)
    (hq : ∀ d, d ≠ p → (d ∈ s'.rt.queued.map Prod.fst ↔ d ∈ s.rt.queued.map Prod.fst))
    (hx : ∀ x d, d ≠ p → s.rt.Live d → (s.rt.frames d).point = .awaker x →
      s'.rt.awakers x = s.rt.awakers x ∧ s'.request x = s.request x)
    (hself : s'.rt.Live p → s'.Standing reply p)
    (htransform : ∀ c d, .transform c d ∈ s'.rt.stack → Awaits (s'.code c) (s'.body d))
    (hresumed : ∀ c rest, s'.rt.stack = .body c :: rest → s'.Resumed reply c) :
    s'.Stands reply := by
  refine ⟨fun d hd => ?_, htransform, hresumed⟩
  by_cases hdp : d = p
  · subst hdp
    exact hself hd
  · have hl := hlive d hdp hd
    refine (h.standing d hl).congr (hpoint d hdp) (hcode d hdp hl) (fun e he => ?_) (hq d hdp)
      fun x hpt => hx x d hdp hl hpt
    exact hbody e (hi.calls.child d e hl he).1.1

/-- The innermost activation ends: its task `p` is suspended, at its end, or gone. -/
theorem Stands.stop {a : Activation} (h : s.Stands reply) (hi : s.rt.Inv) (p : Nat)
    (hs : s.rt.stack = a :: rest) (hs' : s'.rt.stack = rest) (ha : a.frame = p)
    (hlive : ∀ d, d ≠ p → s'.rt.Live d → s.rt.Live d)
    (hpoint : ∀ d, d ≠ p → (s'.rt.frames d).point = (s.rt.frames d).point)
    (hcode : ∀ d, d ≠ p → s'.code d = s.code d) (hbody : s'.body = s.body)
    (hq : ∀ d, d ≠ p → (d ∈ s'.rt.queued.map Prod.fst ↔ d ∈ s.rt.queued.map Prod.fst))
    (hx : ∀ x d, d ≠ p → s.rt.Live d → (s.rt.frames d).point = .awaker x →
      s'.rt.awakers x = s.rt.awakers x ∧ s'.request x = s.request x)
    (hself : s'.rt.Live p → s'.Standing reply p) : s'.Stands reply := by
  have hout := hi.calls.not_mem_rest hs
  refine h.change hi p hlive hpoint (fun d hd _ _ => hcode d hd) (fun d _ => by rw [hbody]) hq hx hself
    (fun e d hm => ?_) fun d rest' hst => ?_
  · rw [hs'] at hm
    have hne : e ≠ p := by
      rintro rfl
      exact hout (ha ▸ mem_frames hm)
    rw [hcode e hne, hbody]
    exact h.transform e d (by rw [hs]; exact List.mem_cons_of_mem _ hm)
  · have hnest := hi.calls.nested
    rw [hs, ← hs', hst] at hnest
    exact absurd hnest Nested.not_body

/-- The body of `p` runs on. -/
theorem Stands.goOn (h : s.Stands reply) (hi : s.rt.Inv) (hs' : s'.rt.stack = .body p :: rest)
    (hrest : ∀ e d, .transform e d ∈ rest → .transform e d ∈ s.rt.stack)
    (hlive : ∀ d, d ≠ p → s'.rt.Live d → s.rt.Live d)
    (hpoint : ∀ d, d ≠ p → (s'.rt.frames d).point = (s.rt.frames d).point)
    (hrun : (s'.rt.frames p).point = .running) (hcode : s'.code = s.code) (hbody : s'.body = s.body)
    (hq : ∀ d, d ≠ p → (d ∈ s'.rt.queued.map Prod.fst ↔ d ∈ s.rt.queued.map Prod.fst))
    (hx : ∀ x d, d ≠ p → s.rt.Live d → (s.rt.frames d).point = .awaker x →
      s'.rt.awakers x = s.rt.awakers x ∧ s'.request x = s.request x)
    (hres : s'.Resumed reply p) : s'.Stands reply := by
  refine h.change hi p hlive hpoint (fun d _ _ _ => by rw [hcode]) (fun d _ => by rw [hbody]) hq hx
    (fun _ => ?_) (fun e d hm => ?_) fun d rest' hst => ?_
  · exact standing_running (.inl hrun)
  · rw [hs'] at hm
    rcases List.mem_cons.mp hm with heq | hm
    · cases heq
    · rw [hcode, hbody]
      exact h.transform e d (hrest e d hm)
  · rw [hs'] at hst
    cases hst
    exact hres

end Sqkio.Program
