import Sqkio.Core.Calls

/-!
# The ready queue and the awakers

`Waits` says that every queued handle is there for the point its coroutine is suspended at,
and that `handle_` of an awaker is a coroutine suspended there.  With `Calls` it is the
invariant of every run in which `wake` never meets a coroutine that is queued already
(`Proper`); `Reachable.inv` proves it act by act.
-/

namespace Sqkio

variable {X V E : Type}

/-- Suspended at a point that the run loop ends: not at a child task, not at the end. -/
def Point.Parked : Point X → Prop
  | .initial | .awaker _ | .yield => True
  | .child _ | .running | .final => False

/-- The handle was queued to end the suspension that the frame is in. -/
def Cause.Ends (cause : Cause X) (f : Frame X V E) : Prop :=
  match cause with
  | .start => f.point = .initial
  | .yield n => f.point = .yield ∧ f.suspensions = n
  | .wake x n => f.point = .awaker x ∧ f.suspensions = n

theorem Cause.Ends.parked {cause : Cause X} {f : Frame X V E} (h : cause.Ends f) : f.point.Parked := by
  cases cause with
  | start => rw [show f.point = .initial from h]; trivial
  | yield n => rw [h.1]; trivial
  | wake x n => rw [h.1]; trivial

theorem Cause.Ends.congr {cause : Cause X} {f g : Frame X V E} (hp : g.point = f.point)
    (hn : g.suspensions = f.suspensions) (h : cause.Ends f) : cause.Ends g := by
  unfold Cause.Ends at *
  split at h <;> simp_all

namespace Runtime

open Sqkio.Lib

structure Waits (r : Runtime X V E) : Prop where
  ready : r.sched.Ready (r.queued.map Prod.fst)
  nodup : (r.queued.map Prod.fst).Nodup
  ends : ∀ q ∈ r.queued, r.Live q.1 ∧ q.2.Ends (r.frames q.1)
  handles : ∀ x c, (r.awakers x).handle = some c →
    r.Live c ∧ (r.frames c).point = .awaker x ∧ r.since x = (r.frames c).suspensions

namespace Waits

variable {r r' : Runtime X V E} {c : Nat}

theorem waiting_eq (h : r.Waits) : r.sched.waiting = r.queued.map Prod.fst := h.ready.waiting_eq

/-- A step that leaves the parked coroutines alone. -/
theorem keep (h : r.Waits) (hs : r'.sched = r.sched) (hq : r'.queued = r.queued)
    (ha : ∀ x d, (r'.awakers x).handle = some d → (r.awakers x).handle = some d)
    (hsince : r'.since = r.since)
    (hkeep : ∀ d, r.Live d → (r.frames d).point.Parked →
      r'.Live d ∧ (r'.frames d).point = (r.frames d).point ∧
        (r'.frames d).suspensions = (r.frames d).suspensions) : r'.Waits where
  ready := by rw [hs, hq]; exact h.ready
  nodup := by rw [hq]; exact h.nodup
  ends q hm := by
    rw [hq] at hm
    obtain ⟨hl, he⟩ := h.ends q hm
    obtain ⟨hl', hp, hn⟩ := hkeep q.1 hl he.parked
    exact ⟨hl', he.congr hp hn⟩
  handles x d hd := by
    obtain ⟨hl, hp, hn⟩ := h.handles x d (ha x d hd)
    obtain ⟨hl', hp', hn'⟩ := hkeep d hl (by rw [hp]; trivial)
    exact ⟨hl', hp'.trans hp, by rw [hsince, hn', hn]⟩

/-- A parked coroutine that is not queued is queued, or dropped because the queue is full. -/
theorem enqueue {cause : Cause X} (h : r.Waits) (hc : r.Live c) (he : cause.Ends (r.frames c))
    (hout : c ∉ r.queued.map Prod.fst) : (r.enqueue cause c).Waits := by
  have hlen := h.waiting_eq
  by_cases hroom : r.sched.waiting.length < 1023
  · have hq : (r.enqueue cause c).queued = r.queued ++ [(c, cause)] := if_pos hroom
    constructor
    case ready =>
      rw [hq, List.map_append]
      exact h.ready.enqueue_room (by rwa [hlen] at hroom) c
    case nodup =>
      rw [hq, List.map_append]
      exact h.nodup.append (List.nodup_singleton c) (by simpa using hout)
    case ends =>
      rw [hq]
      exact List.forall_mem_append.mpr ⟨h.ends, by simpa using ⟨hc, he⟩⟩
    case handles => exact h.handles
  · have hq : (r.enqueue cause c).queued = r.queued := if_neg hroom
    constructor
    case ready =>
      rw [hq]
      exact h.ready.enqueue_full (by rwa [hlen] at hroom) c
    case nodup => rw [hq]; exact h.nodup
    case ends => rw [hq]; exact h.ends
    case handles => exact h.handles

/-- `await_suspend` of a coroutine that has just been suspended there. -/
theorem await [DecidableEq X] (h : r.Waits) (x : X) (hc : r.Live c)
    (hp : (r.frames c).point = .awaker x) :
    Waits { r with
      awakers := Function.update r.awakers x ((r.awakers x).awaitSuspend c)
      since := Function.update r.since x (r.frames c).suspensions } where
  ready := h.ready
  nodup := h.nodup
  ends := h.ends
  handles y d hd := by
    by_cases hxy : y = x
    · subst hxy
      simp only [Function.update_self, AnyAwaker.handle_awaitSuspend, Option.some.injEq] at hd ⊢
      subst hd
      exact ⟨hc, hp, rfl⟩
    · simp only [Function.update_of_ne hxy] at hd ⊢
      exact h.handles y d hd

/-- The oldest handle leaves the queue, and its coroutine the point it was parked at. -/
theorem dequeue {q : Nat × Cause X} {qs : List (Nat × Cause X)} (h : r.Waits)
    (hqs : r.queued = q :: qs) (hq : r'.queued = qs) (hready : r'.sched.Ready (qs.map Prod.fst))
    (ha : ∀ x d, (r'.awakers x).handle = some d → d ≠ q.1 ∧ (r.awakers x).handle = some d)
    (hsince : r'.since = r.since)
    (hkeep : ∀ d, d ≠ q.1 → r.Live d → r'.Live d ∧ (r'.frames d).point = (r.frames d).point ∧
      (r'.frames d).suspensions = (r.frames d).suspensions) : r'.Waits := by
  have hn := h.nodup
  have hends := h.ends
  rw [hqs, List.map_cons, List.nodup_cons] at hn
  rw [hqs, List.forall_mem_cons] at hends
  constructor
  case ready => rw [hq]; exact hready
  case nodup => rw [hq]; exact hn.2
  case ends =>
    intro p hp
    rw [hq] at hp
    have hne : p.1 ≠ q.1 := by
      intro heq
      exact hn.1 (heq ▸ List.mem_map_of_mem hp)
    obtain ⟨hl, he⟩ := hends.2 p hp
    obtain ⟨hl', hpt, hsu⟩ := hkeep p.1 hne hl
    exact ⟨hl', he.congr hpt hsu⟩
  case handles =>
    intro x d hd
    obtain ⟨hne, hd'⟩ := ha x d hd
    obtain ⟨hl, hp, hsn⟩ := h.handles x d hd'
    obtain ⟨hl', hpt, hsu⟩ := hkeep d hne hl
    exact ⟨hl', hpt.trans hp, by rw [hsince, hsu, hsn]⟩

end Waits

end Runtime

end Sqkio
