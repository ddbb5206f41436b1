import Sqkio.Ring.Queue

/-!
# `SQKScheduler` and its ready queue

The queue is an `MpscRing` of coroutine handles made by `RingGuard` with its default
count of 1024.  `enqueue` drops the count the ring returns and always returns 0.
`Ready s hs` says that the handles `hs` are waiting, oldest first; it follows from the
ring's `Contents`, and everything above the scheduler is stated through it.

    fewer than 1023 waiting → enqueue appends the handle        (Ready.enqueue_room)
    1023 waiting            → enqueue changes nothing           (Ready.enqueue_full)
    dequeue yields the oldest waiting handle                    (Ready.dequeue_oldest)
-/

namespace Sqkio

open Sqkio.Lib Sqkio.Common
open Sqkio.Common.Ring (line64)

-- a call of the ring is only known by `Contents.step`
attribute [local irreducible] Common.Ring.seqStep

/-- `MpscRing<std::coroutine_handle<>>`. -/
def queueConfig : Config := ⟨⟨2, by decide⟩, .mt, .st, false, false⟩

/-- `RingGuard(uint32_t cnt = 1024)` -/
def queueCount : UInt32 := 1024

theorem queueConfig_rts (d : Side) : queueConfig.sync d ≠ .mtRts := by
  cases d <;> nofun

variable {H : Type}

structure SQKScheduler (H : Type) where
  stopped : Bool
  queue : Common.Ring H

namespace SQKScheduler

/-- `queue_->enqueue(handle); return 0;` of both overloads. -/
def enqueue (s : SQKScheduler H) (handle : H) : SQKScheduler H × Int :=
  ({ s with queue := (Common.Ring.seqStep queueConfig s.queue (.enqueue fun _ => handle)).1 }, 0)

/-- `scheduler->enqueue(handle)` for a caller that drops what it returns. -/
def push (handle : H) (s : SQKScheduler H) : SQKScheduler H := (s.enqueue handle).1

/-- `queue_->dequeue(handle)`: the count and the variable `handle` afterwards. -/
def dequeue (s : SQKScheduler H) (handle : H) : SQKScheduler H × UInt32 × H :=
  let m := Common.Ring.seqStep queueConfig s.queue (.dequeue fun _ => handle)
  ({ s with queue := m.1 }, m.2.elim 0 (·.ret), m.2.elim handle (·.obj 0))

def stop (s : SQKScheduler H) : SQKScheduler H := { s with stopped := true }

/-- The handles in `queue_`, oldest first. -/
def waiting (s : SQKScheduler H) : List H :=
  (List.range (s.queue.prod.tail - s.queue.cons.head).toNat).map fun i =>
    s.queue.slots ((s.queue.cons.head + UInt32.ofNat i) &&& s.queue.mask).toNat

/-- A scheduler as its constructor leaves it. -/
def Fresh (s : SQKScheduler H) : Prop :=
  s.stopped = false ∧ ∃ line slots a, Common.Ring.of queueConfig.T line slots queueCount = .ok a ∧
    s.queue = a.ring

/-- The scheduler that the constructor makes of memory that holds `slots`. -/
def init (slots : Nat → H) : SQKScheduler H := ⟨false, Common.Ring.init queueCount slots⟩

theorem init_fresh (slots : Nat → H) : (init slots).Fresh := by
  have hof : Common.Ring.of queueConfig.T line64 slots queueCount =
      .ok ⟨Common.Ring.init queueCount slots, 16640⟩ := rfl
  exact ⟨rfl, line64, slots, _, hof, rfl⟩

/-- The handles `hs` are waiting. -/
def Ready (s : SQKScheduler H) (hs : List H) : Prop :=
  ∃ xs : List (Nat → H), Common.Ring.Contents queueConfig.T queueCount s.queue xs ∧ xs.map (· 0) = hs

theorem Fresh.ready {s : SQKScheduler H} (h : s.Fresh) : s.Ready [] := by
  obtain ⟨-, line, slots, a, hof, hq⟩ := h
  refine ⟨[], ⟨?_, Nat.zero_le _, 0, ?_, ?_, by simp⟩, rfl⟩ <;> rw [hq, (of_ok hof).1]
  · exact Common.Ring.Between.init _ slots
  · rfl
  · rfl

section

variable {s : SQKScheduler H} {hs : List H}

theorem Ready.length_le (h : s.Ready hs) : hs.length ≤ 1023 := by
  obtain ⟨xs, hc, rfl⟩ := h
  rw [List.length_map]
  exact hc.room

/-- `Ready` is about the handles that `waiting` reads off the ring. -/
theorem Ready.waiting_eq (h : s.Ready hs) : s.waiting = hs := by
  have hlen := h.length_le
  obtain ⟨xs, ⟨hb, -, p, hc, hp, hslots⟩, rfl⟩ := h
  rw [List.length_map] at hlen
  have hcount : (s.queue.prod.tail - s.queue.cons.head).toNat = xs.length := by
    rw [← hb.quiet.prod, hc, hp, ofNat_sub_toNat (Nat.le_add_right _ _) (by omega),
      Nat.add_sub_cancel_left]
  refine List.ext_getElem (by simp [waiting, hcount]) fun i h1 h2 => ?_
  have hi : i < xs.length := by simpa using h2
  have hword := hslots i xs[i] 0 (List.getElem?_eq_getElem hi) (by decide)
  simp only [waiting, List.getElem_map, List.getElem_range, hc, hb.mask, ← UInt32.ofNat_add]
  rw [and_mask (k := 10) (by decide) (by decide)]
  have hwords : queueConfig.T.words = 1 := by decide
  rw [hwords, Nat.mul_one, Nat.mul_one, Nat.add_zero] at hword
  exact hword

theorem Ready.waiting (h : s.Ready hs) : s.Ready s.waiting := by
  rw [h.waiting_eq]
  exact h

/-- Only `queue_` matters. -/
theorem Ready.of_queue {t : SQKScheduler H} (h : s.Ready hs) (hq : t.queue = s.queue) : t.Ready hs := by
  unfold Ready
  rw [hq]
  exact h

theorem Ready.step (h : s.Ready hs) (op : Common.Ring.Op H) : ∃ xs : List (Nat → H), xs.map (· 0) = hs ∧
    Common.Ring.Contents queueConfig.T queueCount (Common.Ring.seqStep queueConfig s.queue op).1
      (Fifo.step 1023 xs op.toFifo).1 ∧
    Common.Ring.Matches 1 (Common.Ring.seqStep queueConfig s.queue op).2 (Fifo.step 1023 xs op.toFifo).2 := by
  obtain ⟨xs, hc, hx⟩ := h
  have hstep := hc.step queueConfig_rts (e := 10) (by decide) (by decide) op
  exact ⟨xs, hx, hstep⟩

theorem Ready.enqueue_room (h : s.Ready hs) (hroom : hs.length < 1023) (handle : H) :
    (s.enqueue handle).1.Ready (hs ++ [handle]) := by
  obtain ⟨xs, rfl, hc, -⟩ := h.step (.enqueue fun _ => handle)
  rw [List.length_map] at hroom
  simp only [Common.Ring.Op.toFifo, Fifo.step, if_pos hroom] at hc
  exact ⟨_, hc, by simp⟩

theorem Ready.enqueue_full (h : s.Ready hs) (hfull : ¬ hs.length < 1023) (handle : H) :
    (s.enqueue handle).1.Ready hs := by
  obtain ⟨xs, rfl, hc, -⟩ := h.step (.enqueue fun _ => handle)
  rw [List.length_map] at hfull
  simp only [Common.Ring.Op.toFifo, Fifo.step, if_neg hfull] at hc
  exact ⟨xs, hc, rfl⟩

/-- Both cases of `enqueue`: the queue drops the handle it has no room for. -/
theorem Ready.enqueue_waiting (h : s.Ready hs) (handle : H) : (s.enqueue handle).1.waiting =
    if hs.length < 1023 then hs ++ [handle] else hs := by
  split
  next hroom => exact (h.enqueue_room hroom handle).waiting_eq
  next hfull => exact (h.enqueue_full hfull handle).waiting_eq

theorem Ready.enqueue (h : s.Ready hs) (handle : H) :
    (s.enqueue handle).1.Ready (s.enqueue handle).1.waiting := by
  by_cases hroom : hs.length < 1023
  · exact (h.enqueue_room hroom handle).waiting
  · exact (h.enqueue_full hroom handle).waiting

theorem Ready.dequeue_empty (h : s.Ready []) (handle : H) :
    (s.dequeue handle).1.Ready [] ∧ (s.dequeue handle).2.1 = 0 := by
  obtain ⟨xs, hx, hc, hm⟩ := h.step (.dequeue fun _ => handle)
  obtain rfl : xs = [] := List.map_eq_nil_iff.mp hx
  simp only [Common.Ring.Op.toFifo, Fifo.step] at hc hm
  refine ⟨⟨[], hc, rfl⟩, ?_⟩
  cases hr : (Common.Ring.seqStep queueConfig s.queue (.dequeue fun _ => handle)).2 with
  | none =>
    rw [hr] at hm
    exact hm.elim
  | some y =>
    rw [hr] at hm
    simp only [dequeue, hr, Option.elim_some]
    exact hm

theorem Ready.dequeue_oldest {h0 : H} (h : s.Ready (h0 :: hs)) (handle : H) :
    (s.dequeue handle).1.Ready hs ∧ (s.dequeue handle).2 = (1, h0) := by
  obtain ⟨xs, hx, hc, hm⟩ := h.step (.dequeue fun _ => handle)
  cases xs with
  | nil => cases hx
  | cons x xs =>
    rw [List.map_cons, List.cons.injEq] at hx
    simp only [Common.Ring.Op.toFifo, Fifo.step] at hc hm
    refine ⟨⟨xs, hc, hx.2⟩, ?_⟩
    cases hr : (Common.Ring.seqStep queueConfig s.queue (.dequeue fun _ => handle)).2 with
    | none =>
      rw [hr] at hm
      exact hm.elim
    | some y =>
      rw [hr] at hm
      obtain ⟨hret, hobj⟩ := hm
      simp only [dequeue, hr, Option.elim_some]
      rw [hret, hobj 0 (by decide), hx.1]

theorem Ready.push (h : s.Ready hs) (handle : H) : (s.push handle).Ready (s.push handle).waiting :=
  h.enqueue handle

theorem Ready.mem_push (h : s.Ready hs) {handle w : H} (hw : w ∈ (s.push handle).waiting) :
    w ∈ hs ∨ w = handle := by
  rw [SQKScheduler.push, h.enqueue_waiting] at hw
  split at hw
  · exact (List.mem_append.mp hw).imp_right List.mem_singleton.mp
  · exact .inl hw

/-- Both cases of `dequeue`. -/
theorem Ready.dequeue_cases (h : s.Ready s.waiting) (handle : H) :
    (s.dequeue handle).1.Ready (s.dequeue handle).1.waiting ∧
    ((s.waiting = [] ∧ (s.dequeue handle).1.waiting = [] ∧ (s.dequeue handle).2.1 = 0) ∨
      ∃ w, s.waiting = w :: (s.dequeue handle).1.waiting ∧ (s.dequeue handle).2 = (1, w)) := by
  cases hwait : s.waiting with
  | nil =>
    rw [hwait] at h
    obtain ⟨hnext, hzero⟩ := h.dequeue_empty handle
    exact ⟨hnext.waiting, .inl ⟨rfl, hnext.waiting_eq, hzero⟩⟩
  | cons w ws =>
    rw [hwait] at h
    obtain ⟨hnext, hone⟩ := h.dequeue_oldest handle
    exact ⟨hnext.waiting, .inr ⟨w, by rw [hnext.waiting_eq], hone⟩⟩

end

@[simp] theorem enqueue_snd (s : SQKScheduler H) (handle : H) : (s.enqueue handle).2 = 0 := rfl

-- from here on the queue is only known by `Ready`
attribute [irreducible] enqueue dequeue

end SQKScheduler

end Sqkio
