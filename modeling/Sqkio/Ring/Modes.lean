import Sqkio.Ring.Bounds

/-!
# Calls made one after another do not depend on the sync types

`quietStep` is a call on a ring with no other call in flight, with no sync type and no
transactional flag in it.  The three head-moving loops and the two `update_tail`s all
do what it does (`seqStep_eq_quietStep`) and leave the ring quiet, so two rings that
differ only in these arguments stay equal through every sequence of calls.

    no RTS side in cfg and cfg' → the same runs on what `of` returns     (runs_agree)
-/

namespace Sqkio.Common.Ring

open Sqkio.Lib

variable {W : Type}

/-- `enqueue(x)` and `dequeue(x)` when heads and tails are equal on both sides. -/
def quietStep (T : ElemType) (r : Ring W) : Op W → Ring W × Option (Reply W)
  | .enqueue x =>
    let head := r.prod.head
    if r.capacity + r.cons.tail - head = 0 then (r, some ⟨0, x, []⟩)
    else
      let words := slotAt T r.size r.mask head
      ({ r with prod := ⟨head + 1, head + 1⟩, slots := writeWords r.slots x words (elemWords T) },
        some ⟨1, x, (List.range (elemWords T)).map words⟩)
  | .dequeue x =>
    let head := r.cons.head
    if r.prod.tail - head = 0 then (r, some ⟨0, x, []⟩)
    else
      let words := slotAt T r.size r.mask head
      ({ r with cons := ⟨head + 1, head + 1⟩ },
        some ⟨1, readWords r.slots x words (elemWords T), (List.range (elemWords T)).map words⟩)

section

variable {cfg cfg' : Config} {r : Ring W}

/-- **One call.**  Any sync types but RTS and any transactional flags do the same. -/
theorem seqStep_eq_quietStep (hq : r.Quiet) (hrts : ∀ d, cfg.sync d ≠ .mtRts) (op : Op W) :
    seqStep cfg r op = quietStep cfg.T r op := by
  cases op with
  | enqueue x => exact enqueue_quiet hq (hrts .prod) x
  | dequeue x => exact dequeue_quiet hq (hrts .cons) x

theorem Quiet.quietStep (hq : r.Quiet) (T : ElemType) (op : Op W) :
    (quietStep T r op).1.Quiet ∧ ∃ x, (quietStep T r op).2 = some x := by
  cases op with
  | enqueue x =>
    simp only [Ring.quietStep]
    split
    · exact ⟨hq, _, rfl⟩
    · exact ⟨⟨rfl, hq.cons⟩, _, rfl⟩
  | dequeue x =>
    simp only [Ring.quietStep]
    split
    · exact ⟨hq, _, rfl⟩
    · exact ⟨⟨hq.prod, rfl⟩, _, rfl⟩

theorem runOps_eq_quietStep (hq : r.Quiet) (hrts : ∀ d, cfg.sync d ≠ .mtRts) (ops : List (Op W)) :
    runOps (seqStep cfg) r ops = runOps (quietStep cfg.T) r ops := by
  refine @runOps_congr _ _ _ _ _ Quiet (fun t op ht => ?_) ops r hq
  exact ⟨seqStep_eq_quietStep ht hrts op, (ht.quietStep cfg.T op).1⟩

/-- **Runs agree.**  On a ring that `of` returns, every sequence of calls has the same counts,
values, heads, tails and slot words under two configurations without RTS, and every call
returns. -/
theorem runs_agree (hT : cfg'.T = cfg.T) (hrts : ∀ d, cfg.sync d ≠ .mtRts)
    (hrts' : ∀ d, cfg'.sync d ≠ .mtRts) {line : CacheLine} {slots : Nat → W} {cnt : UInt32}
    {a : MemRing W} (hof : Ring.of cfg.T line slots cnt = .ok a) (ops : List (Op W)) :
    runOps (seqStep cfg') a.ring ops = runOps (seqStep cfg) a.ring ops ∧
      ∀ rep ∈ (runOps (seqStep cfg) a.ring ops).2, ∃ x, rep = some x := by
  have hq : a.ring.Quiet := by
    rw [(of_ok hof).1]
    exact (Between.init cnt slots).quiet
  rw [runOps_eq_quietStep hq hrts', runOps_eq_quietStep hq hrts, hT]
  refine ⟨rfl, (@runOps_invariant _ _ _ _ Quiet _ (fun t op ht => ?_) ops _ hq).2⟩
  exact ht.quietStep cfg.T op

end

/-- HTS producers and consumers, both transactional, elements of `4 * k` bytes. -/
def htsConfig (k : Nat) (hk : 0 < k) : Config := ⟨⟨k, hk⟩, .mtHts, .mtHts, true, true⟩

theorem htsConfig_rts (k : Nat) (hk : 0 < k) (d : Side) : (htsConfig k hk).sync d ≠ .mtRts := by
  cases d <;> nofun

/-- `of(2)` for `int`, which is full after one entry, with MT and with HTS sides. -/
theorem runs_agree_full :
    runOps (seqStep (htsConfig 1 (by decide))) (Ring.init 2 fun _ => 0)
        [.enqueue fun _ => 7, .enqueue fun _ => 8, .dequeue fun _ => 0] =
      runOps (seqStep (mtConfig 1 (by decide))) (Ring.init 2 fun _ => 0)
        [.enqueue fun _ => 7, .enqueue fun _ => 8, .dequeue fun _ => 0] ∧
      ∀ rep ∈ (runOps (seqStep (mtConfig 1 (by decide))) (Ring.init 2 fun _ => 0)
        [.enqueue fun _ => 7, .enqueue fun _ => 8, .dequeue fun _ => 0]).2, ∃ x : Reply Nat, rep = some x := by
  have hof : Ring.of (mtConfig 1 (by decide)).T line64 (fun _ => 0) 2 =
      .ok ⟨Ring.init 2 fun _ => 0, 320⟩ := rfl
  have hT : (htsConfig 1 (by decide)).T = (mtConfig 1 (by decide)).T := rfl
  exact runs_agree hT (mtConfig_rts 1 (by decide)) (htsConfig_rts 1 (by decide)) hof _

end Sqkio.Common.Ring
