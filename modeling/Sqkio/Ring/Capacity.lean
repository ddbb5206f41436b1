import Sqkio.Ring.Queue

/-!
# How many entries a ring takes

`of(cnt)` rounds `cnt + 1` up and allocates for that, and then hands `cnt` itself to
`init`.  The ring keeps one of its `cnt` slots free, so an empty ring takes `cnt - 1`
entries in a row and refuses the next one, wherever its counters stand.

    empty → cnt - 1 calls of enqueue return 1, the next one 0     (enqueues_empty)
    no `cnt ≥ 1`, element size or sync types give a ring with room for `cnt`   (not_hasRoom)
-/

namespace Sqkio.Common.Ring

open Sqkio.Lib

variable {W : Type}

/-- The next `cnt` calls of `enqueue` all return 1. -/
def HasRoom (cfg : Config) (r : Ring W) (cnt : UInt32) : Prop :=
  ∀ xs : List (Nat → W), xs.length = cnt.toNat →
    ∀ n ∈ counts (runOps (seqStep cfg) r (xs.map .enqueue)).2, n = some 1

/-- No entry is held. -/
def Empty (r : Ring W) : Prop := r.prod.head = r.cons.head

instance (r : Ring W) : Decidable r.Empty := inferInstanceAs (Decidable (_ = _))

section

variable {cfg : Config} {cnt : UInt32}

/-- Between two calls an empty ring is the fresh one at another position. -/
theorem Between.eq_filledAt {r : Ring W} (h : Between cnt r) (hempty : r.Empty) :
    r = filledAt cnt r.slots r.cons.head 0 := by
  obtain ⟨⟨hprod, hcons⟩, hsize, hmask, hcap⟩ := h
  obtain ⟨size, mask, capacity, ⟨ph, pt⟩, ⟨ch, ct⟩, slots⟩ := r
  have hhead : ph = ch := hempty
  simp only at hprod hcons hsize hmask hcap
  subst hprod hcons hsize hmask hcap hhead
  simp only [filledAt, atHead, Ring.init, UInt32.reduceOfNat, UInt32.add_zero]

/-- **An empty ring** takes `cnt - 1` entries and refuses the next one. -/
theorem enqueues_empty (hrts : cfg.sync .prod ≠ .mtRts) {r : Ring W} (h : Between cnt r)
    (hempty : r.Empty) (xs : List (Nat → W)) (x : Nat → W) (hlen : xs.length = (cnt - 1).toNat) :
    counts (runOps (seqStep cfg) r ((xs ++ [x]).map .enqueue)).2 =
      List.replicate xs.length (some 1) ++ [some 0] := by
  obtain ⟨slots, hend, hcounts⟩ := enqueues_filledAt hrts r.cons.head xs r.slots 0
    (show 0 + xs.length ≤ (cnt - 1).toNat by omega)
  rw [← h.eq_filledAt hempty] at hend hcounts
  rw [Nat.zero_add, hlen] at hend
  rw [List.map_append, runOps_append, hend, counts, List.map_append]
  rw [counts] at hcounts
  rw [hcounts]
  simp only [List.map_cons, List.map_nil, runOps, filledAt_enqueue_full hrts, Option.map_some]

theorem between_of {line : CacheLine} {slots : Nat → W} {a : MemRing W}
    (hof : Ring.of cfg.T line slots cnt = .ok a) (ops : List (Op W)) :
    Between cnt (runOps (seqStep cfg) a.ring ops).1 := by
  rw [(of_ok hof).1]
  refine (runOps_invariant (Q := fun _ => True) (fun r op hr => ?_) ops _ (Between.init cnt slots)).1
  exact ⟨hr.step_any op, trivial⟩

/-- **No ring has room for what was asked**, neither fresh nor after any calls that left it
empty. -/
theorem not_hasRoom {line : CacheLine} {slots : Nat → W} {a : MemRing W} (hcnt : 1 ≤ cnt)
    (hof : Ring.of cfg.T line slots cnt = .ok a) (ops : List (Op W))
    (hempty : (runOps (seqStep cfg) a.ring ops).1.Empty) :
    ¬ HasRoom cfg (runOps (seqStep cfg) a.ring ops).1 cnt := by
  have hpos : 1 ≤ cnt.toNat := UInt32.le_iff_toNat_le.mp hcnt
  have hlen : cnt.toNat = (cnt - 1).toNat + 1 := by
    rw [toNat_sub_one hpos]
    omega
  intro hroom
  have hall := hroom (List.replicate cnt.toNat slots) List.length_replicate
  rw [hlen] at hall
  by_cases hrts : cfg.sync .prod = .mtRts
  · -- the first call does not return
    rw [List.replicate_succ, List.map_cons, runOps, seqStep_rts _ hrts] at hall
    cases hall none List.mem_cons_self
  · have hrefused := enqueues_empty hrts (between_of hof ops) hempty
      (List.replicate (cnt - 1).toNat slots) slots List.length_replicate
    rw [List.replicate_succ', hrefused] at hall
    have hlast := hall (some 0) (List.mem_append_right _ (List.mem_singleton.mpr rfl))
    exact absurd hlast (by decide)

end

/-- `of(10)` for `int`, after one entry was put in and taken out. -/
theorem not_hasRoom_ten : ¬ HasRoom (mtConfig 1 (by decide)) (runOps (seqStep (mtConfig 1 (by decide)))
    (Ring.init 10 fun _ => 0) [.enqueue fun _ => 7, .dequeue fun _ => 0]).1 10 := by
  have hof : Ring.of (mtConfig 1 (by decide)).T line64 (fun _ => 0) 10 =
      .ok ⟨Ring.init 10 fun _ => 0, 320⟩ := rfl
  exact not_hasRoom (by decide) hof _ (by decide)

/-- `of(10)` for `int` takes nine entries and refuses the tenth. -/
theorem of_ten_refuses :
    ∃ a : MemRing Nat, Ring.of ⟨1, by decide⟩ line64 (fun _ => 0) 10 = .ok a ∧
      counts (runOps (seqStep (mtConfig 1 (by decide))) a.ring
        ((List.replicate 10 fun _ => 1).map .enqueue)).2 = List.replicate 9 (some 1) ++ [some 0] ∧
      ¬ HasRoom (mtConfig 1 (by decide)) a.ring 10 := by
  have hcounts : counts (runOps (seqStep (mtConfig 1 (by decide))) (Ring.init 10 fun _ => 0)
      ((List.replicate 10 fun _ => 1).map .enqueue)).2 = List.replicate 9 (some 1) ++ [some 0] := by
    decide
  refine ⟨⟨Ring.init 10 _, 320⟩, rfl, hcounts, fun h => ?_⟩
  have hall := h (List.replicate 10 fun _ => 1) rfl
  rw [hcounts] at hall
  exact absurd (hall (some 0) (by decide)) (by decide)

end Sqkio.Common.Ring
