import Sqkio.Ring.Geometry

/-!
# Which slot words the calls touch

A sequence of calls on a ring brings its heads to every 32-bit value, so all touched
words lie inside the allocation exactly if they do for every head.  The copy of one
element leaves the allocation in three ways: the element, or the words up to `nr_size`,
are more than was allocated, or the index sum wraps past `2 ^ 32` and takes the
unrolled branch (`Crosses`).

    all touched words inside ↔ BoundsOk T cnt words        (of_inBounds_iff)
-/

namespace Sqkio.Common.Ring

open Sqkio.Lib

variable {W : Type}

/-- `idx + n < size` holds although `idx + n` is past `2 ^ 32`. -/
def Crosses (T : ElemType) (cnt head : UInt32) : Prop :=
  2 ^ 32 ≤ (nrIdx T (cnt - 1) head).toNat + elemWords T ∧
    (nrIdx T (cnt - 1) head).toNat + elemWords T - 2 ^ 32 < (nrSize T cnt).toNat

instance (T : ElemType) (cnt head : UInt32) : Decidable (Crosses T cnt head) :=
  inferInstanceAs (Decidable (_ ∧ _))

/-- Nothing is ever stored (`cnt = 1`), or `words` words are enough for every head. -/
def BoundsOk (T : ElemType) (cnt : UInt32) (words : Nat) : Prop :=
  cnt = 1 ∨ (elemWords T ≤ words ∧ (nrSize T cnt).toNat ≤ words ∧ ∀ head, ¬ Crosses T cnt head)

/-! ## One element -/

theorem slotAt_fast {T : ElemType} {size mask head : UInt32} {i : Nat}
    (h : nrIdx T mask head + nrNum T 1 < nrSize T size) (hi : i < 2 ^ 32) :
    slotAt T size mask head i = ((nrIdx T mask head).toNat + i) % 2 ^ 32 := by
  rw [slotAt, wordIndex, if_pos h, UInt32.toNat_add, ofNat_toNat, Nat.mod_eq_of_lt hi]

theorem elemWords_lt (T : ElemType) : elemWords T < 2 ^ 32 := UInt32.toNat_lt _

theorem slotAt_lt {T : ElemType} {cnt head : UInt32} {words i : Nat} (hn : elemWords T ≤ words)
    (hs : (nrSize T cnt).toNat ≤ words) (hcross : ¬ Crosses T cnt head) (hi : i < elemWords T) :
    slotAt T cnt (cnt - 1) head i < words := by
  have hlt := elemWords_lt T
  have hidx := (nrIdx T (cnt - 1) head).toNat_lt
  by_cases hfast : nrIdx T (cnt - 1) head + nrNum T 1 < nrSize T cnt
  · rw [slotAt_fast hfast (by omega)]
    rw [UInt32.lt_iff_toNat_lt, UInt32.toNat_add] at hfast
    have hno : (nrIdx T (cnt - 1) head).toNat + elemWords T < 2 ^ 32 := by
      apply Classical.byContradiction
      intro hge
      refine hcross ⟨by omega, ?_⟩
      unfold elemWords at hge hlt ⊢
      omega
    unfold elemWords at hno hi
    rw [Nat.mod_eq_of_lt hno] at hfast
    rw [Nat.mod_eq_of_lt (by omega)]
    omega
  · rw [slotAt, wordIndex, if_neg hfast]
    split
    · omega
    · omega

/-- The word counts that `words` must cover are attained at `head = mask`, and a crossing
head touches word `2 ^ 32 - 1`. -/
theorem bounds_of_slotAt_lt {T : ElemType} {cnt : UInt32} {words : Nat} (hwords : words < 2 ^ 32)
    (h : ∀ head i, i < elemWords T → slotAt T cnt (cnt - 1) head i < words) :
    elemWords T ≤ words ∧ (nrSize T cnt).toNat ≤ words ∧ ∀ head, ¬ Crosses T cnt head := by
  have hlt := elemWords_lt T
  have hno : ∀ head, ¬ Crosses T cnt head := by
    intro head ⟨h1, h2⟩
    have hidx := (nrIdx T (cnt - 1) head).toNat_lt
    have hfast : nrIdx T (cnt - 1) head + nrNum T 1 < nrSize T cnt := by
      rw [UInt32.lt_iff_toNat_lt, UInt32.toNat_add]
      unfold elemWords at h1 h2 hlt
      omega
    have hlast := h head (2 ^ 32 - 1 - (nrIdx T (cnt - 1) head).toNat) (by omega)
    rw [slotAt_fast hfast (by omega)] at hlast
    omega
  -- at `head = mask` the element ends where the ring ends
  have hend : nrIdx T (cnt - 1) (cnt - 1) + nrNum T 1 = nrSize T cnt := by
    simp only [nrIdx, nrNum, nrSize, UInt32.and_self, ← UInt32.add_mul, UInt32.sub_add_cancel]
  have hslow : ¬ nrIdx T (cnt - 1) (cnt - 1) + nrNum T 1 < nrSize T cnt := by
    rw [hend]
    exact UInt32.lt_irrefl _
  have hsum := congrArg UInt32.toNat hend
  rw [UInt32.toNat_add] at hsum
  have hmask := h (cnt - 1)
  simp only [slotAt, wordIndex, if_neg hslow] at hmask
  have hidx := (nrIdx T (cnt - 1) (cnt - 1)).toNat_lt
  have hzero : elemWords T = 0 → (nrSize T cnt).toNat = 0 := by
    intro h0
    have hfactor : nrNum T 1 = 0 := UInt32.toNat_inj.mp h0
    rw [nrNum, UInt32.one_mul] at hfactor
    rw [nrSize, hfactor, UInt32.mul_zero]
    rfl
  generalize (nrIdx T (cnt - 1) (cnt - 1)).toNat = idx at *
  generalize (nrSize T cnt).toNat = size at *
  generalize hn : elemWords T = n at *
  rw [show (nrNum T 1).toNat = n from hn] at hsum
  rcases Nat.eq_zero_or_pos n with h0 | h0
  · have := hzero h0
    exact ⟨by omega, by omega, hno⟩
  · by_cases hover : idx + n < 2 ^ 32
    · rw [Nat.mod_eq_of_lt hover] at hsum
      have hlast := hmask (n - 1) (by omega)
      rw [if_pos (by omega)] at hlast
      exact ⟨by omega, by omega, hno⟩
    · have hlast := hmask (n - 1) (by omega)
      rw [if_neg (by omega)] at hlast
      exact ⟨by omega, by omega, hno⟩

/-! ## Sequences of calls -/

section

variable {cfg : Config} {cnt : UInt32} {slots : Nat → W}

/-- What holds between two calls. -/
structure Between (cnt : UInt32) (r : Ring W) : Prop where
  quiet : r.Quiet
  size : r.size = cnt
  mask : r.mask = cnt - 1
  capacity : r.capacity = cnt - 1

theorem Between.init (cnt : UInt32) (slots : Nat → W) : Between cnt (Ring.init cnt slots) :=
  ⟨⟨rfl, rfl⟩, rfl, rfl, rfl⟩

/-- A call either leaves the ring alone and touches nothing, or copies the element at the
head of its side. -/
theorem Between.step_side {r : Ring W} (h : Between cnt r) {op : Op W}
    (hrts : cfg.sync op.call.side ≠ .mtRts) :
    Between cnt (seqStep cfg r op).1 ∧ ∃ x, (seqStep cfg r op).2 = some x ∧
      (x.touched = [] ∨
        x.touched = (List.range (elemWords cfg.T)).map
          (slotAt cfg.T cnt (cnt - 1) (r.ht op.call.side).head)) := by
  obtain ⟨hq, hsize, hmask, hcap⟩ := h
  cases op with
  | enqueue x =>
    rw [enqueue_quiet hq hrts, hsize, hmask]
    split
    · exact ⟨⟨hq, hsize, hmask, hcap⟩, _, rfl, Or.inl rfl⟩
    · exact ⟨⟨⟨rfl, hq.cons⟩, rfl, rfl, hcap⟩, _, rfl, Or.inr rfl⟩
  | dequeue x =>
    rw [dequeue_quiet hq hrts, hsize, hmask]
    split
    · exact ⟨⟨hq, hsize, hmask, hcap⟩, _, rfl, Or.inl rfl⟩
    · exact ⟨⟨⟨hq.prod, rfl⟩, rfl, rfl, hcap⟩, _, rfl, Or.inr rfl⟩

theorem Between.step (hrts : ∀ d, cfg.sync d ≠ .mtRts) {r : Ring W} (h : Between cnt r) (op : Op W) :
    Between cnt (seqStep cfg r op).1 ∧ ∃ x, (seqStep cfg r op).2 = some x ∧
      (x.touched = [] ∨
        x.touched = (List.range (elemWords cfg.T)).map
          (slotAt cfg.T cnt (cnt - 1) (r.ht op.call.side).head)) :=
  h.step_side (hrts op.call.side)

/-- An RTS call changes nothing. -/
theorem Between.step_any {r : Ring W} (h : Between cnt r) (op : Op W) :
    Between cnt (seqStep cfg r op).1 := by
  by_cases hrts : cfg.sync op.call.side = .mtRts
  · rw [seqStep_rts op hrts]
    exact h
  · exact (h.step_side hrts).1

/-- The ring of size 1 holds nothing and its calls touch nothing. -/
theorem one_touches_nothing (hrts : ∀ d, cfg.sync d ≠ .mtRts) (ops : List (Op W)) :
    ∀ rep ∈ (runOps (seqStep cfg) (Ring.init 1 slots) ops).2, ∃ x, rep = some x ∧ x.touched = [] := by
  refine (runOps_invariant (fun r op (h : r = Ring.init 1 slots) => ?_) ops _ rfl).2
  subst h
  cases op with
  | enqueue x =>
    rw [enqueue_refused ⟨rfl, rfl⟩ (hrts .prod) x (by simp only [Ring.init]; decide)]
    exact ⟨rfl, ⟨0, x, []⟩, rfl, rfl⟩
  | dequeue x =>
    rw [dequeue_refused ⟨rfl, rfl⟩ (hrts .cons) x (by simp only [Ring.init]; decide)]
    exact ⟨rfl, ⟨0, x, []⟩, rfl, rfl⟩

/-- The empty ring with both heads at `p`. -/
def atHead (cnt : UInt32) (slots : Nat → W) (p : UInt32) : Ring W :=
  { Ring.init cnt slots with
    prod := ⟨p, p⟩
    cons := ⟨p, p⟩ }

theorem atHead_room (hcnt : cnt ≠ 1) (slots : Nat → W) (p : UInt32) :
    (atHead cnt slots p).capacity + (atHead cnt slots p).cons.tail - (atHead cnt slots p).prod.head ≠
      0 := by
  simp only [atHead, Ring.init, UInt32.add_sub_cancel]
  intro h
  exact hcnt (by rw [← UInt32.sub_add_cancel cnt 1, h, UInt32.zero_add])

theorem atHead_succ (hrts : ∀ d, cfg.sync d ≠ .mtRts) (hcnt : cnt ≠ 1) (slots x : Nat → W)
    (p : UInt32) : ∃ slots',
      (runOps (seqStep cfg) (atHead cnt slots p) [.enqueue x, .dequeue x]).1 =
        atHead cnt slots' (p + 1) := by
  simp only [runOps]
  rw [enqueue_accepted ⟨rfl, rfl⟩ (hrts .prod) x (atHead_room hcnt slots p)]
  simp only []
  rw [dequeue_accepted ⟨rfl, rfl⟩ (hrts .cons)]
  · exact ⟨_, rfl⟩
  · simp only [atHead]
    rw [UInt32.add_comm, UInt32.add_sub_cancel]
    decide

/-- `enqueue` and `dequeue` in turn bring both heads to any position. -/
theorem reach_head (hrts : ∀ d, cfg.sync d ≠ .mtRts) (hcnt : cnt ≠ 1) (slots x : Nat → W) (n : Nat) :
    ∃ ops slots', (runOps (seqStep cfg) (Ring.init cnt slots) ops).1 =
      atHead cnt slots' (UInt32.ofNat n) := by
  induction n with
  | zero => exact ⟨[], slots, rfl⟩
  | succ n ih =>
    obtain ⟨ops, slots', hs⟩ := ih
    obtain ⟨slots'', hs'⟩ := atHead_succ hrts hcnt slots' x (UInt32.ofNat n)
    refine ⟨ops ++ [.enqueue x, .dequeue x], slots'', ?_⟩
    rw [runOps_append, hs, hs', UInt32.ofNat_add]
    rfl

/-- Every slot word that a sequence of calls touches is one of the first `words`. -/
def InBounds (cfg : Config) (r : Ring W) (words : Nat) : Prop :=
  ∀ (ops : List (Op W)) (x : Reply W), some x ∈ (runOps (seqStep cfg) r ops).2 →
    ∀ i ∈ x.touched, i < words

theorem boundsOk_of_inBounds (hrts : ∀ d, cfg.sync d ≠ .mtRts) {words : Nat}
    (hwords : words < 2 ^ 32) (h : InBounds cfg (Ring.init cnt slots) words) :
    BoundsOk cfg.T cnt words := by
  by_cases hcnt : cnt = 1
  · exact Or.inl hcnt
  · refine Or.inr (bounds_of_slotAt_lt hwords fun head i hi => ?_)
    obtain ⟨ops, slots', hs⟩ := reach_head hrts hcnt slots slots head.toNat
    have hlast := h (ops ++ [.enqueue slots]) ⟨1, slots, (List.range (elemWords cfg.T)).map
      (slotAt cfg.T cnt (cnt - 1) head)⟩
    rw [runOps_append, hs, UInt32.ofNat_toNat] at hlast
    simp only [runOps] at hlast
    rw [enqueue_accepted ⟨rfl, rfl⟩ (hrts .prod) slots (atHead_room hcnt slots' head)] at hlast
    exact hlast (List.mem_append_right _ (List.mem_singleton.mpr rfl)) _
      (List.mem_map_of_mem (List.mem_range.mpr hi))

theorem inBounds_of_boundsOk (hrts : ∀ d, cfg.sync d ≠ .mtRts) {words : Nat}
    (h : BoundsOk cfg.T cnt words) : InBounds cfg (Ring.init cnt slots) words := by
  intro ops x hx i hi
  rcases h with rfl | ⟨hn, hsize, hcross⟩
  · obtain ⟨y, hy, hempty⟩ := one_touches_nothing hrts ops _ hx
    cases hy
    rw [hempty] at hi
    cases hi
  · have hall := runOps_invariant (f := seqStep cfg) (Q := fun rep => ∃ y head, rep = some y ∧
        (y.touched = [] ∨ y.touched = (List.range (elemWords cfg.T)).map
          (slotAt cfg.T cnt (cnt - 1) head)))
      (fun r op (hb : Between cnt r) => ?_) ops _ (Between.init cnt slots)
    · obtain ⟨y, head, hy, ht⟩ := hall.2 _ hx
      cases hy
      rcases ht with ht | ht
      · rw [ht] at hi
        cases hi
      · rw [ht] at hi
        obtain ⟨j, hj, rfl⟩ := List.mem_map.mp hi
        exact slotAt_lt hn hsize (hcross head) (List.mem_range.mp hj)
    · obtain ⟨h1, y, h2, h3⟩ := hb.step hrts op
      exact ⟨h1, y, _, h2, h3⟩

/-- **Slot words stay inside the allocation**, for every sequence of calls on a ring that
`of` returns, exactly if `BoundsOk` holds of the words allocated. -/
theorem of_inBounds_iff (hrts : ∀ d, cfg.sync d ≠ .mtRts) {line : CacheLine} {a : MemRing W}
    (hof : Ring.of cfg.T line slots cnt = .ok a) :
    InBounds cfg a.ring (a.slotWords cfg.T line) ↔
      BoundsOk cfg.T cnt (a.slotWords cfg.T line) := by
  have hwords := slotWords_le hof
  rw [(of_ok hof).1]
  exact ⟨boundsOk_of_inBounds hrts (by omega), inBounds_of_boundsOk hrts⟩

end

/-- MT producers and consumers, elements of `4 * k` bytes. -/
def mtConfig (k : Nat) (hk : 0 < k) : Config := ⟨⟨k, hk⟩, .mt, .mt, false, false⟩

theorem mtConfig_rts (k : Nat) (hk : 0 < k) (d : Side) : (mtConfig k hk).sync d ≠ .mtRts := by
  cases d <;> nofun

/-- Cache lines of 64 bytes. -/
def line64 : CacheLine := ⟨6, by decide⟩

/-- `of(10)` for `int`: 16 slots of 4 bytes behind a header of 256. -/
theorem of_inBounds_iff_ten :
    InBounds (mtConfig 1 (by decide)) (Ring.init 10 fun _ => false) 16 ↔
      BoundsOk ⟨1, by decide⟩ 10 16 := by
  have hof : Ring.of (mtConfig 1 (by decide)).T line64 (fun _ => false) 10 =
      .ok ⟨Ring.init 10 fun _ => false, 320⟩ := rfl
  exact of_inBounds_iff (mtConfig_rts 1 (by decide)) hof

/-- `of(2 ^ 29)` for 8-byte elements: `count * esize` wraps to 0, nothing is allocated behind
the header, and the first `enqueue` writes there. -/
theorem of_touches_outside :
    ∃ a : MemRing Bool, Ring.of ⟨2, by decide⟩ line64 (fun _ => false) 536870912 = .ok a ∧
      ¬ InBounds (mtConfig 2 (by decide)) a.ring (a.slotWords ⟨2, by decide⟩ line64) := by
  refine ⟨⟨Ring.init 536870912 _, 256⟩, rfl, fun h => ?_⟩
  have hfirst := h [.enqueue fun _ => true]
  simp only [runOps] at hfirst
  rw [enqueue_accepted ⟨rfl, rfl⟩ (mtConfig_rts 2 (by decide) .prod) _ (by simp only [Ring.init]; decide)]
    at hfirst
  exact absurd (hfirst _ (List.mem_singleton.mpr rfl) 0 (by decide)) (by decide)

end Sqkio.Common.Ring
