import Sqkio.Ring.Bounds

/-!
# The ring as a bounded FIFO queue

`Fifo.step capacity` says what the component is for.  A ring of power-of-two size whose
elements fit into its allocation simulates it (`Contents.step`): the entries held are
the words of the positions from `cons.tail` to `prod.tail`.  `of(cnt)` takes `cnt` itself
for the size, so for other counts two entries share a slot, and where the 32-bit
products wrap an element overlaps itself or another one; `of_behavesAsFifo_iff` is the
exact boundary.
-/

namespace Sqkio.Common.Ring

open Sqkio.Lib

variable {W : Type}

def Op.toFifo : Op W → Fifo.Op (Nat → W)
  | .enqueue entry => .enqueue entry
  | .dequeue _ => .dequeue

/-- A returned call replies as the queue does; entries are compared on the words of an
element. -/
def Matches (words : Nat) : Option (Reply W) → Fifo.Reply (Nat → W) → Prop
  | some x, .refused => x.ret = 0
  | some x, .accepted => x.ret = 1
  | some x, .value entry => x.ret = 1 ∧ ∀ w, w < words → x.obj w = entry w
  | none, _ => False

/-- The ring is a FIFO queue bounded by its capacity field, and never touches memory
behind its `words` slot words. -/
structure BehavesAsFifo (cfg : Config) (r : Ring W) (words : Nat) : Prop where
  fifo : ∀ ops : List (Op W), List.Forall₂ (Matches cfg.T.words) (runOps (seqStep cfg) r ops).2
    (runOps (Fifo.step r.capacity.toNat) [] (ops.map Op.toFifo)).2
  inBounds : InBounds cfg r words
  /-- Any `capacity` consecutive positions have pairwise different slots. -/
  slots : ∀ p i j, i < j → j < r.capacity.toNat →
    UInt32.ofNat (p + i) &&& r.mask ≠ UInt32.ofNat (p + j) &&& r.mask

/-- The counts and element types for which `of` makes a queue, with `words` slot words
allocated. -/
def FifoOk (cfg : Config) (cnt : UInt32) (words : Nat) : Prop :=
  (∀ d, cfg.sync d ≠ .mtRts) ∧
    (cnt = 1 ∨ ((∃ e, cnt.toNat = 2 ^ e) ∧ cnt.toNat * cfg.T.words ≤ words))

/-! ## Rings of power-of-two size -/

section

variable {cfg : Config} {cnt : UInt32} {e : Nat}

theorem fits_of_le {T : ElemType} (hle : 2 ^ e * T.words ≤ 2 ^ 30) : Fits T (2 ^ e) 1 := by
  by_cases h2 : T.k = 2
  · exact Or.inl h2
  · by_cases h4 : T.k = 4
    · exact Or.inr (Or.inl h4)
    · refine Or.inr (Or.inr ?_)
      rw [ElemType.words, if_neg (by omega)] at hle
      rw [Nat.add_sub_cancel]
      omega

/-- The element at position `p` lies in slot words `p * words, …` modulo the ring. -/
theorem slotAt_of_fits {T : ElemType} (he : e ≤ 31) (hcnt : cnt.toNat = 2 ^ e) (hfit : Fits T (2 ^ e) 1) (p : Nat) :
    elemWords T = T.words ∧ ∀ i, i < T.words →
      slotAt T cnt (cnt - 1) (UInt32.ofNat p) i = (p * T.words + i) % (2 ^ e * T.words) := by
  have hpos := Nat.two_pow_pos e
  have hmask : (cnt - 1).toNat = 2 ^ e - 1 := by
    rw [toNat_sub_one (by rw [hcnt]; exact hpos), hcnt]
  have hplan := enqueueElements_at T cnt (cnt - 1) 1 e p he hcnt hmask hpos hfit
  rw [plan_eq, UInt32.toNat_one, Nat.one_mul] at hplan
  have hwords : elemWords T = T.words := by
    have := congrArg List.length hplan
    simpa using this
  rw [hwords, List.map_inj_left] at hplan
  refine ⟨hwords, fun i hi => ?_⟩
  have := hplan i (List.mem_range.mpr hi)
  simpa using this

theorem slotAt_eq {T : ElemType} (hcnt : cnt.toNat = 2 ^ e) (hle : 2 ^ e * T.words ≤ 2 ^ 30) (p : Nat) :
    elemWords T = T.words ∧ ∀ i, i < T.words →
      slotAt T cnt (cnt - 1) (UInt32.ofNat p) i = (p * T.words + i) % (2 ^ e * T.words) := by
  have he : e ≤ 30 := by
    refine (Nat.pow_le_pow_iff_right (a := 2) (by decide)).mp ?_
    exact Nat.le_trans (Nat.le_mul_of_pos_right _ T.words_pos) hle
  exact slotAt_of_fits (by omega) hcnt (fits_of_le hle) p

/-- The ring holds the entries `xs`, oldest first. -/
structure Contents (T : ElemType) (cnt : UInt32) (r : Ring W) (xs : List (Nat → W)) : Prop where
  between : Between cnt r
  room : xs.length ≤ cnt.toNat - 1
  positions : ∃ p, r.cons.head = UInt32.ofNat p ∧ r.prod.head = UInt32.ofNat (p + xs.length) ∧
    ∀ i x w, xs[i]? = some x → w < T.words →
      r.slots (((p + i) * T.words + w) % (cnt.toNat * T.words)) = x w

/-- Words of the positions of one lap have their own slot words. -/
theorem slot_inj {words size lo p q v w : Nat} (hp : lo ≤ p) (hp' : p < lo + size) (hq : lo ≤ q)
    (hq' : q < lo + size) (hv : v < words) (hw : w < words)
    (h : (p * words + v) % (size * words) = (q * words + w) % (size * words)) : p = q ∧ v = w := by
  have hpos : 0 < words := by omega
  have hwindow : ∀ x y, lo ≤ x → x < lo + size → y < words →
      lo * words ≤ x * words + y ∧ x * words + y < lo * words + size * words := by
    intro x y h1 h2 h3
    have h4 := Nat.mul_le_mul_right words h1
    have h5 := Nat.mul_le_mul_right words (show x + 1 ≤ lo + size by omega)
    rw [Nat.add_mul, Nat.one_mul, Nat.add_mul] at h5
    omega
  obtain ⟨h1, h2⟩ := hwindow p v hp hp' hv
  obtain ⟨h3, h4⟩ := hwindow q w hq hq' hw
  have heq := mod_inj_window h1 h2 h3 h4 h
  have hdiv := congrArg (· / words) heq
  simp only [Nat.mul_comm _ words, Nat.mul_add_div hpos, Nat.div_eq_of_lt hv, Nat.div_eq_of_lt hw,
    Nat.add_zero] at hdiv
  subst hdiv
  exact ⟨rfl, by omega⟩

theorem ofNat_eq_zero_iff {m : Nat} (hm : m < 2 ^ 32) : UInt32.ofNat m = 0 ↔ m = 0 := by
  constructor
  · intro h
    have := congrArg UInt32.toNat h
    rwa [ofNat_toNat, Nat.mod_eq_of_lt hm] at this
  · rintro rfl
    rfl

section

variable {r : Ring W} {xs : List (Nat → W)}

theorem Contents.free {T : ElemType} (h : Contents T cnt r xs) (hpos : 0 < cnt.toNat) :
    r.capacity + r.cons.tail - r.prod.head = UInt32.ofNat (cnt.toNat - 1 - xs.length) := by
  obtain ⟨⟨hq, -, -, hcap⟩, hroom, p, hc, hp, -⟩ := h
  have hcapNat : r.capacity = UInt32.ofNat (cnt.toNat - 1) := by
    rw [hcap, UInt32.ofNat_sub hpos, UInt32.ofNat_toNat]
    rfl
  rw [hcapNat, ← hq.cons, hc, hp, ← UInt32.ofNat_add, ← UInt32.ofNat_sub (by omega)]
  congr 1
  omega

theorem Contents.held {T : ElemType} (h : Contents T cnt r xs) :
    r.prod.tail - r.cons.head = UInt32.ofNat xs.length := by
  obtain ⟨⟨hq, -, -, -⟩, -, p, hc, hp, -⟩ := h
  rw [← hq.prod, hc, hp, ← UInt32.ofNat_sub (by omega), Nat.add_sub_cancel_left]

variable (hrts : ∀ d, cfg.sync d ≠ .mtRts) (hcnt : cnt.toNat = 2 ^ e)
  (hle : 2 ^ e * cfg.T.words ≤ 2 ^ 30) (h : Contents cfg.T cnt r xs)

include hrts hcnt hle h

theorem Contents.enqueue (x : Nat → W) :
    Contents cfg.T cnt (seqStep cfg r (.enqueue x)).1 (Fifo.step (cnt.toNat - 1) xs (.enqueue x)).1 ∧
      Matches cfg.T.words (seqStep cfg r (.enqueue x)).2 (Fifo.step (cnt.toNat - 1) xs (.enqueue x)).2 := by
  have hlt := cnt.toNat_lt
  have hpos : 0 < cnt.toNat := by rw [hcnt]; exact Nat.two_pow_pos e
  have hfree := h.free hpos
  have hb' := (h.between.step hrts (.enqueue x)).1
  simp only [Fifo.step]
  by_cases hfull : xs.length < cnt.toNat - 1
  · obtain ⟨⟨hq, hsize, hmask, -⟩, -, p, hc, hp, hslots⟩ := h
    have hstep := enqueue_accepted hq (hrts .prod) x (by
      rw [hfree, ne_eq, ofNat_eq_zero_iff (by omega)]
      omega)
    rw [hstep] at hb' ⊢
    rw [if_pos hfull]
    obtain ⟨hwords, hat⟩ := slotAt_eq hcnt hle (p + xs.length)
    refine ⟨⟨hb', by simp only [List.length_append, List.length_singleton]; omega, p, hc, ?_, ?_⟩, rfl⟩
    · simp only [hp, List.length_append, List.length_singleton]
      rw [← Nat.add_assoc, UInt32.ofNat_add (p + xs.length)]
      rfl
    · intro i y w hi hw
      simp only [hsize, hmask, hp, hwords]
      have hiw : i ≤ xs.length := by
        have := (List.getElem?_eq_some_iff.mp hi).1
        simp only [List.length_append, List.length_singleton] at this
        omega
      by_cases hi' : i = xs.length
      · -- the new entry: each of its words has its own slot word
        subst hi'
        rw [List.getElem?_append_right (Nat.le_refl _), Nat.sub_self] at hi
        cases hi
        refine writeWords_eq _ _ _ _ ⟨w, Nat.le_refl w, hw, ?_⟩ fun v hv1 hv2 heq => ?_
        · rw [hat w hw, hcnt]
        · rw [hat v hv2, ← hcnt] at heq
          rw [(slot_inj (Nat.le_refl _) (by omega) (Nat.le_refl _) (by omega) hv2 hw heq).2]
      · rw [writeWords_of_ne]
        · rw [List.getElem?_append_left (by omega)] at hi
          exact hslots i y w hi hw
        · intro v hv heq
          rw [hat v hv, ← hcnt] at heq
          have hpos := (slot_inj (show p ≤ p + xs.length by omega) (by omega) (by omega) (by omega) hv
            hw heq).1
          omega
  · have hstep := enqueue_refused h.between.quiet (hrts .prod) x (by
      rw [hfree, ofNat_eq_zero_iff (by omega)]
      omega)
    rw [hstep, if_neg hfull]
    exact ⟨h, rfl⟩

theorem Contents.dequeue (x : Nat → W) :
    Contents cfg.T cnt (seqStep cfg r (.dequeue x)).1 (Fifo.step (cnt.toNat - 1) xs .dequeue).1 ∧
      Matches cfg.T.words (seqStep cfg r (.dequeue x)).2 (Fifo.step (cnt.toNat - 1) xs .dequeue).2 := by
  have hlt := cnt.toNat_lt
  have hheld := h.held
  have hb' := (h.between.step hrts (.dequeue x)).1
  cases xs with
  | nil =>
    rw [dequeue_refused h.between.quiet (hrts .cons) x hheld]
    exact ⟨h, rfl⟩
  | cons y xs =>
    obtain ⟨⟨hq, hsize, hmask, -⟩, hroom, p, hc, hp, hslots⟩ := h
    rw [List.length_cons] at hroom hp hheld
    have hstep := dequeue_accepted hq (hrts .cons) x (by
      rw [hheld, ne_eq, ofNat_eq_zero_iff (by omega)]
      omega)
    rw [hstep] at hb' ⊢
    obtain ⟨hwords, hat⟩ := slotAt_eq hcnt hle p
    refine ⟨⟨hb', ?_, p + 1, ?_, ?_, ?_⟩, rfl, ?_⟩
    · simp only [Fifo.step]
      omega
    · simp only [hc, UInt32.ofNat_add]
      rfl
    · simp only [Fifo.step, hp]
      congr 1
      omega
    · intro i z w hi hw
      simp only [Fifo.step] at hi
      rw [Nat.add_right_comm, Nat.add_assoc]
      exact hslots (i + 1) z w hi hw
    · intro w hw
      simp only [hsize, hmask, hc, hwords, readWords, if_pos hw]
      rw [hat w hw, ← hcnt]
      exact hslots 0 y w rfl hw

/-- **One call simulates one operation of the queue.** -/
theorem Contents.step (op : Op W) :
    Contents cfg.T cnt (seqStep cfg r op).1 (Fifo.step (cnt.toNat - 1) xs op.toFifo).1 ∧
      Matches cfg.T.words (seqStep cfg r op).2 (Fifo.step (cnt.toNat - 1) xs op.toFifo).2 := by
  cases op with
  | enqueue x => exact h.enqueue hrts hcnt hle x
  | dequeue x => exact h.dequeue hrts hcnt hle x

end

/-! ## Products of small rings -/

theorem factor_toNat {T : ElemType} (h : T.words < 2 ^ 32) : T.factor.toNat = T.words := by
  rw [factor_words, ofNat_toNat, Nat.mod_eq_of_lt h]

theorem nrSize_toNat {T : ElemType} (hw : T.words < 2 ^ 32) :
    (nrSize T cnt).toNat = cnt.toNat * T.words % 2 ^ 32 := by
  rw [nrSize, UInt32.toNat_mul, factor_toNat hw]

theorem elemWords_eq {T : ElemType} (hw : T.words < 2 ^ 32) : elemWords T = T.words := by
  rw [elemWords, nrNum, UInt32.one_mul, factor_toNat hw]

/-- The allocation covers the ring: no word of any element lies outside. -/
theorem boundsOk_of_le {T : ElemType} {words : Nat} (hcnt : cnt.toNat = 2 ^ e)
    (hle : cnt.toNat * T.words ≤ words) (hwords : words ≤ 2 ^ 30) : BoundsOk T cnt words := by
  have hpos : 0 < cnt.toNat := by rw [hcnt]; exact Nat.two_pow_pos e
  have hw1 : T.words ≤ cnt.toNat * T.words := Nat.le_mul_of_pos_left _ hpos
  have hw : T.words < 2 ^ 32 := by omega
  refine Or.inr ⟨by rw [elemWords_eq hw]; omega, ?_, fun head hcross => ?_⟩
  · rw [nrSize_toNat hw, Nat.mod_eq_of_lt (by omega)]
    exact hle
  · have hidx : (head &&& (cnt - 1)).toNat ≤ cnt.toNat - 1 := by
      rw [UInt32.toNat_and, toNat_sub_one hpos]
      exact Nat.and_le_right
    have hmul := Nat.mul_le_mul_right T.words (show (head &&& (cnt - 1)).toNat + 1 ≤ cnt.toNat by omega)
    have hnr : (nrIdx T (cnt - 1) head).toNat ≤ (head &&& (cnt - 1)).toNat * T.words := by
      rw [nrIdx, UInt32.toNat_mul, factor_toNat hw]
      exact Nat.mod_le _ _
    have hge := hcross.1
    rw [elemWords_eq hw] at hge
    rw [Nat.add_mul, Nat.one_mul] at hmul
    omega

/-! ## Where `of` makes a queue -/

variable {slots : Nat → W}

theorem behavesAsFifo_one (hrts : ∀ d, cfg.sync d ≠ .mtRts) (words : Nat) :
    BehavesAsFifo cfg (Ring.init 1 slots) words where
  fifo := by
    intro ops
    refine (runOps_simulates Op.toFifo (R := fun r xs => r = Ring.init 1 slots ∧ xs = []) ?_ ops _ _
      ⟨rfl, rfl⟩).2
    rintro r xs op ⟨rfl, rfl⟩
    cases op with
    | enqueue x =>
      rw [enqueue_refused ⟨rfl, rfl⟩ (hrts .prod) x (by simp only [Ring.init]; decide)]
      exact ⟨⟨rfl, rfl⟩, rfl⟩
    | dequeue x =>
      rw [dequeue_refused ⟨rfl, rfl⟩ (hrts .cons) x (by simp only [Ring.init]; decide)]
      exact ⟨⟨rfl, rfl⟩, rfl⟩
  inBounds := inBounds_of_boundsOk hrts (Or.inl rfl)
  slots := fun p i j _ h => absurd h (Nat.not_lt_zero _)

theorem behavesAsFifo_pow (hrts : ∀ d, cfg.sync d ≠ .mtRts) {words : Nat} (hcnt : cnt.toNat = 2 ^ e)
    (hle : cnt.toNat * cfg.T.words ≤ words) (hwords : words ≤ 2 ^ 30) :
    BehavesAsFifo cfg (Ring.init cnt slots) words := by
  have hpos : 0 < cnt.toNat := by rw [hcnt]; exact Nat.two_pow_pos e
  have hcap := toNat_sub_one hpos
  refine ⟨fun ops => ?_, inBounds_of_boundsOk hrts (boundsOk_of_le hcnt hle hwords), ?_⟩
  · refine (runOps_simulates Op.toFifo (R := Contents cfg.T cnt) (fun r xs op h => ?_) ops _ _ ?_).2
    · simp only [Ring.init, hcap]
      exact h.step hrts hcnt (by rw [← hcnt]; omega) op
    · exact ⟨Between.init cnt slots, Nat.zero_le _, 0, rfl, rfl, by simp⟩
  · intro p i j hij hj h
    simp only [Ring.init, hcap] at h hj
    have he : e ≤ 32 := by
      have hlt := cnt.toNat_lt
      rw [hcnt] at hlt
      exact Nat.le_of_lt ((Nat.pow_lt_pow_iff_right (by decide)).mp hlt)
    have hmod := congrArg UInt32.toNat h
    rw [and_mask he (by rw [hcap, hcnt]), and_mask he (by rw [hcap, hcnt]), ← hcnt] at hmod
    have heq := mod_inj_window (show p ≤ p + i by omega) (by omega) (by omega) (by omega) hmod
    omega

/-! ## Where it does not -/

theorem BehavesAsFifo.rts {r : Ring W} {words : Nat} (h : BehavesAsFifo cfg r words) (d : Side) :
    cfg.sync d ≠ .mtRts := by
  intro hrts
  cases d with
  | prod =>
    have hlast := runOps_last h.fifo [] (.enqueue r.slots)
    rw [seqStep_rts _ hrts] at hlast
    exact hlast
  | cons =>
    have hlast := runOps_last h.fifo [] (.dequeue r.slots)
    rw [seqStep_rts _ hrts] at hlast
    exact hlast

theorem capacity_pos (hcnt : cnt ≠ 1) : 0 < (cnt - 1).toNat := by
  refine toNat_pos_of_ne fun h => hcnt ?_
  rw [← UInt32.sub_add_cancel cnt 1, h, UInt32.zero_add]

/-- A ring that was empty with both heads at `p` and has taken `n` entries since. -/
def filledAt (cnt : UInt32) (slots : Nat → W) (p : UInt32) (n : Nat) : Ring W :=
  { atHead cnt slots p with prod := ⟨p + UInt32.ofNat n, p + UInt32.ofNat n⟩ }

/-- Its free entries, as the head-moving functions compute them. -/
theorem filledAt_free (slots : Nat → W) (p : UInt32) {n : Nat} (hn : n ≤ (cnt - 1).toNat) :
    (filledAt cnt slots p n).capacity + (filledAt cnt slots p n).cons.tail -
      (filledAt cnt slots p n).prod.head = UInt32.ofNat ((cnt - 1).toNat - n) := by
  rw [UInt32.ofNat_sub hn, UInt32.ofNat_toNat]
  show cnt - 1 + p - (p + UInt32.ofNat n) = _
  rw [UInt32.sub_eq_iff_eq_add, UInt32.add_comm p (UInt32.ofNat n), ← UInt32.add_assoc,
    UInt32.sub_add_cancel]

theorem filledAt_enqueue (hrts : cfg.sync .prod ≠ .mtRts) (slots : Nat → W) (p : UInt32) {n : Nat}
    (hn : n < (cnt - 1).toNat) (x : Nat → W) :
    ∃ touched, seqStep cfg (filledAt cnt slots p n) (.enqueue x) =
      (filledAt cnt (writeWords slots x (slotAt cfg.T cnt (cnt - 1) (p + UInt32.ofNat n)) (elemWords cfg.T))
        p (n + 1), some ⟨1, x, touched⟩) := by
  have hlt := (cnt - 1).toNat_lt
  have hroom : (filledAt cnt slots p n).capacity + (filledAt cnt slots p n).cons.tail -
      (filledAt cnt slots p n).prod.head ≠ 0 := by
    rw [filledAt_free slots p (Nat.le_of_lt hn), ne_eq, ofNat_eq_zero_iff (by omega)]
    omega
  rw [enqueue_accepted ⟨rfl, rfl⟩ hrts x hroom]
  simp only [filledAt, UInt32.ofNat_add, UInt32.add_assoc]
  exact ⟨_, rfl⟩

theorem filledAt_enqueue_full (hrts : cfg.sync .prod ≠ .mtRts) (slots : Nat → W) (p : UInt32)
    (x : Nat → W) : seqStep cfg (filledAt cnt slots p (cnt - 1).toNat) (.enqueue x) =
      (filledAt cnt slots p (cnt - 1).toNat, some ⟨0, x, []⟩) := by
  refine enqueue_refused ⟨rfl, rfl⟩ hrts x ?_
  rw [filledAt_free slots p (Nat.le_refl _), Nat.sub_self]
  rfl

theorem filledAt_dequeue (hrts : cfg.sync .cons ≠ .mtRts) (slots : Nat → W) (p : UInt32) {n : Nat}
    (hn : n < (cnt - 1).toNat) (buf : Nat → W) :
    ∃ touched, (seqStep cfg (filledAt cnt slots p (n + 1)) (.dequeue buf)).2 =
      some ⟨1, readWords slots buf (slotAt cfg.T cnt (cnt - 1) p) (elemWords cfg.T), touched⟩ := by
  have hlt := (cnt - 1).toNat_lt
  have hheld : (filledAt cnt slots p (n + 1)).prod.tail - (filledAt cnt slots p (n + 1)).cons.head ≠ 0 := by
    show p + UInt32.ofNat (n + 1) - p ≠ 0
    rw [UInt32.add_comm, UInt32.add_sub_cancel, ne_eq, ofNat_eq_zero_iff (by omega)]
    omega
  rw [dequeue_accepted ⟨rfl, rfl⟩ hrts buf hheld]
  exact ⟨_, rfl⟩

/-- The counts that a sequence of calls returned; `none` for a call that did not return. -/
def counts (reps : List (Option (Reply W))) : List (Option UInt32) := reps.map (·.map Reply.ret)

/-- As long as there is room every call returns 1. -/
theorem enqueues_filledAt (hrts : cfg.sync .prod ≠ .mtRts) (p : UInt32) (xs : List (Nat → W))
    (slots : Nat → W) (n : Nat) (hn : n + xs.length ≤ (cnt - 1).toNat) :
    ∃ slots', (runOps (seqStep cfg) (filledAt cnt slots p n) (xs.map .enqueue)).1 =
        filledAt cnt slots' p (n + xs.length) ∧
      counts (runOps (seqStep cfg) (filledAt cnt slots p n) (xs.map .enqueue)).2 =
        List.replicate xs.length (some 1) := by
  induction xs generalizing slots n with
  | nil => exact ⟨slots, rfl, rfl⟩
  | cons x xs ih =>
    rw [List.length_cons] at hn ⊢
    obtain ⟨touched, hstep⟩ := filledAt_enqueue hrts slots p (show n < (cnt - 1).toNat by omega) x
    obtain ⟨slots', hend, hcounts⟩ := ih (writeWords slots x
      (slotAt cfg.T cnt (cnt - 1) (p + UInt32.ofNat n)) (elemWords cfg.T)) (n + 1) (by omega)
    refine ⟨slots', ?_, ?_⟩
    · rw [List.map_cons, runOps, hstep]
      simp only [hend, Nat.add_assoc, Nat.add_comm 1]
    · rw [List.map_cons, runOps, hstep, List.replicate_succ, ← hcounts]
      rfl

/-- `n` entries `x0`, then `x1`: what the first `dequeue` reads, and what it ought to. -/
theorem BehavesAsFifo.first (h : BehavesAsFifo cfg (Ring.init cnt slots) words) (n : Nat)
    (hn : n < (cnt - 1).toNat) (x0 x1 buf : Nat → W) : ∃ slots', ∀ w, w < cfg.T.words →
      readWords (writeWords slots' x1 (slotAt cfg.T cnt (cnt - 1) (UInt32.ofNat n)) (elemWords cfg.T))
        buf (slotAt cfg.T cnt (cnt - 1) 0) (elemWords cfg.T) w = (if n = 0 then x1 else x0) w := by
  have hrts := h.rts
  obtain ⟨slots', hs, -⟩ := enqueues_filledAt (hrts .prod) 0 (List.replicate n x0) slots 0
    (by rw [List.length_replicate, Nat.zero_add]; exact Nat.le_of_lt hn)
  have hinit : filledAt cnt slots 0 0 = Ring.init cnt slots := rfl
  rw [hinit, List.map_replicate, List.length_replicate, Nat.zero_add] at hs
  obtain ⟨t1, h1⟩ := filledAt_enqueue (hrts .prod) slots' 0 hn x1
  rw [UInt32.zero_add] at h1
  obtain ⟨t2, h2⟩ := filledAt_dequeue (hrts .cons) (writeWords slots' x1
    (slotAt cfg.T cnt (cnt - 1) (UInt32.ofNat n)) (elemWords cfg.T)) 0 hn buf
  have hlast := runOps_last h.fifo (List.replicate n (.enqueue x0) ++ [.enqueue x1]) (.dequeue buf)
  rw [runOps_append, hs] at hlast
  simp only [runOps, h1, h2, List.map_append, List.map_replicate, Op.toFifo, List.map_cons,
    List.map_nil, Ring.init, runOps_append, Fifo.runOps_enqueue _ x0 n (Nat.le_of_lt hn)] at hlast
  refine ⟨slots', fun w hw => ?_⟩
  cases n with
  | zero =>
    simp only [List.replicate_zero, Fifo.step, List.length_nil, if_pos hn, List.nil_append] at hlast
    exact hlast.2 w hw
  | succ n =>
    simp only [Fifo.step, List.length_replicate, if_pos hn] at hlast
    simp only [List.replicate_succ, List.cons_append] at hlast
    exact hlast.2 w hw

section

variable (h : BehavesAsFifo cfg (Ring.init cnt slots) words)

include h

/-- All words of an element are copied: `scale` does not wrap. -/
theorem BehavesAsFifo.words_lt [Nontrivial W] (hcnt : cnt ≠ 1) : cfg.T.words < 2 ^ 32 := by
  obtain ⟨v0, v1, hne⟩ := exists_pair_ne W
  have hwpos := cfg.T.words_pos
  apply Classical.byContradiction
  intro hge
  obtain ⟨slots', hfirst⟩ := h.first 0 (capacity_pos hcnt) (fun _ => v0) (fun _ => v0) (fun _ => v1)
  have hlast := hfirst (cfg.T.words - 1) (by omega)
  have hlt := elemWords_lt cfg.T
  rw [readWords, if_neg (by omega)] at hlast
  exact hne hlast.symm

/-- The entries at positions 0 and `n` are never in the same slot words. -/
theorem BehavesAsFifo.no_alias [Nontrivial W] (hcnt : cnt ≠ 1) {n : Nat} (hn : 0 < n)
    (hcap : n < (cnt - 1).toNat)
    (halias : ∀ i, slotAt cfg.T cnt (cnt - 1) (UInt32.ofNat n) i = slotAt cfg.T cnt (cnt - 1) 0 i) :
    False := by
  obtain ⟨v0, v1, hne⟩ := exists_pair_ne W
  have hwpos := cfg.T.words_pos
  obtain ⟨slots', hfirst⟩ := h.first n hcap (fun _ => v0) (fun _ => v1) (fun _ => v0)
  have hread := hfirst 0 hwpos
  rw [readWords, if_pos (by rw [elemWords_eq (h.words_lt hcnt)]; exact hwpos),
    if_neg (Nat.pos_iff_ne_zero.mp hn)] at hread
  rw [writeWords_eq _ _ _ _ ⟨0, Nat.le_refl 0, by rw [elemWords_eq (h.words_lt hcnt)]; exact hwpos,
    halias 0⟩ fun _ _ _ _ => rfl] at hread
  exact hne hread.symm

/-- Words 0 and `i` of an element are never in the same slot word. -/
theorem BehavesAsFifo.no_overlap [Nontrivial W] (hcnt : cnt ≠ 1) {i : Nat} (hi : 0 < i)
    (hiw : i < cfg.T.words)
    (halias : slotAt cfg.T cnt (cnt - 1) 0 i = slotAt cfg.T cnt (cnt - 1) 0 0) : False := by
  obtain ⟨v0, v1, hne⟩ := exists_pair_ne W
  have hN := elemWords_eq (h.words_lt hcnt)
  obtain ⟨slots', hfirst⟩ := h.first 0 (capacity_pos hcnt) (fun _ => v0)
    (fun j => if j = 0 then v0 else v1) (fun _ => v0)
  have hread := hfirst 0 (by omega)
  rw [readWords, if_pos (by omega), if_pos rfl, if_pos rfl] at hread
  have hwrite := writeWords_eq slots' (fun j => if j = 0 then v0 else v1)
    (slotAt cfg.T cnt (cnt - 1) 0) (elemWords cfg.T) ⟨i, hi, by omega, halias⟩
    (v := v1) fun j hj _ _ => if_neg (by omega)
  exact hne (hread.symm.trans hwrite)

end

theorem slotAt_of_nrSize_zero {T : ElemType} {head : UInt32} (hsize : nrSize T cnt = 0) (i : Nat) :
    slotAt T cnt (cnt - 1) head i = i := by
  have hslow : ¬ nrIdx T (cnt - 1) head + nrNum T 1 < 0 := by
    rw [UInt32.lt_iff_toNat_lt]
    exact Nat.not_lt_zero _
  simp only [slotAt, wordIndex, hsize, if_neg hslow, UInt32.toNat_zero, Nat.zero_sub, Nat.not_lt_zero,
    if_false, Nat.sub_zero]

/-- A count that is not a power of two leaves two entries in one slot. -/
theorem BehavesAsFifo.powerOf2 [Nontrivial W] (h : BehavesAsFifo cfg (Ring.init cnt slots) words)
    (hcnt : cnt ≠ 1) : ∃ e, cnt.toNat = 2 ^ e := by
  apply Classical.byContradiction
  intro hno
  by_cases hzero : cnt = 0
  · -- size 0: every element is copied to the words 0, 1, …
    subst hzero
    have hsize : nrSize cfg.T 0 = 0 := by rw [nrSize, UInt32.zero_mul]
    refine h.no_alias hcnt Nat.one_pos (by decide) fun i => ?_
    rw [slotAt_of_nrSize_zero hsize, slotAt_of_nrSize_zero hsize]
  · have hpos := toNat_pos_of_ne hzero
    obtain ⟨j, hj, hand⟩ := exists_gap (m := (cnt - 1).toNat) fun e he =>
      hno ⟨e, by rw [toNat_sub_one hpos] at he; have := Nat.two_pow_pos e; omega⟩
    refine h.no_alias hcnt (Nat.two_pow_pos j) hj fun i => ?_
    have hidx : UInt32.ofNat (2 ^ j) &&& (cnt - 1) = 0 &&& (cnt - 1) := by
      apply UInt32.toNat_inj.mp
      have hlt := (cnt - 1).toNat_lt
      rw [UInt32.toNat_and, ofNat_toNat, Nat.mod_eq_of_lt (by omega), hand, UInt32.zero_and]
      rfl
    simp only [slotAt, nrIdx, hidx]

/-- The ring does not reach past the allocation, although `nr_size` is computed modulo
`2 ^ 32`. -/
theorem BehavesAsFifo.size_le [Nontrivial W] (h : BehavesAsFifo cfg (Ring.init cnt slots) words)
    (hwords : words ≤ 2 ^ 30) (hcnt : cnt ≠ 1) (hpow : cnt.toNat = 2 ^ e) :
    cnt.toNat * cfg.T.words ≤ words := by
  have hw := h.words_lt hcnt
  have hwpos := cfg.T.words_pos
  have hN := elemWords_eq hw
  have hS : (nrSize cfg.T cnt).toNat = cnt.toNat * cfg.T.words % 2 ^ 32 := nrSize_toNat hw
  obtain ⟨hn, hsize, hcross⟩ :=
    (boundsOk_of_inBounds h.rts (by omega) h.inBounds).resolve_left hcnt
  rw [hN] at hn
  apply Classical.byContradiction
  intro hgt
  have hwrap : 2 ^ 32 ≤ cnt.toNat * cfg.T.words := by
    apply Classical.byContradiction
    intro hlt
    rw [Nat.mod_eq_of_lt (by omega)] at hS
    omega
  have hfour : 4 ≤ cnt.toNat := by
    apply Classical.byContradiction
    intro hlt
    have := Nat.mul_le_mul (show cnt.toNat ≤ 3 by omega) (show cfg.T.words ≤ 2 ^ 30 by omega)
    omega
  have hcap := toNat_sub_one (show 0 < cnt.toNat by omega)
  rcases Nat.eq_zero_or_pos (nrSize cfg.T cnt).toNat with h0 | h0
  · -- `nr_size = 0`: all entries share the words 0, 1, …
    have hsize0 : nrSize cfg.T cnt = 0 := UInt32.toNat_inj.mp h0
    refine h.no_alias hcnt Nat.one_pos (by omega) fun i => ?_
    rw [slotAt_of_nrSize_zero hsize0, slotAt_of_nrSize_zero hsize0]
  · by_cases hlt : (nrSize cfg.T cnt).toNat < cfg.T.words
    · -- `nr_size` below one element: the element at head 0 overlaps itself
      have hidx : nrIdx cfg.T (cnt - 1) 0 = 0 := by rw [nrIdx, UInt32.zero_and, UInt32.zero_mul]
      have hslow : ¬ nrIdx cfg.T (cnt - 1) 0 + nrNum cfg.T 1 < nrSize cfg.T cnt := by
        have hnum : (nrNum cfg.T 1).toNat = cfg.T.words := hN
        rw [hidx, UInt32.zero_add, UInt32.lt_iff_toNat_lt, hnum]
        omega
      refine h.no_overlap hcnt h0 hlt ?_
      rw [hidx] at hslow
      simp only [slotAt, wordIndex, hidx, if_neg hslow, UInt32.toNat_zero, Nat.sub_zero, Nat.lt_irrefl,
        if_false, Nat.sub_self, h0, if_true]
    · -- otherwise the element across `2 ^ 32` crosses
      have hdiv := Nat.div_add_mod (2 ^ 32 - 1) cfg.T.words
      have hmod := Nat.mod_lt (2 ^ 32 - 1) hwpos
      generalize hq : (2 ^ 32 - 1) / cfg.T.words = q at hdiv
      rw [Nat.mul_comm] at hdiv
      have hqlt : q < cnt.toNat := by
        apply Classical.byContradiction
        intro hge
        have := Nat.mul_le_mul_right cfg.T.words (show cnt.toNat ≤ q by omega)
        omega
      have he : e ≤ 32 := by
        have := cnt.toNat_lt
        rw [hpow] at this
        exact Nat.le_of_lt ((Nat.pow_lt_pow_iff_right (by decide)).mp this)
      have hidx : (nrIdx cfg.T (cnt - 1) (UInt32.ofNat q)).toNat = q * cfg.T.words := by
        rw [nrIdx, UInt32.toNat_mul, and_mask he (by rw [hcap, hpow]), factor_toNat hw, ← hpow,
          Nat.mod_eq_of_lt hqlt, Nat.mod_eq_of_lt (by omega)]
      refine hcross (UInt32.ofNat q) ⟨?_, ?_⟩
      · rw [hidx, hN]
        omega
      · rw [hidx, hN]
        omega

/-- **`of(cnt)` returns a FIFO queue exactly if** `FifoOk` holds of the words it allocates. -/
theorem of_behavesAsFifo_iff [Nontrivial W] {line : CacheLine} {a : MemRing W}
    (hof : Ring.of cfg.T line slots cnt = .ok a) :
    BehavesAsFifo cfg a.ring (a.slotWords cfg.T line) ↔ FifoOk cfg cnt (a.slotWords cfg.T line) := by
  have hwords := slotWords_le hof
  rw [(of_ok hof).1]
  constructor
  · intro h
    refine ⟨h.rts, ?_⟩
    by_cases hcnt : cnt = 1
    · exact Or.inl hcnt
    · obtain ⟨e, he⟩ := h.powerOf2 hcnt
      exact Or.inr ⟨⟨e, he⟩, h.size_le hwords hcnt he⟩
  · rintro ⟨hrts, rfl | ⟨⟨e, he⟩, hle⟩⟩
    · exact behavesAsFifo_one hrts _
    · exact behavesAsFifo_pow hrts he hle hwords

end

/-- `of(1024)` for 8-byte elements is a queue of capacity 1023. -/
theorem of_behavesAsFifo_iff_handles :
    BehavesAsFifo (mtConfig 2 (by decide)) (Ring.init 1024 fun _ => false) 2048 ↔
      FifoOk (mtConfig 2 (by decide)) 1024 2048 := by
  have hof : Ring.of (mtConfig 2 (by decide)).T line64 (fun _ => false) 1024 =
      .ok ⟨Ring.init 1024 fun _ => false, 16640⟩ := rfl
  exact of_behavesAsFifo_iff hof

/-- `of(10)` for `int`: positions 0 and 2 share slot `0 & 9 = 2 & 9`.  Of three entries held
at once the first `dequeue` returns the third. -/
theorem of_ten_not_fifo :
    ∃ a : MemRing Nat, Ring.of ⟨1, by decide⟩ line64 (fun _ => 0) 10 = .ok a ∧
      (∃ x : Reply Nat, (runOps (seqStep (mtConfig 1 (by decide))) a.ring
          [.enqueue fun _ => 1, .enqueue fun _ => 2, .enqueue fun _ => 3,
            .dequeue fun _ => 0]).2.getLast? = some (some x) ∧ x.ret = 1 ∧ x.obj 0 = 3) ∧
      ¬ BehavesAsFifo (mtConfig 1 (by decide)) a.ring (a.slotWords ⟨1, by decide⟩ line64) := by
  refine ⟨⟨Ring.init 10 _, 320⟩, rfl, ⟨⟨1, _, _⟩, rfl, rfl, rfl⟩, fun h => ?_⟩
  have hlast := runOps_last h.fifo [.enqueue fun _ => 1, .enqueue fun _ => 2, .enqueue fun _ => 3]
    (.dequeue fun _ => 0)
  exact absurd (hlast.2 0 (by decide)) (by decide)

end Sqkio.Common.Ring
