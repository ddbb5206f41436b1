import Sqkio.Ring.Inv

/-!
# What the counters guarantee

`Counters` reads the invariant as a user of the ring would: the order of the four
positions, who holds which position, and which slots may be in use together.
`Run` statements about a single call come from `call_kept`, which follows the
call's registers from its start to its return.

    (machine W P).Reachable s → Counters P s                 (mtRing_counters)
    enqueue returned 0 → the ring was full while it ran      (returns_zero_only_if_exhausted)
-/

namespace Sqkio.Common.Ring

open Sqkio.Lib

variable {W τ : Type}

/-- `head & mask`: the slot of a position. -/
def slotOf (P : Params τ) (p : Nat) : UInt32 := UInt32.ofNat p &&& (P.sz - 1)

structure Counters (P : Params τ) (s : State τ W) : Prop where
  /-- The registers are the positions modulo `2 ^ 32`. -/
  registers : ∀ d, s.ring.ht d = ⟨UInt32.ofNat (s.hist.resv d), UInt32.ofNat (s.hist.rel d)⟩
  /-- A call that has moved the head works on the positions it reserved. -/
  oldHead : ∀ t old n, (s.loc t).pc.reserved = some (old, n) → old = UInt32.ofNat (s.hist.start t)
  order : s.hist.rel .cons ≤ s.hist.resv .cons ∧ s.hist.resv .cons ≤ s.hist.rel .prod ∧
    s.hist.rel .prod ≤ s.hist.resv .prod ∧
    s.hist.resv .prod ≤ s.hist.rel .cons + s.ring.capacity.toNat
  /-- Every position of `[tail, head)` is held by exactly one call, and no other position is. -/
  tiled : ∀ d p, (s.hist.rel d ≤ p ∧ p < s.hist.resv d) ↔ ∃! t, Holds (held s d) t p
  /-- Calls in flight, of one side or of both, never meet in a slot. -/
  apart : ∀ d t p d' t' p', (d, t) ≠ (d', t') → Holds (held s d) t p → Holds (held s d') t' p' →
    slotOf P p ≠ slotOf P p'
  /-- No slot a producer may still be writing holds a published entry that is not released. -/
  fresh : ∀ t p q, Holds (held s .prod) t p → s.hist.rel .cons ≤ q → q < s.hist.rel .prod →
    slotOf P p ≠ slotOf P q
  /-- Consumers read published entries only. -/
  published : ∀ t p, Holds (held s .cons) t p → p < s.hist.rel .prod

/-! ## The invariant as a user sees it -/

section

variable {P : Params τ} {s : State τ W}

theorem capacity_toNat (hI : Inv P s) (hsz : 0 < P.sz.toNat) :
    s.ring.capacity.toNat = P.sz.toNat - 1 := by
  rw [hI.shape.2.2, toNat_sub_one hsz]

/-- Two positions less than a lap apart have different slots. -/
theorem slotOf_ne {e : Nat} (he : e < 32) (hsz : P.sz.toNat = 2 ^ e) {lo p q : Nat} (hp : lo ≤ p)
    (hp' : p < lo + P.sz.toNat) (hq : lo ≤ q) (hq' : q < lo + P.sz.toNat) (hne : p ≠ q) :
    slotOf P p ≠ slotOf P q := by
  intro h
  have hpos : 0 < 2 ^ e := Nat.two_pow_pos e
  have hmask : (P.sz - 1).toNat = 2 ^ e - 1 := by
    rw [toNat_sub_one (by rw [hsz]; exact hpos), hsz]
  have hmod := congrArg UInt32.toNat h
  simp only [slotOf, and_mask (Nat.le_of_lt he) hmask] at hmod
  rw [hsz] at hp' hq'
  exact hne (mod_inj_window hp hp' hq hq' hmod)

/-- Held positions lie within one lap starting at `cons.tail`. -/
theorem Inv.held_window (hI : Inv P s) (hsz : 0 < P.sz.toNat) {d : Side} {t : τ} {p : Nat}
    (h : Holds (held s d) t p) :
    s.hist.rel .cons ≤ p ∧ p < s.hist.rel .cons + P.sz.toNat ∧
      s.hist.rel d ≤ p ∧ p < s.hist.resv d := by
  obtain ⟨a, n, ha, h1, h2⟩ := h
  have hb := (hI.tiles d).bounds t a n ha
  have hchain := hI.chain
  cases d <;> omega

theorem Counters.of_inv (hI : Inv P s) {e : Nat} (he : e < 32) (hsz : P.sz.toNat = 2 ^ e) :
    Counters P s := by
  have hpos : 0 < P.sz.toNat := by rw [hsz]; exact Nat.two_pow_pos e
  have hchain := hI.chain
  refine ⟨?_, ?_, ?_, fun d p => (hI.tiles d).existsUnique_iff p, ?_, ?_, ?_⟩
  · intro d
    rw [← hI.head, ← hI.tail]
  · intro t old n h
    exact ((hI.thread t).reserved old n h).1
  · rw [capacity_toNat hI hpos]
    exact hchain
  · intro d t p d' t' p' hne hp hp'
    have h1 := hI.held_window hpos hp
    have h2 := hI.held_window hpos hp'
    refine slotOf_ne he hsz h1.1 h1.2.1 h2.1 h2.2.1 ?_
    rintro rfl
    by_cases hd : d = d'
    · -- one side: the held ranges are disjoint
      subst hd
      exact hne (by rw [(hI.tiles d).holder_unique hp hp'])
    · -- two sides: consumers stay below `prod.tail`, producers at or above it
      cases d <;> cases d' <;> first | exact absurd rfl hd | omega
  · intro t p q hp hq hq'
    have h1 := hI.held_window hpos hp
    exact slotOf_ne he hsz h1.1 h1.2.1 hq (by omega) (by omega)
  · intro t p hp
    have h1 := hI.held_window hpos hp
    omega

end

/-! ## Ring counters under any interleaving -/

variable [DecidableEq τ] {P : Params τ}

/-- **Counters of the MT ring.**  MT producers with MT consumers or one ST consumer, any
bursts and any transactional flags: in every reachable state the positions are ordered,
the reservations tile `[tail, head)` and no two of them share a slot. -/
theorem mtRing_counters (hprod : P.cfg.prodSync = .mt)
    (hcons : P.cfg.consSync = .mt ∨ P.cfg.consSync = .st) {e : Nat} (he : e ≤ 30)
    (hsz : P.sz.toNat = 2 ^ e) {s : State τ W} (h : (machine W P).Reachable s) : Counters P s := by
  have hrts : ∀ d, P.cfg.sync d ≠ .mtRts := by
    intro d
    cases d with
    | prod => simp [Config.sync, hprod]
    | cons => rcases hcons with h | h <;> simp [Config.sync, h]
  have hpos : 0 < P.sz.toNat := by rw [hsz]; exact Nat.two_pow_pos e
  exact Counters.of_inv (Reachable.inv hpos hrts h) (by omega) hsz

/-- A ring of four 4-byte slots with two MT producers and one ST consumer. -/
def mpscFour : Params (Fin 2) where
  cfg := ⟨⟨1, Nat.one_pos⟩, .mt, .st, false, false⟩
  sz := 4
  stThread := fun _ => 0
  bursts := (· ≤ 2)

instance : DecidablePred mpscFour.bursts := fun n => inferInstanceAs (Decidable (n ≤ 2))

/-- Both threads load head 0, the second one wins the compare-exchange. -/
def mpscRace : List (Act (Fin 2) Nat) :=
  [.call 0 ⟨.prod, 1, id⟩, .exec 0, .call 1 ⟨.prod, 2, id⟩, .exec 1, .exec 1, .exec 0, .exec 1, .exec 0]

theorem mtRing_counters_race :
    Counters mpscFour ((machine Nat mpscFour).runList (State.fresh mpscFour 0) mpscRace) :=
  mtRing_counters rfl (Or.inr rfl) (show 2 ≤ 30 by decide) rfl
    (Machine.Reachable.runList (.init (State.fresh_init _ _)) (by decide +kernel))

/-! ## One call of a run -/

/-- A call keeps its side and its burst until its thread makes another call. -/
theorem call_kept {N : Nat} {st : Nat → State τ W} {act : Nat → Act τ W}
    (hrts : ∀ d, P.cfg.sync d ≠ .mtRts) (hrun : (machine W P).Run N st act) {t : τ} {c : Call W}
    {i : Nat} (hi : act i = .call t c) : ∀ j, i < j → j ≤ N →
      (∀ k, i < k → k < j → ∀ c', act k ≠ .call t c') →
      ((st j).loc t).call.side = c.side ∧ ((st j).loc t).call.n = c.n := by
  intro j
  induction j with
  | zero => intro h; omega
  | succ j ih =>
    intro hij hjN hsame
    rw [hrun.next j (by omega)]
    by_cases hj : j = i
    · subst hj
      rw [hi]
      simp [machine, next, Local.start]
    · have hprev := ih (by omega) (by omega) fun k h1 h2 => hsame k h1 (by omega)
      cases ha : act j with
      | call u c' =>
        have hu : t ≠ u := by
          rintro rfl
          exact hsame j (by omega) (by omega) c' ha
        simpa [machine, next, hu] using hprev
      | exec u =>
        by_cases hu : t = u
        · subst hu
          have hspec := step_spec P.cfg hrts (st j).ring ((st j).loc t)
          simp only [machine, next, Function.update_self]
          generalize ((st j).loc t).step P.cfg (st j).ring = m at hspec ⊢
          cases hspec with
          | copyWord old n cp todo hpc =>
            obtain ⟨h1, h2⟩ := copyWord_call (st j).ring ((st j).loc t).call cp
            simpa only [h1, h2] using hprev
          | _ => exact hprev
        · simpa [machine, next, hu] using hprev

/-- `prod.head - cons.tail = capacity` for `enqueue`, `prod.tail = cons.head` for `dequeue`. -/
def Exhausted (s : State τ W) : Side → Prop
  | .prod => s.hist.resv .prod = s.hist.rel .cons + s.ring.capacity.toNat ∧
      s.ring.prod.head - s.ring.cons.tail = s.ring.capacity
  | .cons => s.hist.resv .cons = s.hist.rel .prod ∧ s.ring.prod.tail = s.ring.cons.head

omit [DecidableEq τ] in
/-- An attempt that finds no entry although it asks for one is right at that moment,
however old the head it loaded. -/
theorem Inv.exhausted_of_fail {s : State τ W} (hI : Inv P s) (hsz : 0 < P.sz.toNat) {t : τ}
    {old : UInt32} (hatt : (s.loc t).pc.attempt = some old) (hfresh : Fresh P s t)
    (hn : (s.loc t).call.n = 1)
    (hclip : clip (P.cfg.transactional (s.loc t).call.side) (s.loc t).call.n
      (s.ring.entries (s.loc t).call.side old) = 0) : Exhausted s (s.loc t).call.side := by
  obtain ⟨hold, hle, hlim, -⟩ := (hI.thread t).attempt old hatt
  have hspan := (hI.span (s.loc t).call.side).2
  have hbound := hI.bound (s.loc t).call.side
  have hcap := capacity_toNat hI hsz
  unfold Fresh at hfresh
  generalize (s.loc t).call.side = d at *
  have hent : s.ring.entries d old = 0 := by
    rw [hn] at hclip
    unfold clip at hclip
    split at hclip
    · next h =>
      have h' : (s.ring.entries d old).toNat < 1 := UInt32.lt_iff_toNat_lt.mp h
      exact UInt32.toNat_inj.mp (by simp only [UInt32.toNat_zero]; omega)
    · cases hclip
  rw [hold, hI.entries_eq hsz d hlim] at hent
  -- no more than `2 ^ 32` lies between the loaded head and the limit, so it is the limit
  have hzero : limit P s.hist d - s.hist.loaded t = 0 := by
    have := congrArg UInt32.toNat hent
    rw [ofNat_toNat, UInt32.toNat_zero] at this
    omega
  have heq : s.hist.resv d = limit P s.hist d := by omega
  have hp := hI.head d
  have hct := hI.tail .cons
  have hpt := hI.tail .prod
  cases d with
  | prod =>
    simp only [limit, ht] at heq hp hct
    refine ⟨by omega, ?_⟩
    rw [hp, hct, heq, UInt32.ofNat_add, ← hcap, UInt32.ofNat_toNat, UInt32.add_comm,
      UInt32.add_sub_cancel]
  | cons =>
    simp only [limit, ht] at heq hp hpt
    exact ⟨heq, by rw [hp, hpt, heq]⟩

/-- **No spurious failure.**  A call that returns 0 had an instant between its start and its
return at which the ring was full (`enqueue`) or empty (`dequeue`). -/
theorem returns_zero_only_if_exhausted (hsz : 0 < P.sz.toNat) (hrts : ∀ d, P.cfg.sync d ≠ .mtRts)
    {N : Nat} {st : Nat → State τ W} {act : Nat → Act τ W} (hrun : (machine W P).Run N st act)
    {t : τ} {c : Call W} {i j : Nat} (hi : act i = .call t c) (hij : i < j) (hjN : j < N)
    (hone : c.n = 1) (hsame : ∀ k, i < k → k ≤ j → ∀ c', act k ≠ .call t c')
    (hbusy : ((st j).loc t).pc.isIdle = false) (hret : ((st (j + 1)).loc t).pc = .done 0)
    (hfresh : ∀ k, k ≤ j → i < k → ((st k).loc t).pc.attempt.isSome → Fresh P (st k) t) :
    ∃ m, i < m ∧ m ≤ j ∧ Exhausted (st m) c.side := by
  have hI : Inv P (st j) := Reachable.inv hsz hrts (hrun.reachable j (by omega))
  obtain ⟨hside, hn⟩ := call_kept hrts hrun hi j hij (by omega) fun k h1 h2 => hsame k h1 (by omega)
  rw [hrun.next j hjN] at hret
  have hact : act j = .exec t := by
    cases ha : act j with
    | call u c' =>
      have hu : t ≠ u := by
        rintro rfl
        exact hsame j hij (Nat.le_refl j) c' ha
      rw [ha] at hret
      simp only [machine, next, Function.update_of_ne hu] at hret
      rw [hret] at hbusy
      cases hbusy
    | exec u =>
      by_cases hu : t = u
      · rw [hu]
      · rw [ha] at hret
        simp only [machine, next, Function.update_of_ne hu] at hret
        rw [hret] at hbusy
        cases hbusy
  have hspec := step_spec P.cfg hrts (st j).ring ((st j).loc t)
  simp only [hact, machine, next, Function.update_self] at hret
  generalize ((st j).loc t).step P.cfg (st j).ring = m at hspec hret
  refine ⟨j, hij, Nat.le_refl j, ?_⟩
  rw [← hside]
  cases hspec with
  | noop =>
    simp only at hret
    rw [hret] at hbusy
    cases hbusy
  | load pc' _ _ _ _ hidle' _ _ =>
    simp only at hret
    rw [hret] at hidle'
    cases hidle'
  | fail old hatt hclip =>
    exact hI.exhausted_of_fail hsz hatt (hfresh j (Nat.le_refl j) hij (by rw [hatt]; rfl))
      (by rw [hn, hone]) hclip
  | decide old n pc' _ _ _ _ _ _ hidle' _ =>
    simp only at hret
    rw [hret] at hidle'
    cases hidle'
  | reserve => cases hret
  | startTail old n hpc =>
    simp only [updateTailStart] at hret
    split at hret <;> cases hret
  | copyWord => cases hret
  | wait => cases hret
  | publish old n hpc =>
    -- a call that reserved anything does not return 0
    have hb := (hI.tiles ((st j).loc t).call.side).bounds t ((st j).hist.start t) n.toNat
      (by simp [held, hpc, Pc.reserved])
    simp only [Pc.done.injEq] at hret
    rw [hret] at hb
    exact absurd hb.2.1 (Nat.lt_irrefl 0)

/-- The second thread has enqueued two entries and reserves the last free slot between the load
and the compare-exchange of the first one. -/
def mpscFull : Nat → Act (Fin 2) Nat
  | 0 => .call 1 ⟨.prod, 2, id⟩
  | 9 => .call 0 ⟨.prod, 1, id⟩
  | 12 => .call 1 ⟨.prod, 1, id⟩
  | 10 | 11 | 16 | 17 => .exec 0
  | _ => .exec 1

theorem returns_zero_only_if_exhausted_full :
    ∃ m, 9 < m ∧ m ≤ 17 ∧
      Exhausted ((machine Nat mpscFour).stateAt (State.fresh mpscFour 0) mpscFull m) .prod := by
  have hrun : (machine Nat mpscFour).Run 18 _ mpscFull :=
    .of_enabled (State.fresh_init mpscFour 0) (by decide +kernel)
  have honly : ∀ k, 9 < k → k ≤ 17 → ∀ c', mpscFull k ≠ .call 0 c' := by
    intro k h1 _ c' h
    unfold mpscFull at h
    split at h <;> simp at h h1
  exact returns_zero_only_if_exhausted (by decide) (fun d => by cases d <;> decide) hrun rfl
    (by decide) (by decide) rfl honly (by decide +kernel) (by decide +kernel) (by decide +kernel)

end Sqkio.Common.Ring
