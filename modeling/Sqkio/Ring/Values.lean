import Sqkio.Ring.Counters

/-!
# The values that pass through a ring under any interleaving

Elements are copied word by word, so the invariant is about word positions: word
position `q = p * words + w` is word `w` of the element of position `p` and lives in
slot word `q % (size * words)`.  Published words are in place (`Vals.slots`), and a
call knows how far its copies have come (`ValOk.copied`).  Distinct positions of one
lap have distinct slot words only if the index sums of the copy routine do not
overflow (`Fits`), which is assumed of every burst.

    Inv P s → Vals P s → enabled → Vals P (next P s a)       (Vals.exec_step, Vals.call_step)
    (machine W P).Reachable s → Vals P s                     (Reachable.vals)
-/

namespace Sqkio.Common.Ring

open Sqkio.Lib

variable {W τ : Type}

/-! ## Words and positions -/

/-- What word position `q` carries: word `q % words` of the element of position `q / words`. -/
def Hist.word (h : Hist τ W) (words q : Nat) : W := h.elem words (q / words) (q % words)

/-- The slot word of a word position. -/
def slotWord (P : Params τ) (q : Nat) : Nat := q % (P.sz.toNat * P.cfg.T.words)

/-- The copies of a reservation of `n` elements at `start` that are left after `i` words. -/
def remaining (P : Params τ) (start n i : Nat) : List Copy :=
  (List.range' i (n * P.cfg.T.words - i)).map fun j => ⟨slotWord P (start * P.cfg.T.words + j), j⟩

/-- Burst of a call that has moved the head, also after its return. -/
def Pc.span : Pc → Option UInt32
  | .copy _ n _ | .waitTail _ n | .storeTail _ n | .done n => some n
  | _ => none

/-- The first `i` words of the reservation at `start` are copied. -/
def Pc.CopiedTo (P : Params τ) (start i : Nat) : Pc → Prop
  | .copy _ n todo => i ≤ n.toNat * P.cfg.T.words ∧ todo = remaining P start n.toNat i
  | .waitTail _ n | .storeTail _ n | .done n => i = n.toNat * P.cfg.T.words
  | _ => True

/-! ## The invariant -/

structure Owners (P : Params τ) (h : Hist τ W) : Prop where
  callLe : ∀ d p, p < h.resv d → (h.owner d p).call ≤ h.calls (h.owner d p).thread
  index : ∀ d p, p < h.resv d → ∃ n, P.bursts n ∧ (h.owner d p).index < n.toNat
  /-- A thread's positions grow with its calls and within a call with the index. -/
  order : ∀ d p p', p < p' → p' < h.resv d → (h.owner d p).thread = (h.owner d p').thread →
    (h.owner d p).call < (h.owner d p').call ∨
      ((h.owner d p).call = (h.owner d p').call ∧ (h.owner d p).index < (h.owner d p').index)

structure ValOk (P : Params τ) (h : Hist τ W) (slots : Nat → W) (t : τ) (l : Local W) : Prop where
  /-- A producer's entry is what its call was passed. -/
  passed : l.pc ≠ .idle → l.call.side = .prod → l.call.obj = h.passed t (h.calls t)
  /-- A call that has not moved the head owns nothing yet. -/
  before : l.pc ≠ .idle → l.pc.span = none → ∀ d p, p < h.resv d → (h.owner d p).thread = t →
    (h.owner d p).call < h.calls t
  mine : ∀ n, l.pc.span = some n → 0 < n.toNat → h.start t + n.toNat ≤ h.resv l.call.side ∧
    ∀ i, i < n.toNat → h.owner l.call.side (h.start t + i) = ⟨t, h.calls t, i⟩
  copied : ∀ n, l.pc.span = some n → ∃ i, l.pc.CopiedTo P (h.start t) i ∧
    (l.call.side = .prod → l.pc.isIdle = false → ∀ j, j < i →
      slots (slotWord P (h.start t * P.cfg.T.words + j)) =
        h.word P.cfg.T.words (h.start t * P.cfg.T.words + j)) ∧
    (l.call.side = .cons → ∀ j, j < i →
      l.call.obj j = h.word P.cfg.T.words (h.start t * P.cfg.T.words + j))

structure Vals (P : Params τ) (s : State τ W) : Prop where
  owners : Owners P s.hist
  /-- Published entries that are not released are in their slots. -/
  slots : ∀ q, s.hist.rel .cons * P.cfg.T.words ≤ q → q < s.hist.rel .prod * P.cfg.T.words →
    s.ring.slots (slotWord P q) = s.hist.word P.cfg.T.words q
  thread : ∀ t, ValOk P s.hist s.ring.slots t (s.loc t)

/-! ## Small facts -/

theorem div_window {w a n q : Nat} (hw : 0 < w) (h1 : a * w ≤ q) (h2 : q < (a + n) * w) :
    a ≤ q / w ∧ q / w < a + n :=
  ⟨(Nat.le_div_iff_mul_le hw).mpr h1, (Nat.div_lt_iff_lt_mul hw).mpr h2⟩

theorem Pc.span_of_reserved {pc : Pc} {r : UInt32 × UInt32} (h : pc.reserved = some r) :
    pc.span = some r.2 := by
  cases pc <;> first | (cases h; rfl) | cases h

theorem Pc.reserved_of_span {pc : Pc} {n : UInt32} (h : pc.span = some n)
    (hbusy : pc.isIdle = false) : ∃ old, pc.reserved = some (old, n) := by
  cases pc with
  | copy | waitTail | storeTail => cases h; exact ⟨_, rfl⟩
  | done n => exact Bool.noConfusion hbusy
  | _ => cases h

theorem Pc.span_of_busy {pc : Pc} (h : pc.reserved = none) (hbusy : pc.isIdle = false) :
    pc.span = none := by
  cases pc with
  | copy | waitTail | storeTail => cases h
  | done n => exact Bool.noConfusion hbusy
  | _ => rfl

theorem Pc.ne_idle_of_busy {pc : Pc} (h : pc.isIdle = false) : pc ≠ .idle := by
  rintro rfl
  cases h

theorem Pc.copiedTo_le {P : Params τ} {start i : Nat} {pc : Pc} {n : UInt32} (h : pc.CopiedTo P start i)
    (hs : pc.span = some n) : i ≤ n.toNat * P.cfg.T.words := by
  cases pc <;> simp only [Pc.span, Option.some.injEq, reduceCtorEq] at hs <;> subst hs <;>
    simp only [Pc.CopiedTo] at h <;> omega

theorem remaining_nil {P : Params τ} {start n i : Nat} (h : [] = remaining P start n i) :
    n * P.cfg.T.words ≤ i := by
  have := congrArg List.length h
  simp only [remaining, List.length_map, List.length_range', List.length_nil] at this
  omega

theorem remaining_cons {P : Params τ} {start n i : Nat} {cp : Copy} {todo : List Copy}
    (h : cp :: todo = remaining P start n i) :
    i < n * P.cfg.T.words ∧ cp = ⟨slotWord P (start * P.cfg.T.words + i), i⟩ ∧
      todo = remaining P start n (i + 1) := by
  unfold remaining at h ⊢
  cases hk : n * P.cfg.T.words - i with
  | zero =>
    rw [hk] at h
    cases h
  | succ k =>
    rw [hk, List.range'_succ, List.map_cons, List.cons.injEq] at h
    refine ⟨by omega, h.1, ?_⟩
    rw [h.2, show n * P.cfg.T.words - (i + 1) = k by omega]

/-- Word positions of one lap have their own slot words. -/
theorem slotWord_ne {P : Params τ} {lo q q' : Nat} (h1 : lo * P.cfg.T.words ≤ q)
    (h2 : q < (lo + P.sz.toNat) * P.cfg.T.words) (h1' : lo * P.cfg.T.words ≤ q')
    (h2' : q' < (lo + P.sz.toNat) * P.cfg.T.words) (hne : q ≠ q') : slotWord P q ≠ slotWord P q' := by
  intro h
  rw [Nat.add_mul] at h2 h2'
  exact hne (mod_inj_window h1 h2 h1' h2' h)

/-! ## Histories that grow -/

/-- What is known of reserved positions and of past calls does not change. -/
structure Hist.Extends (h h' : Hist τ W) : Prop where
  resv : ∀ d, h.resv d ≤ h'.resv d
  owner : ∀ d p, p < h.resv d → h'.owner d p = h.owner d p
  passed : ∀ t c, c ≤ h.calls t → h'.passed t c = h.passed t c

theorem Hist.Extends.word {P : Params τ} {h h' : Hist τ W} (hext : h.Extends h') (ho : Owners P h)
    {q : Nat} (hq : q < h.resv .prod * P.cfg.T.words) :
    h'.word P.cfg.T.words q = h.word P.cfg.T.words q := by
  have hp : q / P.cfg.T.words < h.resv .prod :=
    (Nat.div_lt_iff_lt_mul P.cfg.T.words_pos).mpr hq
  simp only [Hist.word, Hist.elem, hext.owner .prod _ hp]
  rw [hext.passed _ _ (ho.callLe .prod _ hp)]

/-- A thread that does not move keeps its part of the invariant. -/
theorem ValOk.mono {P : Params τ} {h h' : Hist τ W} {slots slots' : Nat → W} {u : τ} {l : Local W}
    (hok : ValOk P h slots u l) (ho : Owners P h) (hext : h.Extends h')
    (hcalls : h'.calls u = h.calls u) (hstart : h'.start u = h.start u)
    (hresv : ∀ d, h.resv d ≤ h.resv .prod)
    (hnew : ∀ d p, h.resv d ≤ p → p < h'.resv d → (h'.owner d p).thread ≠ u)
    (hslots : ∀ n, l.call.side = .prod → l.pc.isIdle = false → l.pc.span = some n → ∀ q,
      h.start u * P.cfg.T.words ≤ q → q < (h.start u + n.toNat) * P.cfg.T.words →
      slots' (slotWord P q) = slots (slotWord P q)) : ValOk P h' slots' u l where
  passed := by
    intro h1 h2
    rw [hcalls, hext.passed _ _ (Nat.le_refl _)]
    exact hok.passed h1 h2
  before := by
    intro h1 h2 d p hp ht
    by_cases hlt : p < h.resv d
    · rw [hext.owner d p hlt] at ht ⊢
      rw [hcalls]
      exact hok.before h1 h2 d p hlt ht
    · exact absurd ht (hnew d p (by omega) hp)
  mine := by
    intro n hs hn
    obtain ⟨h1, h2⟩ := hok.mine n hs hn
    rw [hstart, hcalls]
    refine ⟨Nat.le_trans h1 (hext.resv _), fun i hi => ?_⟩
    rw [hext.owner _ _ (by omega), h2 i hi]
  copied := by
    intro n hs
    obtain ⟨i, h1, h2, h3⟩ := hok.copied n hs
    have hi := Pc.copiedTo_le h1 hs
    rw [hstart]
    -- a copied word belongs to a reserved position
    have hword : ∀ j, j < i → h'.word P.cfg.T.words (h.start u * P.cfg.T.words + j) =
        h.word P.cfg.T.words (h.start u * P.cfg.T.words + j) := by
      intro j hj
      have hn : 0 < n.toNat := Nat.pos_of_ne_zero fun h0 => by rw [h0] at hi; omega
      have hmine := Nat.mul_le_mul_right P.cfg.T.words
        (Nat.le_trans (hok.mine n hs hn).1 (hresv l.call.side))
      rw [Nat.add_mul] at hmine
      exact hext.word ho (by omega)
    refine ⟨i, h1, fun hp hb j hj => ?_, fun hc j hj => ?_⟩
    · rw [hword j hj, ← h2 hp hb j hj]
      exact hslots n hp hb hs _ (by omega) (by rw [Nat.add_mul]; omega)
    · rw [hword j hj, ← h3 hc j hj]

section

variable {P : Params τ} {s : State τ W}

theorem Inv.resv_le (hI : Inv P s) (d : Side) : s.hist.resv d ≤ s.hist.resv .prod := by
  have := hI.chain
  cases d <;> omega

/-- Word positions of a reservation in flight: where they lie and whose they are. -/
theorem Inv.word_window (hI : Inv P s) (hsz : 0 < P.sz.toNat) {t : τ} {old n : UInt32}
    (hr : (s.loc t).pc.reserved = some (old, n)) {q : Nat}
    (h1 : s.hist.start t * P.cfg.T.words ≤ q) (h2 : q < (s.hist.start t + n.toNat) * P.cfg.T.words) :
    Holds (held s (s.loc t).call.side) t (q / P.cfg.T.words) ∧
      s.hist.rel .cons * P.cfg.T.words ≤ q ∧
      q < (s.hist.rel .cons + P.sz.toNat) * P.cfg.T.words ∧
      s.hist.rel (s.loc t).call.side * P.cfg.T.words ≤ q ∧
      q < s.hist.resv (s.loc t).call.side * P.cfg.T.words := by
  have hw := P.cfg.T.words_pos
  have hdiv := div_window hw h1 h2
  have hholds : Holds (held s (s.loc t).call.side) t (q / P.cfg.T.words) :=
    ⟨s.hist.start t, n.toNat, by simp [held, hr], hdiv.1, hdiv.2⟩
  obtain ⟨h3, h4, h5, h6⟩ := hI.held_window hsz hholds
  exact ⟨hholds, (Nat.le_div_iff_mul_le hw).mp h3, (Nat.div_lt_iff_lt_mul hw).mp h4,
    (Nat.le_div_iff_mul_le hw).mp h5, (Nat.div_lt_iff_lt_mul hw).mp h6⟩

end

/-! ## Preservation -/

/-- The `i`-th word a producer was passed is the word of its `i`-th word position. -/
theorem word_of_mine {P : Params τ} {h : Hist τ W} {t : τ} {start n i : Nat}
    (hmine : ∀ i, i < n → h.owner .prod (start + i) = ⟨t, h.calls t, i⟩)
    (hi : i < n * P.cfg.T.words) :
    h.word P.cfg.T.words (start * P.cfg.T.words + i) = h.passed t (h.calls t) i := by
  have hw := P.cfg.T.words_pos
  have hdiv : (start * P.cfg.T.words + i) / P.cfg.T.words = start + i / P.cfg.T.words := by
    rw [Nat.mul_comm, Nat.mul_add_div hw]
  simp only [Hist.word, Hist.elem, hdiv, hmine _ ((Nat.div_lt_iff_lt_mul hw).mpr hi)]
  rw [Nat.mul_comm start, Nat.mul_add_mod, Nat.mul_comm, Nat.div_add_mod]

variable [DecidableEq τ]

section

variable {P : Params τ} {s : State τ W} {t : τ}

/-- A step that touches neither slots nor ownership: loads, judgements, waits and the
copies of a consumer. -/
theorem Vals.local_step (hV : Vals P s) (loaded : τ → Nat) (l' : Local W)
    (hok : ValOk P s.hist s.ring.slots t l') :
    Vals P { ring := s.ring, loc := Function.update s.loc t l',
             hist := { s.hist with loaded := loaded } } where
  owners := ⟨hV.owners.callLe, hV.owners.index, hV.owners.order⟩
  slots := hV.slots
  thread := by
    intro u
    by_cases hu : u = t
    · subst hu
      simp only [Function.update_self]
      exact ⟨hok.passed, hok.before, hok.mine, hok.copied⟩
    · simp only [Function.update_of_ne hu]
      have hoku := hV.thread u
      exact ⟨hoku.passed, hoku.before, hoku.mine, hoku.copied⟩

theorem Vals.call_step (hI : Inv P s) (hV : Vals P s) (c : Call W) :
    Vals P (next P s (.call t c)) := by
  have hext : s.hist.Extends (s.hist.recordCall t c.obj) := by
    refine ⟨fun _ => Nat.le_refl _, fun _ _ _ => rfl, fun u k hk => ?_⟩
    by_cases hu : u = t
    · subst hu
      simp only [Hist.recordCall, Function.update_self]
      rw [Function.update_of_ne (by omega)]
    · simp [Hist.recordCall, hu]
  have hcalls : ∀ u, s.hist.calls u ≤ (s.hist.recordCall t c.obj).calls u := by
    intro u
    by_cases hu : u = t
    · subst hu
      simp [Hist.recordCall]
    · simp [Hist.recordCall, hu]
  refine ⟨⟨?_, hV.owners.index, hV.owners.order⟩, ?_, ?_⟩
  · intro d p hp
    exact Nat.le_trans (hV.owners.callLe d p hp) (hcalls _)
  · intro q h1 h2
    have hchain := Nat.mul_le_mul_right P.cfg.T.words hI.chain.2.2.1
    simp only [next] at h1 h2 ⊢
    have h2' : q < s.hist.rel .prod * P.cfg.T.words := h2
    rw [hext.word hV.owners (by omega)]
    exact hV.slots q h1 h2
  · intro u
    by_cases hu : u = t
    · subst hu
      have hspan : (Local.start P.cfg c).pc.span = none := by
        unfold Local.start
        cases P.cfg.sync c.side <;> rfl
      simp only [next, Function.update_self]
      refine ⟨?_, ?_, by simp [hspan], by simp [hspan]⟩
      · intro _ _
        simp [Hist.recordCall, Local.start]
      · intro _ _ d p hp ht
        have := hV.owners.callLe d p hp
        simp only [Hist.recordCall] at ht ⊢
        rw [ht] at this
        simp only [Function.update_self]
        omega
    · simp only [next, Function.update_of_ne hu]
      refine (hV.thread u).mono hV.owners hext (by simp [Hist.recordCall, hu]) rfl hI.resv_le ?_
        fun _ _ _ _ _ _ _ => rfl
      intro d p h1 h2
      exact absurd h1 (Nat.not_le.mpr h2)

/-- A producer writes a word of a slot nobody else uses. -/
theorem Vals.copy_step (hI : Inv P s) (hV : Vals P s) (hsz : 0 < P.sz.toNat)
    {old n : UInt32} {cp : Copy} {todo : List Copy} (hpc : (s.loc t).pc = .copy old n (cp :: todo))
    (hside : (s.loc t).call.side = .prod) :
    Vals P { ring := { s.ring with
               slots := Function.update s.ring.slots cp.ring ((s.loc t).call.obj cp.obj) }
             loc := Function.update s.loc t { s.loc t with pc := .copy old n todo }
             hist := s.hist } := by
  have hok := hV.thread t
  have hres : (s.loc t).pc.reserved = some (old, n) := by rw [hpc]; rfl
  obtain ⟨i, hi, hdone, -⟩ := hok.copied n (Pc.span_of_reserved hres)
  rw [hpc] at hi
  obtain ⟨hlt, rfl, htodo⟩ := remaining_cons hi.2
  have hn : 0 < n.toNat := Nat.pos_of_ne_zero fun h0 => by rw [h0] at hlt; omega
  have hmine := (hok.mine n (Pc.span_of_reserved hres) hn).2
  rw [hside] at hmine
  have hobj : (s.loc t).call.obj i = s.hist.word P.cfg.T.words (s.hist.start t * P.cfg.T.words + i) := by
    rw [word_of_mine hmine hlt, hok.passed (by rw [hpc]; nofun) hside]
  have hwin := fun j (hj : j < n.toNat * P.cfg.T.words) => hI.word_window hsz hres
    (q := s.hist.start t * P.cfg.T.words + j) (by omega) (by rw [Nat.add_mul]; omega)
  have hwini := hwin i hlt
  rw [hside] at hwini hwin
  refine ⟨hV.owners, ?_, ?_⟩
  · intro q h1 h2
    have hchain := Nat.mul_le_mul_right P.cfg.T.words
      (Nat.le_trans hI.chain.2.2.1 hI.chain.2.2.2)
    have hle := Nat.mul_le_mul_right P.cfg.T.words
      (show s.hist.rel .cons + (P.sz.toNat - 1) ≤ s.hist.rel .cons + P.sz.toNat by omega)
    simp only at h1 h2 ⊢
    rw [Function.update_of_ne (slotWord_ne h1 (by omega) hwini.2.1 hwini.2.2.1 (by omega))]
    exact hV.slots q h1 h2
  · intro u
    by_cases hu : u = t
    · subst hu
      simp only [Function.update_self]
      refine ⟨fun _ => hok.passed (by rw [hpc]; nofun), nofun, ?_, ?_⟩
      · intro m hm
        exact hok.mine m (by rw [hpc]; exact hm)
      · intro m hm
        cases hm
        refine ⟨i + 1, ⟨hlt, htodo⟩, fun _ _ j hj => ?_, by simp [hside]⟩
        by_cases hji : j = i
        · subst hji
          rw [Function.update_self, hobj]
        · have hwinj := hwin j (by omega)
          rw [Function.update_of_ne (slotWord_ne hwinj.2.1 hwinj.2.2.1 hwini.2.1 hwini.2.2.1 (by omega))]
          exact hdone hside (by rw [hpc]; rfl) j (by omega)
    · simp only [Function.update_of_ne hu]
      refine (hV.thread u).mono hV.owners ⟨fun _ => Nat.le_refl _, fun _ _ _ => rfl, fun _ _ _ => rfl⟩
        rfl rfl hI.resv_le (fun d p h1 h2 => absurd h1 (Nat.not_le.mpr h2)) ?_
      intro m hsu hbu hspan q h1 h2
      obtain ⟨old', hru⟩ := Pc.reserved_of_span hspan hbu
      have hwinu := hI.word_window hsz hru h1 h2
      rw [hsu] at hwinu
      refine Function.update_of_ne
        (slotWord_ne hwinu.2.1 hwinu.2.2.1 hwini.2.1 hwini.2.2.1 fun heq => ?_) _ _
      rw [heq] at hwinu
      exact hu ((hI.tiles .prod).holder_unique hwinu.1 hwini.1)

theorem Owners.reserve {d : Side} {n : UInt32} (ho : Owners P s.hist)
    (hburst : ∃ m, P.bursts m ∧ n ≤ m)
    (hbefore : ∀ d p, p < s.hist.resv d → (s.hist.owner d p).thread = t →
      (s.hist.owner d p).call < s.hist.calls t) : Owners P (s.hist.record t d (.reserve n)) := by
  obtain ⟨m, hm, hnm⟩ := hburst
  rw [UInt32.le_iff_toNat_le] at hnm
  have hold : ∀ d' p, p < s.hist.resv d' →
      (s.hist.record t d (.reserve n)).owner d' p = s.hist.owner d' p := by
    intro d' p hp
    by_cases hd : d' = d
    · subst hd
      simp only [Hist.record, Function.update_self]
      rw [if_neg (by omega)]
    · simp [Hist.record, hd]
  have hcases : ∀ d' p, p < (s.hist.record t d (.reserve n)).resv d' → p < s.hist.resv d' ∨
      (s.hist.resv d' ≤ p ∧ p - s.hist.resv d' < n.toNat ∧
        (s.hist.record t d (.reserve n)).owner d' p = ⟨t, s.hist.calls t, p - s.hist.resv d'⟩) := by
    intro d' p hp
    by_cases hd : d' = d
    · subst hd
      by_cases hlt : p < s.hist.resv d'
      · exact Or.inl hlt
      · simp only [Hist.record, Function.update_self] at hp ⊢
        refine Or.inr ⟨by omega, by omega, ?_⟩
        rw [if_pos ⟨by omega, hp⟩]
    · simp only [Hist.record, Function.update_of_ne hd] at hp
      exact Or.inl hp
  refine ⟨?_, ?_, ?_⟩
  · intro d' p hp
    rcases hcases d' p hp with h | ⟨-, -, h⟩
    · rw [hold d' p h]
      exact ho.callLe d' p h
    · rw [h]
      exact Nat.le_refl _
  · intro d' p hp
    rcases hcases d' p hp with h | ⟨-, h2, h⟩
    · rw [hold d' p h]
      exact ho.index d' p h
    · rw [h]
      exact ⟨m, hm, by simp only; omega⟩
  · intro d' p p' hlt hp' hthread
    rcases hcases d' p' hp' with h' | ⟨h1', h2', h'⟩
    · rw [hold d' p (by omega), hold d' p' h'] at hthread ⊢
      exact ho.order d' p p' hlt h' hthread
    · rw [h'] at hthread ⊢
      rcases hcases d' p (Nat.lt_trans hlt hp') with h | ⟨h1, h2, h⟩
      · rw [hold d' p h] at hthread ⊢
        exact Or.inl (hbefore d' p h hthread)
      · rw [h]
        exact Or.inr ⟨rfl, by simp only; omega⟩

theorem Vals.reserve_step (hI : Inv P s) (hV : Vals P s) {e : Nat} (he : e ≤ 31)
    (hsz : P.sz.toNat = 2 ^ e)
    (hfit : ∀ m, P.bursts m → Fits P.cfg.T (2 ^ e) (min m.toNat (2 ^ e - 1))) {old n : UInt32}
    (hm : (s.loc t).pc.moving = some (old, n))
    (hload : s.hist.loaded t = s.hist.resv (s.loc t).call.side) (x : HeadTail) :
    Vals P { ring := s.ring.setHt (s.loc t).call.side x
             loc := Function.update s.loc t { s.loc t with
               pc := .copy old n (enqueueElements P.cfg.T s.ring.size s.ring.mask old n) }
             hist := s.hist.record t (s.loc t).call.side (.reserve n) } := by
  have hok := hV.thread t
  have hbusy := Pc.busy_of_moving hm
  have hspan := Pc.span_of_busy (Pc.reserved_of_moving hm) hbusy
  have hbefore := hok.before (Pc.ne_idle_of_busy hbusy) hspan
  obtain ⟨hold, -, -, hle, hroom, -⟩ := (hI.thread t).moving old n hm
  have hburst := (hI.thread t).burst hbusy
  have hext : s.hist.Extends (s.hist.record t (s.loc t).call.side (.reserve n)) := by
    refine ⟨fun d => ?_, fun d p hp => ?_, fun _ _ _ => rfl⟩
    · by_cases hd : d = (s.loc t).call.side
      · simp [Hist.record, hd]
      · simp [Hist.record, hd]
    · by_cases hd : d = (s.loc t).call.side
      · subst hd
        simp only [Hist.record, Function.update_self]
        rw [if_neg (by omega)]
      · simp [Hist.record, hd]
  refine ⟨hV.owners.reserve ⟨_, hburst, hle⟩ hbefore, ?_, ?_⟩
  · intro q h1 h2
    have hchain := Nat.mul_le_mul_right P.cfg.T.words hI.chain.2.2.1
    have h2' : q < s.hist.rel .prod * P.cfg.T.words := h2
    rw [(setHt_shape s.ring (s.loc t).call.side x).2.2.2, hext.word hV.owners (by omega)]
    exact hV.slots q h1 h2
  · intro u
    by_cases hu : u = t
    · subst hu
      simp only [Function.update_self]
      refine ⟨fun _ => hok.passed (Pc.ne_idle_of_busy hbusy), fun _ h => (by cases h), ?_, ?_⟩
      · intro m hm' _
        cases hm'
        simp only [Hist.record, Function.update_self]
        refine ⟨Nat.le_refl _, fun i hi => ?_⟩
        rw [if_pos ⟨by omega, by omega⟩, Nat.add_sub_cancel_left]
      · intro m hm'
        cases hm'
        have hsize := hI.shape
        have hspanI := (hI.span (s.loc u).call.side).2
        have hroom' := hroom hload.symm
        have hpos := Nat.two_pow_pos e
        rw [UInt32.le_iff_toNat_le] at hle
        refine ⟨0, ⟨Nat.zero_le _, ?_⟩, fun _ _ j hj => by omega, fun _ j hj => by omega⟩
        rw [hold, enqueueElements_at P.cfg.T s.ring.size s.ring.mask n e _ he (by rw [hsize.1, hsz])
          ?_ (by omega) ((hfit _ hburst).mono (by omega)), List.range_eq_range', remaining, Nat.sub_zero]
        · simp only [Hist.record, Function.update_self, slotWord, hload, hsz]
        · rw [hsize.2.1, toNat_sub_one (by rw [hsz]; exact hpos), hsz]
    · simp only [Function.update_of_ne hu]
      rw [(setHt_shape s.ring (s.loc t).call.side x).2.2.2]
      refine (hV.thread u).mono hV.owners hext rfl (by simp [Hist.record, hu]) hI.resv_le ?_
        fun _ _ _ _ _ _ _ => rfl
      intro d p h1 h2
      by_cases hd : d = (s.loc t).call.side
      · subst hd
        simp only [Hist.record, Function.update_self] at h2 ⊢
        rw [if_pos ⟨h1, h2⟩]
        exact Ne.symm hu
      · simp only [Hist.record, Function.update_of_ne hd] at h2
        omega

theorem Vals.publish_step (hI : Inv P s) (hV : Vals P s) {old n : UInt32}
    (hpc : (s.loc t).pc = .storeTail old n) (x : HeadTail) :
    Vals P { ring := s.ring.setHt (s.loc t).call.side x
             loc := Function.update s.loc t { s.loc t with pc := .done n }
             hist := s.hist.record t (s.loc t).call.side (.publish n) } := by
  have hok := hV.thread t
  have hfirst := (hI.thread t).store old n hpc
  have hres : (s.loc t).pc.reserved = some (old, n) := by rw [hpc]; rfl
  obtain ⟨i, hi, hprod, hcons⟩ := hok.copied n (Pc.span_of_reserved hres)
  rw [hpc] at hi
  simp only [Pc.CopiedTo] at hi
  have hslots : (s.ring.setHt (s.loc t).call.side x).slots = s.ring.slots :=
    (setHt_shape s.ring (s.loc t).call.side x).2.2.2
  refine ⟨⟨hV.owners.callLe, hV.owners.index, hV.owners.order⟩, ?_, ?_⟩
  · intro q h1 h2
    simp only [hslots]
    simp only [Hist.record] at h1 h2
    cases hside : (s.loc t).call.side with
    | prod =>
      rw [hside] at h1 h2 hfirst
      simp only [Function.update_self, ne_eq, reduceCtorEq, not_false_eq_true,
        Function.update_of_ne] at h1 h2
      by_cases hq : q < s.hist.rel .prod * P.cfg.T.words
      · exact hV.slots q h1 hq
      · -- the words just published are the ones this call copied
        have hj := hprod hside (by rw [hpc]; rfl) (q - s.hist.start t * P.cfg.T.words)
          (by rw [Nat.add_mul] at h2; rw [hi, hfirst]; omega)
        rw [hfirst, Nat.add_sub_cancel' (by omega)] at hj
        exact hj
    | cons =>
      rw [hside] at h1 h2
      simp only [Function.update_self, ne_eq, reduceCtorEq, not_false_eq_true,
        Function.update_of_ne] at h1 h2
      rw [Nat.add_mul] at h1
      exact hV.slots q (by omega) h2
  · intro u
    by_cases hu : u = t
    · subst hu
      simp only [Function.update_self]
      refine ⟨fun _ => hok.passed (by rw [hpc]; exact Pc.noConfusion), fun _ h => (by cases h), ?_, ?_⟩
      · intro m hm
        exact hok.mine m (by rw [hpc]; exact hm)
      · intro m hm
        cases hm
        exact ⟨i, hi, fun _ h => (by cases h), hcons⟩
    · simp only [Function.update_of_ne hu, hslots]
      have hoku := hV.thread u
      exact ⟨hoku.passed, hoku.before, hoku.mine, hoku.copied⟩

/-- A consumer reads a word of a slot that is published and not released. -/
theorem Vals.read_step (hI : Inv P s) (hV : Vals P s) (hsz : 0 < P.sz.toNat)
    {old n : UInt32} {cp : Copy} {todo : List Copy} (hpc : (s.loc t).pc = .copy old n (cp :: todo))
    (hside : (s.loc t).call.side = .cons) :
    Vals P { ring := s.ring
             loc := Function.update s.loc t
               { call := { (s.loc t).call with
                   obj := Function.update (s.loc t).call.obj cp.obj (s.ring.slots cp.ring) }
                 pc := .copy old n todo }
             hist := s.hist } := by
  have hok := hV.thread t
  have hres : (s.loc t).pc.reserved = some (old, n) := by rw [hpc]; rfl
  obtain ⟨i, hi, -, hcons⟩ := hok.copied n (Pc.span_of_reserved hres)
  rw [hpc] at hi
  obtain ⟨hlt, rfl, htodo⟩ := remaining_cons hi.2
  refine hV.local_step s.hist.loaded _ ⟨by simp [hside], fun _ h => (by cases h), ?_, ?_⟩
  · intro m hm
    exact hok.mine m (by rw [hpc]; exact hm)
  · intro m hm
    cases hm
    refine ⟨i + 1, ⟨hlt, htodo⟩, by simp [hside], fun _ j hj => ?_⟩
    by_cases hji : j = i
    · subst hji
      have hwin := hI.word_window hsz hres (q := s.hist.start t * P.cfg.T.words + j) (by omega)
        (by rw [Nat.add_mul]; omega)
      rw [hside] at hwin
      have hle := Nat.mul_le_mul_right P.cfg.T.words hI.chain.2.1
      simp only [Function.update_self]
      exact hV.slots _ hwin.2.1 (by omega)
    · simp only [Function.update_of_ne hji]
      exact hcons hside j (by omega)

omit [DecidableEq τ] in
/-- Past the copies a call keeps what it has copied. -/
theorem ValOk.keep {h : Hist τ W} {slots : Nat → W} {l : Local W} {pc' : Pc} {n : UInt32}
    (hok : ValOk P h slots t l) (hbusy : l.pc.isIdle = false) (hspan : l.pc.span = some n)
    (hspan' : pc'.span = some n) (hcopied : ∀ i, l.pc.CopiedTo P (h.start t) i → pc'.CopiedTo P (h.start t) i) :
    ValOk P h slots t { l with pc := pc' } := by
  obtain ⟨i, hi, hprod, hcons⟩ := hok.copied n hspan
  refine ⟨fun _ => hok.passed (Pc.ne_idle_of_busy hbusy), by simp [hspan'], ?_, ?_⟩
  · intro m hm
    rw [hspan'] at hm
    cases hm
    exact hok.mine _ hspan
  · intro m hm
    rw [hspan'] at hm
    cases hm
    exact ⟨i, hcopied i hi, fun h _ => hprod h hbusy, hcons⟩

/-- **Step lemma of the value invariant.** -/
theorem Vals.exec_step (hI : Inv P s) (hV : Vals P s) {e : Nat} (he : e ≤ 31)
    (hsz : P.sz.toNat = 2 ^ e) (hrts : ∀ d, P.cfg.sync d ≠ .mtRts)
    (hfit : ∀ m, P.bursts m → Fits P.cfg.T (2 ^ e) (min m.toNat (2 ^ e - 1)))
    (hen : Enabled P s (.exec t)) : Vals P (next P s (.exec t)) := by
  obtain ⟨hbusy, hfresh⟩ := hen
  have hpos : 0 < P.sz.toNat := by rw [hsz]; exact Nat.two_pow_pos e
  have hok := hV.thread t
  have hidle := Pc.ne_idle_of_busy hbusy
  have hspec := step_spec P.cfg hrts s.ring (s.loc t)
  simp only [next]
  generalize (s.loc t).step P.cfg s.ring = m at hspec ⊢
  cases hspec with
  | noop => exact hV.local_step s.hist.loaded _ hok
  | load pc' hres _ hres' _ hidle' _ _ =>
    have hspan := Pc.span_of_busy hres' hidle'
    exact hV.local_step _ _ ⟨fun _ => hok.passed hidle,
      fun _ _ => hok.before hidle (Pc.span_of_busy hres hbusy), by simp [hspan], by simp [hspan]⟩
  | fail old _ _ =>
    refine hV.local_step s.hist.loaded _ ⟨fun _ => hok.passed hidle, fun _ h => (by cases h), ?_, ?_⟩
    · intro n hn hpos
      cases hn
      exact absurd hpos (Nat.lt_irrefl 0)
    · intro n hn
      cases hn
      exact ⟨0, by simp [Pc.CopiedTo], fun _ _ j hj => by omega, fun _ j hj => by omega⟩
  | decide old n pc' hatt _ _ _ _ hres' hidle' _ =>
    have hspan := Pc.span_of_busy hres' hidle'
    exact hV.local_step s.hist.loaded _ ⟨fun _ => hok.passed hidle,
      fun _ _ => hok.before hidle (Pc.span_of_busy (Pc.reserved_of_attempt hatt) hbusy),
      by simp [hspan], by simp [hspan]⟩
  | reserve old n hm hhead hhts =>
    have hat : (s.loc t).pc.atMove := by
      revert hm
      cases (s.loc t).pc <;> first | exact fun _ => trivial | exact fun h => by cases h
    exact hV.reserve_step hI he hsz hfit hm (hI.at_move hpos hm (hfresh hat) hhead hhts).1 _
  | startTail old n hpc =>
    have hspan : (s.loc t).pc.span = some n := by rw [hpc]; rfl
    refine hV.local_step s.hist.loaded _ (hok.keep hbusy hspan ?_ fun i hi => ?_)
    · unfold updateTailStart
      split <;> rfl
    · rw [hpc] at hi
      have hdone : i = n.toNat * P.cfg.T.words := Nat.le_antisymm hi.1 (remaining_nil hi.2)
      unfold updateTailStart
      split <;> exact hdone
  | copyWord old n cp todo hpc =>
    cases hside : (s.loc t).call.side with
    | prod =>
      have hstep := hV.copy_step hI hpos hpc hside
      simpa only [Local.copyWord, hside, Hist.record] using hstep
    | cons =>
      have hstep := hV.read_step hI hpos hpc hside
      simpa only [Local.copyWord, hside, Hist.record] using hstep
  | wait old n hpc _ =>
    have hspan : (s.loc t).pc.span = some n := by rw [hpc]; rfl
    refine hV.local_step s.hist.loaded _ (hok.keep hbusy hspan rfl fun i hi => ?_)
    rw [hpc] at hi
    exact hi
  | publish old n hpc => exact hV.publish_step hI hpc _

omit [DecidableEq τ] in
theorem Vals.of_init (h : Init P s) : Vals P s := by
  obtain ⟨-, hidle, hresv, hrel⟩ := h
  have hnone : ∀ d p, ¬ p < s.hist.resv d := by
    intro d p
    rw [hresv]
    exact Nat.not_lt_zero p
  refine ⟨⟨fun d p h => absurd h (hnone d p), fun d p h => absurd h (hnone d p),
    fun d p p' _ h => absurd h (hnone d p')⟩, ?_, ?_⟩
  · intro q _ h
    rw [hrel, Nat.zero_mul] at h
    omega
  · intro t
    refine ⟨?_, ?_, ?_, ?_⟩ <;> rw [hidle t]
    · exact fun h => absurd rfl h
    · exact fun h => absurd rfl h
    · nofun
    · nofun

/-- **Value invariant theorem.** -/
theorem Reachable.vals {e : Nat} (he : e ≤ 31) (hsz : P.sz.toNat = 2 ^ e)
    (hrts : ∀ d, P.cfg.sync d ≠ .mtRts)
    (hfit : ∀ m, P.bursts m → Fits P.cfg.T (2 ^ e) (min m.toNat (2 ^ e - 1)))
    (h : (machine W P).Reachable s) : Vals P s := by
  have hpos : 0 < P.sz.toNat := by rw [hsz]; exact Nat.two_pow_pos e
  refine Machine.Reachable.inv (fun s => Vals.of_init) (fun s a hr hV ha => ?_) h
  have hI := Reachable.inv hpos hrts hr
  cases a with
  | call t c => exact hV.call_step hI c
  | exec t => exact hV.exec_step hI he hsz hrts hfit ha

end

end Sqkio.Common.Ring
