import Sqkio.Ring.Step
import Sqkio.Lib.Tile

/-!
# The counters of a ring under any interleaving

`Inv`: the registers hold the unbounded positions modulo `2 ^ 32`, the reservations
of each side tile `[tail, head)`, no side runs past its limit, and every thread's
registers agree with the positions (`ThreadOk`).  An attempt's own knowledge is
"if the head is still where I loaded it, my burst fits" (`ThreadOk.moving`); only the
compare-exchange turns it into a reservation.

    (machine W P).Reachable s → Inv P s          (Reachable.inv)
-/

namespace Sqkio.Common.Ring

open Sqkio.Lib

variable {W τ : Type}

/-- How far the head of a side may go: a producer up to `cons.tail + capacity`, a
consumer up to `prod.tail`. -/
def limit (P : Params τ) (h : Hist τ W) : Side → Nat
  | .prod => h.rel .cons + (P.sz.toNat - 1)
  | .cons => h.rel .prod

/-- The range a thread has reserved on side `d` and not yet released. -/
def held (s : State τ W) (d : Side) (t : τ) : Option (Nat × Nat) :=
  if (s.loc t).call.side = d then
    (s.loc t).pc.reserved.map fun r => (s.hist.start t, r.2.toNat)
  else none

structure ThreadOk (P : Params τ) (h : Hist τ W) (t : τ) (l : Local W) : Prop where
  /-- Only one thread works on an ST side. -/
  st : P.cfg.sync l.call.side = .st → l.pc.isIdle = false → t = P.stThread l.call.side
  burst : l.pc.isIdle = false → P.bursts l.call.n
  attempt : ∀ old, l.pc.attempt = some old → old = UInt32.ofNat (h.loaded t) ∧
    h.loaded t ≤ h.resv l.call.side ∧ h.loaded t ≤ limit P h l.call.side ∧
    (P.cfg.sync l.call.side = .st → h.loaded t = h.resv l.call.side)
  moving : ∀ old n, l.pc.moving = some (old, n) → old = UInt32.ofNat (h.loaded t) ∧
    h.loaded t ≤ h.resv l.call.side ∧ 0 < n.toNat ∧ n ≤ l.call.n ∧
    (h.resv l.call.side = h.loaded t → h.loaded t + n.toNat ≤ limit P h l.call.side) ∧
    (P.cfg.sync l.call.side = .st → h.loaded t = h.resv l.call.side)
  /-- An HTS attempt goes on only with `head = tail`. -/
  hts : ∀ op, l.pc.htsOp = some op → op.head = op.tail
  reserved : ∀ old n, l.pc.reserved = some (old, n) → old = UInt32.ofNat (h.start t) ∧ n ≤ l.call.n ∧
    (P.cfg.sync l.call.side ≠ .mt →
      h.start t = h.rel l.call.side ∧ h.start t + n.toNat = h.resv l.call.side)
  /-- Whoever is about to store the tail is first in line. -/
  store : ∀ old n, l.pc = .storeTail old n → h.start t = h.rel l.call.side

structure Inv (P : Params τ) (s : State τ W) : Prop where
  shape : s.ring.size = P.sz ∧ s.ring.mask = P.sz - 1 ∧ s.ring.capacity = P.sz - 1
  head : ∀ d, (s.ring.ht d).head = UInt32.ofNat (s.hist.resv d)
  tail : ∀ d, (s.ring.ht d).tail = UInt32.ofNat (s.hist.rel d)
  bound : ∀ d, s.hist.resv d ≤ limit P s.hist d
  tiles : ∀ d, Tiles (s.hist.rel d) (s.hist.resv d) (held s d)
  thread : ∀ t, ThreadOk P s.hist t (s.loc t)

/-! ## Small facts -/

theorem ht_setHt_self (r : Ring W) (d : Side) (x : HeadTail) : (r.setHt d x).ht d = x := by
  cases d <;> rfl

theorem ht_setHt_of_ne (r : Ring W) {d d' : Side} (x : HeadTail) (h : d' ≠ d) :
    (r.setHt d x).ht d' = r.ht d' := by
  cases d <;> cases d' <;> first | rfl | exact absurd rfl h

/-- Moving a head leaves the tails, and storing a tail the heads. -/
theorem setHt_head_tail (r : Ring W) (d d' : Side) (x : UInt32) :
    ((r.setHt d { r.ht d with head := x }).ht d').tail = (r.ht d').tail := by
  cases d <;> cases d' <;> rfl

theorem setHt_tail_head (r : Ring W) (d d' : Side) (x : UInt32) :
    ((r.setHt d { r.ht d with tail := x }).ht d').head = (r.ht d').head := by
  cases d <;> cases d' <;> rfl

theorem setHt_shape (r : Ring W) (d : Side) (x : HeadTail) :
    (r.setHt d x).size = r.size ∧ (r.setHt d x).mask = r.mask ∧
      (r.setHt d x).capacity = r.capacity ∧ (r.setHt d x).slots = r.slots := by
  cases d <;> exact ⟨rfl, rfl, rfl, rfl⟩

theorem copyWord_ring (r : Ring W) (c : Call W) (cp : Copy) :
    (Local.copyWord r c cp).1.ht = r.ht ∧ (Local.copyWord r c cp).1.size = r.size ∧
      (Local.copyWord r c cp).1.mask = r.mask ∧ (Local.copyWord r c cp).1.capacity = r.capacity := by
  unfold Local.copyWord
  split <;> exact ⟨rfl, rfl, rfl, rfl⟩

theorem copyWord_call (r : Ring W) (c : Call W) (cp : Copy) :
    (Local.copyWord r c cp).2.side = c.side ∧ (Local.copyWord r c cp).2.n = c.n := by
  unfold Local.copyWord
  split <;> exact ⟨rfl, rfl⟩

theorem clip_le (b : Bool) (n entries : UInt32) : clip b n entries ≤ n := by
  unfold clip
  split
  · next h =>
    split
    · exact UInt32.zero_le
    · exact UInt32.le_of_lt h
  · exact UInt32.le_refl n

theorem clip_le_entries (b : Bool) (n entries : UInt32) : clip b n entries ≤ entries := by
  unfold clip
  split
  · split
    · exact UInt32.zero_le
    · exact UInt32.le_refl _
  · next h => exact UInt32.not_lt.mp h

theorem Pc.busy_of_reserved {pc : Pc} (h : pc.reserved.isSome) : pc.isIdle = false := by
  cases pc <;> first | rfl | cases h

theorem Pc.busy_of_moving {pc : Pc} {r : UInt32 × UInt32} (h : pc.moving = some r) :
    pc.isIdle = false := by
  cases pc <;> first | rfl | cases h

theorem Pc.busy_of_attempt {pc : Pc} {old : UInt32} (h : pc.attempt = some old) :
    pc.isIdle = false := by
  cases pc <;> first | rfl | cases h

theorem Pc.reserved_of_moving {pc : Pc} {r : UInt32 × UInt32} (h : pc.moving = some r) :
    pc.reserved = none := by
  cases pc <;> first | rfl | cases h

theorem Pc.reserved_of_attempt {pc : Pc} {old : UInt32} (h : pc.attempt = some old) :
    pc.reserved = none := by
  cases pc <;> first | rfl | cases h

theorem Pc.reserved_of_idle {pc : Pc} (h : pc.isIdle = true) : pc.reserved = none := by
  cases pc <;> first | rfl | cases h

/-! ## Consequences of the invariant -/

section

variable {P : Params τ} {s : State τ W}

/-- `cons.tail ≤ cons.head ≤ prod.tail ≤ prod.head ≤ cons.tail + capacity`. -/
theorem Inv.chain (h : Inv P s) :
    s.hist.rel .cons ≤ s.hist.resv .cons ∧ s.hist.resv .cons ≤ s.hist.rel .prod ∧
      s.hist.rel .prod ≤ s.hist.resv .prod ∧
      s.hist.resv .prod ≤ s.hist.rel .cons + (P.sz.toNat - 1) :=
  ⟨(h.tiles .cons).le, h.bound .cons, (h.tiles .prod).le, h.bound .prod⟩

/-- A side is never more than the capacity ahead of itself or of its limit. -/
theorem Inv.span (h : Inv P s) (d : Side) :
    s.hist.resv d ≤ s.hist.rel d + (P.sz.toNat - 1) ∧
      limit P s.hist d ≤ s.hist.resv d + (P.sz.toNat - 1) := by
  have := h.chain
  cases d <;> simp only [limit] <;> omega

variable (hsz : 0 < P.sz.toNat)

include hsz in
/-- The count computed from a head at position `p` and the other side's tail. -/
theorem Inv.entries_eq (h : Inv P s) (d : Side) {p : Nat} (hp : p ≤ limit P s.hist d) :
    s.ring.entries d (UInt32.ofNat p) = UInt32.ofNat (limit P s.hist d - p) := by
  have hcap : s.ring.capacity = UInt32.ofNat (P.sz.toNat - 1) := by
    rw [h.shape.2.2, UInt32.ofNat_sub hsz, UInt32.ofNat_toNat]
    rfl
  have hp' := h.tail .prod
  have hc' := h.tail .cons
  simp only [ht] at hp' hc'
  rw [UInt32.ofNat_sub hp]
  cases d with
  | prod =>
    simp only [entries, limit, UInt32.ofNat_add]
    rw [hcap, hc', UInt32.add_comm]
  | cons => simp only [entries, limit, hp']

end

/-! ## Preservation -/

/-- A thread that does not move keeps its invariant when the positions grow. -/
theorem ThreadOk.mono {P : Params τ} {h h' : Hist τ W} {t : τ} {l : Local W} (hok : ThreadOk P h t l)
    (hl : h'.loaded t = h.loaded t) (hs : h'.start t = h.start t)
    (hresv : h.resv l.call.side ≤ h'.resv l.call.side)
    (hlim : limit P h l.call.side ≤ limit P h' l.call.side)
    (hst : P.cfg.sync l.call.side = .st → l.pc.isIdle = false →
      h'.resv l.call.side = h.resv l.call.side)
    (hres : l.pc.reserved.isSome → P.cfg.sync l.call.side ≠ .mt →
      h'.resv l.call.side = h.resv l.call.side)
    (hrel : l.pc.reserved.isSome → h.start t = h.rel l.call.side →
      h'.rel l.call.side = h.rel l.call.side) : ThreadOk P h' t l where
  st := hok.st
  burst := hok.burst
  attempt := by
    intro old ha
    obtain ⟨h1, h2, h3, h4⟩ := hok.attempt old ha
    have hbusy := Pc.busy_of_attempt ha
    rw [hl]
    exact ⟨h1, by omega, by omega, fun h => by rw [hst h hbusy]; exact h4 h⟩
  moving := by
    intro old n hm
    obtain ⟨h1, h2, h3, h4, h5, h6⟩ := hok.moving old n hm
    have hbusy := Pc.busy_of_moving hm
    rw [hl]
    refine ⟨h1, by omega, h3, h4, fun h => ?_, fun h => by rw [hst h hbusy]; exact h6 h⟩
    have := h5 (by omega)
    omega
  hts := hok.hts
  reserved := by
    intro old n hr
    have hsome : l.pc.reserved.isSome := by rw [hr]; rfl
    obtain ⟨h1, h2, h3⟩ := hok.reserved old n hr
    rw [hs]
    refine ⟨h1, h2, fun h => ?_⟩
    obtain ⟨h4, h5⟩ := h3 h
    rw [hrel hsome h4, hres hsome h]
    exact ⟨h4, h5⟩
  store := by
    intro old n hpc
    have h1 := hok.store old n hpc
    rw [hs, hrel (by rw [hpc]; rfl) h1]
    exact h1

section

variable {P : Params τ} {s : State τ W} {t : τ}

/-- With an attempt's head still in place, and on an ST or HTS side nobody else's
reservation open: what a successful compare-exchange or ST store knows. -/
theorem Inv.at_move (hI : Inv P s) (hsz : 0 < P.sz.toNat) {old n : UInt32}
    (hm : (s.loc t).pc.moving = some (old, n)) (hfresh : Fresh P s t)
    (hhead : P.cfg.sync (s.loc t).call.side = .st ∨ (s.ring.ht (s.loc t).call.side).head = old)
    (hhts : P.cfg.sync (s.loc t).call.side = .mtHts →
      ∃ op, (s.loc t).pc.htsOp = some op ∧ s.ring.ht (s.loc t).call.side = op) :
    s.hist.loaded t = s.hist.resv (s.loc t).call.side ∧
      (P.cfg.sync (s.loc t).call.side ≠ .mt → P.cfg.sync (s.loc t).call.side ≠ .mtRts →
        s.hist.rel (s.loc t).call.side = s.hist.resv (s.loc t).call.side) := by
  obtain ⟨hold, hle, -, -, -, hst⟩ := (hI.thread t).moving old n hm
  have htiles := hI.tiles (s.loc t).call.side
  have hspan := (hI.span (s.loc t).call.side).1
  have hsz' := P.sz.toNat_lt
  have hload : s.hist.loaded t = s.hist.resv (s.loc t).call.side := by
    rcases hhead with h | h
    · exact hst h
    · unfold Fresh at hfresh
      rw [hI.head, hold] at h
      exact ofNat_inj_window hle (by omega) h.symm
  refine ⟨hload, fun hmt hrts => ?_⟩
  cases hs : P.cfg.sync (s.loc t).call.side with
  | mt => exact absurd hs hmt
  | mtRts => exact absurd hs hrts
  | mtHts =>
    -- the pair compared equal to a pair with `head = tail`
    obtain ⟨op, hop, heq⟩ := hhts hs
    have hpair := (hI.thread t).hts op hop
    rw [← heq, hI.head, hI.tail] at hpair
    exact ofNat_inj_window htiles.le (by omega) hpair.symm
  | st =>
    -- whoever holds a range on this side is the one thread of the side, that is `t`
    apply Classical.byContradiction
    intro hne
    have := htiles.le
    obtain ⟨u, a, m, hu, -, -⟩ := htiles.cover _ (Nat.le_refl _) (by omega)
    unfold held at hu
    split at hu
    · next hside =>
      have hur : (s.loc u).pc.reserved.isSome := by
        cases hr : (s.loc u).pc.reserved with
        | none => rw [hr] at hu; cases hu
        | some _ => rfl
      have h1 := (hI.thread u).st (by rw [hside]; exact hs) (Pc.busy_of_reserved hur)
      have h2 := (hI.thread t).st hs (Pc.busy_of_moving hm)
      have hut : u = t := by rw [h1, h2, hside]
      rw [hut, Pc.reserved_of_moving hm] at hur
      cases hur
    · cases hu

end

variable [DecidableEq τ]

/-- The held ranges after thread `t` has moved. -/
theorem held_update (s : State τ W) (r : Ring W) (h : Hist τ W) (t : τ) (l' : Local W) (d : Side)
    (hstart : ∀ u, u ≠ t → h.start u = s.hist.start u) :
    held { ring := r, loc := Function.update s.loc t l', hist := h } d =
      Function.update (held s d) t
        (if l'.call.side = d then l'.pc.reserved.map fun r => (h.start t, r.2.toNat) else none) := by
  funext u
  by_cases hu : u = t
  · subst hu
    simp [held]
  · simp [held, hu, hstart u hu]

section

variable {P : Params τ} {s : State τ W} {t : τ}

/-- A step that moves no counter: a load, a judgement, a copy, a wait, a new call. -/
theorem Inv.local_step (hI : Inv P s) (r : Ring W) (l' : Local W) (h : Hist τ W)
    (hshape : r.size = s.ring.size ∧ r.mask = s.ring.mask ∧ r.capacity = s.ring.capacity)
    (hht : r.ht = s.ring.ht) (hresv : h.resv = s.hist.resv) (hrel : h.rel = s.hist.rel)
    (hloaded : ∀ u, u ≠ t → h.loaded u = s.hist.loaded u) (hstart : h.start = s.hist.start)
    (hheld : ((s.loc t).pc.reserved = none ∧ l'.pc.reserved = none) ∨
      (l'.call.side = (s.loc t).call.side ∧ l'.pc.reserved = (s.loc t).pc.reserved))
    (hok : ThreadOk P h t l') :
    Inv P { ring := r, loc := Function.update s.loc t l', hist := h } where
  shape := by rw [hshape.1, hshape.2.1, hshape.2.2]; exact hI.shape
  head := by intro d; simp only [hht, hresv]; exact hI.head d
  tail := by intro d; simp only [hht, hrel]; exact hI.tail d
  bound := by
    intro d
    have := hI.bound d
    cases d <;> simp only [limit, hresv, hrel] at this ⊢ <;> exact this
  tiles := by
    intro d
    rw [held_update _ _ _ _ _ _ fun u _ => by rw [hstart]]
    simp only [hresv, hrel]
    have hsame : (if l'.call.side = d then l'.pc.reserved.map fun r => (h.start t, r.2.toNat)
        else none) = held s d t := by
      rcases hheld with ⟨h1, h2⟩ | ⟨h1, h2⟩
      · simp [held, h1, h2]
      · simp [held, h1, h2, hstart]
    rw [hsame, Function.update_eq_self]
    exact hI.tiles d
  thread := by
    intro u
    by_cases hu : u = t
    · subst hu
      simpa using hok
    · simp only [Function.update_of_ne hu]
      have hlim : ∀ d, limit P h d = limit P s.hist d := by
        intro d
        cases d <;> simp only [limit, hrel]
      exact (hI.thread u).mono (hloaded u hu) (by rw [hstart]) (by rw [hresv]) (by rw [hlim])
        (fun _ _ => by rw [hresv]) (fun _ _ => by rw [hresv]) (fun _ _ => by rw [hrel])

/-- **Reservation.**  A step that moves the head of `t`'s side over `n` positions. -/
theorem Inv.reserve_step (hI : Inv P s) (hsz : 0 < P.sz.toNat) (hrts : ∀ d, P.cfg.sync d ≠ .mtRts)
    {old n : UInt32} (hm : (s.loc t).pc.moving = some (old, n)) (hfresh : Fresh P s t)
    (hhead : P.cfg.sync (s.loc t).call.side = .st ∨ (s.ring.ht (s.loc t).call.side).head = old)
    (hhts : P.cfg.sync (s.loc t).call.side = .mtHts →
      ∃ op, (s.loc t).pc.htsOp = some op ∧ s.ring.ht (s.loc t).call.side = op)
    (todo : List Copy) :
    Inv P { ring := s.ring.setHt (s.loc t).call.side
              { s.ring.ht (s.loc t).call.side with head := old + n }
            loc := Function.update s.loc t { s.loc t with pc := .copy old n todo }
            hist := s.hist.record t (s.loc t).call.side (.reserve n) } := by
  obtain ⟨hload, hwhole⟩ := hI.at_move hsz hm hfresh hhead hhts
  obtain ⟨hold, -, hn, hnle, hfit, -⟩ := (hI.thread t).moving old n hm
  have hlim := hfit hload.symm
  have hnone := Pc.reserved_of_moving hm
  have hbusy := Pc.busy_of_moving hm
  generalize hd : (s.loc t).call.side = d at *
  rw [hload] at hold hlim
  have hlimit : ∀ d', limit P (s.hist.record t d (.reserve n)) d' =
      limit P s.hist d' := fun d' => by cases d' <;> rfl
  refine ⟨?_, ?_, ?_, ?_, ?_, ?_⟩
  · obtain ⟨h1, h2, h3, -⟩ := setHt_shape s.ring d { s.ring.ht d with head := old + n }
    simp only [h1, h2, h3]
    exact hI.shape
  · intro d'
    by_cases hdd : d' = d
    · subst hdd
      simp only [ht_setHt_self, Hist.record, Function.update_self, UInt32.ofNat_add,
        UInt32.ofNat_toNat, hold]
    · simp only [ht_setHt_of_ne _ _ hdd, Hist.record, Function.update_of_ne hdd]
      exact hI.head d'
  · intro d'
    simp only [setHt_head_tail, Hist.record]
    exact hI.tail d'
  · intro d'
    rw [hlimit]
    by_cases hdd : d' = d
    · subst hdd
      simpa [Hist.record, hd] using hlim
    · simpa [Hist.record, hd, hdd] using hI.bound d'
  · intro d'
    rw [held_update _ _ _ _ _ _ fun u hu => by simp [Hist.record, hu]]
    by_cases hdd : d' = d
    · subst hdd
      have := (hI.tiles d').take t (by simp [held, hnone]) hn
      simpa [Hist.record, hd, Pc.reserved] using this
    · have hside : ¬ (s.loc t).call.side = d' := by rw [hd]; exact Ne.symm hdd
      simp only [hside, if_false]
      have hsame : held s d' t = none := by simp [held, hside]
      rw [← hsame, Function.update_eq_self]
      simpa [Hist.record, hd, hdd] using hI.tiles d'
  · intro u
    by_cases hu : u = t
    · subst hu
      simp only [Function.update_self]
      refine ⟨?_, ?_, nofun, nofun, nofun, ?_, nofun⟩
      · intro h _
        exact (hI.thread u).st h hbusy
      · intro _
        exact (hI.thread u).burst hbusy
      · intro old' n' hr
        simp only [Pc.reserved, Option.some.injEq, Prod.mk.injEq] at hr
        obtain ⟨rfl, rfl⟩ := hr
        simp only [Hist.record, hd, Function.update_self]
        exact ⟨hold, hnle, fun h => ⟨(hwhole h (hrts d)).symm, trivial⟩⟩
    · simp only [Function.update_of_ne hu]
      -- nobody else can be inside an ST or HTS side
      have hother : (s.loc u).call.side = d → P.cfg.sync d ≠ .mt → (s.loc u).pc.reserved = none := by
        intro hside hne
        have h := (hI.tiles d).none_of_eq (hwhole hne (hrts d)) u
        simpa [held, hside] using h
      refine (hI.thread u).mono (by simp [Hist.record]) (by simp [Hist.record, hu]) ?_
        (by rw [hlimit]) ?_ ?_ (fun _ _ => rfl)
      · by_cases hside : (s.loc u).call.side = d
        · simp [Hist.record, hside]
        · simp [Hist.record, hside]
      · intro hst hb
        by_cases hside : (s.loc u).call.side = d
        · have h1 := (hI.thread u).st hst hb
          have h2 := (hI.thread t).st (by rw [hd, ← hside]; exact hst) hbusy
          exact absurd (by rw [h1, h2, hd, hside]) hu
        · simp [Hist.record, hside]
      · intro hr hne
        by_cases hside : (s.loc u).call.side = d
        · rw [hother hside (by rwa [hside] at hne)] at hr
          cases hr
        · simp [Hist.record, hside]

/-- **Release.**  The thread first in line stores the tail. -/
theorem Inv.publish_step (hI : Inv P s) {old n : UInt32}
    (hpc : (s.loc t).pc = .storeTail old n) :
    Inv P { ring := s.ring.setHt (s.loc t).call.side
              { s.ring.ht (s.loc t).call.side with tail := old + n }
            loc := Function.update s.loc t { s.loc t with pc := .done n }
            hist := s.hist.record t (s.loc t).call.side (.publish n) } := by
  have hres : (s.loc t).pc.reserved = some (old, n) := by rw [hpc]; rfl
  have hfirst := (hI.thread t).store old n hpc
  obtain ⟨hold, -, -⟩ := (hI.thread t).reserved old n hres
  have hbusy : (s.loc t).pc.isIdle = false := Pc.busy_of_reserved (by rw [hres]; rfl)
  generalize hd : (s.loc t).call.side = d at *
  rw [hfirst] at hold
  have hheld : held s d t = some (s.hist.rel d, n.toNat) := by simp [held, hd, hres, hfirst]
  have hgive := (hI.tiles d).give t hheld
  have hrel : ∀ d', d' ≠ d → (s.hist.record t d (.publish n)).rel d' =
      s.hist.rel d' := fun d' h => by simp [Hist.record, h]
  have hlimit : ∀ d', limit P s.hist d' ≤
      limit P (s.hist.record t d (.publish n)) d' := by
    intro d'
    cases d' <;> cases d <;> simp [limit, Hist.record]
  refine ⟨?_, ?_, ?_, ?_, ?_, ?_⟩
  · obtain ⟨h1, h2, h3, -⟩ := setHt_shape s.ring d { s.ring.ht d with tail := old + n }
    simp only [h1, h2, h3]
    exact hI.shape
  · intro d'
    simp only [setHt_tail_head, Hist.record]
    exact hI.head d'
  · intro d'
    by_cases hdd : d' = d
    · subst hdd
      simp only [ht_setHt_self, Hist.record, Function.update_self, UInt32.ofNat_add,
        UInt32.ofNat_toNat, hold]
    · simp only [ht_setHt_of_ne _ _ hdd, hrel d' hdd]
      exact hI.tail d'
  · intro d'
    exact Nat.le_trans (hI.bound d') (hlimit d')
  · intro d'
    rw [held_update s _ (s.hist.record t d (.publish n)) t _ d' fun u _ => rfl]
    by_cases hdd : d' = d
    · subst hdd
      simpa [Hist.record, hd, Pc.reserved] using hgive
    · have hside : ¬ (s.loc t).call.side = d' := by rw [hd]; exact Ne.symm hdd
      simp only [hside, if_false, hrel d' hdd]
      have hsame : held s d' t = none := by simp [held, hside]
      rw [← hsame, Function.update_eq_self]
      exact hI.tiles d'
  · intro u
    by_cases hu : u = t
    · subst hu
      simp only [Function.update_self]
      exact ⟨nofun, nofun, nofun, nofun, nofun, nofun, nofun⟩
    · simp only [Function.update_of_ne hu]
      refine (hI.thread u).mono rfl rfl (Nat.le_refl _) (hlimit _) (fun _ _ => rfl) (fun _ _ => rfl) ?_
      intro hr hstart
      by_cases hside : (s.loc u).call.side = d
      · -- two threads would hold the first position
        exfalso
        obtain ⟨r, hru⟩ := Option.isSome_iff_exists.mp hr
        have hpos : 0 < r.2.toNat :=
          ((hI.tiles d).bounds u (s.hist.start u) r.2.toNat (by simp [held, hside, hru])).2.1
        have hpos' := ((hI.tiles d).bounds t _ _ hheld).2.1
        exact hu ((hI.tiles d).holder_unique
          ⟨s.hist.start u, r.2.toNat, by simp [held, hside, hru], Nat.le_refl _, by omega⟩
          ⟨_, _, hheld, by rw [hstart, hside], by rw [hstart, hside]; omega⟩)
      · exact hrel _ hside

/-- A thread outside a call starts one. -/
theorem Inv.call_step (hI : Inv P s) {c : Call W} (he : Enabled P s (.call t c)) :
    Inv P (next P s (.call t c)) := by
  obtain ⟨hidle, hburst, hst⟩ := he
  have hpc : ∀ pc, (Local.start P.cfg c).pc = pc → pc.reserved = none ∧ pc.moving = none ∧
      pc.attempt = none ∧ pc.htsOp = none := by
    rintro pc rfl
    unfold Local.start
    cases P.cfg.sync c.side <;> exact ⟨rfl, rfl, rfl, rfl⟩
  obtain ⟨h1, h2, h3, h4⟩ := hpc _ rfl
  refine hI.local_step s.ring _ _ ⟨rfl, rfl, rfl⟩ rfl rfl rfl (fun _ _ => rfl) rfl
    (Or.inl ⟨Pc.reserved_of_idle hidle, h1⟩) ?_
  exact {
    st := fun h _ => hst h
    burst := fun _ => hburst
    attempt := by rw [h3]; nofun
    moving := by rw [h2]; nofun
    hts := by rw [h4]; nofun
    reserved := by rw [h1]; nofun
    store := by
      intro old n h
      rw [h] at h1
      cases h1 }

/-- A load of the head is what the next attempt starts from. -/
theorem Inv.load_ok (hI : Inv P s) {pc' : Pc} (hidle : (s.loc t).pc.isIdle = false) (hres' : pc'.reserved = none)
    (hmov' : pc'.moving = none)
    (hatt : ∀ old, pc'.attempt = some old → old = (s.ring.ht (s.loc t).call.side).head)
    (hhts : ∀ op, pc'.htsOp = some op → op.head = op.tail) :
    ThreadOk P (s.hist.record t (s.loc t).call.side .load) t { s.loc t with pc := pc' } where
  st h _ := (hI.thread t).st h hidle
  burst _ := (hI.thread t).burst hidle
  attempt := by
    intro old ha
    simp only [Hist.record, Function.update_self]
    exact ⟨by rw [hatt old ha, hI.head], Nat.le_refl _, hI.bound _, fun _ => trivial⟩
  moving := by simp only [hmov']; nofun
  hts := hhts
  reserved := by simp only [hres']; nofun
  store := by
    intro old n h
    simp only at h
    rw [h] at hres'
    cases hres'

omit [DecidableEq τ] in
/-- The count that was judged is exact if the head has not moved since it was loaded. -/
theorem Inv.decide_ok (hI : Inv P s) (hsz : 0 < P.sz.toNat) {old n : UInt32} {pc' : Pc}
    (hatt : (s.loc t).pc.attempt = some old)
    (hn : n = clip (P.cfg.transactional (s.loc t).call.side) (s.loc t).call.n
      (s.ring.entries (s.loc t).call.side old)) (hn0 : n ≠ 0)
    (hmov' : pc'.moving = some (old, n)) (hatt' : pc'.attempt = none) (hres' : pc'.reserved = none)
    (hhts' : pc'.htsOp = (s.loc t).pc.htsOp) : ThreadOk P s.hist t { s.loc t with pc := pc' } := by
  have hok := hI.thread t
  have hbusy := Pc.busy_of_attempt hatt
  obtain ⟨hold, hle, hlim, hst⟩ := hok.attempt old hatt
  exact {
    st := fun h _ => hok.st h hbusy
    burst := fun _ => hok.burst hbusy
    attempt := by simp only [hatt']; nofun
    moving := by
      intro old' n' hm
      simp only [hmov', Option.some.injEq, Prod.mk.injEq] at hm
      obtain ⟨rfl, rfl⟩ := hm
      refine ⟨hold, hle, toNat_pos_of_ne hn0, by rw [hn]; exact clip_le _ _ _, ?_, hst⟩
      intro hhead
      have hent := clip_le_entries (P.cfg.transactional (s.loc t).call.side) (s.loc t).call.n
        (s.ring.entries (s.loc t).call.side old)
      have hspan := (hI.span (s.loc t).call.side).2
      have hlt := P.sz.toNat_lt
      rw [← hn, UInt32.le_iff_toNat_le, hold, hI.entries_eq hsz _ hlim, ofNat_toNat] at hent
      simp only at hhead ⊢
      omega
    hts := by simp only [hhts']; exact hok.hts
    reserved := by simp only [hres']; nofun
    store := by
      intro old' n' h
      simp only at h
      rw [h] at hres'
      cases hres' }

omit [DecidableEq τ] in
/-- A thread that has reserved keeps its reservation until it publishes: through the copies and the
wait for its predecessors. -/
theorem ThreadOk.keep {h : Hist τ W} {l l' : Local W} (hok : ThreadOk P h t l) {old n : UInt32}
    (hres : l.pc.reserved = some (old, n)) (hres' : l'.pc.reserved = some (old, n))
    (hside : l'.call.side = l.call.side) (hn : l'.call.n = l.call.n) (hhts : l'.pc.htsOp = none)
    (hstore : ∀ old' n', l'.pc = .storeTail old' n' → h.start t = h.rel l.call.side) :
    ThreadOk P h t l' := by
  have hbusy : l.pc.isIdle = false := Pc.busy_of_reserved (by rw [hres]; rfl)
  exact {
    st := by
      rw [hside]
      exact fun h _ => hok.st h hbusy
    burst := by
      rw [hn]
      exact fun _ => hok.burst hbusy
    attempt := by
      intro old' h
      exact absurd (Pc.reserved_of_attempt h) (by rw [hres']; nofun)
    moving := by
      intro old' n' h
      exact absurd (Pc.reserved_of_moving h) (by rw [hres']; nofun)
    hts := by rw [hhts]; nofun
    reserved := by
      rw [hres', ← hres, hside, hn]
      exact hok.reserved
    store := by
      rw [hside]
      exact hstore }

omit [DecidableEq τ] in
/-- Equal registers are equal positions: at most `size - 1` are outstanding. -/
theorem Inv.start_eq_rel (hI : Inv P s) {old n : UInt32} (hres : (s.loc t).pc.reserved = some (old, n))
    (heq : (s.ring.ht (s.loc t).call.side).tail = old) :
    s.hist.start t = s.hist.rel (s.loc t).call.side := by
  have hb := (hI.tiles (s.loc t).call.side).bounds t (s.hist.start t) n.toNat (by simp [held, hres])
  have hspan := (hI.span (s.loc t).call.side).1
  have hlt := P.sz.toNat_lt
  rw [hI.tail, ((hI.thread t).reserved old n hres).1] at heq
  exact (ofNat_inj_window hb.1 (by omega) heq).symm

/-- **Step lemma of the invariant**, one case for each outcome of an access. -/
theorem Inv.exec_step (hI : Inv P s) (hsz : 0 < P.sz.toNat) (hrts : ∀ d, P.cfg.sync d ≠ .mtRts)
    (he : Enabled P s (.exec t)) : Inv P (next P s (.exec t)) := by
  obtain ⟨hbusy, hfresh⟩ := he
  have hok := hI.thread t
  have hspec := step_spec P.cfg hrts s.ring (s.loc t)
  simp only [next]
  generalize (s.loc t).step P.cfg s.ring = m at hspec ⊢
  cases hspec with
  | noop =>
    exact hI.local_step s.ring _ _ ⟨rfl, rfl, rfl⟩ rfl rfl rfl (fun _ _ => rfl) rfl
      (Or.inr ⟨rfl, rfl⟩) hok
  | load pc' hres hidle hres' hmov' hidle' hatt hhts =>
    exact hI.local_step s.ring _ _ ⟨rfl, rfl, rfl⟩ rfl rfl rfl
      (fun u hu => by simp [Hist.record, hu]) rfl (Or.inl ⟨hres, hres'⟩)
      (hI.load_ok hidle hres' hmov' hatt hhts)
  | fail old _ _ =>
    refine hI.local_step s.ring _ _ ⟨rfl, rfl, rfl⟩ rfl rfl rfl (fun _ _ => rfl) rfl
      (Or.inl ⟨Pc.reserved_of_attempt ‹_›, rfl⟩) ?_
    exact ⟨nofun, nofun, nofun, nofun, nofun, nofun, nofun⟩
  | decide old n pc' hatt hn hn0 hmov' hatt' hres' hidle' hhts' =>
    exact hI.local_step s.ring _ _ ⟨rfl, rfl, rfl⟩ rfl rfl rfl (fun _ _ => rfl) rfl
      (Or.inl ⟨Pc.reserved_of_attempt hatt, hres'⟩)
      (hI.decide_ok hsz hatt hn hn0 hmov' hatt' hres' hhts')
  | reserve old n hm hhead hhts =>
    refine hI.reserve_step hsz hrts hm (hfresh ?_) hhead hhts _
    revert hm
    cases (s.loc t).pc <;> first | exact fun _ => trivial | nofun
  | startTail old n hpc =>
    have hres : (s.loc t).pc.reserved = some (old, n) := by rw [hpc]; rfl
    have hres' : (updateTailStart (P.cfg.sync (s.loc t).call.side) old n).reserved = some (old, n) := by
      unfold updateTailStart
      split <;> rfl
    refine hI.local_step s.ring _ _ ⟨rfl, rfl, rfl⟩ rfl rfl rfl (fun _ _ => rfl) rfl
      (Or.inr ⟨rfl, by rw [hres]; exact hres'⟩) (hok.keep hres hres' rfl rfl ?_ ?_)
    · unfold updateTailStart
      split <;> rfl
    · -- only an ST or HTS call stores without a wait, and its range is the next one
      intro old' n' h
      unfold updateTailStart at h
      split at h
      · cases h
      · next hne => exact ((hok.reserved old n hres).2.2 hne).1
  | copyWord old n cp todo hpc =>
    obtain ⟨hht, hr1, hr2, hr3⟩ := copyWord_ring s.ring (s.loc t).call cp
    obtain ⟨hside, hn⟩ := copyWord_call s.ring (s.loc t).call cp
    have hres : (s.loc t).pc.reserved = some (old, n) := by rw [hpc]; rfl
    exact hI.local_step _ _ _ ⟨hr1, hr2, hr3⟩ hht rfl rfl (fun _ _ => rfl) rfl
      (Or.inr ⟨hside, by rw [hres]; rfl⟩) (hok.keep hres rfl hside hn rfl nofun)
  | wait old n hpc heq =>
    have hres : (s.loc t).pc.reserved = some (old, n) := by rw [hpc]; rfl
    exact hI.local_step s.ring _ _ ⟨rfl, rfl, rfl⟩ rfl rfl rfl (fun _ _ => rfl) rfl
      (Or.inr ⟨rfl, by rw [hres]; rfl⟩)
      (hok.keep hres rfl rfl rfl rfl fun _ _ _ => hI.start_eq_rel hres heq)
  | publish old n hpc => exact hI.publish_step hpc

omit [DecidableEq τ] in
theorem Inv.of_init (h : Init P s) : Inv P s := by
  obtain ⟨⟨slots, hring⟩, hidle, hresv, hrel⟩ := h
  have hnone : ∀ d, held s d = fun _ => none := by
    intro d
    funext t
    simp [held, hidle t, Pc.reserved]
  refine ⟨?_, ?_, ?_, ?_, ?_, ?_⟩
  · rw [hring]
    exact ⟨rfl, rfl, rfl⟩
  · intro d
    rw [hring, hresv]
    cases d <;> rfl
  · intro d
    rw [hring, hrel]
    cases d <;> rfl
  · intro d
    rw [hresv]
    exact Nat.zero_le _
  · intro d
    rw [hnone, hresv, hrel]
    exact Tiles.empty 0
  · intro t
    refine ⟨?_, ?_, ?_, ?_, ?_, ?_, ?_⟩ <;> rw [hidle t] <;> nofun

/-- **Invariant theorem.**  The counters invariant holds in every reachable state. -/
theorem Reachable.inv (hsz : 0 < P.sz.toNat) (hrts : ∀ d, P.cfg.sync d ≠ .mtRts)
    (h : (machine W P).Reachable s) : Inv P s := by
  refine Machine.Reachable.inv (fun s => Inv.of_init) (fun s a _ hI he => ?_) h
  cases a with
  | call t c => exact hI.call_step he
  | exec t => exact hI.exec_step hsz hrts he

end

end Sqkio.Common.Ring
