import Sqkio.Ring.Step
import Sqkio.Lib.Fifo

/-!
# Calls made one after another

`exec` lets one call make its accesses in a row; `callAlone` is a whole call of one
element.  On a quiet ring (no call in flight) every call returns, and what it does is
the same for ST, MT and HTS sides (`callAlone_quiet`): nothing if there is no entry,
otherwise the copies of its plan and one position more on its side.
-/

namespace Sqkio.Common.Ring

open Sqkio.Lib

variable {W : Type}

/-- The slot word that the next access of a call touches. -/
def Local.touches (l : Local W) : Option Nat :=
  match l.pc with
  | .copy _ _ (cp :: _) => some cp.ring
  | _ => none

/-- Up to `fuel` accesses of one call; also the slot words they touch. -/
def exec (cfg : Config) : Nat → Ring W → Local W → Ring W × Local W × List Nat
  | 0, r, l => (r, l, [])
  | fuel + 1, r, l =>
    if l.pc.isIdle then (r, l, [])
    else
      let m := l.step cfg r
      let e := exec cfg fuel m.1 m.2.1
      (e.1, e.2.1, l.touches.toList ++ e.2.2)

/-- What a call leaves behind: the count it returns, the caller's entry and the slot words
it touched. -/
structure Reply (W : Type) where
  ret : UInt32
  obj : Nat → W
  touched : List Nat

/-- A whole call of `enqueue` or `dequeue` with no other call in between; `none` if it
does not return (RTS: `assert(0)`). -/
def callAlone (cfg : Config) (r : Ring W) (c : Call W) : Ring W × Option (Reply W) :=
  -- four accesses up to the head, the copies, three up to the tail
  let e := exec cfg (cfg.T.k + 16) r (Local.start cfg c)
  (e.1, match e.2.1.pc with
    | .done n => some ⟨n, e.2.1.call.obj, e.2.2⟩
    | _ => none)

inductive Op (W : Type)
  | enqueue (entry : Nat → W)
  | dequeue (entry : Nat → W)

def Op.call : Op W → Call W
  | .enqueue entry => ⟨.prod, 1, entry⟩
  | .dequeue entry => ⟨.cons, 1, entry⟩

/-- One public call: `enqueue(entry)` or `dequeue(entry)`. -/
def seqStep (cfg : Config) (r : Ring W) (op : Op W) : Ring W × Option (Reply W) :=
  callAlone cfg r op.call

/-! ## What the copies do -/

/-- Words `0, …, n - 1` of `obj` written to the slot words `f 0, …, f (n - 1)`, in order. -/
def writeWords (slots : Nat → W) (obj : Nat → W) (f : Nat → Nat) (n : Nat) : Nat → W :=
  (List.range n).foldl (fun m i => Function.update m (f i) (obj i)) slots

/-- Words `0, …, n - 1` of `obj` read from the slot words `f 0, …, f (n - 1)`. -/
def readWords (slots : Nat → W) (obj : Nat → W) (f : Nat → Nat) (n : Nat) : Nat → W :=
  fun i => if i < n then slots (f i) else obj i

theorem writeWords_succ (slots obj : Nat → W) (f : Nat → Nat) (n : Nat) :
    writeWords slots obj f (n + 1) = Function.update (writeWords slots obj f n) (f n) (obj n) := by
  simp [writeWords, List.range_succ]

theorem writeWords_of_ne (slots obj : Nat → W) (f : Nat → Nat) (n : Nat) {y : Nat}
    (h : ∀ i, i < n → f i ≠ y) : writeWords slots obj f n y = slots y := by
  induction n with
  | zero => rfl
  | succ n ih =>
    rw [writeWords_succ, Function.update_of_ne (Ne.symm (h n (Nat.lt_succ_self n)))]
    exact ih fun i hi => h i (Nat.lt_succ_of_lt hi)

/-- If from index `a` on all writes to `y` write `v` and there is one, `y` ends up as `v`. -/
theorem writeWords_eq (slots obj : Nat → W) (f : Nat → Nat) (n : Nat) {a y : Nat} {v : W}
    (hex : ∃ i, a ≤ i ∧ i < n ∧ f i = y) (hall : ∀ i, a ≤ i → i < n → f i = y → obj i = v) :
    writeWords slots obj f n y = v := by
  induction n with
  | zero =>
    obtain ⟨i, -, h, -⟩ := hex
    omega
  | succ n ih =>
    rw [writeWords_succ]
    by_cases hy : f n = y
    · rw [hy, Function.update_self]
      obtain ⟨i, h1, h2, -⟩ := hex
      exact hall n (by omega) (Nat.lt_succ_self n) hy
    · rw [Function.update_of_ne (Ne.symm hy)]
      obtain ⟨i, h1, h2, h3⟩ := hex
      have hi : i ≠ n := by
        rintro rfl
        exact hy h3
      exact ih ⟨i, h1, by omega, h3⟩ fun j h4 h5 => hall j h4 (by omega)

/-- The copies of a plan, one after the other. -/
def runPlan (r : Ring W) (c : Call W) (plan : List Copy) : Ring W × Call W :=
  plan.foldl (fun m cp => Local.copyWord m.1 m.2 cp) (r, c)

theorem runPlan_prod (r : Ring W) (c : Call W) (f : Nat → Nat) (n : Nat) (hd : c.side = .prod) :
    runPlan r c ((List.range n).map fun i => ⟨f i, i⟩) =
      ({ r with slots := writeWords r.slots c.obj f n }, c) := by
  induction n with
  | zero => rfl
  | succ n ih =>
    rw [List.range_succ, List.map_append, runPlan, List.foldl_append]
    rw [runPlan] at ih
    rw [ih, writeWords_succ]
    simp only [List.map_cons, List.map_nil, List.foldl_cons, List.foldl_nil, Local.copyWord, hd]

theorem runPlan_cons (r : Ring W) (c : Call W) (f : Nat → Nat) (n : Nat) (hd : c.side = .cons) :
    runPlan r c ((List.range n).map fun i => ⟨f i, i⟩) =
      (r, { c with obj := readWords r.slots c.obj f n }) := by
  induction n with
  | zero =>
    have hobj : readWords r.slots c.obj f 0 = c.obj := by
      funext i
      simp [readWords]
    rw [hobj]
    rfl
  | succ n ih =>
    rw [List.range_succ, List.map_append, runPlan, List.foldl_append]
    rw [runPlan] at ih
    rw [ih]
    simp only [List.map_cons, List.map_nil, List.foldl_cons, List.foldl_nil, Local.copyWord, hd]
    congr 2
    funext i
    by_cases hi : i = n
    · subst hi
      simp [readWords]
    · rw [Function.update_of_ne hi]
      have hlt : i < n ↔ i < n + 1 := by omega
      simp only [readWords, hlt]

theorem runPlan_ring (r : Ring W) (c : Call W) (plan : List Copy) :
    (runPlan r c plan).1.ht = r.ht ∧ (runPlan r c plan).2.side = c.side := by
  induction plan generalizing r c with
  | nil => exact ⟨rfl, rfl⟩
  | cons cp plan ih =>
    have hstep : runPlan r c (cp :: plan) =
        runPlan (Local.copyWord r c cp).1 (Local.copyWord r c cp).2 plan := rfl
    obtain ⟨h1, h2⟩ := ih (Local.copyWord r c cp).1 (Local.copyWord r c cp).2
    rw [hstep, h1, h2]
    unfold Local.copyWord
    split <;> exact ⟨rfl, rfl⟩

/-! ## Running one call -/

theorem exec_idle (cfg : Config) (fuel : Nat) (r : Ring W) {l : Local W} (h : l.pc.isIdle = true) :
    exec cfg fuel r l = (r, l, []) := by
  cases fuel with
  | zero => rfl
  | succ fuel => rw [exec, if_pos h]

/-- An access that touches no slot word. -/
theorem exec_access {cfg : Config} {fuel : Nat} {r : Ring W} {l : Local W}
    (hidle : l.pc.isIdle = false) (htouch : l.touches = none) :
    exec cfg (fuel + 1) r l = exec cfg fuel (l.step cfg r).1 (l.step cfg r).2.1 := by
  rw [exec, if_neg (by rw [hidle]; nofun), htouch]
  rfl

theorem exec_next {cfg : Config} {fuel : Nat} {r r' : Ring W} {l l' : Local W} {ev : Event}
    (hidle : l.pc.isIdle = false) (htouch : l.touches = none) (hstep : l.step cfg r = (r', l', ev)) :
    exec cfg (fuel + 1) r l = exec cfg fuel r' l' := by
  rw [exec_access hidle htouch, hstep]

/-- The first copies of a plan. -/
theorem exec_copies (cfg : Config) (fuel : Nat) (r : Ring W) (c : Call W) (old n : UInt32)
    (plan rest : List Copy) :
    exec cfg (plan.length + fuel) r ⟨c, .copy old n (plan ++ rest)⟩ =
      ((exec cfg fuel (runPlan r c plan).1 ⟨(runPlan r c plan).2, .copy old n rest⟩).1,
        (exec cfg fuel (runPlan r c plan).1 ⟨(runPlan r c plan).2, .copy old n rest⟩).2.1,
        plan.map Copy.ring ++
          (exec cfg fuel (runPlan r c plan).1 ⟨(runPlan r c plan).2, .copy old n rest⟩).2.2) := by
  induction plan generalizing r c with
  | nil => simp only [List.length_nil, Nat.zero_add, runPlan, List.foldl_nil, List.map_nil,
      List.nil_append]
  | cons cp plan ih =>
    have hstep : runPlan r c (cp :: plan) =
        runPlan (Local.copyWord r c cp).1 (Local.copyWord r c cp).2 plan := rfl
    rw [List.length_cons, Nat.add_right_comm, List.cons_append, exec, if_neg nofun]
    simp only [Local.step]
    rw [ih, hstep]
    simp only [Local.touches, Option.toList_some, List.map_cons, List.cons_append, List.nil_append]

theorem exec_copy (cfg : Config) (fuel : Nat) (r : Ring W) (c : Call W) (old n : UInt32)
    (plan : List Copy) :
    exec cfg (plan.length + fuel) r ⟨c, .copy old n plan⟩ =
      ((exec cfg fuel (runPlan r c plan).1 ⟨(runPlan r c plan).2, .copy old n []⟩).1,
        (exec cfg fuel (runPlan r c plan).1 ⟨(runPlan r c plan).2, .copy old n []⟩).2.1,
        plan.map Copy.ring ++
          (exec cfg fuel (runPlan r c plan).1 ⟨(runPlan r c plan).2, .copy old n []⟩).2.2) := by
  have hall := exec_copies cfg fuel r c old n plan []
  rwa [List.append_nil] at hall

/-- No call is in flight. -/
structure Quiet (r : Ring W) : Prop where
  prod : r.prod.head = r.prod.tail
  cons : r.cons.head = r.cons.tail

/-- Judging a request for one element. -/
theorem clip_one {α : Type} (b : Bool) (entries : UInt32) (x : α) (f : UInt32 → α) :
    (if clip b 1 entries = 0 then x else f (clip b 1 entries)) = if entries = 0 then x else f 1 := by
  by_cases h : entries = 0
  · subst h
    have hzero : clip b 1 0 = 0 := by cases b <;> decide
    rw [if_pos hzero, if_pos rfl]
  · have hpos := toNat_pos_of_ne h
    have hone : clip b 1 entries = 1 := by
      unfold clip
      rw [if_neg]
      intro hlt
      have hlt' : entries.toNat < 1 := UInt32.lt_iff_toNat_lt.mp hlt
      omega
    rw [hone, if_neg h, if_neg (by decide)]

section

variable {cfg : Config} {r : Ring W}

theorem moveHeadOf_hts {d : Side} (n : UInt32) (pc : Pc) : cfg.sync d = .mtHts →
    moveHeadOf cfg r d n pc = match d with
      | .prod => moveProdHeadHts cfg r n pc
      | .cons => moveConsHeadHts cfg r n pc := by
  intro hh
  cases d <;> simp only [moveHeadOf, hh]

theorem moveHeadOf_plain {d : Side} (n : UInt32) (pc : Pc) : cfg.sync d ≠ .mtHts →
    moveHeadOf cfg r d n pc = match d with
      | .prod => moveProdHead cfg r n pc
      | .cons => moveConsHead cfg r n pc := by
  intro hh
  cases d with
  | prod => cases h : cfg.sync .prod <;> simp_all only [moveHeadOf, ne_eq, not_true_eq_false]
  | cons => cases h : cfg.sync .cons <;> simp_all only [moveHeadOf, ne_eq, not_true_eq_false]

/-- An HTS call alone finds the head at the tail. -/
theorem step_htsLoad (hq : r.Quiet) {d : Side} (hh : cfg.sync d = .mtHts) (obj : Nat → W) :
    Local.step cfg r ⟨⟨d, 1, obj⟩, .htsLoad⟩ = (r, ⟨⟨d, 1, obj⟩, .htsLoadTail (r.ht d)⟩, .load) := by
  cases d with
  | prod => simp only [Local.step, moveHeadOf_hts _ _ hh, moveProdHeadHts, hq.prod, ne_eq, not_true_eq_false,
      if_false, ht]
  | cons => simp only [Local.step, moveHeadOf_hts _ _ hh, moveConsHeadHts, hq.cons, ne_eq, not_true_eq_false,
      if_false, ht]

theorem step_htsLoadTail {d : Side} (hh : cfg.sync d = .mtHts) (obj : Nat → W) :
    Local.step cfg r ⟨⟨d, 1, obj⟩, .htsLoadTail (r.ht d)⟩ =
      (r, ⟨⟨d, 1, obj⟩, if r.entries d (r.ht d).head = 0 then .done 0 else .htsMoveHead (r.ht d) 1⟩, .tau) := by
  cases d with
  | prod =>
    simp only [Local.step, moveHeadOf_hts _ _ hh, moveProdHeadHts, clip_one, entries]
    rfl
  | cons =>
    simp only [Local.step, moveHeadOf_hts _ _ hh, moveConsHeadHts, clip_one, entries]
    rfl

theorem step_htsMoveHead {d : Side} (hh : cfg.sync d = .mtHts) (obj : Nat → W) :
    Local.step cfg r ⟨⟨d, 1, obj⟩, .htsMoveHead (r.ht d) 1⟩ =
      (r.setHt d { r.ht d with head := (r.ht d).head + 1 }, ⟨⟨d, 1, obj⟩, .copy (r.ht d).head 1
        (enqueueElements cfg.T r.size r.mask (r.ht d).head 1)⟩, .reserve 1) := by
  cases d with
  | prod =>
    simp only [Local.step, moveHeadOf_hts _ _ hh, moveProdHeadHts, ht, if_true]
    rfl
  | cons =>
    simp only [Local.step, moveHeadOf_hts _ _ hh, moveConsHeadHts, ht, if_true]
    rfl

theorem step_loadTail {d : Side} (hh : cfg.sync d ≠ .mtHts) (obj : Nat → W) :
    Local.step cfg r ⟨⟨d, 1, obj⟩, .loadTail (r.ht d).head⟩ =
      (r, ⟨⟨d, 1, obj⟩, if r.entries d (r.ht d).head = 0 then .done 0 else .moveHead (r.ht d).head 1⟩, .tau) := by
  cases d with
  | prod =>
    simp only [Local.step, moveHeadOf_plain _ _ hh, moveProdHead, clip_one, entries]
    rfl
  | cons =>
    simp only [Local.step, moveHeadOf_plain _ _ hh, moveConsHead, clip_one, entries]
    rfl

/-- The compare-exchange of a call alone succeeds, so MT and ST are the same here. -/
theorem step_moveHead {d : Side} (hh : cfg.sync d ≠ .mtHts) (obj : Nat → W) :
    Local.step cfg r ⟨⟨d, 1, obj⟩, .moveHead (r.ht d).head 1⟩ =
      (r.setHt d { r.ht d with head := (r.ht d).head + 1 }, ⟨⟨d, 1, obj⟩, .copy (r.ht d).head 1
        (enqueueElements cfg.T r.size r.mask (r.ht d).head 1)⟩, .reserve 1) := by
  cases d with
  | prod =>
    simp only [Local.step, moveHeadOf_plain _ _ hh, moveProdHead, ht, if_true, ite_self]
    rfl
  | cons =>
    simp only [Local.step, moveHeadOf_plain _ _ hh, moveConsHead, ht, if_true, ite_self]
    rfl

/-- From the load of the other side's tail on: there is no entry, or the head moves. -/
theorem exec_judged {c : Call W} {load move copy : Pc} {entries : UInt32} {r' : Ring W}
    (hload : load.isIdle = false ∧ (⟨c, load⟩ : Local W).touches = none)
    (hmove : move.isIdle = false ∧ (⟨c, move⟩ : Local W).touches = none)
    (h1 : Local.step cfg r ⟨c, load⟩ = (r, ⟨c, if entries = 0 then .done 0 else move⟩, .tau))
    (h2 : Local.step cfg r ⟨c, move⟩ = (r', ⟨c, copy⟩, .reserve 1)) (fuel : Nat) :
    exec cfg (fuel + 2) r ⟨c, load⟩ =
      if entries = 0 then (r, ⟨c, .done 0⟩, []) else exec cfg fuel r' ⟨c, copy⟩ := by
  rw [exec_next hload.1 hload.2 h1]
  by_cases h0 : entries = 0
  · simp only [h0, if_true]
    exact exec_idle _ _ _ rfl
  · simp only [h0, if_false]
    rw [exec_next hmove.1 hmove.2 h2]

/-- The accesses that move the head, for a call alone: at most four. -/
theorem exec_move (hq : r.Quiet) {d : Side} (hrts : cfg.sync d ≠ .mtRts) (obj : Nat → W) :
    ∃ j, j ≤ 4 ∧ ∀ fuel, exec cfg (fuel + j) r (Local.start cfg ⟨d, 1, obj⟩) =
      if r.entries d (r.ht d).head = 0 then (r, ⟨⟨d, 1, obj⟩, .done 0⟩, [])
      else exec cfg fuel (r.setHt d { r.ht d with head := (r.ht d).head + 1 })
        ⟨⟨d, 1, obj⟩, .copy (r.ht d).head 1
          (enqueueElements cfg.T r.size r.mask (r.ht d).head 1)⟩ := by
  by_cases hh : cfg.sync d = .mtHts
  · refine ⟨3, by decide, fun fuel => ?_⟩
    have hstart : Local.start cfg ⟨d, 1, obj⟩ = ⟨⟨d, 1, obj⟩, .htsLoad⟩ := by
      simp only [Local.start, hh]
    rw [hstart, exec_next rfl rfl (step_htsLoad hq hh obj)]
    exact exec_judged ⟨rfl, rfl⟩ ⟨rfl, rfl⟩ (step_htsLoadTail hh obj) (step_htsMoveHead hh obj) fuel
  · have hjudged := exec_judged ⟨rfl, rfl⟩ ⟨rfl, rfl⟩ (step_loadTail hh obj) (step_moveHead (r := r) hh obj)
    have hstart : Local.start cfg ⟨d, 1, obj⟩ = ⟨⟨d, 1, obj⟩, .loadHead⟩ := by
      cases h : cfg.sync d <;> simp_all only [Local.start, not_true_eq_false, ne_eq]
    rw [hstart]
    -- the consumer loads the head once more
    cases d with
    | prod =>
      have hload : Local.step cfg r ⟨⟨.prod, 1, obj⟩, .loadHead⟩ =
          (r, ⟨⟨.prod, 1, obj⟩, .loadTail r.prod.head⟩, .load) := by
        simp only [Local.step, moveHeadOf_plain _ _ hh, moveProdHead]
      refine ⟨3, by decide, fun fuel => ?_⟩
      rw [exec_next rfl rfl hload]
      exact hjudged fuel
    | cons =>
      have hload : Local.step cfg r ⟨⟨.cons, 1, obj⟩, .loadHead⟩ =
          (r, ⟨⟨.cons, 1, obj⟩, .reloadHead⟩, .load) := by
        simp only [Local.step, moveHeadOf_plain _ _ hh, moveConsHead]
      have hreload : Local.step cfg r ⟨⟨.cons, 1, obj⟩, .reloadHead⟩ =
          (r, ⟨⟨.cons, 1, obj⟩, .loadTail r.cons.head⟩, .load) := by
        simp only [Local.step, moveHeadOf_plain _ _ hh, moveConsHead]
      refine ⟨4, by decide, fun fuel => ?_⟩
      rw [exec_next rfl rfl hload, exec_next rfl rfl hreload]
      exact hjudged fuel

/-- The accesses after the last copy, for a call first in line: at most three. -/
theorem exec_finish (cfg : Config) (r : Ring W) (c : Call W) (old n : UInt32) (htail : (r.ht c.side).tail = old) :
    ∃ j, j ≤ 3 ∧ ∀ fuel, exec cfg (fuel + j) r ⟨c, .copy old n []⟩ =
      (r.setHt c.side { r.ht c.side with tail := old + n }, ⟨c, .done n⟩, []) := by
  by_cases hmt : cfg.sync c.side = .mt
  · refine ⟨3, Nat.le_refl 3, fun fuel => ?_⟩
    have h1 : Local.step cfg r ⟨c, .copy old n []⟩ = (r, ⟨c, .waitTail old n⟩, .tau) := by
      simp only [Local.step, updateTailStart, hmt, if_true]
    have h2 : Local.step cfg r ⟨c, .waitTail old n⟩ = (r, ⟨c, .storeTail old n⟩, .tau) := by
      simp only [Local.step, updateTail, htail, if_true]
    rw [exec_next rfl rfl h1, exec_next rfl rfl h2, exec_access rfl rfl]
    exact exec_idle _ _ _ rfl
  · refine ⟨2, by decide, fun fuel => ?_⟩
    have h1 : Local.step cfg r ⟨c, .copy old n []⟩ = (r, ⟨c, .storeTail old n⟩, .tau) := by
      simp only [Local.step, updateTailStart, hmt, if_false]
    rw [exec_next rfl rfl h1, exec_access rfl rfl]
    exact exec_idle _ _ _ rfl

end

/-! ## Public calls on a quiet ring -/

/-- Number of words copied for one element. -/
def elemWords (T : ElemType) : Nat := (nrNum T 1).toNat

/-- Slot word of word `i` of the element at `head`. -/
def slotAt (T : ElemType) (size mask head : UInt32) (i : Nat) : Nat :=
  wordIndex (nrSize T size) (nrIdx T mask head) (nrNum T 1) i

theorem plan_eq (T : ElemType) (size mask head : UInt32) :
    enqueueElements T size mask head 1 =
      (List.range (elemWords T)).map fun i => ⟨slotAt T size mask head i, i⟩ :=
  enqueueElements_eq T size mask head 1 fun _ h => absurd h (by decide)

theorem elemWords_le (T : ElemType) : elemWords T ≤ T.k := by
  have hpos := T.pos
  unfold elemWords nrNum ElemType.factor ElemType.scale
  split
  · simp only [UInt32.mul_one, UInt32.toNat_one]
    omega
  · rw [UInt32.one_mul, ofNat_toNat]
    exact Nat.mod_le _ _

section

variable {cfg : Config} {r : Ring W}

/-- A call of one element on a quiet ring, up to what its plan does. -/
theorem callAlone_quiet (hq : r.Quiet) {d : Side} (hrts : cfg.sync d ≠ .mtRts) (obj : Nat → W)
    {r' : Ring W} {obj' : Nat → W} {head : UInt32} (hhead : (r.ht d).head = head)
    (hplan : runPlan (r.setHt d { r.ht d with head := head + 1 }) ⟨d, 1, obj⟩
      (enqueueElements cfg.T r.size r.mask head 1) = (r', ⟨d, 1, obj'⟩)) :
    callAlone cfg r ⟨d, 1, obj⟩ = if r.entries d head = 0 then (r, some ⟨0, obj, []⟩)
      else (r'.setHt d ⟨head + 1, head + 1⟩,
        some ⟨1, obj', (List.range (elemWords cfg.T)).map (slotAt cfg.T r.size r.mask head)⟩) := by
  subst hhead
  obtain ⟨j, hj, hmove⟩ := exec_move hq hrts obj
  by_cases h0 : r.entries d (r.ht d).head = 0
  · have hfuel : cfg.T.k + 16 = (cfg.T.k + 16 - j) + j := by omega
    rw [if_pos h0, callAlone, hfuel, hmove, if_pos h0]
  · have hht : r'.ht d = { r.ht d with head := (r.ht d).head + 1 } := by
      have := (runPlan_ring (r.setHt d { r.ht d with head := (r.ht d).head + 1 }) ⟨d, 1, obj⟩
        (enqueueElements cfg.T r.size r.mask (r.ht d).head 1)).1
      rw [hplan] at this
      rw [this]
      cases d <;> rfl
    have htail : (r'.ht d).tail = (r.ht d).head := by
      rw [hht]
      cases d
      · exact hq.prod.symm
      · exact hq.cons.symm
    obtain ⟨j', hj', hfin⟩ := exec_finish cfg r' ⟨d, 1, obj'⟩ (r.ht d).head 1 htail
    have hlen : (enqueueElements cfg.T r.size r.mask (r.ht d).head 1).length ≤ cfg.T.k := by
      rw [plan_eq, List.length_map, List.length_range]
      exact elemWords_le cfg.T
    obtain ⟨rest, hfuel⟩ : ∃ rest, cfg.T.k + 16 =
        ((enqueueElements cfg.T r.size r.mask (r.ht d).head 1).length + (rest + j')) + j :=
      ⟨cfg.T.k + 16 - j - j' - (enqueueElements cfg.T r.size r.mask (r.ht d).head 1).length,
        by omega⟩
    rw [if_neg h0, callAlone, hfuel, hmove, if_neg h0, exec_copy, hplan, hfin]
    simp only [List.append_nil, hht]
    rw [plan_eq, List.map_map]
    rfl

/-- **`enqueue` alone.** -/
theorem enqueue_quiet (hq : r.Quiet) (hrts : cfg.sync .prod ≠ .mtRts) (x : Nat → W) :
    seqStep cfg r (.enqueue x) =
      if r.capacity + r.cons.tail - r.prod.head = 0 then (r, some ⟨0, x, []⟩)
      else ({ r with
          prod := ⟨r.prod.head + 1, r.prod.head + 1⟩
          slots := writeWords r.slots x (slotAt cfg.T r.size r.mask r.prod.head) (elemWords cfg.T) },
        some ⟨1, x, (List.range (elemWords cfg.T)).map (slotAt cfg.T r.size r.mask r.prod.head)⟩) := by
  have hplan := runPlan_prod (r.setHt .prod { r.prod with head := r.prod.head + 1 }) ⟨.prod, 1, x⟩
    (slotAt cfg.T r.size r.mask r.prod.head) (elemWords cfg.T) rfl
  rw [← plan_eq] at hplan
  have hcall := callAlone_quiet hq hrts x rfl hplan
  exact hcall

/-- **`dequeue` alone.** -/
theorem dequeue_quiet (hq : r.Quiet) (hrts : cfg.sync .cons ≠ .mtRts) (x : Nat → W) :
    seqStep cfg r (.dequeue x) =
      if r.prod.tail - r.cons.head = 0 then (r, some ⟨0, x, []⟩)
      else ({ r with cons := ⟨r.cons.head + 1, r.cons.head + 1⟩ },
        some ⟨1, readWords r.slots x (slotAt cfg.T r.size r.mask r.cons.head) (elemWords cfg.T),
          (List.range (elemWords cfg.T)).map (slotAt cfg.T r.size r.mask r.cons.head)⟩) := by
  have hplan := runPlan_cons (r.setHt .cons { r.cons with head := r.cons.head + 1 }) ⟨.cons, 1, x⟩
    (slotAt cfg.T r.size r.mask r.cons.head) (elemWords cfg.T) rfl
  rw [← plan_eq] at hplan
  have hcall := callAlone_quiet hq hrts x rfl hplan
  exact hcall

theorem enqueue_accepted (hq : r.Quiet) (hrts : cfg.sync .prod ≠ .mtRts) (x : Nat → W)
    (h : r.capacity + r.cons.tail - r.prod.head ≠ 0) : seqStep cfg r (.enqueue x) =
      ({ r with
          prod := ⟨r.prod.head + 1, r.prod.head + 1⟩
          slots := writeWords r.slots x (slotAt cfg.T r.size r.mask r.prod.head) (elemWords cfg.T) },
        some ⟨1, x, (List.range (elemWords cfg.T)).map (slotAt cfg.T r.size r.mask r.prod.head)⟩) := by
  rw [enqueue_quiet hq hrts, if_neg h]

theorem enqueue_refused (hq : r.Quiet) (hrts : cfg.sync .prod ≠ .mtRts) (x : Nat → W)
    (h : r.capacity + r.cons.tail - r.prod.head = 0) :
    seqStep cfg r (.enqueue x) = (r, some ⟨0, x, []⟩) := by
  rw [enqueue_quiet hq hrts, if_pos h]

theorem dequeue_accepted (hq : r.Quiet) (hrts : cfg.sync .cons ≠ .mtRts) (x : Nat → W)
    (h : r.prod.tail - r.cons.head ≠ 0) : seqStep cfg r (.dequeue x) =
      ({ r with cons := ⟨r.cons.head + 1, r.cons.head + 1⟩ },
        some ⟨1, readWords r.slots x (slotAt cfg.T r.size r.mask r.cons.head) (elemWords cfg.T),
          (List.range (elemWords cfg.T)).map (slotAt cfg.T r.size r.mask r.cons.head)⟩) := by
  rw [dequeue_quiet hq hrts, if_neg h]

theorem dequeue_refused (hq : r.Quiet) (hrts : cfg.sync .cons ≠ .mtRts) (x : Nat → W)
    (h : r.prod.tail - r.cons.head = 0) : seqStep cfg r (.dequeue x) = (r, some ⟨0, x, []⟩) := by
  rw [dequeue_quiet hq hrts, if_pos h]

/-- An RTS call does not return. -/
theorem seqStep_rts (op : Op W) (hrts : cfg.sync op.call.side = .mtRts) :
    seqStep cfg r op = (r, none) := by
  have hstart : Local.start cfg op.call = ⟨op.call, .abort⟩ := by
    simp only [Local.start, hrts]
  have hstep : ∀ c : Call W, Local.step cfg r ⟨c, .abort⟩ = (r, ⟨c, .abort⟩, .tau) := by
    intro c
    simp only [Local.step, moveHeadOf]
    split <;> rfl
  have hexec : ∀ fuel (c : Call W), exec cfg fuel r ⟨c, .abort⟩ = (r, ⟨c, .abort⟩, []) := by
    intro fuel c
    induction fuel with
    | zero => rfl
    | succ fuel ih => rw [exec_next rfl rfl (hstep c), ih]
  rw [seqStep, callAlone, hstart, hexec]

end

end Sqkio.Common.Ring
