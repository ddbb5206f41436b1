import Sqkio.Lib.Linear
import Sqkio.Ring.Delivery
import Sqkio.Ring.Progress

/-!
# The ring as an atomic queue

A call takes effect when it moves the head of its side: an `enqueue` appends its elements to the queue then and
copies them later, a `dequeue` takes them off.  The queue holds what producers have reserved and consumers have not.

    linearizable        the effects of a run are a history of the bounded queue, and each call has its own once,
                        between its start and its return
-/

namespace Sqkio.Common.Ring

open Sqkio.Lib

variable {W τ : Type}

/-! ## The queue -/

/-- The first `n` elements of an entry, each of `words` words. -/
def elements (words n : Nat) (obj : Nat → W) : List (List W) :=
  (List.range n).map fun i => (List.range words).map fun w => obj (i * words + w)

/-- The elements that were passed to the enqueues of `n` positions from `a` on. -/
def Hist.values (h : Hist τ W) (words a n : Nat) : List (List W) :=
  (List.range' a n).map fun p => (List.range words).map (h.elem words p)

def queue (P : Params τ) (s : State τ W) : List (List W) :=
  s.hist.values P.cfg.T.words (s.hist.resv .cons) (s.hist.resv .prod - s.hist.resv .cons)

inductive QueueOp (V : Type)
  | enqueue (vs : List V)
  | dequeue (vs : List V)

/-- The queue of capacity `cap`, oldest element first. -/
inductive QueueStep {V : Type} (cap : Nat) : List V → QueueOp V → List V → Prop
  | enqueue {q vs : List V} : q.length + vs.length ≤ cap → QueueStep cap q (.enqueue vs) (q ++ vs)
  | dequeue {vs q : List V} : QueueStep cap (vs ++ q) (.dequeue vs) q

/-- What a call does to the queue with the `n` positions from `a` on. -/
def Call.op (P : Params τ) (h : Hist τ W) (a n : Nat) (c : Call W) : QueueOp (List W) :=
  match c.side with
  | .prod => .enqueue (elements P.cfg.T.words n c.obj)
  | .cons => .dequeue (h.values P.cfg.T.words a n)

/-- An access that moves a head is the effect of its call. -/
def effect (P : Params τ) (s : State τ W) : Act τ W → Option (QueueOp (List W))
  | .call _ _ => none
  | .exec t =>
    match ((s.loc t).step P.cfg s.ring).2.2 with
    | .reserve n => some ((s.loc t).call.op P s.hist (s.hist.resv (s.loc t).call.side) n.toNat)
    | _ => none

/-- The effect that the call of `t` has had. -/
def took (P : Params τ) (s : State τ W) (t : τ) : Option (QueueOp (List W)) :=
  match (s.loc t).pc.span with
  | none => none
  | some n => if n = 0 then none else some ((s.loc t).call.op P s.hist (s.hist.start t) n.toNat)

/-! ## What the history says of positions -/

@[simp] theorem length_elements (words n : Nat) (obj : Nat → W) : (elements words n obj).length = n := by
  rw [elements, List.length_map, List.length_range]

@[simp] theorem Hist.length_values (h : Hist τ W) (words a n : Nat) : (h.values words a n).length = n := by
  rw [values, List.length_map, List.length_range']

theorem Hist.values_append (h : Hist τ W) (words a m n : Nat) :
    h.values words a (m + n) = h.values words a m ++ h.values words (a + m) n := by
  rw [values, values, values, ← List.map_append, List.range'_append_1]

/-- Positions whose words are those of an entry. -/
theorem Hist.values_eq {h : Hist τ W} {words a n : Nat} {obj : Nat → W}
    (hw : ∀ i, i < n → ∀ w, w < words → h.elem words (a + i) w = obj (i * words + w)) :
    h.values words a n = elements words n obj := by
  unfold values elements
  rw [List.range'_eq_map_range, List.map_map]
  refine List.map_congr_left fun i hi => List.map_congr_left fun w hw' => ?_
  exact hw i (List.mem_range.mp hi) w (List.mem_range.mp hw')

theorem Hist.values_congr {h h' : Hist τ W} {words a n : Nat}
    (hp : ∀ p, a ≤ p → p < a + n → h'.elem words p = h.elem words p) :
    h'.values words a n = h.values words a n := by
  refine List.map_congr_left fun p hmem => ?_
  rw [List.mem_range'_1] at hmem
  rw [hp p hmem.1 hmem.2]

theorem Hist.Extends.values {P : Params τ} {h h' : Hist τ W} (hext : h.Extends h') (ho : Owners P h) {a n : Nat}
    (hle : a + n ≤ h.resv .prod) : h'.values P.cfg.T.words a n = h.values P.cfg.T.words a n := by
  refine Hist.values_congr fun p _ hp => ?_
  have hlt : p < h.resv .prod := by omega
  funext w
  simp only [Hist.elem, hext.owner .prod p hlt]
  rw [hext.passed _ _ (ho.callLe .prod p hlt)]

variable [DecidableEq τ]

theorem Hist.extends_record (h : Hist τ W) (t : τ) (d : Side) (ev : Event) : h.Extends (h.record t d ev) := by
  cases ev with
  | tau | load | publish => exact ⟨fun _ => Nat.le_refl _, fun _ _ _ => rfl, fun _ _ _ => rfl⟩
  | reserve n =>
    refine ⟨fun d' => ?_, fun d' p hp => ?_, fun _ _ _ => rfl⟩
    · by_cases hd : d' = d
      · subst hd
        simp only [record, Function.update_self]
        exact Nat.le_add_right _ _
      · simp only [record, Function.update_of_ne hd]
        exact Nat.le_refl _
    · by_cases hd : d' = d
      · subst hd
        simp only [record, Function.update_self]
        rw [if_neg (by omega)]
      · simp only [record, Function.update_of_ne hd]

theorem Hist.extends_recordCall (h : Hist τ W) (t : τ) (obj : Nat → W) : h.Extends (h.recordCall t obj) := by
  refine ⟨fun _ => Nat.le_refl _, fun _ _ _ => rfl, fun u c hc => ?_⟩
  by_cases hu : u = t
  · subst hu
    simp only [recordCall, Function.update_self]
    rw [Function.update_of_ne (by omega)]
  · simp only [recordCall, Function.update_of_ne hu]

theorem next_extends (P : Params τ) (s : State τ W) (a : Act τ W) : s.hist.Extends (next P s a).hist := by
  cases a with
  | call t c => exact s.hist.extends_recordCall t c.obj
  | exec t => exact s.hist.extends_record t _ _

/-! ## One step -/

section

variable {P : Params τ} {s : State τ W} {t : τ} {n : UInt32}

/-- A producer puts its elements behind the queue. -/
theorem Inv.queue_enqueue (hI : Inv P s) (hV : Vals P s) (hbusy : (s.loc t).pc.isIdle = false)
    (hside : (s.loc t).call.side = .prod) {r : Ring W} {loc : τ → Local W} :
    queue P ⟨r, loc, s.hist.record t .prod (.reserve n)⟩ =
      queue P s ++ elements P.cfg.T.words n.toNat (s.loc t).call.obj := by
  have hchain := hI.chain
  have hresv : (s.hist.record t .prod (.reserve n)).resv .prod - s.hist.resv .cons =
      s.hist.resv .prod - s.hist.resv .cons + n.toNat := by
    simp only [Hist.record, Function.update_self]
    omega
  have hold := (s.hist.extends_record t .prod (.reserve n)).values hV.owners (a := s.hist.resv .cons)
    (n := s.hist.resv .prod - s.hist.resv .cons) (by omega)
  have hnew : (s.hist.record t .prod (.reserve n)).values P.cfg.T.words (s.hist.resv .prod) n.toNat =
      elements P.cfg.T.words n.toNat (s.loc t).call.obj := by
    refine Hist.values_eq fun i hi w _ => ?_
    simp only [Hist.elem, Hist.record, Function.update_self]
    rw [if_pos ⟨Nat.le_add_right _ _, by omega⟩, (hV.thread t).passed (Pc.ne_idle_of_busy hbusy) hside,
      Nat.add_sub_cancel_left]
  show (s.hist.record t .prod (.reserve n)).values _ (s.hist.resv .cons) (_ - s.hist.resv .cons) = _
  rw [hresv, Hist.values_append, hold, Nat.add_sub_cancel' (by omega), hnew]
  rfl

/-- A consumer takes the first elements of the queue. -/
theorem queue_dequeue {r : Ring W} {loc : τ → Local W}
    (hle : s.hist.resv .cons + n.toNat ≤ s.hist.resv .prod) :
    queue P s = s.hist.values P.cfg.T.words (s.hist.resv .cons) n.toNat ++
      queue P ⟨r, loc, s.hist.record t .cons (.reserve n)⟩ := by
  have hresv : (s.hist.record t .cons (.reserve n)).resv .cons = s.hist.resv .cons + n.toNat := by
    simp only [Hist.record, Function.update_self]
  show _ = _ ++ s.hist.values _ ((s.hist.record t .cons (.reserve n)).resv .cons)
    (s.hist.resv .prod - (s.hist.record t .cons (.reserve n)).resv .cons)
  rw [hresv, ← Hist.values_append, ← Nat.sub_sub, Nat.add_sub_cancel' (by omega)]
  rfl

/-- **Step lemma.**  The queue follows each step. -/
theorem Inv.effect_legal (hI : Inv P s) (hV : Vals P s) (hsz : 0 < P.sz.toNat) (hrts : ∀ d, P.cfg.sync d ≠ .mtRts)
    {a : Act τ W} (he : Enabled P s a) :
    Legal (QueueStep (P.sz.toNat - 1)) (queue P s) (effect P s a).toList (queue P (next P s a)) := by
  have hchain := hI.chain
  cases a with
  | call t c =>
    have hsame : queue P (next P s (.call t c)) = queue P s := by
      show (s.hist.recordCall t c.obj).values P.cfg.T.words (s.hist.resv .cons)
        (s.hist.resv .prod - s.hist.resv .cons) = _
      exact (s.hist.extends_recordCall t c.obj).values hV.owners (by omega)
    rw [hsame]
    exact .nil
  | exec t =>
    have hspec := step_spec P.cfg hrts s.ring (s.loc t)
    have hchain' := (hI.exec_step hsz hrts he).chain
    unfold effect
    simp only [next] at hchain' ⊢
    generalize (s.loc t).step P.cfg s.ring = m at hspec hchain' ⊢
    cases hspec with
    | noop | load | fail | decide | startTail | copyWord | wait | publish => exact .nil
    | reserve old n hm =>
      have hbusy := Pc.busy_of_moving hm
      dsimp only [Call.op] at hchain' ⊢
      cases hd : (s.loc t).call.side with
      | prod =>
        rw [hd] at hchain'
        simp only [Hist.record, Function.update_self] at hchain'
        rw [hI.queue_enqueue hV hbusy hd]
        refine .one (.enqueue ?_)
        rw [queue, Hist.length_values, length_elements]
        omega
      | cons =>
        rw [hd] at hchain'
        simp only [Hist.record, Function.update_self] at hchain'
        refine .one ?_
        rw [queue_dequeue (t := t) (n := n) (by omega)]
        exact .dequeue

/-! ## One call -/

omit [DecidableEq τ] in
theorem copyWord_op (r : Ring W) (h : Hist τ W) (a n : Nat) (c : Call W) (cp : Copy) :
    (Local.copyWord r c cp).2.op P h a n = c.op P h a n := by
  obtain ⟨d, m, obj⟩ := c
  cases d with
  | prod | cons => rfl

omit [DecidableEq τ] in
/-- What a call has taken does not change. -/
theorem op_congr {h h' : Hist τ W} (hext : h.Extends h') (ho : Owners P h) {a n : Nat} {c : Call W}
    (hle : c.side = .cons → a + n ≤ h.resv .prod) : c.op P h' a n = c.op P h a n := by
  unfold Call.op
  cases hside : c.side with
  | prod => rfl
  | cons => exact congrArg QueueOp.dequeue (hext.values ho (hle hside))

omit [DecidableEq τ] in
/-- What others do leaves the record of a call as it is. -/
theorem took_congr (hI : Inv P s) (hV : Vals P s) {s' : State τ W} (hext : s.hist.Extends s'.hist)
    (hloc : s'.loc t = s.loc t) (hstart : s'.hist.start t = s.hist.start t) : took P s' t = took P s t := by
  unfold took
  rw [hloc, hstart]
  cases hspan : (s.loc t).pc.span with
  | none => rfl
  | some n =>
    show (if n = 0 then none else some _) = if n = 0 then none else some _
    by_cases hn : n = 0
    · rw [if_pos hn, if_pos hn]
    · rw [if_neg hn, if_neg hn, op_congr hext hV.owners fun hside => ?_]
      have hmine := ((hV.thread t).mine n hspan (toNat_pos_of_ne hn)).1
      have hchain := hI.chain
      rw [hside] at hmine
      omega

/-- **Step lemma.**  An access of a call records its effect, and has none if there is one already. -/
theorem Inv.took_exec (hI : Inv P s) (hV : Vals P s) (hsz : 0 < P.sz.toNat) (hrts : ∀ d, P.cfg.sync d ≠ .mtRts)
    (he : Enabled P s (.exec t)) : took P (next P s (.exec t)) t = (took P s t).or (effect P s (.exec t)) ∧
      ((took P s t).isSome → effect P s (.exec t) = none) := by
  have hspec := step_spec P.cfg hrts s.ring (s.loc t)
  have hext := next_extends P s (.exec t)
  have hchain' := (hI.exec_step hsz hrts he).chain
  unfold took effect
  simp only [next, Function.update_self] at hext hchain' ⊢
  generalize (s.loc t).step P.cfg s.ring = m at hspec hext hchain' ⊢
  cases hspec with
  | noop => exact ⟨Option.or_none.symm, fun _ => rfl⟩
  | load pc' hres hbusy hres' _ hbusy' =>
    dsimp only
    rw [Pc.span_of_busy hres hbusy, Pc.span_of_busy hres' hbusy']
    exact ⟨rfl, fun _ => rfl⟩
  | fail old hatt =>
    rw [Pc.span_of_busy (Pc.reserved_of_attempt hatt) he.1]
    exact ⟨rfl, fun _ => rfl⟩
  | decide old n pc' hatt _ _ _ _ hres' hbusy' =>
    dsimp only
    rw [Pc.span_of_busy (Pc.reserved_of_attempt hatt) he.1, Pc.span_of_busy hres' hbusy']
    exact ⟨rfl, fun _ => rfl⟩
  | reserve old n hm =>
    have hn := ((hI.thread t).moving old n hm).2.2.1
    rw [Pc.span_of_busy (Pc.reserved_of_moving hm) he.1]
    refine ⟨?_, fun hsome => by cases hsome⟩
    dsimp only [Pc.span] at hext hchain' ⊢
    rw [if_neg (by rintro rfl; cases hn), Option.none_or]
    simp only [Hist.record, Function.update_self] at hchain' ⊢
    refine congrArg some (op_congr hext hV.owners fun hside => ?_)
    rw [hside] at hchain' ⊢
    rw [Function.update_self, Function.update_of_ne (show Side.prod ≠ .cons by decide)] at hchain'
    omega
  | startTail old n hpc =>
    have hspan : (updateTailStart (P.cfg.sync (s.loc t).call.side) old n).span = some n := by
      unfold updateTailStart
      split <;> rfl
    rw [hpc]
    dsimp only
    rw [hspan]
    exact ⟨Option.or_none.symm, fun _ => rfl⟩
  | copyWord old n cp todo hpc =>
    rw [hpc]
    dsimp only [Pc.span]
    rw [copyWord_op]
    exact ⟨Option.or_none.symm, fun _ => rfl⟩
  | wait old n hpc =>
    rw [hpc]
    exact ⟨Option.or_none.symm, fun _ => rfl⟩
  | publish old n hpc =>
    rw [hpc]
    exact ⟨Option.or_none.symm, fun _ => rfl⟩

/-- The effect of an action if it is one of `t`. -/
def own (P : Params τ) (s : State τ W) (a : Act τ W) (t : τ) : Option (QueueOp (List W)) :=
  if a.thread = t then effect P s a else none

theorem Hist.record_start_of_ne {h : Hist τ W} {u : τ} {d : Side} {ev : Event} (hu : t ≠ u) :
    (h.record u d ev).start t = h.start t := by
  cases ev with
  | tau | load | publish => rfl
  | reserve n => exact Function.update_of_ne hu _ _

theorem Inv.took_next (hI : Inv P s) (hV : Vals P s) (hsz : 0 < P.sz.toNat) (hrts : ∀ d, P.cfg.sync d ≠ .mtRts)
    {a : Act τ W} (he : Enabled P s a) (hne : ∀ c, a ≠ .call t c) :
    took P (next P s a) t = (took P s t).or (own P s a t) ∧ ((took P s t).isSome → own P s a t = none) := by
  have hext := next_extends P s a
  cases a with
  | call u c =>
    have hu : u ≠ t := by
      rintro rfl
      exact hne c rfl
    have hown : own P s (.call u c) t = none := if_neg hu
    rw [hown, Option.or_none]
    exact ⟨took_congr hI hV hext (Function.update_of_ne (Ne.symm hu) _ _) rfl, fun _ => rfl⟩
  | exec u =>
    by_cases hu : u = t
    · subst hu
      have hown : own P s (.exec u) u = effect P s (.exec u) := if_pos rfl
      rw [hown]
      exact hI.took_exec hV hsz hrts he
    · have hown : own P s (.exec u) t = none := if_neg hu
      rw [hown, Option.or_none]
      exact ⟨took_congr hI hV hext (Function.update_of_ne (Ne.symm hu) _ _) (Hist.record_start_of_ne (Ne.symm hu)),
        fun _ => rfl⟩

/-- The positions that calls have reserved and not released. -/
def unreleased (s : State τ W) (d : Side) : Nat := s.hist.resv d - s.hist.rel d

/-- Only a transactional call insists on all of its burst. -/
def wanted (P : Params τ) (n : UInt32) (d : Side) : Nat := if P.cfg.transactional d then n.toNat else 1

/-- The queue has no room for a call of burst `n`, or not enough elements, counting the positions that calls of the
other side are still copying. -/
def Refused (P : Params τ) (s : State τ W) (n : UInt32) : Side → Prop
  | .prod => P.sz.toNat - 1 < (queue P s).length + unreleased s .cons + wanted P n .prod
  | .cons => (queue P s).length < unreleased s .prod + wanted P n .cons

/-- A burst that is cut down to nothing. -/
theorem lt_of_clip_eq_zero {b : Bool} {n entries : UInt32} (hn : n ≠ 0) (h : clip b n entries = 0) :
    entries.toNat < if b then n.toNat else 1 := by
  unfold clip at h
  split at h
  · next hlt =>
    have hlt' : entries.toNat < n.toNat := UInt32.lt_iff_toNat_lt.mp hlt
    cases b with
    | true => exact hlt'
    | false =>
      have hzero : entries = 0 := h
      rw [hzero]
      exact Nat.one_pos
  · exact absurd h hn

omit [DecidableEq τ] in
/-- An attempt that finds too little is right at that moment, however old the head it loaded. -/
theorem Inv.refused_of_clip (hI : Inv P s) (hsz : 0 < P.sz.toNat) {old : UInt32}
    (hatt : (s.loc t).pc.attempt = some old) (hfresh : Fresh P s t) (hn : (s.loc t).call.n ≠ 0)
    (hclip : clip (P.cfg.transactional (s.loc t).call.side) (s.loc t).call.n
      (s.ring.entries (s.loc t).call.side old) = 0) : Refused P s (s.loc t).call.n (s.loc t).call.side := by
  obtain ⟨hold, hle, hlim, -⟩ := (hI.thread t).attempt old hatt
  have hchain := hI.chain
  have hspan := (hI.span (s.loc t).call.side).2
  have hlt : _ < wanted P (s.loc t).call.n (s.loc t).call.side := lt_of_clip_eq_zero hn hclip
  unfold Fresh at hfresh
  have hent : (s.ring.entries (s.loc t).call.side old).toNat =
      limit P s.hist (s.loc t).call.side - s.hist.loaded t := by
    rw [hold, hI.entries_eq hsz _ hlim, ofNat_toNat, Nat.mod_eq_of_lt (by omega)]
  rw [hent] at hlt
  have hlen : (queue P s).length = s.hist.resv .prod - s.hist.resv .cons := Hist.length_values ..
  generalize (s.loc t).call.n = n at hlt ⊢
  generalize (s.loc t).call.side = d at hlt hle ⊢
  cases d with
  | prod =>
    dsimp only [limit] at hlt
    show P.sz.toNat - 1 < (queue P s).length + unreleased s .cons + wanted P n .prod
    rw [hlen, unreleased]
    omega
  | cons =>
    dsimp only [limit] at hlt
    show (queue P s).length < unreleased s .prod + wanted P n .cons
    rw [hlen, unreleased]
    omega

/-- The access at which a call returns 0. -/
theorem Inv.refused (hI : Inv P s) (hsz : 0 < P.sz.toNat) (hrts : ∀ d, P.cfg.sync d ≠ .mtRts)
    (hbusy : (s.loc t).pc.isIdle = false) (hret : ((next P s (.exec t)).loc t).pc = .done 0)
    (hn : (s.loc t).call.n ≠ 0) (hfresh : (s.loc t).pc.attempt.isSome → Fresh P s t) :
    Refused P s (s.loc t).call.n (s.loc t).call.side := by
  have hspec := step_spec P.cfg hrts s.ring (s.loc t)
  simp only [next, Function.update_self] at hret
  generalize (s.loc t).step P.cfg s.ring = m at hspec hret
  cases hspec with
  | noop =>
    rw [hret] at hbusy
    cases hbusy
  | load pc' _ _ _ _ hbusy' | decide old n pc' _ _ _ _ _ _ hbusy' =>
    obtain rfl : pc' = .done 0 := hret
    cases hbusy'
  | reserve | copyWord | wait => cases hret
  | startTail old n hpc =>
    simp only [updateTailStart] at hret
    split at hret <;> cases hret
  | publish old n hpc =>
    -- a call that reserved anything does not return 0
    have hb := (hI.tiles (s.loc t).call.side).bounds t (s.hist.start t) n.toNat (by simp [held, hpc, Pc.reserved])
    rw [Pc.done.inj hret] at hb
    exact absurd hb.2.1 (Nat.lt_irrefl 0)
  | fail old hatt hclip =>
    exact hI.refused_of_clip hsz hatt (hfresh (by rw [hatt]; rfl)) hn hclip

end

/-! ## Runs -/

variable {P : Params τ} {N : Nat} {st : Nat → State τ W} {act : Nat → Act τ W} {t : τ} {c : Call W} {i j : Nat}

/-- At step `j`, the call `c` that `t` made at step `i` is the last one of `t`. -/
structure Made (N : Nat) (act : Nat → Act τ W) (t : τ) (c : Call W) (i j : Nat) : Prop where
  call : act i = .call t c
  lt : i < j
  le : j ≤ N
  last : ∀ k, i < k → k < j → ∀ c', act k ≠ .call t c'

/-- What a call that returns `n` elements has done to the queue: an `enqueue` has appended what it was passed, a
`dequeue` has taken what its entry holds now. -/
def returned (P : Params τ) (c : Call W) (entry : Nat → W) (n : UInt32) : QueueOp (List W) :=
  match c.side with
  | .prod => .enqueue (elements P.cfg.T.words n.toNat c.obj)
  | .cons => .dequeue (elements P.cfg.T.words n.toNat entry)

/-- **Linearizability** of a run.  The effects are a history of the bounded queue, and a call has its own at one
moment between its start and its return. -/
structure Linearized (P : Params τ) (N : Nat) (st : Nat → State τ W) (act : Nat → Act τ W) : Prop where
  legal : ∀ j, j ≤ N →
    Legal (QueueStep (P.sz.toNat - 1)) [] (Machine.effects (effect P) st act j) (queue P (st j))
  /-- A call that returns elements has had one effect, on these. -/
  once : ∀ t c i j n, Made N act t c i j → ((st j).loc t).pc = .done n → n ≠ 0 →
    ∃ m, i < m ∧ m < j ∧ own P (st m) (act m) t = some (returned P c ((st j).loc t).call.obj n) ∧
      ∀ k, i < k → k < j → k ≠ m → own P (st k) (act k) t = none
  /-- One that returns 0 has had none. -/
  never : ∀ t c i j, Made N act t c i j → ((st j).loc t).pc = .done 0 →
    ∀ k, i < k → k < j → own P (st k) (act k) t = none
  /-- At some moment there was too little room for it, or too few elements. -/
  refused : ∀ t c i j, Made N act t c i j → c.n ≠ 0 → ((st j).loc t).pc = .done 0 →
    (∀ k, i < k → k < j → ((st k).loc t).pc.attempt.isSome → Fresh P (st k) t) →
    ∃ m, i < m ∧ m < j ∧ Refused P (st m) c.n c.side

/-- What `t` does between its call and step `j`. -/
theorem Made.exec (h : Made N act t c i j) {k : Nat} (hik : i < k) (hkj : k < j) :
    act k = .exec t ∨ ∀ s : State τ W, (next P s (act k)).loc t = s.loc t := by
  cases ha : act k with
  | call u c' =>
    have hu : t ≠ u := by
      rintro rfl
      exact h.last k hik hkj c' ha
    exact .inr fun s => Function.update_of_ne hu _ _
  | exec u =>
    by_cases hu : t = u
    · rw [hu]
      exact .inl rfl
    · exact .inr fun s => Function.update_of_ne hu _ _

/-- The start of a call. -/
theorem Made.start (h : Made N act t c i j) (hrts : ∀ d, P.cfg.sync d ≠ .mtRts)
    (hrun : (machine W P).Run N st act) : ((st (i + 1)).loc t).call = c ∧ ((st (i + 1)).loc t).pc.span = none ∧
      ((st (i + 1)).loc t).pc.isIdle = false := by
  have hloc : (st (i + 1)).loc t = Local.start P.cfg c := by
    rw [hrun.next i (Nat.lt_of_lt_of_le h.lt h.le), h.call]
    exact Function.update_self ..
  have hne := hrts c.side
  rw [hloc]
  unfold Local.start
  cases hs : P.cfg.sync c.side with
  | mt | st | mtHts => exact ⟨rfl, rfl, rfl⟩
  | mtRts => exact absurd hs hne

/-- An `enqueue` keeps the entry it was passed. -/
theorem Made.obj_kept (h : Made N act t c i j) (hrts : ∀ d, P.cfg.sync d ≠ .mtRts)
    (hrun : (machine W P).Run N st act) (hside : c.side = .prod) : ((st j).loc t).call.obj = c.obj := by
  obtain ⟨hcall, hij, hjN, hlast⟩ := h
  induction j, Nat.succ_le_of_lt hij using Nat.le_induction with
  | base => rw [(Made.start ⟨hcall, hij, hjN, hlast⟩ hrts hrun).1]
  | succ j hle ih =>
    have hbefore : Made N act t c i j := ⟨hcall, hle, by omega, fun k h1 h2 => hlast k h1 (by omega)⟩
    have hprev := ih hle hbefore.le hbefore.last
    have hside' := (call_kept hrts hrun hcall j hle hbefore.le hbefore.last).1
    rw [hside] at hside'
    rw [hrun.next j hjN]
    rcases Made.exec ⟨hcall, hij, hjN, hlast⟩ hle (Nat.lt_succ_self j) (P := P) with ha | hsame
    · have hspec := step_spec P.cfg hrts (st j).ring ((st j).loc t)
      rw [ha]
      simp only [machine, next, Function.update_self]
      generalize ((st j).loc t).step P.cfg (st j).ring = m at hspec ⊢
      cases hspec with
      | copyWord old n cp todo hpc =>
        unfold Local.copyWord
        rw [hside']
        exact hprev
      | _ => exact hprev
    · rw [← hprev]
      exact congrArg (fun l => l.call.obj) (hsame _)

/-- What is recorded of a call, over all of its steps. -/
theorem Made.effect_once (h : Made N act t c i j) (hsz : 0 < P.sz.toNat) (hrts : ∀ d, P.cfg.sync d ≠ .mtRts)
    (hvals : ∀ s : State τ W, (machine W P).Reachable s → Vals P s) (hrun : (machine W P).Run N st act) :
    (took P (st j) t = none → ∀ k, i < k → k < j → own P (st k) (act k) t = none) ∧
      ∀ o, took P (st j) t = some o → ∃ m, i < m ∧ m < j ∧ own P (st m) (act m) t = some o ∧
        ∀ k, i < k → k < j → k ≠ m → own P (st k) (act k) t = none := by
  have hle := h.le
  refine @Lib.effect_once _ (fun k => own P (st k) (act k) t) (fun k => took P (st k) t) _ _
    (Nat.succ_le_of_lt h.lt) ?_ fun k hik hkj => ?_
  · unfold took
    rw [(h.start hrts hrun).2.1]
  · have hr := hrun.reachable k (by omega)
    have hstep := (Reachable.inv hsz hrts hr).took_next (hvals _ hr) hsz hrts (hrun.enabled k (by omega))
      (h.last k hik hkj)
    rw [hrun.next k (by omega)]
    exact hstep

/-- The record of a call that has returned. -/
theorem Made.took_done (h : Made N act t c i j) (hrts : ∀ d, P.cfg.sync d ≠ .mtRts) (hI : Inv P (st j))
    (hV : Vals P (st j)) (hsz : 0 < P.sz.toNat) (hrun : (machine W P).Run N st act) {n : UInt32}
    (hpc : ((st j).loc t).pc = .done n) :
    took P (st j) t = if n = 0 then none else some (returned P c ((st j).loc t).call.obj n) := by
  have hside := (call_kept hrts hrun h.call j h.lt h.le h.last).1
  have hvalue := (Delivered.of_vals hI hV hsz).value t n hpc
  unfold took
  rw [hpc]
  show (if n = 0 then none else some _) = if n = 0 then none else some _
  refine congrArg (fun o => if n = 0 then none else some o) ?_
  unfold Call.op returned
  rw [hside]
  cases hd : c.side with
  | prod => rw [h.obj_kept hrts hrun hd]
  | cons =>
    rw [hd] at hside
    exact congrArg QueueOp.dequeue (Hist.values_eq fun k hk w hw => (hvalue hside k w hk hw).symm)

/-- The moment at which a call finds that it has to return 0. -/
theorem Made.refused (h : Made N act t c i j) (hsz : 0 < P.sz.toNat) (hrts : ∀ d, P.cfg.sync d ≠ .mtRts)
    (hrun : (machine W P).Run N st act) (hn : c.n ≠ 0) (hpc : ((st j).loc t).pc = .done 0)
    (hfresh : ∀ k, i < k → k < j → ((st k).loc t).pc.attempt.isSome → Fresh P (st k) t) :
    ∃ m, i < m ∧ m < j ∧ Refused P (st m) c.n c.side := by
  obtain ⟨hcall, hij, hjN, hlast⟩ := h
  induction j, Nat.succ_le_of_lt hij using Nat.le_induction with
  | base =>
    have hbusy := (Made.start ⟨hcall, hij, hjN, hlast⟩ hrts hrun).2.2
    rw [hpc] at hbusy
    cases hbusy
  | succ j hle ih =>
    have hbefore : Made N act t c i j := ⟨hcall, hle, by omega, fun k h1 h2 => hlast k h1 (by omega)⟩
    have hnext := hrun.next j hjN
    have hearlier : ((st j).loc t).pc = .done 0 → ∃ m, i < m ∧ m < j + 1 ∧ Refused P (st m) c.n c.side := by
      intro hdone
      obtain ⟨m, him, hmj, hm⟩ := ih hdone (fun k h1 h2 => hfresh k h1 (by omega)) hle hbefore.le hbefore.last
      exact ⟨m, him, by omega, hm⟩
    rw [hnext] at hpc
    rcases Made.exec ⟨hcall, hij, hjN, hlast⟩ hle (Nat.lt_succ_self j) (P := P) with ha | hsame
    · have he := hrun.enabled j hjN
      rw [ha] at hpc he
      obtain ⟨hside, hburst⟩ := call_kept hrts hrun hcall j hle hbefore.le hbefore.last
      have hI : Inv P (st j) := Reachable.inv hsz hrts (hrun.reachable j hbefore.le)
      have hm := hI.refused hsz hrts he.1 hpc (by rw [hburst]; exact hn) (hfresh j hle (Nat.lt_succ_self j))
      rw [hside, hburst] at hm
      exact ⟨j, hle, Nat.lt_succ_self j, hm⟩
    · have hpc' := hsame (st j)
      exact hearlier (by rw [← hpc']; exact hpc)

/-- **Linearizability.**  Every run of a ring with MT, ST and HTS sides is linearizable, for all bursts whose index
products fit into 32 bits. -/
theorem linearizable {e : Nat} (he : e ≤ 31) (hsz : P.sz.toNat = 2 ^ e) (hrts : ∀ d, P.cfg.sync d ≠ .mtRts)
    (hfit : ∀ n, P.bursts n → Fits P.cfg.T (2 ^ e) (min n.toNat (2 ^ e - 1)))
    (hrun : (machine W P).Run N st act) : Linearized P N st act := by
  have hpos : 0 < P.sz.toNat := by
    rw [hsz]
    exact Nat.two_pow_pos e
  have hinv : ∀ s : State τ W, (machine W P).Reachable s → Inv P s := fun s hs => Reachable.inv hpos hrts hs
  have hvals : ∀ s : State τ W, (machine W P).Reachable s → Vals P s := fun s hs =>
    Reachable.vals he hsz hrts hfit hs
  refine ⟨fun j hj => ?_, fun t c i j n h hpc hn => ?_, fun t c i j h hpc => ?_, fun t c i j h hn hpc hfresh =>
    h.refused hpos hrts hrun hn hpc hfresh⟩
  · have hempty : queue P (st 0) = [] := by
      unfold queue
      rw [hrun.init.resv, hrun.init.resv]
      rfl
    rw [← hempty]
    exact hrun.legal (fun s a hs ha => (hinv s hs).effect_legal (hvals s hs) hpos hrts ha) j hj
  · have hr := hrun.reachable j h.le
    have htook := h.took_done hrts (hinv _ hr) (hvals _ hr) hpos hrun hpc
    rw [if_neg hn] at htook
    exact (h.effect_once hpos hrts hvals hrun).2 _ htook
  · have hr := hrun.reachable j h.le
    have htook := h.took_done hrts (hinv _ hr) (hvals _ hr) hpos hrun hpc
    rw [if_pos rfl] at htook
    exact (h.effect_once hpos hrts hvals hrun).1 htook

/-- One producer overtakes another one, and neither has returned. -/
theorem linearizable_overtake :
    Linearized mpscFour 12 ((machine Nat mpscFour).stateAt (State.fresh mpscFour 0) mpscOvertake)
      mpscOvertake := by
  have hrun : (machine Nat mpscFour).Run 12 _ mpscOvertake :=
    .of_enabled (State.fresh_init mpscFour 0) (by decide +kernel)
  have hfit : ∀ n, mpscFour.bursts n → Fits mpscFour.cfg.T (2 ^ 2) (min n.toNat (2 ^ 2 - 1)) := by
    intro n _
    refine .inr (.inr ?_)
    show (2 ^ 2 + min n.toNat (2 ^ 2 - 1) - 1) * 1 < 2 ^ 32
    omega
  exact linearizable (by decide) rfl (fun d => by cases d <;> decide) hfit hrun

end Sqkio.Common.Ring
