import Sqkio.Lib.Progress
import Sqkio.Ring.Counters
import Sqkio.Ring.Seq

/-!
# Progress of the calls

A call that is not waiting comes closer to its end with every access (`Pc.rank`), unless another one moves the head
that it has loaded: then it has to start over.  A call waits only for one that is in front of it, and that one
waits for nobody.

    accesses_le       the number of accesses of a call, over those that other calls cost it
    can_finish        every call can be brought to its end by those in front of it
-/

namespace Sqkio.Common.Ring

open Sqkio.Lib

variable {W τ : Type}

/-- A register of its side has not got the value yet that the call waits for. -/
def Pc.Waits (x : HeadTail) : Pc → Prop
  | .waitTail oldHead _ => x.tail ≠ oldHead
  | .htsWait => x.head ≠ x.tail
  | _ => False

instance (x : HeadTail) : DecidablePred (Pc.Waits x)
  | .waitTail oldHead _ => inferInstanceAs (Decidable (x.tail ≠ oldHead))
  | .htsWait => inferInstanceAs (Decidable (x.head ≠ x.tail))
  | .idle | .loadHead | .reloadHead | .loadTail _ | .moveHead _ _ | .htsLoad | .htsLoadTail _ | .htsMoveHead _ _
  | .copy _ _ _ | .storeTail _ _ | .done _ | .abort => isFalse id

def Waits (s : State τ W) (t : τ) : Prop := (s.loc t).pc.Waits (s.ring.ht (s.loc t).call.side)

instance (s : State τ W) (t : τ) : Decidable (Waits s t) := inferInstanceAs (Decidable ((s.loc t).pc.Waits _))

/-- The accesses that are left if nobody interferes and at most `k` words are copied; `cur` says that the head is
still where it was loaded. -/
def Pc.rank (k : Nat) (cur : Bool) : Pc → Nat
  | .idle | .done _ | .abort => 0
  | .storeTail _ _ => 1
  | .waitTail _ _ => 2
  | .copy _ _ todo => todo.length + 3
  | .moveHead _ _ | .htsMoveHead _ _ => if cur then k + 4 else k + 7
  | .loadTail _ | .htsLoadTail _ => if cur then k + 5 else k + 8
  | .reloadHead | .htsWait => k + 6
  | .loadHead | .htsLoad => k + 7

def rank (k : Nat) (s : State τ W) (t : τ) : Nat :=
  (s.loc t).pc.rank k (s.hist.loaded t == s.hist.resv (s.loc t).call.side)

/-- The program counter is one of the side's sync type.  An HTS attempt has found nothing reserved. -/
def Pc.Ok (sync : RingSyncType) (d : Side) (loaded rel : Nat) : Pc → Prop
  | .loadHead | .loadTail _ | .moveHead _ _ => sync ≠ .mtHts
  | .reloadHead => sync ≠ .mtHts ∧ d = .cons
  | .htsLoad | .htsWait => sync = .mtHts
  | .htsLoadTail _ | .htsMoveHead _ _ => sync = .mtHts ∧ loaded ≤ rel
  | .waitTail _ _ => sync = .mt
  | .abort => False
  | _ => True

def PcOk (P : Params τ) (s : State τ W) (t : τ) : Prop :=
  (s.loc t).pc.Ok (P.cfg.sync (s.loc t).call.side) (s.loc t).call.side (s.hist.loaded t)
    (s.hist.rel (s.loc t).call.side)

/-! ## The length of a plan -/

theorem plan_length_le {T : ElemType} {size old n : UInt32} (hsz : 0 < size.toNat) (hle : size.toNat ≤ 2 ^ 31)
    (hn : n.toNat < size.toNat) : (enqueueElements T size (size - 1) old n).length ≤ n.toNat * T.words := by
  have hmask : (old &&& (size - 1)).toNat ≤ size.toNat - 1 := by
    rw [UInt32.toNat_and, toNat_sub_one hsz]
    exact Nat.and_le_right
  rw [enqueueElements_eq T size _ old n fun _ _ => by omega, List.length_map, List.length_range]
  unfold nrNum
  rw [factor_words, UInt32.toNat_mul, ofNat_toNat]
  calc n.toNat * (T.words % 2 ^ 32) % 2 ^ 32 ≤ n.toNat * (T.words % 2 ^ 32) := Nat.mod_le _ _
    _ ≤ n.toNat * T.words := Nat.mul_le_mul_left _ (Nat.mod_le _ _)

/-! ## One access -/

section

variable {cfg : Config} {r : Ring W} {c : Call W}

/-- An attempt that starts over. -/
def Pc.again (x : HeadTail) : Side → Pc
  | .prod => .loadTail x.head
  | .cons => .reloadHead

theorem loadHead_step (hs : cfg.sync c.side ≠ .mtHts) :
    Local.step cfg r ⟨c, .loadHead⟩ = (r, ⟨c, Pc.again (r.ht c.side) c.side⟩, .load) := by
  obtain ⟨d, n, obj⟩ := c
  cases d with
  | prod | cons => simp only [Local.step, moveHeadOf_plain _ _ hs, moveProdHead, moveConsHead, Pc.again, ht]

theorem reloadHead_step (hs : cfg.sync c.side ≠ .mtHts) (hd : c.side = .cons) :
    Local.step cfg r ⟨c, .reloadHead⟩ = (r, ⟨c, .loadTail (r.ht c.side).head⟩, .load) := by
  obtain ⟨d, n, obj⟩ := c
  obtain rfl : d = .cons := hd
  simp only [Local.step, moveHeadOf_plain _ _ hs, moveConsHead, ht]

theorem loadTail_step (hs : cfg.sync c.side ≠ .mtHts) {old : UInt32} :
    ∃ n, Local.step cfg r ⟨c, .loadTail old⟩ = (r, ⟨c, if n = 0 then .done 0 else .moveHead old n⟩, .tau) := by
  obtain ⟨d, n, obj⟩ := c
  cases d with
  | prod | cons => exact ⟨_, by simp only [Local.step, moveHeadOf_plain _ _ hs, moveProdHead, moveConsHead]; rfl⟩

theorem moveHead_step (hs : cfg.sync c.side ≠ .mtHts) (hrts : cfg.sync c.side ≠ .mtRts) {old n : UInt32} :
    Local.step cfg r ⟨c, .moveHead old n⟩ =
      if cfg.sync c.side = .st ∨ (r.ht c.side).head = old then
        (r.setHt c.side { r.ht c.side with head := old + n },
          ⟨c, .copy old n (enqueueElements cfg.T r.size r.mask old n)⟩, .reserve n)
      else (r, ⟨c, Pc.again (r.ht c.side) c.side⟩, .load) := by
  obtain ⟨d, m, obj⟩ := c
  cases d with
  | prod =>
    have hmt : cfg.prodSync = .mt ↔ cfg.prodSync ≠ .st := by
      change cfg.prodSync ≠ .mtHts at hs
      change cfg.prodSync ≠ .mtRts at hrts
      cases h : cfg.prodSync <;> simp_all
    simp only [Local.step, moveHeadOf_plain _ _ hs, moveProdHead, Pc.again, ht, setHt, Config.sync, hmt]
    by_cases hst : cfg.prodSync = .st
    · simp only [hst, ne_eq, not_true_eq_false, if_false, true_or, if_true]
    · simp only [hst, ne_eq, not_false_eq_true, if_true, false_or]
      split <;> rfl
  | cons =>
    simp only [Local.step, moveHeadOf_plain _ _ hs, moveConsHead, Pc.again, ht, setHt, Config.sync]
    by_cases hst : cfg.consSync = .st
    · simp only [hst, if_true, true_or]
      rfl
    · simp only [hst, if_false, false_or]
      split <;> rfl

/-- What the load of an HTS pair leads to. -/
def Pc.htsAgain (x : HeadTail) : Pc := if x.head ≠ x.tail then .htsWait else .htsLoadTail x

theorem htsLoad_step (hs : cfg.sync c.side = .mtHts) {pc : Pc} (hpc : pc = .htsLoad ∨ pc = .htsWait) :
    Local.step cfg r ⟨c, pc⟩ = (r, ⟨c, Pc.htsAgain (r.ht c.side)⟩, .load) := by
  obtain ⟨d, n, obj⟩ := c
  rcases hpc with rfl | rfl <;> cases d <;>
    (simp only [Local.step, moveHeadOf_hts _ _ hs, moveProdHeadHts, moveConsHeadHts, Pc.htsAgain, ht]; rfl)

theorem htsLoadTail_step (hs : cfg.sync c.side = .mtHts) {op : HeadTail} :
    ∃ n, Local.step cfg r ⟨c, .htsLoadTail op⟩ = (r, ⟨c, if n = 0 then .done 0 else .htsMoveHead op n⟩, .tau) := by
  obtain ⟨d, n, obj⟩ := c
  cases d with
  | prod | cons =>
    exact ⟨_, by simp only [Local.step, moveHeadOf_hts _ _ hs, moveProdHeadHts, moveConsHeadHts]; rfl⟩

theorem htsMoveHead_step (hs : cfg.sync c.side = .mtHts) {op : HeadTail} {n : UInt32} (hop : r.ht c.side = op) :
    Local.step cfg r ⟨c, .htsMoveHead op n⟩ =
      (r.setHt c.side ⟨op.head + n, op.tail⟩,
        ⟨c, .copy op.head n (enqueueElements cfg.T r.size r.mask op.head n)⟩, .reserve n) := by
  obtain ⟨d, m, obj⟩ := c
  cases d with
  | prod =>
    change r.prod = op at hop
    simp only [Local.step, moveHeadOf_hts _ _ hs, moveProdHeadHts, setHt, if_pos hop]
  | cons =>
    change r.cons = op at hop
    simp only [Local.step, moveHeadOf_hts _ _ hs, moveConsHeadHts, setHt, if_pos hop]
    rfl

theorem htsMoveHead_step_of_ne (hs : cfg.sync c.side = .mtHts) {op : HeadTail} {n : UInt32}
    (hop : r.ht c.side ≠ op) :
    Local.step cfg r ⟨c, .htsMoveHead op n⟩ = (r, ⟨c, Pc.htsAgain (r.ht c.side)⟩, .load) := by
  obtain ⟨d, m, obj⟩ := c
  cases d with
  | prod =>
    change r.prod ≠ op at hop
    simp only [Local.step, moveHeadOf_hts _ _ hs, moveProdHeadHts, Pc.htsAgain, ht, if_neg hop]
    rfl
  | cons =>
    change r.cons ≠ op at hop
    simp only [Local.step, moveHeadOf_hts _ _ hs, moveConsHeadHts, Pc.htsAgain, ht, if_neg hop]
    rfl

end

section

variable {P : Params τ} {s : State τ W} {t u : τ} {k : Nat} {c : Call W} {pc : Pc} {r : Ring W}

theorem Pc.rank_le (b c : Bool) (pc : Pc) : pc.rank k b ≤ pc.rank k c + 3 := by
  cases pc <;> cases b <;> cases c <;> simp [Pc.rank]

/-- The attempt that follows a load of the head: the call has come closer to its end, and an HTS call goes on only
if nothing is reserved. -/
theorem again_ok (hs : P.cfg.sync c.side ≠ .mtHts) {x : HeadTail} {loaded rel : Nat} :
    (Pc.again x c.side).Ok (P.cfg.sync c.side) c.side loaded rel ∧ (Pc.again x c.side).rank k true ≤ k + 6 := by
  cases hd : c.side with
  | prod =>
    rw [hd] at hs
    exact ⟨hs, Nat.le_succ _⟩
  | cons =>
    rw [hd] at hs
    exact ⟨⟨hs, rfl⟩, Nat.le_refl _⟩

theorem Inv.htsAgain_ok (hI : Inv P s) {d : Side} (hs : P.cfg.sync d = .mtHts) :
    (Pc.htsAgain (s.ring.ht d)).Ok (P.cfg.sync d) d (s.hist.resv d) (s.hist.rel d) ∧
      (Pc.htsAgain (s.ring.ht d)).rank k true ≤ k + 6 := by
  unfold Pc.htsAgain
  split
  · exact ⟨hs, Nat.le_refl _⟩
  · next hpair =>
    have hspan := (hI.span d).1
    have hlt := P.sz.toNat_lt
    have heq := not_not.mp hpair
    rw [hI.head, hI.tail] at heq
    exact ⟨⟨hs, Nat.le_of_eq (ofNat_inj_window (hI.tiles d).le (by omega) heq.symm).symm⟩, Nat.le_succ _⟩

/-- A head that is where it was loaded can be moved. -/
theorem Inv.head_of_cur (hI : Inv P s) {old n : UInt32} (hm : (s.loc t).pc.moving = some (old, n))
    (hcur : s.hist.loaded t = s.hist.resv (s.loc t).call.side) : (s.ring.ht (s.loc t).call.side).head = old := by
  rw [hI.head, ((hI.thread t).moving old n hm).1, hcur]

/-- What a call copies when it has moved the head. -/
theorem Inv.plan_le (hI : Inv P s) (hsz : 0 < P.sz.toNat) (hle : P.sz.toNat ≤ 2 ^ 31)
    (hk : (s.loc t).call.n.toNat * P.cfg.T.words ≤ k) {old n : UInt32} (hm : (s.loc t).pc.moving = some (old, n))
    (hload : s.hist.loaded t = s.hist.resv (s.loc t).call.side) :
    (enqueueElements P.cfg.T s.ring.size s.ring.mask old n).length ≤ k := by
  obtain ⟨-, -, -, hnle, hfit, -⟩ := (hI.thread t).moving old n hm
  have hspan := (hI.span (s.loc t).call.side).2
  have hroom := hfit hload.symm
  rw [hI.shape.1, hI.shape.2.1]
  calc (enqueueElements P.cfg.T P.sz (P.sz - 1) old n).length ≤ n.toNat * P.cfg.T.words :=
        plan_length_le hsz hle (by omega)
    _ ≤ (s.loc t).call.n.toNat * P.cfg.T.words := Nat.mul_le_mul_right _ (UInt32.le_iff_toNat_le.mp hnle)
    _ ≤ k := hk

variable [DecidableEq τ]

/-- An access of `t` brings its call closer to its end, unless it waits. -/
def Lowers (P : Params τ) (s : State τ W) (t : τ) (k : Nat) : Prop :=
  PcOk P (next P s (.exec t)) t ∧ rank k (next P s (.exec t)) t + (if Waits s t then 0 else 1) ≤ rank k s t

theorem lowers_tau {pc' : Pc} {c' : Call W} (hl : s.loc t = ⟨c, pc⟩)
    (hstep : Local.step P.cfg s.ring ⟨c, pc⟩ = (r, ⟨c', pc'⟩, .tau)) (hside : c'.side = c.side)
    (hok : pc'.Ok (P.cfg.sync c.side) c.side (s.hist.loaded t) (s.hist.rel c.side))
    (hlt : ∀ cur, pc'.rank k cur + (if pc.Waits (s.ring.ht c.side) then 0 else 1) ≤ pc.rank k cur) :
    Lowers P s t k := by
  unfold Lowers PcOk rank Waits
  simp only [next, hl, hstep, Function.update_self, hside, Hist.record]
  exact ⟨hok, hlt _⟩

/-- An attempt that is decided: it fails, or it is about to move the head. -/
theorem lowers_decide {pc' : Pc} {n : UInt32} (hl : s.loc t = ⟨c, pc⟩)
    (hstep : Local.step P.cfg s.ring ⟨c, pc⟩ = (r, ⟨c, if n = 0 then .done 0 else pc'⟩, .tau))
    (hok : pc'.Ok (P.cfg.sync c.side) c.side (s.hist.loaded t) (s.hist.rel c.side))
    (hlt : ∀ cur, pc'.rank k cur + (if pc.Waits (s.ring.ht c.side) then 0 else 1) ≤ pc.rank k cur) :
    Lowers P s t k := by
  refine lowers_tau hl hstep rfl ?_ fun cur => ?_
  · split
    · trivial
    · exact hok
  · by_cases hn : n = 0
    · rw [if_pos hn]
      exact Nat.le_trans (Nat.add_le_add_right (Nat.zero_le _) _) (hlt cur)
    · rw [if_neg hn]
      exact hlt cur

theorem lowers_load {pc' : Pc} (hl : s.loc t = ⟨c, pc⟩)
    (hstep : Local.step P.cfg s.ring ⟨c, pc⟩ = (r, ⟨c, pc'⟩, .load))
    (hok : pc'.Ok (P.cfg.sync c.side) c.side (s.hist.resv c.side) (s.hist.rel c.side))
    (hlt : pc'.rank k true + (if pc.Waits (s.ring.ht c.side) then 0 else 1) ≤
      pc.rank k (s.hist.loaded t == s.hist.resv c.side)) : Lowers P s t k := by
  unfold Lowers PcOk rank Waits
  simp only [next, hl, hstep, Function.update_self, Hist.record, beq_self_eq_true]
  exact ⟨hok, hlt⟩

theorem lowers_reserve {old n : UInt32} {todo : List Copy} (hl : s.loc t = ⟨c, pc⟩)
    (hstep : Local.step P.cfg s.ring ⟨c, pc⟩ = (r, ⟨c, .copy old n todo⟩, .reserve n)) (hlen : todo.length ≤ k)
    (hlt : k + 4 ≤ pc.rank k (s.hist.loaded t == s.hist.resv c.side)) : Lowers P s t k := by
  unfold Lowers PcOk rank
  simp only [next, hl, hstep, Function.update_self]
  refine ⟨trivial, ?_⟩
  show todo.length + 3 + _ ≤ _
  split <;> omega

/-- **Step lemma.**  One case for every program counter. -/
theorem Inv.lowers (hI : Inv P s) (hsz : 0 < P.sz.toNat) (hle : P.sz.toNat ≤ 2 ^ 31)
    (hrts : ∀ d, P.cfg.sync d ≠ .mtRts) (hok : PcOk P s t) (he : Enabled P s (.exec t))
    (hk : (s.loc t).call.n.toNat * P.cfg.T.words ≤ k) : Lowers P s t k := by
  obtain ⟨hbusy, hfresh⟩ := he
  have hmove := @Inv.at_move _ _ _ _ t hI hsz
  have hcur := @Inv.head_of_cur _ _ _ _ t hI
  have hplan := @Inv.plan_le _ _ _ _ t k hI hsz hle hk
  obtain ⟨c, pc, hl⟩ : ∃ c pc, s.loc t = ⟨c, pc⟩ := ⟨_, _, rfl⟩
  unfold PcOk at hok
  rw [hl] at hok hbusy hfresh hmove hcur hplan
  dsimp only at hok hbusy hfresh hmove hcur hplan
  cases pc with
  | idle => cases hbusy
  | done n => cases hbusy
  | abort => exact hok.elim
  | loadHead =>
    obtain ⟨hok', hlt⟩ := again_ok (k := k) hok
    exact lowers_load hl (loadHead_step hok) hok' (Nat.succ_le_succ hlt)
  | reloadHead =>
    exact lowers_load hl (reloadHead_step hok.1 hok.2) hok.1 (Nat.le_refl _)
  | loadTail old =>
    obtain ⟨n, hstep⟩ := @loadTail_step _ P.cfg s.ring c hok old
    refine lowers_decide hl hstep hok fun cur => ?_
    cases cur with
    | false | true => exact Nat.le_refl _
  | moveHead old n =>
    have hstep := @moveHead_step _ P.cfg s.ring c hok (hrts _) old n
    by_cases hhead : P.cfg.sync c.side = .st ∨ (s.ring.ht c.side).head = old
    · rw [if_pos hhead] at hstep
      obtain ⟨hload, -⟩ := hmove rfl (hfresh trivial) hhead fun hhts => absurd hhts hok
      refine lowers_reserve hl hstep (hplan rfl hload) ?_
      rw [hload, beq_self_eq_true]
      exact Nat.le_refl _
    · rw [if_neg hhead] at hstep
      have hstale : (s.hist.loaded t == s.hist.resv c.side) = false :=
        beq_eq_false_iff_ne.mpr fun hload => hhead (.inr (hcur rfl hload))
      obtain ⟨hok', hlt⟩ := again_ok (k := k) hok
      refine lowers_load hl hstep hok' ?_
      rw [hstale]
      exact Nat.succ_le_succ hlt
  | htsLoad =>
    obtain ⟨hok', hlt⟩ := hI.htsAgain_ok (k := k) hok
    exact lowers_load hl (htsLoad_step hok (.inl rfl)) hok' (Nat.succ_le_succ hlt)
  | htsWait =>
    obtain ⟨hok', hlt⟩ := hI.htsAgain_ok (k := k) hok
    refine lowers_load hl (htsLoad_step hok (.inr rfl)) hok' ?_
    show (Pc.htsAgain (s.ring.ht c.side)).rank k true +
      (if (s.ring.ht c.side).head ≠ (s.ring.ht c.side).tail then 0 else 1) ≤ k + 6
    unfold Pc.htsAgain
    by_cases hpair : (s.ring.ht c.side).head ≠ (s.ring.ht c.side).tail
    · rw [if_pos hpair, if_pos hpair]
      exact Nat.le_refl _
    · rw [if_neg hpair, if_neg hpair]
      exact Nat.le_refl _
  | htsLoadTail op =>
    obtain ⟨n, hstep⟩ := @htsLoadTail_step _ P.cfg s.ring c hok.1 op
    refine lowers_decide hl hstep hok fun cur => ?_
    cases cur with
    | false | true => exact Nat.le_refl _
  | htsMoveHead op n =>
    by_cases hop : s.ring.ht c.side = op
    · obtain ⟨hload, -⟩ := hmove rfl (hfresh trivial) (.inr (congrArg HeadTail.head hop)) fun _ => ⟨op, rfl, hop⟩
      refine lowers_reserve hl (htsMoveHead_step hok.1 hop) (hplan rfl hload) ?_
      rw [hload, beq_self_eq_true]
      exact Nat.le_refl _
    · have hstale : (s.hist.loaded t == s.hist.resv c.side) = false := by
        refine beq_eq_false_iff_ne.mpr fun hload => hop ?_
        have hhead := hcur rfl hload
        have hrel : s.hist.rel c.side = s.hist.resv c.side := Nat.le_antisymm (hI.tiles c.side).le (hload ▸ hok.2)
        have hpair : op.head = op.tail := (hI.thread t).hts op (by rw [hl]; rfl)
        have htail : (s.ring.ht c.side).tail = op.tail := by rw [hI.tail, hrel, ← hI.head, hhead, hpair]
        show (⟨(s.ring.ht c.side).head, (s.ring.ht c.side).tail⟩ : HeadTail) = op
        rw [hhead, htail]
      obtain ⟨hok', hlt⟩ := hI.htsAgain_ok (k := k) hok.1
      refine lowers_load hl (htsMoveHead_step_of_ne hok.1 hop) hok' ?_
      rw [hstale]
      exact Nat.succ_le_succ hlt
  | copy old n todo =>
    cases todo with
    | nil =>
      refine lowers_tau hl rfl rfl ?_ fun _ => ?_
      · unfold updateTailStart
        split
        · next hmt => exact hmt
        · trivial
      · unfold updateTailStart
        split
        · exact Nat.le_refl _
        · exact Nat.le_succ _
    | cons cp todo => exact lowers_tau hl rfl (copyWord_call s.ring c cp).1 trivial fun _ => Nat.le_refl _
  | waitTail old n =>
    refine lowers_tau hl rfl rfl ?_ fun cur => ?_
    · show Pc.Ok _ _ _ _ (if (s.ring.ht c.side).tail = old then .storeTail old n else .waitTail old n)
      split
      · trivial
      · exact hok
    · show Pc.rank k cur (if (s.ring.ht c.side).tail = old then .storeTail old n else .waitTail old n) +
        (if (s.ring.ht c.side).tail ≠ old then 0 else 1) ≤ 2
      by_cases htail : (s.ring.ht c.side).tail = old
      · rw [if_pos htail, if_neg (not_not.mpr htail)]
        exact Nat.le_refl _
      · rw [if_neg htail, if_pos htail]
        exact Nat.le_refl _
  | storeTail old n =>
    unfold Lowers PcOk rank Waits
    simp only [next, hl, Local.step, updateTail, Function.update_self]
    exact ⟨trivial, Nat.le_refl _⟩

/-- An access of `u` does nothing to another call but move the head that it has loaded, and the positions only
grow. -/
theorem Inv.exec_other (hI : Inv P s) (hsz : 0 < P.sz.toNat) (hrts : ∀ d, P.cfg.sync d ≠ .mtRts)
    (he : Enabled P s (.exec u)) (hu : t ≠ u) (d : Side) :
    (next P s (.exec u)).loc t = s.loc t ∧ (next P s (.exec u)).hist.loaded t = s.hist.loaded t ∧
      s.hist.rel d ≤ (next P s (.exec u)).hist.rel d ∧
      (((next P s (.exec u)).ring.ht d).head = (s.ring.ht d).head →
        (next P s (.exec u)).hist.resv d = s.hist.resv d) := by
  have hI' := hI.exec_step hsz hrts he
  have hmoving := (hI.thread u).moving
  have hspec := step_spec P.cfg hrts s.ring (s.loc u)
  have hhead := hI'.head d
  have hlast := hI.head d
  simp only [next] at hhead ⊢
  generalize (s.loc u).step P.cfg s.ring = m at hspec hhead ⊢
  refine ⟨Function.update_of_ne hu _ _, ?_⟩
  cases hspec with
  | noop => exact ⟨rfl, Nat.le_refl _, fun _ => rfl⟩
  | load pc' => exact ⟨Function.update_of_ne hu _ _, Nat.le_refl _, fun _ => rfl⟩
  | fail | decide | startTail | copyWord | wait => exact ⟨rfl, Nat.le_refl _, fun _ => rfl⟩
  | reserve old n hm =>
    refine ⟨rfl, Nat.le_refl _, fun heq => ?_⟩
    by_cases hd : d = (s.loc u).call.side
    · subst hd
      -- the head has moved by a burst below `2 ^ 32`
      have hn := (hmoving old n hm).2.2.1
      rw [heq, hlast] at hhead
      simp only [Hist.record, Function.update_self, UInt32.ofNat_add, UInt32.ofNat_toNat] at hhead
      have hzero : n = 0 := by
        have := congrArg (· - UInt32.ofNat (s.hist.resv (s.loc u).call.side)) hhead
        simpa [UInt32.add_comm] using this.symm
      rw [hzero] at hn
      cases hn
    · exact Function.update_of_ne hd _ _
  | publish old n =>
    refine ⟨rfl, ?_, fun _ => rfl⟩
    simp only [Hist.record]
    by_cases hd : d = (s.loc u).call.side
    · subst hd
      rw [Function.update_self]
      exact Nat.le_add_right _ _
    · rw [Function.update_of_ne hd]

theorem Pc.Ok.mono {sync : RingSyncType} {d : Side} {loaded rel rel' : Nat} (h : pc.Ok sync d loaded rel)
    (hrel : rel ≤ rel') : pc.Ok sync d loaded rel' := by
  cases pc with
  | htsLoadTail _ | htsMoveHead _ _ => exact ⟨h.1, Nat.le_trans h.2 hrel⟩
  | _ => exact h

theorem Reachable.pcOk (hsz : 0 < P.sz.toNat) (hle : P.sz.toNat ≤ 2 ^ 31) (hrts : ∀ d, P.cfg.sync d ≠ .mtRts)
    (h : (machine W P).Reachable s) : ∀ t, PcOk P s t := by
  refine @Machine.Reachable.inv _ _ _ (fun s => ∀ t, PcOk P s t) ?_ ?_ s h
  · intro s hinit t
    unfold PcOk
    rw [hinit.idle t]
    trivial
  · intro s a hr hok he t
    have hI := Reachable.inv hsz hrts hr
    cases a with
    | call u c =>
      by_cases htu : t = u
      · subst htu
        unfold PcOk
        simp only [machine, next, Function.update_self, Local.start]
        have hne := hrts c.side
        cases hs : P.cfg.sync c.side with
        | mt | st => exact fun h => by cases h
        | mtHts => rfl
        | mtRts => exact absurd hs hne
      · have := hok t
        unfold PcOk at this ⊢
        simpa only [machine, next, Function.update_of_ne htu, Hist.recordCall] using this
    | exec u =>
      by_cases htu : t = u
      · subst htu
        exact (hI.lowers hsz hle hrts (hok t) he (Nat.le_refl _)).1
      · obtain ⟨hloc, hloaded, hrel, -⟩ := hI.exec_other hsz hrts he htu (s.loc t).call.side
        have := hok t
        show PcOk P (next P s (.exec u)) t
        unfold PcOk at this ⊢
        rw [hloc, hloaded]
        exact this.mono hrel

/-! ## The accesses of a call -/

/-- What an action means for how far `t` is from the end of its call. -/
theorem Inv.rank_next (hI : Inv P s) (hsz : 0 < P.sz.toNat) (hle : P.sz.toNat ≤ 2 ^ 31)
    (hrts : ∀ d, P.cfg.sync d ≠ .mtRts) (hok : PcOk P s t) {a : Act τ W} (he : Enabled P s a)
    (hne : ∀ c, a ≠ .call t c)
    (hk : (s.loc t).call.n.toNat * P.cfg.T.words ≤ k) :
    rank k (next P s a) t + (if a.thread = t ∧ ¬Waits s t then 1 else 0) ≤ rank k s t +
      if a.thread ≠ t ∧ ((next P s a).ring.ht (s.loc t).call.side).head ≠ (s.ring.ht (s.loc t).call.side).head
        then 3 else 0 := by
  cases a with
  | call u c =>
    have htu : t ≠ u := by
      rintro rfl
      exact hne c rfl
    have hsame : rank k (next P s (.call u c)) t = rank k s t := by
      unfold rank
      simp only [next, Function.update_of_ne htu, Hist.recordCall]
    rw [hsame, if_neg fun h => htu h.1.symm]
    exact Nat.le_add_right _ _
  | exec u =>
    by_cases htu : u = t
    · subst htu
      have hlt := (hI.lowers hsz hle hrts hok he hk).2
      refine Nat.le_trans ?_ (Nat.le_trans hlt (Nat.le_add_right _ _))
      by_cases hw : Waits s u
      · rw [if_pos hw, if_neg fun h => h.2 hw]
      · rw [if_neg hw, if_pos ⟨rfl, hw⟩]
    · obtain ⟨hloc, hloaded, -, hresv⟩ := hI.exec_other hsz hrts he (Ne.symm htu) (s.loc t).call.side
      rw [if_neg fun h => htu h.1]
      unfold rank
      rw [hloc, hloaded]
      by_cases hhead :
          ((next P s (.exec u)).ring.ht (s.loc t).call.side).head = (s.ring.ht (s.loc t).call.side).head
      · rw [hresv hhead]
        exact Nat.le_add_right _ _
      · rw [if_pos ⟨htu, hhead⟩]
        exact Pc.rank_le _ _ _

end

variable [DecidableEq τ] {P : Params τ}

/-- How often `t` makes an access from step `i` to step `j`, other than one that waits. -/
def accesses (st : Nat → State τ W) (act : Nat → Act τ W) (t : τ) (i j : Nat) : Nat :=
  ((Finset.Ico i j).filter fun k => (act k).thread = t ∧ ¬Waits (st k) t).card

/-- How often another thread moves the head of side `d`. -/
def overtaken (st : Nat → State τ W) (act : Nat → Act τ W) (t : τ) (d : Side) (i j : Nat) : Nat :=
  ((Finset.Ico i j).filter fun k =>
    (act k).thread ≠ t ∧ ((st (k + 1)).ring.ht d).head ≠ ((st k).ring.ht d).head).card

/-- What a call has left and what it has done. -/
theorem rank_add_accesses_le (hsz : 0 < P.sz.toNat) (hle : P.sz.toNat ≤ 2 ^ 31) (hrts : ∀ d, P.cfg.sync d ≠ .mtRts)
    {N : Nat} {st : Nat → State τ W} {act : Nat → Act τ W} (hrun : (machine W P).Run N st act) {t : τ} {c : Call W}
    {i j : Nat} (hi : act i = .call t c) (hij : i < j) (hjN : j ≤ N)
    (hsame : ∀ k, i < k → k < j → ∀ c', act k ≠ .call t c') :
    rank (c.n.toNat * P.cfg.T.words) (st j) t + accesses st act t (i + 1) j ≤
      c.n.toNat * P.cfg.T.words + 7 + 3 * overtaken st act t c.side (i + 1) j := by
  have hstart : rank (c.n.toNat * P.cfg.T.words) (st (i + 1)) t ≤ c.n.toNat * P.cfg.T.words + 7 := by
    have hne := hrts c.side
    rw [hrun.next i (by omega), hi]
    unfold rank
    simp only [machine, next, Function.update_self, Local.start]
    cases hs : P.cfg.sync c.side with
    | mt | st | mtHts => exact Nat.le_refl _
    | mtRts => exact absurd hs hne
  have hpay : rank (c.n.toNat * P.cfg.T.words) (st j) t + accesses st act t (i + 1) j ≤
      rank (c.n.toNat * P.cfg.T.words) (st (i + 1)) t + 3 * overtaken st act t c.side (i + 1) j := by
    unfold accesses overtaken
    refine card_add_le (Φ := fun k => rank (c.n.toNat * P.cfg.T.words) (st k) t) (by omega) fun k hik hkj => ?_
    obtain ⟨hside, hn⟩ := call_kept hrts hrun hi k (by omega) (by omega) fun m h1 h2 => hsame m h1 (by omega)
    have hr := hrun.reachable k (by omega)
    have hnext := (Reachable.inv hsz hrts hr).rank_next hsz hle hrts (Reachable.pcOk hsz hle hrts hr t)
      (hrun.enabled k (by omega)) (hsame k (by omega) hkj) (Nat.le_of_eq (by rw [hn]))
    rw [hside] at hnext
    rw [hrun.next k (by omega)]
    exact hnext
  omega

/-- **Lock freedom.**  In every run a call makes one access for each word it copies and 7 more, and at most 3 more
for each time that another call moves the head of its side meanwhile.  The accesses that wait are not counted. -/
theorem accesses_le (hsz : 0 < P.sz.toNat) (hle : P.sz.toNat ≤ 2 ^ 31) (hrts : ∀ d, P.cfg.sync d ≠ .mtRts)
    {N : Nat} {st : Nat → State τ W} {act : Nat → Act τ W} (hrun : (machine W P).Run N st act) {t : τ} {c : Call W}
    {i j : Nat}
    (hi : act i = .call t c) (hij : i < j) (hjN : j ≤ N) (hsame : ∀ k, i < k → k < j → ∀ c', act k ≠ .call t c') :
    accesses st act t (i + 1) j ≤ c.n.toNat * P.cfg.T.words + 7 + 3 * overtaken st act t c.side (i + 1) j :=
  Nat.le_trans (Nat.le_add_left _ _) (rank_add_accesses_le hsz hle hrts hrun hi hij hjN hsame)

/-- One producer loads the head, and another one moves it and stops. -/
def mpscOvertake (k : Nat) : Act (Fin 2) Nat := mpscRace.getD k (.exec ⟨0, Nat.two_pos⟩)

theorem accesses_le_overtake :
    accesses ((machine Nat mpscFour).stateAt (State.fresh mpscFour 0) mpscOvertake) mpscOvertake 0 (0 + 1) 12 ≤
      (1 : UInt32).toNat * mpscFour.cfg.T.words + 7 +
        3 * overtaken ((machine Nat mpscFour).stateAt (State.fresh mpscFour 0) mpscOvertake) mpscOvertake 0 .prod
          (0 + 1) 12 := by
  have hrun : (machine Nat mpscFour).Run 12 _ mpscOvertake :=
    .of_enabled (State.fresh_init mpscFour 0) (by decide +kernel)
  have honly : ∀ k, 0 < k → k < 12 → ∀ c', mpscOvertake k ≠ .call 0 c' := by
    intro k h1 _ c' h
    rcases k with _ | _ | _ | _ | _ | _ | _ | _ | k
    · exact absurd h1 (Nat.lt_irrefl 0)
    all_goals cases h
  exact accesses_le (c := ⟨.prod, 1, id⟩) (by decide) (by decide) (fun d => by cases d <;> decide)
    hrun rfl (by decide) (by decide) honly

section

variable {s : State τ W} {t u : τ} {d : Side}

/-- No other call holds the first position of side `d`. -/
def Front (s : State τ W) (d : Side) (t : τ) : Prop := ∀ u, u ≠ t → ∀ n, held s d u ≠ some (s.hist.rel d, n)

/-- An attempt that is under way can still be decided. -/
def Recent (P : Params τ) (s : State τ W) (t : τ) : Prop :=
  (s.loc t).pc.attempt.isSome ∨ (s.loc t).pc.moving.isSome → Fresh P s t

instance (s : State τ W) (t : τ) : Decidable (Recent P s t) := inferInstanceAs (Decidable (_ → _))

omit [DecidableEq τ] in
theorem Inv.exists_first (hI : Inv P s) (hlt : s.hist.rel d < s.hist.resv d) :
    ∃ u n, held s d u = some (s.hist.rel d, n) := by
  obtain ⟨u, a, n, hu, ha, -⟩ := (hI.tiles d).cover _ (Nat.le_refl _) hlt
  have hb := (hI.tiles d).bounds u a n hu
  obtain rfl : a = s.hist.rel d := Nat.le_antisymm ha hb.1
  exact ⟨u, n, hu⟩

omit [DecidableEq τ] in
/-- A call that is in front does not wait. -/
theorem Inv.not_waits (hI : Inv P s) (hfront : Front s (s.loc t).call.side t) : ¬Waits s t := by
  intro hw
  have hle := (hI.tiles (s.loc t).call.side).le
  have hhead := hI.head (s.loc t).call.side
  have htail := hI.tail (s.loc t).call.side
  have hreserved := (hI.thread t).reserved
  have hfirst := hI.exists_first (d := (s.loc t).call.side)
  have hbounds := (hI.tiles (s.loc t).call.side).bounds t
  have hheld : held s (s.loc t).call.side t = (s.loc t).pc.reserved.map fun r => (s.hist.start t, r.2.toNat) :=
    if_pos rfl
  rw [hheld] at hbounds
  unfold Waits at hw
  cases hpc : (s.loc t).pc with
  | waitTail old n =>
    rw [hpc] at hw hreserved hbounds hheld
    have hpos := hbounds (s.hist.start t) n.toNat rfl
    have hstart : s.hist.start t ≠ s.hist.rel (s.loc t).call.side := by
      intro heq
      apply hw
      rw [htail, ← heq]
      exact (hreserved old n rfl).1.symm
    obtain ⟨u, m, hu⟩ := hfirst (by omega)
    refine hfront u ?_ m hu
    rintro rfl
    rw [hheld] at hu
    exact hstart (congrArg Prod.fst (Option.some.inj hu))
  | htsWait =>
    rw [hpc] at hw hheld
    have hlt : s.hist.rel (s.loc t).call.side ≠ s.hist.resv (s.loc t).call.side := by
      intro heq
      apply hw
      rw [hhead, htail, heq]
    obtain ⟨u, m, hu⟩ := hfirst (by omega)
    refine hfront u ?_ m hu
    rintro rfl
    rw [hheld] at hu
    cases hu
  | _ =>
    rw [hpc] at hw
    exact hw

/-- An access of a call that has reserved changes no head, and nothing of the other calls. -/
theorem reserved_step (hrts : ∀ d, P.cfg.sync d ≠ .mtRts) {old n : UInt32}
    (hres : (s.loc u).pc.reserved = some (old, n)) :
    (next P s (.exec u)).hist.resv = s.hist.resv ∧ (next P s (.exec u)).hist.loaded = s.hist.loaded ∧
      (next P s (.exec u)).hist.start = s.hist.start ∧
      (((next P s (.exec u)).loc u).call.side = (s.loc u).call.side ∧
        ((next P s (.exec u)).loc u).pc.reserved = some (old, n) ∧ (next P s (.exec u)).hist.rel = s.hist.rel ∨
      ((next P s (.exec u)).loc u).pc.isIdle = true ∧ (next P s (.exec u)).hist.rel =
        Function.update s.hist.rel (s.loc u).call.side (s.hist.rel (s.loc u).call.side + n.toNat)) := by
  have hspec := step_spec P.cfg hrts s.ring (s.loc u)
  simp only [next, Function.update_self]
  generalize (s.loc u).step P.cfg s.ring = m at hspec ⊢
  cases hspec with
  | noop => exact ⟨rfl, rfl, rfl, .inl ⟨rfl, hres, rfl⟩⟩
  | load pc' hnone =>
    rw [hnone] at hres
    cases hres
  | fail old' hatt | decide old' n' pc' hatt =>
    rw [Pc.reserved_of_attempt hatt] at hres
    cases hres
  | reserve old' n' hm =>
    rw [Pc.reserved_of_moving hm] at hres
    cases hres
  | startTail old' n' hpc =>
    rw [hpc] at hres
    refine ⟨rfl, rfl, rfl, .inl ⟨rfl, ?_, rfl⟩⟩
    rw [← hres]
    unfold updateTailStart
    split <;> rfl
  | copyWord old' n' cp todo hpc =>
    rw [hpc] at hres
    exact ⟨rfl, rfl, rfl, .inl ⟨(copyWord_call s.ring (s.loc u).call cp).1, hres, rfl⟩⟩
  | wait old' n' hpc =>
    rw [hpc] at hres
    exact ⟨rfl, rfl, rfl, .inl ⟨rfl, hres, rfl⟩⟩
  | publish old' n' hpc =>
    rw [hpc] at hres
    obtain ⟨rfl, rfl⟩ := Prod.mk.inj (Option.some.inj hres)
    exact ⟨rfl, rfl, rfl, .inr ⟨rfl, rfl⟩⟩

/-- An access of `t` leaves it in front, unless it ends the call, and its attempt can be decided. -/
theorem front_step (hsz : 0 < P.sz.toNat) (hrts : ∀ d, P.cfg.sync d ≠ .mtRts)
    (hfront : Front s (s.loc t).call.side t)
    (hrecent : Recent P s t) : ((next P s (.exec t)).loc t).pc.isIdle = true ∨
      Front (next P s (.exec t)) ((next P s (.exec t)).loc t).call.side t ∧ Recent P (next P s (.exec t)) t := by
  have hspec := step_spec P.cfg hrts s.ring (s.loc t)
  have hlt := P.sz.toNat_lt
  -- what the others hold is what they held
  have hothers : ∀ (r : Ring W) (l : Local W) (ev : Event), l.call.side = (s.loc t).call.side →
      (s.hist.record t (s.loc t).call.side ev).rel = s.hist.rel →
        Front { ring := r, loc := Function.update s.loc t l, hist := s.hist.record t (s.loc t).call.side ev }
          (s.loc t).call.side t := by
    intro r l ev hside hrel u hu n hheld
    rw [held_update s r _ t l _ fun v hv => by cases ev <;> simp [Hist.record, hv],
      Function.update_of_ne hu] at hheld
    exact hfront u hu n (by rw [← hrel]; exact hheld)
  unfold Recent Fresh at hrecent ⊢
  simp only [next, Function.update_self]
  generalize (s.loc t).step P.cfg s.ring = m at hspec ⊢
  cases hspec with
  | noop => exact .inr ⟨hothers _ _ _ rfl rfl, hrecent⟩
  | load pc' =>
    refine .inr ⟨hothers _ _ _ rfl rfl, fun _ => ?_⟩
    simp only [Hist.record, Function.update_self]
    omega
  | fail => exact .inl rfl
  | decide old n pc' hatt =>
    refine .inr ⟨hothers _ _ _ rfl rfl, fun _ => hrecent (.inl ?_)⟩
    rw [hatt]
    rfl
  | reserve => exact .inr ⟨hothers _ _ _ rfl rfl, fun h => by rcases h with h | h <;> cases h⟩
  | startTail old n hpc =>
    refine .inr ⟨hothers _ _ _ rfl rfl, fun h => ?_⟩
    dsimp only [updateTailStart] at h
    split at h <;> rcases h with h | h <;> cases h
  | copyWord old n cp todo hpc =>
    obtain ⟨hside, -⟩ := copyWord_call s.ring (s.loc t).call cp
    dsimp only
    rw [hside]
    exact .inr ⟨hothers _ _ _ hside rfl, fun h => by rcases h with h | h <;> cases h⟩
  | wait => exact .inr ⟨hothers _ _ _ rfl rfl, fun h => by rcases h with h | h <;> cases h⟩
  | publish => exact .inl rfl

theorem exec_call_n (hrts : ∀ d, P.cfg.sync d ≠ .mtRts) :
    ((next P s (.exec t)).loc t).call.n = (s.loc t).call.n := by
  have hspec := step_spec P.cfg hrts s.ring (s.loc t)
  simp only [next, Function.update_self]
  generalize (s.loc t).step P.cfg s.ring = m at hspec ⊢
  cases hspec with
  | copyWord => exact (copyWord_call s.ring (s.loc t).call _).2
  | _ => rfl

omit [DecidableEq τ] in
theorem Pc.not_atMove {pc : Pc} {old n : UInt32} (h : pc.reserved = some (old, n)) : ¬pc.atMove := by
  intro hmove
  cases pc with
  | moveHead | htsMoveHead => cases h
  | _ => exact hmove

omit [DecidableEq τ] in
theorem enabled_of_recent (hbusy : (s.loc t).pc.isIdle = false) (hrecent : Recent P s t) :
    Enabled P s (.exec t) := by
  refine ⟨hbusy, fun hmove => hrecent (.inr ?_)⟩
  revert hmove
  cases (s.loc t).pc <;> first | exact fun _ => rfl | exact False.elim

/-- A call of burst `n` that is over, or that is in front and can go on. -/
structure Clear (P : Params τ) (t : τ) (n : UInt32) (s : State τ W) : Prop where
  reachable : (machine W P).Reachable s
  burst : (s.loc t).call.n = n
  front : (s.loc t).pc.isIdle = true ∨ Front s (s.loc t).call.side t ∧ Recent P s t

/-- A call in front that runs alone ends. -/
theorem Clear.alone (hsz : 0 < P.sz.toNat) (hle : P.sz.toNat ≤ 2 ^ 31) (hrts : ∀ d, P.cfg.sync d ≠ .mtRts)
    {n : UInt32}
    (hc : Clear P t n s) : ∃ as, (∀ a ∈ as, a = .exec t) ∧ (machine W P).AllEnabled s as ∧
      Clear P t n ((machine W P).runList s as) ∧ (((machine W P).runList s as).loc t).pc.isIdle = true := by
  refine @Machine.exists_run_one _ _ (machine W P) (Clear P t n) (fun s => (s.loc t).pc.isIdle = true)
    (· = .exec t) (rank (n.toNat * P.cfg.T.words) · t) (fun s' hc hgoal => ?_) s hc
  obtain ⟨hfront, hrecent⟩ := hc.front.resolve_left hgoal
  have hI := Reachable.inv hsz hrts hc.reachable
  have he := enabled_of_recent (Bool.eq_false_iff.mpr hgoal) hrecent
  have hlt := (hI.lowers hsz hle hrts (Reachable.pcOk hsz hle hrts hc.reachable t) he
    (Nat.le_of_eq (by rw [hc.burst]))).2
  rw [if_neg (hI.not_waits hfront)] at hlt
  exact ⟨.exec t, rfl, he, ⟨.step _ hc.reachable he, (exec_call_n hrts).trans hc.burst,
    front_step hsz hrts hfront hrecent⟩, hlt⟩

/-- `s'` comes after `s`, and between them only `u` has moved, which had reserved `n` positions of side `d`: it has
released them if it is done. -/
structure Released (P : Params τ) (s : State τ W) (d : Side) (u : τ) (old n : UInt32) (s' : State τ W) : Prop where
  reachable : (machine W P).Reachable s'
  others : ∀ v, v ≠ u → s'.loc v = s.loc v
  resv : s'.hist.resv = s.hist.resv
  loaded : s'.hist.loaded = s.hist.loaded
  start : s'.hist.start = s.hist.start
  burst : (s'.loc u).call.n = (s.loc u).call.n
  own : (s'.loc u).call.side = d ∧ (s'.loc u).pc.reserved = some (old, n) ∧ s'.hist.rel = s.hist.rel ∨
    (s'.loc u).pc.isIdle = true ∧ s'.hist.rel = Function.update s.hist.rel d (s.hist.rel d + n.toNat)

/-- The call that holds the first position of a side ends if it runs alone, and the tail of the side moves on. -/
theorem Reachable.release (hsz : 0 < P.sz.toNat) (hle : P.sz.toNat ≤ 2 ^ 31) (hrts : ∀ d, P.cfg.sync d ≠ .mtRts)
    (hr : (machine W P).Reachable s) {old n : UInt32} (hside : (s.loc u).call.side = d)
    (hres : (s.loc u).pc.reserved = some (old, n)) (hstart : s.hist.start u = s.hist.rel d) :
    ∃ as, (∀ a ∈ as, a = .exec u) ∧ (machine W P).AllEnabled s as ∧
      Released P s d u old n ((machine W P).runList s as) ∧
      (((machine W P).runList s as).loc u).pc.isIdle = true := by
  refine @Machine.exists_run_one _ _ (machine W P) (Released P s d u old n) (fun s => (s.loc u).pc.isIdle = true)
    (· = .exec u) (rank ((s.loc u).call.n.toNat * P.cfg.T.words) · u) (fun s' hs hgoal => ?_) s
    ⟨hr, fun _ _ => rfl, rfl, rfl, rfl, rfl, .inl ⟨hside, hres, rfl⟩⟩
  obtain ⟨hside', hres', hrel'⟩ := hs.own.resolve_right fun h => hgoal h.1
  have hI := Reachable.inv hsz hrts hs.reachable
  have he : Enabled P s' (.exec u) :=
    ⟨Bool.eq_false_iff.mpr hgoal, fun hmove => absurd hmove (Pc.not_atMove hres')⟩
  have hheld : held s' d u = some (s'.hist.rel d, n.toNat) := by
    unfold held
    rw [if_pos hside', hres', hs.start, hrel', hstart]
    rfl
  have hfront : Front s' (s'.loc u).call.side u := by
    rw [hside']
    intro v hv m hheld'
    have hpos := ((hI.tiles d).bounds u _ _ hheld).2.1
    have hpos' := ((hI.tiles d).bounds v _ _ hheld').2.1
    exact hv ((hI.tiles d).holder_unique ⟨_, _, hheld', Nat.le_refl _, by omega⟩
      ⟨_, _, hheld, Nat.le_refl _, by omega⟩)
  have hlt := (hI.lowers hsz hle hrts (Reachable.pcOk hsz hle hrts hs.reachable u) he
    (Nat.le_of_eq (by rw [hs.burst]))).2
  rw [if_neg (hI.not_waits hfront)] at hlt
  obtain ⟨hresv, hloaded, hstart', hown⟩ := reserved_step hrts hres'
  rw [hside', hrel'] at hown
  exact ⟨.exec u, rfl, he,
    ⟨.step _ hs.reachable he, fun v hv => (Function.update_of_ne hv _ _).trans (hs.others v hv),
      hresv.trans hs.resv, hloaded.trans hs.loaded, hstart'.trans hs.start, (exec_call_n hrts).trans hs.burst, hown⟩,
    hlt⟩

/-- `s'` comes after `s`, and `t` has not moved; no head has moved, and nobody has reserved. -/
structure Helped (P : Params τ) (s : State τ W) (t : τ) (s' : State τ W) : Prop where
  reachable : (machine W P).Reachable s'
  loc : s'.loc t = s.loc t
  resv : s'.hist.resv = s.hist.resv
  loaded : s'.hist.loaded = s.hist.loaded
  kept : ∀ u, (held s' (s.loc t).call.side u).isSome → (held s (s.loc t).call.side u).isSome

/-- The calls in front of `t` end one after the other. -/
theorem Helped.front (hsz : 0 < P.sz.toNat) (hle : P.sz.toNat ≤ 2 ^ 31) (hrts : ∀ d, P.cfg.sync d ≠ .mtRts)
    {s' : State τ W}
    (hh : Helped P s t s') : ∃ as, (∀ a ∈ as, ∃ u, a = .exec u ∧ (held s (s.loc t).call.side u).isSome) ∧
      (machine W P).AllEnabled s' as ∧ Helped P s t ((machine W P).runList s' as) ∧
        Front ((machine W P).runList s' as) (s.loc t).call.side t := by
  refine @Machine.exists_run _ _ (machine W P) (Helped P s t) (Front · (s.loc t).call.side t)
    (fun a => ∃ u, a = .exec u ∧ (held s (s.loc t).call.side u).isSome)
    (fun s' => s'.hist.resv (s.loc t).call.side - s'.hist.rel (s.loc t).call.side) (fun s' hh hgoal => ?_) s' hh
  unfold Front at hgoal
  push Not at hgoal
  obtain ⟨u, hu, n, hheld⟩ := hgoal
  generalize hd : (s.loc t).call.side = d at *
  have hb := ((Reachable.inv hsz hrts hh.reachable).tiles d).bounds u _ n hheld
  have hallowed := hh.kept u (by rw [hd, hheld]; rfl)
  rw [hd] at hallowed
  obtain ⟨old, m, hside, hres, hstart, rfl⟩ :
      ∃ old m, (s'.loc u).call.side = d ∧ (s'.loc u).pc.reserved = some (old, m) ∧
      s'.hist.start u = s'.hist.rel d ∧ m.toNat = n := by
    unfold held at hheld
    split at hheld
    · next hside =>
      obtain ⟨⟨old, m⟩, hres, heq⟩ := Option.map_eq_some_iff.mp hheld
      exact ⟨old, m, hside, hres, congrArg Prod.fst heq, congrArg Prod.snd heq⟩
    · cases hheld
  obtain ⟨as, hall, hen, hs, hidle⟩ := Reachable.release hsz hle hrts hh.reachable hside hres hstart
  have hrel := (hs.own.resolve_left fun h => by rw [Pc.reserved_of_idle hidle] at h; cases h.2.1).2
  refine ⟨as, fun a ha => ⟨u, hall a ha, hallowed⟩, hen, ⟨hs.reachable, (hs.others t (Ne.symm hu)).trans hh.loc,
    hs.resv.trans hh.resv, hs.loaded.trans hh.loaded, fun v hv => hh.kept v ?_⟩, ?_⟩
  · by_cases hvu : v = u
    · subst hvu
      unfold held at hv
      rw [Pc.reserved_of_idle hidle] at hv
      split at hv <;> cases hv
    · unfold held at hv ⊢
      rwa [hs.others v hvu, hs.start] at hv
  · rw [hs.resv, hrel, Function.update_self]
    omega

/-- **No deadlock.**  In every reachable state, a call that is under way ends if only its own thread and threads
that hold a reservation on its side run; the others may stay wherever they are. -/
theorem can_finish (hsz : 0 < P.sz.toNat) (hle : P.sz.toNat ≤ 2 ^ 31) (hrts : ∀ d, P.cfg.sync d ≠ .mtRts)
    (hr : (machine W P).Reachable s) (hrecent : Recent P s t) :
    ∃ as, (∀ a ∈ as, a = .exec t ∨ ∃ u, a = .exec u ∧ (held s (s.loc t).call.side u).isSome) ∧
      (machine W P).AllEnabled s as ∧ (((machine W P).runList s as).loc t).pc.isIdle = true := by
  obtain ⟨as, hall, hen, hh, hfront⟩ := Helped.front hsz hle hrts ⟨hr, rfl, rfl, rfl, fun _ h => h⟩
  have hclear : Clear P t (s.loc t).call.n ((machine W P).runList s as) := by
    refine ⟨hh.reachable, by rw [hh.loc], .inr ⟨by rw [hh.loc]; exact hfront, ?_⟩⟩
    unfold Recent Fresh at hrecent ⊢
    rw [hh.loc, hh.resv, hh.loaded]
    exact hrecent
  obtain ⟨bs, hall', hen', -, hidle⟩ := hclear.alone hsz hle hrts
  refine ⟨as ++ bs, fun a ha => ?_, Machine.allEnabled_append.mpr ⟨hen, hen'⟩, ?_⟩
  · rcases List.mem_append.mp ha with ha | ha
    · exact .inr (hall a ha)
    · exact .inl (hall' a ha)
  · rw [Machine.runList_append]
    exact hidle

end

/-- The call that has lost the race. -/
theorem can_finish_race : ∃ as,
    (∀ a ∈ as, a = .exec 0 ∨ ∃ u, a = .exec u ∧
      (held ((machine Nat mpscFour).runList (State.fresh mpscFour 0) mpscRace) .prod u).isSome) ∧
    (machine Nat mpscFour).AllEnabled ((machine Nat mpscFour).runList (State.fresh mpscFour 0) mpscRace) as ∧
    (((machine Nat mpscFour).runList ((machine Nat mpscFour).runList (State.fresh mpscFour 0) mpscRace) as).loc
      0).pc.isIdle = true :=
  can_finish (P := mpscFour) (t := 0) (by decide) (by decide) (fun d => by cases d <;> decide)
    (Machine.Reachable.runList (.init (State.fresh_init _ _)) (by decide +kernel)) (by decide +kernel)

end Sqkio.Common.Ring
