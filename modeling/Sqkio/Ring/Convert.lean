import Sqkio.Ring.Delivery
import Sqkio.Ring.Queue

/-!
# `enqueue` of an argument of another type

`template<typename T2> enqueue(T2&& entry)` passes `&entry` on as a `const void*`, and the copy routines move
`sizeof(T)` bytes from there, whatever `T2` is.  Nothing converts the value.

    sizeof(T2) < sizeof(T)      → bytes behind the argument are read
    otherwise                   → a dequeue stores the first sizeof(T) bytes of the argument

The dequeue of an entry is the one that has its position: the one after as many dequeues as there were entries in
front of it, or the one whose reservation has its number.  `conveys_iff` is the exact boundary on rings that keep an
entry until it is taken (`Ready`); for integers it is `sizeof(T) ≤ sizeof(T2)` (`fit_int_iff`).
-/

namespace Sqkio.Common.Ring

open Sqkio.Lib

/-- `sizeof(T)` -/
def sizeofElem (T : ElemType) : Nat := 4 * T.k

/-- A type of `size` bytes: its values, and which object representations they have. -/
structure CType (size : Nat) where
  Val : Type
  represents : (Fin size → UInt8) → Val → Prop

/-- An argument in memory.  `mem b` is the byte at offset `b` from its address, which from `size` on is not part
of it. -/
structure Arg {size : Nat} (U : CType size) where
  val : U.Val
  mem : Nat → UInt8
  rep : U.represents (fun b => mem b) val

/-- A word of the slot area or of the caller's entry. -/
inductive Word where
  /-- Word `i` from the address of an argument on. -/
  | arg (mem : Nat → UInt8) (i : Nat)
  | raw (bytes : Nat → UInt8)

def Word.byte (T : ElemType) : Word → Nat → UInt8
  | arg mem i, j => mem (i * T.wordBytes + j)
  | raw bytes, j => bytes j

/-- The words of an object whose bytes are `buf`. -/
def rawWords (T : ElemType) (buf : Nat → UInt8) (i : Nat) : Word := .raw fun j => buf (i * T.wordBytes + j)

/-- The bytes of an entry of type `T`. -/
def stored (T : ElemType) (obj : Nat → Word) (b : Fin (sizeofElem T)) : UInt8 :=
  (obj (b / T.wordBytes)).byte T (b % T.wordBytes)

/-- Word of the argument that the next access of an `enqueue` reads. -/
def Local.reads (l : Local Word) : Option Nat :=
  match l.call.side, l.pc with
  | .prod, .copy _ _ (cp :: _) => some cp.obj
  | _, _ => none

/-- All copied words of an entry come from one `enqueue` of the argument. -/
def Reaches (T : ElemType) (mem : Nat → UInt8) (obj : Nat → Word) : Prop :=
  ∀ i, i < elemWords T → obj i = .arg mem i

/-- Bytes that the copy routine of `T` moves: `sizeof(T)`, unless the number of words overflows. -/
def copiedBytes (T : ElemType) : Nat := elemWords T * T.wordBytes

/-- `mem` copied over an object of type `T` with the bytes `buf`. -/
def copiedOver (T : ElemType) (mem buf : Nat → UInt8) (b : Fin (sizeofElem T)) : UInt8 :=
  if b < copiedBytes T then mem b else buf b

/-- What `T2` and the value have to be like: the object has the bytes that are copied, and copied over any
destination they represent the converted value.  An RTS side stops at its `assert(0)`. -/
def Fit {n : Nat} {U : CType n} (cfg : Config) (T : CType (sizeofElem cfg.T)) (conv : U.Val → T.Val)
    (x : Arg U) : Prop :=
  cfg.prodSync = .mtRts ∨ (copiedBytes cfg.T ≤ n ∧
    (cfg.consSync = .mtRts ∨ ∀ buf, T.represents (copiedOver cfg.T x.mem buf) (conv x.val)))

/-- A dequeue that returned an entry. -/
def Op.takes {W : Type} : Op W → Option (Reply W) → Bool
  | .dequeue _, some rep => rep.ret == 1
  | .dequeue _, none | .enqueue _, _ => false

/-- How many of the calls have taken an entry. -/
def taken {W : Type} (cfg : Config) : Ring W → List (Op W) → Nat
  | _, [] => 0
  | r, op :: ops =>
    let m := seqStep cfg r op
    (op.takes m.2).toNat + taken cfg m.1 ops

/-- `enqueue(x)` on a ring with no other call in flight reads inside `x`.  It returns 1, and after any other calls the
dequeue that comes when all entries in front of it have been taken returns 1 and stores `static_cast<T>(x)`. -/
structure Conveys {n : Nat} {U : CType n} (cfg : Config) (r : Ring Word) (T : CType (sizeofElem cfg.T))
    (conv : U.Val → T.Val) (x : Arg U) : Prop where
  reads : ∀ fuel i, (exec cfg fuel r (Local.start cfg (Op.enqueue (Word.arg x.mem)).call)).2.1.reads = some i →
    (i + 1) * cfg.T.wordBytes ≤ n
  stores : ∀ r' rep, seqStep cfg r (.enqueue (Word.arg x.mem)) = (r', some rep) → rep.ret = 1 ∧
    ∀ ops buf rep', taken cfg r' ops = (r.prod.head - r.cons.head).toNat →
      (seqStep cfg (runOps (seqStep cfg) r' ops).1 (.dequeue (rawWords cfg.T buf))).2 = some rep' →
      rep'.ret = 1 ∧ T.represents (stored cfg.T rep'.obj) (conv x.val)

/-- Threads that call `enqueue` and `dequeue`. -/
def single {τ : Type} (cfg : Config) (sz : UInt32) (stThread : Side → τ) : Params τ where
  cfg
  sz
  stThread
  bursts n := n = 1

/-- The same for the calls of all threads; a dequeue that returns 1 has the number of its enqueue. -/
structure ConveysIn {n : Nat} {U : CType n} {τ : Type} (cfg : Config) (s : State τ Word)
    (T : CType (sizeofElem cfg.T)) (conv : U.Val → T.Val) (x : Arg U) : Prop where
  reads : ∀ t i, (s.loc t).call.obj = Word.arg x.mem → (s.loc t).reads = some i →
    (i + 1) * cfg.T.wordBytes ≤ n
  stores : ∀ t buf, (s.loc t).call.side = .cons → (s.loc t).pc = .done 1 →
    s.hist.passed t (s.hist.calls t) = rawWords cfg.T buf →
    s.hist.passed (s.hist.owner .prod (s.hist.start t)).thread (s.hist.owner .prod (s.hist.start t)).call =
      Word.arg x.mem →
    T.represents (stored cfg.T (s.loc t).call.obj) (conv x.val)

/-- A ring with room that keeps the next entry: no other word that can be written before it is taken falls on one of
its words. -/
structure Ready {W : Type} (T : ElemType) (r : Ring W) : Prop where
  quiet : r.Quiet
  room : (r.prod.head - r.cons.tail).toNat < r.capacity.toNat
  own : ∀ j v w, j < r.capacity.toNat → v < elemWords T → w < elemWords T → (j, v) ≠ (0, w) →
    slotAt T r.size r.mask (r.prod.head + UInt32.ofNat j) v ≠ slotAt T r.size r.mask r.prod.head w

/-! ## Calls of one element -/

section

variable {W : Type} {cfg : Config} {r : Ring W} {l : Local W}

/-- A call of one element copies no other words than those of one element. -/
structure One (cfg : Config) (l : Local W) : Prop where
  n : l.pc ≠ .idle → l.call.n = 1
  rts : cfg.sync l.call.side = .mtRts → l.pc = .idle ∨ l.pc = .abort
  moving : ∀ old n, l.pc.moving = some (old, n) → n = 1
  todo : ∀ old n todo, l.pc = .copy old n todo → ∀ cp ∈ todo, cp.obj < elemWords cfg.T

/-- The caller's entry behind the words of an element stays as it is. -/
structure Beyond (T : ElemType) (l l' : Local W) : Prop where
  side : l'.call.side = l.call.side
  obj : ∀ i, elemWords T ≤ i → l'.call.obj i = l.call.obj i

theorem Beyond.refl (T : ElemType) (l : Local W) : Beyond T l l := ⟨rfl, fun _ _ => rfl⟩

theorem Beyond.trans {T : ElemType} {l l' l'' : Local W} (h : Beyond T l l') (h' : Beyond T l' l'') :
    Beyond T l l'' :=
  ⟨h'.side.trans h.side, fun i hi => (h'.obj i hi).trans (h.obj i hi)⟩

theorem One.start (cfg : Config) (d : Side) (obj : Nat → W) : One cfg (Local.start cfg ⟨d, 1, obj⟩) := by
  unfold Local.start
  cases hs : cfg.sync d with
  | mtRts => exact ⟨fun _ => rfl, fun _ => .inr rfl, by simp [Pc.moving], by simp⟩
  | mt | st | mtHts => exact ⟨fun _ => rfl, by simp [hs], by simp [Pc.moving], by simp⟩

theorem clip_one_eq {b : Bool} {entries : UInt32} (h : clip b 1 entries ≠ 0) : clip b 1 entries = 1 := by
  have hle := UInt32.le_iff_toNat_le.mp (clip_le b 1 entries)
  have hpos := toNat_pos_of_ne h
  exact UInt32.toNat_inj.mp (Nat.le_antisymm hle hpos)

theorem step_abort (h : l.pc = .idle ∨ l.pc = .abort) : l.step cfg r = (r, l, .tau) := by
  obtain ⟨c, pc⟩ := l
  rcases h with rfl | rfl
  all_goals
    simp only [Local.step, moveHeadOf]
    split <;> rfl

theorem copyWord_obj (r : Ring W) (c : Call W) (cp : Copy) {i : Nat} (hi : i ≠ cp.obj) :
    (Local.copyWord r c cp).2.obj i = c.obj i := by
  unfold Local.copyWord
  split
  · rfl
  · exact Function.update_of_ne hi _ _

/-- An access that leaves the caller's entry alone. -/
theorem One.setPc (h : One cfg l) (hidle : l.pc ≠ .idle) (hrts : cfg.sync l.call.side ≠ .mtRts) {pc : Pc}
    (hmov : ∀ old n, pc.moving = some (old, n) → n = 1)
    (htodo : ∀ old n todo, pc = .copy old n todo → ∀ cp ∈ todo, cp.obj < elemWords cfg.T) :
    One cfg { l with pc } ∧ Beyond cfg.T l { l with pc } :=
  ⟨⟨fun _ => h.n hidle, fun hs => absurd hs hrts, hmov, htodo⟩, rfl, fun _ _ => rfl⟩

/-- One access of a call of one element. -/
theorem One.step (h : One cfg l) (r : Ring W) :
    One cfg (l.step cfg r).2.1 ∧ Beyond cfg.T l (l.step cfg r).2.1 := by
  by_cases hrts : cfg.sync l.call.side = .mtRts
  · rw [step_abort (h.rts hrts)]
    exact ⟨h, .refl cfg.T l⟩
  · have hspec := step_spec_side cfg r l hrts
    generalize l.step cfg r = m at hspec
    have hbusy : l.pc.reserved ≠ none ∨ l.pc.attempt ≠ none ∨ l.pc.moving ≠ none → l.pc ≠ .idle := by
      intro hsome hpc
      rw [hpc] at hsome
      simp [Pc.reserved, Pc.attempt, Pc.moving] at hsome
    cases hspec with
    | noop => exact ⟨h, .refl cfg.T l⟩
    | load pc' hres hidle hres' hmov' hidle' =>
      refine h.setPc (fun hpc => ?_) hrts (fun old n hmov => ?_) ?_
      · rw [hpc] at hidle
        cases hidle
      · rw [hmov'] at hmov
        cases hmov
      · rintro old n todo rfl
        cases hres'
    | fail old hatt hclip =>
      refine h.setPc (hbusy (.inr (.inl ?_))) hrts (fun _ _ hmov => by cases hmov) (fun _ _ _ hpc => by cases hpc)
      simp [hatt]
    | decide old n pc' hatt hn hn0 hmov hatt' hres hidle hop =>
      have hpc : l.pc ≠ .idle := hbusy (.inr (.inl (by simp [hatt])))
      rw [h.n hpc] at hn
      refine h.setPc hpc hrts (fun old' n' hmov' => ?_) ?_
      · rw [hmov] at hmov'
        cases hmov'
        rw [hn] at hn0 ⊢
        exact clip_one_eq hn0
      · rintro old' n' todo rfl
        cases hres
    | reserve old n hmov hhead hhts =>
      obtain rfl : n = 1 := h.moving old n hmov
      refine h.setPc (hbusy (.inr (.inr (by simp [hmov])))) hrts (fun _ _ hmov => by cases hmov) ?_
      rintro _ _ _ hpc cp hcp
      cases hpc
      rw [plan_eq, List.mem_map] at hcp
      obtain ⟨i, hi, rfl⟩ := hcp
      exact List.mem_range.mp hi
    | startTail old n hpc =>
      refine h.setPc (by simp [hpc]) hrts ?_ ?_
      · unfold updateTailStart
        split <;> exact fun _ _ hmov => by cases hmov
      · unfold updateTailStart
        split <;> exact fun _ _ _ hpc => by cases hpc
    | copyWord old n cp todo hpc =>
      have hmem := h.todo old n (cp :: todo) hpc
      obtain ⟨hside, hn⟩ := copyWord_call r l.call cp
      refine ⟨⟨fun _ => hn.trans (h.n (by simp [hpc])), fun hs => absurd (hside ▸ hs) hrts, ?_, ?_⟩, hside, ?_⟩
      · exact fun _ _ hmov => by cases hmov
      · rintro _ _ _ hpc' cp' hcp'
        cases hpc'
        exact hmem cp' (List.mem_cons_of_mem cp hcp')
      · intro i hi
        have hlt := hmem cp List.mem_cons_self
        exact copyWord_obj r l.call cp (by omega)
    | wait old n hpc htail =>
      exact h.setPc (by simp [hpc]) hrts (fun _ _ hmov => by cases hmov) (fun _ _ _ hpc' => by cases hpc')
    | publish old n hpc =>
      exact h.setPc (by simp [hpc]) hrts (fun _ _ hmov => by cases hmov) (fun _ _ _ hpc' => by cases hpc')

theorem One.exec (h : One cfg l) (fuel : Nat) (r : Ring W) :
    One cfg (exec cfg fuel r l).2.1 ∧ Beyond cfg.T l (exec cfg fuel r l).2.1 := by
  induction fuel generalizing r l with
  | zero => exact ⟨h, .refl cfg.T l⟩
  | succ fuel ih =>
    unfold Ring.exec
    split
    · exact ⟨h, .refl cfg.T l⟩
    · obtain ⟨hone, hbeyond⟩ := h.step r
      obtain ⟨hone', hbeyond'⟩ := ih hone (l.step cfg r).1
      exact ⟨hone', hbeyond.trans hbeyond'⟩

end

/-! ## An argument that fits -/

theorem wordBytes_pos (T : ElemType) : 0 < T.wordBytes := by
  unfold ElemType.wordBytes
  split
  · decide
  · split <;> decide

theorem One.reads_lt {cfg : Config} {l : Local Word} (h : One cfg l) {i : Nat} (hi : l.reads = some i) :
    i < elemWords cfg.T := by
  unfold Local.reads at hi
  split at hi
  next old n cp todo _ hpc =>
    cases hi
    exact h.todo old n (cp :: todo) hpc cp List.mem_cons_self
  · cases hi

theorem One.reads_rts {cfg : Config} {l : Local Word} (h : One cfg l) (hrts : cfg.sync l.call.side = .mtRts) :
    l.reads = none := by
  unfold Local.reads
  split
  next old n cp todo _ hpc =>
    rcases h.rts hrts with hstop | hstop
    all_goals
      rw [hstop] at hpc
      cases hpc
  · rfl

theorem word_le {T : ElemType} {i n : Nat} (hi : i < elemWords T) (h : copiedBytes T ≤ n) :
    (i + 1) * T.wordBytes ≤ n :=
  Nat.le_trans (Nat.mul_le_mul_right T.wordBytes hi) h

/-- The bytes of an entry that a dequeue has copied over a destination. -/
theorem stored_eq {T : ElemType} {mem buf : Nat → UInt8} {obj : Nat → Word} (hreach : Reaches T mem obj)
    (hbeyond : ∀ i, elemWords T ≤ i → obj i = rawWords T buf i) :
    stored T obj = copiedOver T mem buf := by
  funext b
  have hsplit : b.val / T.wordBytes * T.wordBytes + b.val % T.wordBytes = b.val := Nat.div_add_mod' _ _
  have hlt : b.val / T.wordBytes < elemWords T ↔ b.val < copiedBytes T :=
    Nat.div_lt_iff_lt_mul (wordBytes_pos T)
  unfold stored copiedOver
  split
  next hb =>
    rw [hreach _ (hlt.mpr hb)]
    show mem _ = _
    rw [hsplit]
  next hb =>
    rw [hbeyond _ (Nat.le_of_not_lt (mt hlt.mp hb))]
    show buf _ = _
    rw [hsplit]

section

variable {n : Nat} {U : CType n} {cfg : Config} {T : CType (sizeofElem cfg.T)} {conv : U.Val → T.Val} {x : Arg U}

/-- What a dequeue alone leaves in the caller's entry. -/
theorem dequeue_beyond {r : Ring Word} {buf : Nat → UInt8} {rep : Reply Word}
    (h : (seqStep cfg r (.dequeue (rawWords cfg.T buf))).2 = some rep) :
    ∀ i, elemWords cfg.T ≤ i → rep.obj i = rawWords cfg.T buf i := by
  have hrun := (One.start cfg .cons (rawWords cfg.T buf)).exec (cfg.T.k + 16) r
  unfold seqStep callAlone Op.call at h
  dsimp only at h
  split at h
  next m hpc =>
    cases h
    have hsame : (Local.start cfg ⟨.cons, 1, rawWords cfg.T buf⟩).call.obj = rawWords cfg.T buf := rfl
    rw [← hsame]
    exact hrun.2.obj
  · cases h

/-- Wherever the ring stands. -/
theorem reads_of_fit (h : Fit cfg T conv x) (r : Ring Word) {fuel i : Nat}
    (hi : (exec cfg fuel r (Local.start cfg (Op.enqueue (Word.arg x.mem)).call)).2.1.reads = some i) :
    (i + 1) * cfg.T.wordBytes ≤ n := by
  obtain ⟨hone, hbeyond⟩ := (One.start cfg .prod (Word.arg x.mem)).exec fuel r
  rcases h with hrts | ⟨hle, -⟩
  · have hnone := (hone.reads_rts (hbeyond.side ▸ hrts)).symm.trans hi
    cases hnone
  · exact word_le (hone.reads_lt hi) hle

end

/-! ## Calls of several threads -/

section

variable {τ : Type} [DecidableEq τ] {W : Type} {cfg : Config} {sz : UInt32} {stThread : Side → τ}
  {s : State τ W}

/-- All calls are of one element, and what lies behind it in a caller's entry is what the call was passed. -/
structure Within (cfg : Config) (s : State τ W) : Prop where
  one : ∀ t, One cfg (s.loc t)
  beyond : ∀ t, (s.loc t).pc ≠ .idle → ∀ i, elemWords cfg.T ≤ i →
    (s.loc t).call.obj i = s.hist.passed t (s.hist.calls t) i

omit [DecidableEq τ] in
theorem Within.of_init (h : Init (single cfg sz stThread) s) : Within cfg s := by
  refine ⟨fun t => ?_, fun t hpc => absurd (h.idle t) hpc⟩
  have hidle := h.idle t
  exact ⟨fun hpc => absurd hidle hpc, fun _ => .inl hidle, by simp [hidle, Pc.moving], by simp [hidle]⟩

theorem record_passed (h : Hist τ W) (t : τ) (d : Side) (ev : Event) :
    (h.record t d ev).passed = h.passed ∧ (h.record t d ev).calls = h.calls := by
  cases ev <;> exact ⟨rfl, rfl⟩

theorem Within.next (h : Within cfg s) {a : Act τ W} (he : Enabled (single cfg sz stThread) s a) :
    Within cfg (Ring.next (single cfg sz stThread) s a) := by
  cases a with
  | call t c =>
    obtain ⟨d, m, obj⟩ := c
    obtain rfl : m = 1 := he.2.1
    constructor
    · intro u
      show One cfg (Function.update s.loc t _ u)
      rcases eq_or_ne u t with rfl | hne
      · rw [Function.update_self]
        exact .start cfg d obj
      · rw [Function.update_of_ne hne]
        exact h.one u
    · intro u hpc i hi
      revert hpc
      show (Function.update s.loc t _ u).pc ≠ .idle → (Function.update s.loc t _ u).call.obj i =
        Function.update s.hist.passed t _ u (Function.update s.hist.calls t _ u) i
      rcases eq_or_ne u t with rfl | hne
      · rw [Function.update_self, Function.update_self, Function.update_self, Function.update_self]
        exact fun _ => rfl
      · rw [Function.update_of_ne hne, Function.update_of_ne hne, Function.update_of_ne hne]
        exact fun hpc => h.beyond u hpc i hi
  | exec t =>
    obtain ⟨hone, hbeyond⟩ := (h.one t).step s.ring
    obtain ⟨hpassed, hcalls⟩ := record_passed s.hist t (s.loc t).call.side
      ((s.loc t).step (single cfg sz stThread).cfg s.ring).2.2
    constructor
    · intro u
      show One cfg (Function.update s.loc t _ u)
      rcases eq_or_ne u t with rfl | hne
      · rw [Function.update_self]
        exact hone
      · rw [Function.update_of_ne hne]
        exact h.one u
    · intro u hpc i hi
      revert hpc
      show (Function.update s.loc t _ u).pc ≠ .idle → (Function.update s.loc t _ u).call.obj i =
        (s.hist.record t _ _).passed u ((s.hist.record t _ _).calls u) i
      rw [hpassed, hcalls]
      rcases eq_or_ne u t with rfl | hne
      · rw [Function.update_self]
        intro _
        have hbusy : (s.loc u).pc ≠ .idle := by
          intro hidle
          have hfalse := he.1
          rw [hidle] at hfalse
          cases hfalse
        exact (hbeyond.obj i hi).trans (h.beyond u hbusy i hi)
      · rw [Function.update_of_ne hne]
        exact fun hpc => h.beyond u hpc i hi

theorem Reachable.within (h : (machine W (single cfg sz stThread)).Reachable s) : Within cfg s :=
  h.inv (fun _ hi => .of_init hi) fun _ _ _ hi he => hi.next he

end

section

variable {n : Nat} {U : CType n} {cfg : Config} {T : CType (sizeofElem cfg.T)} {conv : U.Val → T.Val} {x : Arg U}

theorem readsIn_of_fit (hprod : cfg.prodSync ≠ .mtRts) (h : Fit cfg T conv x) {τ : Type} [DecidableEq τ]
    {sz : UInt32} {stThread : Side → τ} {s : State τ Word}
    (hs : (machine Word (single cfg sz stThread)).Reachable s) {t : τ} {i : Nat} (hi : (s.loc t).reads = some i) :
    (i + 1) * cfg.T.wordBytes ≤ n :=
  word_le (((Reachable.within hs).one t).reads_lt hi) (h.resolve_left hprod).1

theorem conveysIn_of_fit (hprod : cfg.prodSync ≠ .mtRts) (h : Fit cfg T conv x) {τ : Type} [DecidableEq τ]
    {sz : UInt32} {stThread : Side → τ} {e : Nat} (he : e ≤ 31) (hsz : sz.toNat = 2 ^ e) (hfit : Fits cfg.T (2 ^ e) 1)
    {s : State τ Word} (hs : (machine Word (single cfg sz stThread)).Reachable s) : ConveysIn cfg s T conv x := by
  refine ⟨fun t i _ hi => readsIn_of_fit hprod h hs hi, fun t buf hside hdone hpassed harg => ?_⟩
  obtain ⟨hone, hbeyond⟩ := Reachable.within hs
  rcases (h.resolve_left hprod).2 with hcons | hrep
  · have hstop := (hone t).rts (by rw [hside]; exact hcons)
    simp [hdone] at hstop
  · by_cases hcons : cfg.consSync = .mtRts
    · have hstop := (hone t).rts (by rw [hside]; exact hcons)
      simp [hdone] at hstop
    · -- the entry holds the words of the enqueue with the same number
      have hrts : ∀ d, (single cfg sz stThread).cfg.sync d ≠ .mtRts := by
        intro d
        cases d with
        | prod => exact hprod
        | cons => exact hcons
      have hbursts : ∀ m : UInt32, m = 1 → Fits cfg.T (2 ^ e) (min m.toNat (2 ^ e - 1)) := by
        rintro m rfl
        exact hfit.mono (Nat.min_le_left _ _)
      have hV := Reachable.vals he hsz hrts hbursts hs
      have hD := (htsRing_delivers hrts he hsz hs).2.2 hbursts
      have hwords := (slotAt_of_fits he hsz hfit 0).1
      have hposition := (hD.owned t 1 hdone Nat.one_pos).1
      rw [hside] at hposition
      have hpos : 0 < sz.toNat := hsz ▸ Nat.two_pow_pos e
      have hle := (Reachable.inv (P := single cfg sz stThread) hpos hrts hs).resv_le .cons
      have hlt : s.hist.start t < s.hist.resv .prod :=
        Nat.lt_of_lt_of_le (Nat.lt_succ_self _) (Nat.le_trans hposition hle)
      obtain ⟨m, hm, hindex⟩ := hV.owners.index .prod (s.hist.start t) hlt
      have hzero : (s.hist.owner .prod (s.hist.start t)).index = 0 := by
        rw [show m = 1 from hm] at hindex
        exact Nat.lt_one_iff.mp hindex
      have hreach : Reaches cfg.T x.mem (s.loc t).call.obj := by
        intro w hw
        have hvalue := hD.value t 1 hdone hside 0 w Nat.one_pos (hwords ▸ hw)
        unfold Hist.elem at hvalue
        dsimp only at hvalue
        rw [Nat.zero_mul, Nat.zero_add, Nat.add_zero, hzero, Nat.zero_mul, Nat.zero_add, harg] at hvalue
        exact hvalue
      have hraw := hbeyond t (by simp [hdone])
      rw [hpassed] at hraw
      rw [stored_eq hreach hraw]
      exact hrep buf

end

/-! ## A ring with room -/

/-- A ring of a power of two of slots, between two calls, keeps its entries where the index products fit. -/
theorem Between.ready {W : Type} {T : ElemType} {cnt : UInt32} {r : Ring W} (h : Between cnt r) {e : Nat} (he : e ≤ 31)
    (hcnt : cnt.toNat = 2 ^ e) (hfit : Fits T (2 ^ e) 1)
    (hroom : (r.prod.head - r.cons.tail).toNat < r.capacity.toNat) : Ready T r := by
  refine ⟨h.quiet, hroom, fun j v w hj hv hw hne heq => ?_⟩
  obtain ⟨hwords, hat⟩ := slotAt_of_fits he hcnt hfit (r.prod.head.toNat + j)
  obtain ⟨-, hat'⟩ := slotAt_of_fits he hcnt hfit r.prod.head.toNat
  rw [UInt32.ofNat_add, UInt32.ofNat_toNat] at hat
  rw [UInt32.ofNat_toNat] at hat'
  rw [hwords] at hv hw
  have hcap : r.capacity.toNat = 2 ^ e - 1 := by
    rw [h.capacity, toNat_sub_one (by rw [hcnt]; exact Nat.two_pow_pos e), hcnt]
  rw [h.size, h.mask, hat v hv, hat' w hw] at heq
  obtain ⟨hpos, hword⟩ := @slot_inj T.words (2 ^ e) r.prod.head.toNat _ _ _ _ (by omega) (by omega) (by omega)
    (by omega) hv hw heq
  exact hne (Prod.ext (show j = 0 by omega) hword)

/-- `of(10)`: the third entry is written over the first one. -/
example : ¬Ready ⟨1, by decide⟩ (Ring.init 10 fun _ => false) :=
  fun h => h.own 2 0 0 (by decide) (by decide) (by decide) (by decide) (by decide)

section

variable {cfg : Config} {r : Ring Word}

theorem Ready.free (h : Ready cfg.T r) : r.capacity + r.cons.tail - r.prod.head ≠ 0 := by
  intro hzero
  have hz := congrArg UInt32.toNat hzero
  have hroom := h.room
  have := r.capacity.toNat_lt
  have := r.cons.tail.toNat_lt
  have := r.prod.head.toNat_lt
  rw [UInt32.toNat_sub, UInt32.toNat_add, UInt32.toNat_zero] at hz
  rw [UInt32.toNat_sub] at hroom
  omega

theorem reads_prod {l : Local Word} (hside : l.call.side = .prod) {old n : UInt32} {cp : Copy} {todo : List Copy}
    (hpc : l.pc = .copy old n (cp :: todo)) : l.reads = some cp.obj := by
  unfold Local.reads
  rw [hside, hpc]

/-- `enqueue` gets to the last word of its element. -/
theorem Ready.reads (h : Ready cfg.T r) (hprod : cfg.prodSync ≠ .mtRts) (hpos : 0 < elemWords cfg.T)
    (mem : Nat → UInt8) :
    ∃ fuel, (exec cfg fuel r (Local.start cfg (Op.enqueue (Word.arg mem)).call)).2.1.reads =
      some (elemWords cfg.T - 1) := by
  obtain ⟨j, -, hmove⟩ := exec_move h.quiet (show cfg.sync .prod ≠ .mtRts from hprod) (Word.arg mem)
  obtain ⟨m, hm⟩ : ∃ m, elemWords cfg.T = m + 1 := ⟨elemWords cfg.T - 1, by omega⟩
  let before := (List.range m).map fun i => (⟨slotAt cfg.T r.size r.mask r.prod.head i, i⟩ : Copy)
  have hplan : enqueueElements cfg.T r.size r.mask r.prod.head 1 =
      before ++ [⟨slotAt cfg.T r.size r.mask r.prod.head m, m⟩] := by
    rw [plan_eq, hm, List.range_succ, List.map_append]
    rfl
  have hrun := hmove (before.length + 0)
  rw [if_neg (show ¬r.entries .prod (r.ht .prod).head = 0 from h.free)] at hrun
  change _ = exec cfg (before.length + 0) _
    ⟨⟨.prod, 1, Word.arg mem⟩, .copy r.prod.head 1 (enqueueElements cfg.T r.size r.mask r.prod.head 1)⟩ at hrun
  rw [hplan, exec_copies] at hrun
  refine ⟨before.length + 0 + j, ?_⟩
  change (exec cfg (before.length + 0 + j) r (Local.start cfg ⟨.prod, 1, Word.arg mem⟩)).2.1.reads = _
  rw [hrun, hm]
  exact reads_prod (l := ⟨_, .copy r.prod.head 1 [⟨slotAt cfg.T r.size r.mask r.prod.head m, m⟩]⟩)
    (runPlan_ring _ _ before).2 rfl

end

section

variable {W : Type} {cfg : Config} {r s : Ring W} {x : Nat → W} {a m : Nat}

/-- The ring after `x` was enqueued on `r`, with `a` entries in front of it and `m` behind it. -/
structure Queued (T : ElemType) (r : Ring W) (x : Nat → W) (a m : Nat) (s : Ring W) : Prop where
  quiet : s.Quiet
  size : s.size = r.size
  mask : s.mask = r.mask
  capacity : s.capacity = r.capacity
  front : s.cons.head = r.prod.head - UInt32.ofNat a
  back : s.prod.head = r.prod.head + UInt32.ofNat (m + 1)
  room : a + m + 1 ≤ r.capacity.toNat
  words : ∀ w, w < elemWords T → s.slots (slotAt T r.size r.mask r.prod.head w) = x w

/-- The ring after an `enqueue(x)` that was accepted. -/
def pushed (T : ElemType) (r : Ring W) (x : Nat → W) : Ring W :=
  { r with
    prod := ⟨r.prod.head + 1, r.prod.head + 1⟩
    slots := writeWords r.slots x (slotAt T r.size r.mask r.prod.head) (elemWords T) }

theorem Ready.queued (h : Ready cfg.T r) (x : Nat → W) :
    Queued cfg.T r x (r.prod.head - r.cons.head).toNat 0 (pushed cfg.T r x) := by
  have hroom := h.room
  rw [← h.quiet.cons] at hroom
  refine ⟨⟨rfl, h.quiet.cons⟩, rfl, rfl, rfl, ?_, rfl, by omega, fun w hw => ?_⟩
  · show r.cons.head = _
    rw [UInt32.ofNat_toNat]
    grind
  · refine writeWords_eq _ _ _ _ ⟨w, Nat.zero_le w, hw, rfl⟩ fun v _ hv heq => ?_
    by_contra hne
    have hpair : (0, v) ≠ (0, w) := fun hsame => hne (congrArg x (Prod.mk.inj hsame).2)
    refine h.own 0 v w (by omega) hv hw hpair ?_
    rw [show UInt32.ofNat 0 = 0 from rfl, UInt32.add_zero]
    exact heq

/-- An `enqueue` adds an entry behind, if there is room. -/
theorem Queued.enqueue (hr : Ready cfg.T r) (h : Queued cfg.T r x a m s) (hprod : cfg.sync .prod ≠ .mtRts)
    (y : Nat → W) : ∃ m', Queued cfg.T r x a m' (seqStep cfg s (.enqueue y)).1 := by
  have hcap := r.capacity.toNat_lt
  have hfree : s.capacity + s.cons.tail - s.prod.head = UInt32.ofNat (r.capacity.toNat - (a + m + 1)) := by
    rw [UInt32.ofNat_sub h.room, UInt32.ofNat_toNat, ← h.quiet.cons, h.capacity, h.front, h.back,
      Nat.add_assoc, UInt32.ofNat_add a]
    generalize UInt32.ofNat (m + 1) = v
    grind
  by_cases hfull : r.capacity.toNat = a + m + 1
  · rw [enqueue_refused h.quiet hprod y (by rw [hfree, hfull, Nat.sub_self]; rfl)]
    exact ⟨m, h⟩
  · have hroom := h.room
    rw [enqueue_accepted h.quiet hprod y (by rw [hfree, ne_eq, ofNat_eq_zero_iff (by omega)]; omega)]
    refine ⟨m + 1, ⟨rfl, h.quiet.cons⟩, h.size, h.mask, h.capacity, h.front, ?_, by omega, fun w hw => ?_⟩
    · show s.prod.head + 1 = _
      rw [h.back, UInt32.add_assoc, UInt32.ofNat_add (m + 1)]
      rfl
    · refine (writeWords_of_ne _ _ _ _ fun v hv => ?_).trans (h.words w hw)
      rw [h.size, h.mask, h.back]
      refine hr.own (m + 1) v w (by omega) hv hw fun hsame => ?_
      cases (Prod.mk.inj hsame).1

theorem Queued.left (h : Queued cfg.T r x a m s) : s.prod.tail - s.cons.head ≠ 0 := by
  have hcap := r.capacity.toNat_lt
  have hroom := h.room
  have hheld : s.prod.tail - s.cons.head = UInt32.ofNat (a + m + 1) := by
    rw [← h.quiet.prod, h.front, h.back, Nat.add_assoc, UInt32.ofNat_add a]
    generalize UInt32.ofNat (m + 1) = v
    grind
  rw [hheld, ne_eq, ofNat_eq_zero_iff (by omega)]
  omega

/-- A `dequeue` takes an entry in front, if there is one. -/
theorem Queued.dequeue (h : Queued cfg.T r x (a + 1) m s) (hcons : cfg.sync .cons ≠ .mtRts) (y : Nat → W) :
    Op.takes (.dequeue y) (seqStep cfg s (.dequeue y)).2 = true ∧
      Queued cfg.T r x a m (seqStep cfg s (.dequeue y)).1 := by
  have hroom := h.room
  rw [dequeue_accepted h.quiet hcons y h.left]
  refine ⟨rfl, ⟨h.quiet.prod, rfl⟩, h.size, h.mask, h.capacity, ?_, h.back, by omega, h.words⟩
  show s.cons.head + 1 = _
  rw [h.front, UInt32.ofNat_add]
  grind

/-- With no entry in front it takes this one. -/
theorem Queued.dequeue_zero (h : Queued cfg.T r x 0 m s) (hcons : cfg.sync .cons ≠ .mtRts) (y : Nat → W) :
    ∃ rep, (seqStep cfg s (.dequeue y)).2 = some rep ∧ rep.ret = 1 ∧ ∀ w, w < elemWords cfg.T → rep.obj w = x w := by
  rw [dequeue_accepted h.quiet hcons y h.left]
  refine ⟨_, rfl, rfl, fun w hw => ?_⟩
  have hfront : s.cons.head = r.prod.head := h.front.trans (UInt32.sub_zero _)
  dsimp only
  rw [readWords, if_pos hw, h.size, h.mask, hfront]
  exact h.words w hw

/-- Each dequeue brings the entry one place forward, and nothing else does. -/
theorem Queued.run (hr : Ready cfg.T r) (hprod : cfg.sync .prod ≠ .mtRts) (hcons : cfg.sync .cons ≠ .mtRts)
    (ops : List (Op W)) (h : Queued cfg.T r x a m s) (hle : taken cfg s ops ≤ a) :
    ∃ m', Queued cfg.T r x (a - taken cfg s ops) m' (runOps (seqStep cfg) s ops).1 := by
  induction ops generalizing s a m with
  | nil => exact ⟨m, h⟩
  | cons op ops ih =>
    cases op with
    | enqueue y =>
      have hsame : taken cfg s (.enqueue y :: ops) = taken cfg (seqStep cfg s (.enqueue y)).1 ops := Nat.zero_add _
      rw [hsame] at hle ⊢
      obtain ⟨m', h'⟩ := h.enqueue hr hprod y
      exact ih h' hle
    | dequeue y =>
      have hstep : taken cfg s (.dequeue y :: ops) =
          (Op.takes (.dequeue y) (seqStep cfg s (.dequeue y)).2).toNat + taken cfg (seqStep cfg s (.dequeue y)).1 ops := rfl
      rw [hstep] at hle ⊢
      cases a with
      | zero =>
        obtain ⟨rep, hrep, hret, -⟩ := h.dequeue_zero hcons y
        have htook : Op.takes (.dequeue y) (seqStep cfg s (.dequeue y)).2 = true := by
          rw [hrep]
          exact beq_iff_eq.mpr hret
        rw [htook, Bool.toNat_true] at hle
        omega
      | succ a =>
        obtain ⟨htook, h'⟩ := h.dequeue hcons y
        rw [htook, Bool.toNat_true] at hle ⊢
        rw [show a + 1 - (1 + _) = a - taken cfg (seqStep cfg s (.dequeue y)).1 ops by omega]
        exact ih h' (by omega)

/-- As many dequeues as there are entries in front. -/
theorem Queued.taken_dequeues (hcons : cfg.sync .cons ≠ .mtRts) (y : Nat → W) (h : Queued cfg.T r x a m s) :
    taken cfg s (List.replicate a (.dequeue y)) = a := by
  induction a generalizing s with
  | zero => rfl
  | succ a ih =>
    obtain ⟨htook, h'⟩ := h.dequeue hcons y
    have hstep : taken cfg s (List.replicate (a + 1) (.dequeue y)) =
        (Op.takes (.dequeue y) (seqStep cfg s (.dequeue y)).2).toNat +
          taken cfg (seqStep cfg s (.dequeue y)).1 (List.replicate a (.dequeue y)) := rfl
    rw [hstep, htook, ih h', Bool.toNat_true, Nat.add_comm]

end

section

variable {n : Nat} {U : CType n} {cfg : Config} {T : CType (sizeofElem cfg.T)} {conv : U.Val → T.Val} {x : Arg U}

theorem Ready.accepted {r : Ring Word} (h : Ready cfg.T r) (hprod : cfg.sync .prod ≠ .mtRts) (x : Nat → Word) :
    ∃ rep, seqStep cfg r (.enqueue x) = (pushed cfg.T r x, some rep) ∧ rep.ret = 1 :=
  ⟨_, enqueue_accepted h.quiet hprod x h.free, rfl⟩

/-- What the dequeue with the position of the entry has copied. -/
theorem Ready.reached {r : Ring Word} (h : Ready cfg.T r) (hprod : cfg.sync .prod ≠ .mtRts)
    (hcons : cfg.sync .cons ≠ .mtRts) (mem buf : Nat → UInt8) {ops : List (Op Word)}
    (htaken : taken cfg (pushed cfg.T r (Word.arg mem)) ops = (r.prod.head - r.cons.head).toNat) :
    ∃ rep, (seqStep cfg (runOps (seqStep cfg) (pushed cfg.T r (Word.arg mem)) ops).1
      (.dequeue (rawWords cfg.T buf))).2 = some rep ∧ rep.ret = 1 ∧ stored cfg.T rep.obj = copiedOver cfg.T mem buf := by
  obtain ⟨m, hrun⟩ := (h.queued (Word.arg mem)).run h hprod hcons ops (Nat.le_of_eq htaken)
  rw [htaken, Nat.sub_self] at hrun
  obtain ⟨rep, hrep, hret, hreach⟩ := hrun.dequeue_zero hcons (rawWords cfg.T buf)
  exact ⟨rep, hrep, hret, stored_eq hreach (dequeue_beyond hrep)⟩

theorem conveys_of_fit (h : Fit cfg T conv x) {r : Ring Word} (hr : Ready cfg.T r) : Conveys cfg r T conv x := by
  refine ⟨fun fuel i => reads_of_fit h r, fun r' rep henq => ?_⟩
  by_cases hprod : cfg.sync .prod = .mtRts
  · rw [seqStep_rts (.enqueue (Word.arg x.mem)) hprod] at henq
    cases henq
  · obtain ⟨rep₀, haccepted, hret⟩ := hr.accepted hprod (Word.arg x.mem)
    rw [haccepted] at henq
    cases henq
    refine ⟨hret, fun ops buf rep' htaken hdeq => ?_⟩
    by_cases hcons : cfg.sync .cons = .mtRts
    · rw [seqStep_rts (.dequeue (rawWords cfg.T buf)) hcons] at hdeq
      cases hdeq
    · obtain ⟨rep₁, hdeq₁, hret₁, hstored⟩ := hr.reached hprod hcons x.mem buf htaken
      rw [hdeq₁] at hdeq
      cases hdeq
      rw [hstored]
      exact ⟨hret₁, ((h.resolve_left hprod).2.resolve_left hcons) buf⟩

theorem fit_of_conveys {r : Ring Word} (h : Ready cfg.T r) (hc : Conveys cfg r T conv x) : Fit cfg T conv x := by
  by_cases hprod : cfg.prodSync = .mtRts
  · exact .inl hprod
  · refine .inr ⟨?_, ?_⟩
    · rcases Nat.eq_zero_or_pos (elemWords cfg.T) with hzero | hpos
      · unfold copiedBytes
        rw [hzero, Nat.zero_mul]
        exact Nat.zero_le n
      · obtain ⟨fuel, hlast⟩ := h.reads hprod hpos x.mem
        have hle := hc.reads fuel _ hlast
        rwa [Nat.sub_add_cancel hpos] at hle
    · by_cases hcons : cfg.consSync = .mtRts
      · exact .inl hcons
      · refine .inr fun buf => ?_
        obtain ⟨rep, henq, -⟩ := h.accepted hprod (Word.arg x.mem)
        have htaken := (h.queued (Word.arg x.mem)).taken_dequeues hcons (rawWords cfg.T buf)
        obtain ⟨rep', hdeq, -, hstored⟩ := h.reached hprod hcons x.mem buf htaken
        rw [← hstored]
        exact ((hc.stores _ rep henq).2 _ buf rep' htaken hdeq).2

/-- **The argument's bytes.**  For all element and argument types, values and sync types, and for all states of a ring
with room that keeps the entry: `enqueue(x)` reads inside `x` and the dequeue of its entry stores `static_cast<T>(x)`
exactly when `x` has the bytes that are copied and they represent that value.  Then both hold for calls of any threads
too, and the reads are inside `x` on every ring. -/
theorem conveys_iff (cfg : Config) (T : CType (sizeofElem cfg.T)) (conv : U.Val → T.Val) (x : Arg U) :
    (∀ r, Ready cfg.T r → (Conveys cfg r T conv x ↔ Fit cfg T conv x)) ∧
    (Fit cfg T conv x →
      (∀ (r : Ring Word) (fuel i : Nat),
        (exec cfg fuel r (Local.start cfg (Op.enqueue (Word.arg x.mem)).call)).2.1.reads = some i →
          (i + 1) * cfg.T.wordBytes ≤ n) ∧
      (cfg.prodSync ≠ .mtRts →
        ∀ (τ : Type) [DecidableEq τ] (sz : UInt32) (stThread : Side → τ) (e : Nat), e ≤ 31 → sz.toNat = 2 ^ e →
          Fits cfg.T (2 ^ e) 1 → ∀ s : State τ Word, (machine Word (single cfg sz stThread)).Reachable s →
            ConveysIn cfg s T conv x)) := by
  refine ⟨fun r hr => ⟨fit_of_conveys hr, fun h => conveys_of_fit h hr⟩, fun h => ⟨fun r _ _ => reads_of_fit h r, ?_⟩⟩
  intro hprod τ _ sz stThread e he hsz hfit s hs
  exact conveysIn_of_fit hprod h he hsz hfit hs

/-! ## Fewer than `2 ^ 32` words -/

theorem words_lt {T : ElemType} (h : T.k < 2 ^ 32) : T.words < 2 ^ 32 := by
  unfold ElemType.words
  split
  · decide
  · exact h

theorem copiedBytes_eq {T : ElemType} (h : T.k < 2 ^ 32) : copiedBytes T = sizeofElem T := by
  unfold copiedBytes sizeofElem
  rw [elemWords_eq (words_lt h)]
  unfold ElemType.words ElemType.wordBytes
  split <;> rename_i hk
  · rcases hk with hk | hk <;> simp [hk]
  · rw [not_or] at hk
    rw [if_neg hk.1, if_neg hk.2, Nat.mul_comm]

theorem copiedOver_eq {T : ElemType} (h : T.k < 2 ^ 32) (mem buf : Nat → UInt8) :
    copiedOver T mem buf = fun b : Fin (sizeofElem T) => mem b := by
  funext b
  unfold copiedOver
  rw [copiedBytes_eq h, if_pos b.isLt]

/-- The argument is no smaller than an element, and begins with the bytes of the converted value. -/
theorem fit_iff (hk : cfg.T.k < 2 ^ 32) : Fit cfg T conv x ↔
    cfg.prodSync = .mtRts ∨ (sizeofElem cfg.T ≤ n ∧
      (cfg.consSync = .mtRts ∨ T.represents (fun b => x.mem b) (conv x.val))) := by
  unfold Fit
  simp only [copiedBytes_eq hk, copiedOver_eq hk, forall_const]

/-- An argument of the element type itself fits. -/
theorem fit_self (hk : cfg.T.k < 2 ^ 32) (x : Arg T) : Fit cfg T id x :=
  (fit_iff hk).mpr (.inr ⟨Nat.le_refl _, .inr x.rep⟩)

/-- On a ring that behaves as a queue, a dequeue reaches the entry that is first in the queue. -/
theorem fifo_stores (hk : cfg.T.k < 2 ^ 32) (h : Fit cfg T conv x) {r : Ring Word} {words : Nat}
    (hr : BehavesAsFifo cfg r words) (ops : List (Op Word)) (buf : Nat → UInt8)
    (hfirst : (Fifo.step r.capacity.toNat (runOps (Fifo.step r.capacity.toNat) [] (ops.map Op.toFifo)).1
      .dequeue).2 = .value (Word.arg x.mem)) :
    ∃ rep, (seqStep cfg (runOps (seqStep cfg) r ops).1 (.dequeue (rawWords cfg.T buf))).2 = some rep ∧
      rep.ret = 1 ∧ T.represents (stored cfg.T rep.obj) (conv x.val) := by
  have hlast := runOps_last hr.fifo ops (.dequeue (rawWords cfg.T buf))
  change Matches _ _ (Fifo.step r.capacity.toNat _ .dequeue).2 at hlast
  rw [hfirst] at hlast
  have hrep := ((h.resolve_left (hr.rts .prod)).2.resolve_left (hr.rts .cons)) buf
  cases hdeq : (seqStep cfg (runOps (seqStep cfg) r ops).1 (.dequeue (rawWords cfg.T buf))).2 with
  | none =>
    rw [hdeq] at hlast
    exact hlast.elim
  | some rep =>
    rw [hdeq] at hlast
    have hreach : Reaches cfg.T x.mem rep.obj := by
      intro i hi
      rw [elemWords_eq (words_lt hk)] at hi
      exact hlast.2 i hi
    refine ⟨rep, rfl, hlast.1, ?_⟩
    rw [stored_eq hreach (dequeue_beyond hdeq)]
    exact hrep

end

/-! ## Integers -/

/-- An integer type of `size` bytes, the lowest first. -/
def intType (size : Nat) : CType size where
  Val := BitVec (8 * size)
  represents bytes v := ∀ b : Fin size, v.extractLsb' (8 * b) 8 = (bytes b).toBitVec

/-- `static_cast` of a signed or an unsigned integer. -/
def intCast (signed : Bool) {n m : Nat} (v : BitVec (8 * n)) : BitVec (8 * m) :=
  if signed then v.signExtend (8 * m) else v.setWidth (8 * m)

/-- A conversion to a type that is not larger keeps the lower bytes. -/
theorem extractLsb'_intCast (signed : Bool) {n m b : Nat} (v : BitVec (8 * n)) (hb : b < m) (hle : m ≤ n) :
    (intCast signed v : BitVec (8 * m)).extractLsb' (8 * b) 8 = v.extractLsb' (8 * b) 8 := by
  have hcast : (intCast signed v : BitVec (8 * m)) = v.setWidth (8 * m) := by
    unfold intCast
    split
    · exact BitVec.signExtend_eq_setWidth_of_le v (by omega)
    · rfl
  rw [hcast]
  exact BitVec.extractLsb'_setWidth_of_le (by omega)

/-- For integers the sizes decide. -/
theorem fit_int_iff {cfg : Config} (hk : cfg.T.k < 2 ^ 32) (signed : Bool) {n : Nat} (x : Arg (intType n)) :
    Fit cfg (intType (sizeofElem cfg.T)) (intCast signed) x ↔ cfg.prodSync = .mtRts ∨ sizeofElem cfg.T ≤ n := by
  refine (fit_iff hk).trans (or_congr_right ?_)
  refine and_iff_left_of_imp fun hle => .inr fun b => ?_
  exact (extractLsb'_intCast signed x.val b.isLt hle).trans (x.rep ⟨b, by omega⟩)

/-! ## `guard->enqueue(1)` on an `MpscRing<uint64_t>` -/

def mpscUint64 : Config := ⟨⟨2, Nat.two_pos⟩, .mt, .st, false, false⟩

/-- `1` as an `int`, with other bytes behind it. -/
def one : Arg (intType 4) where
  val := 1#32
  mem b := if b = 0 then 1 else if b < 4 then 0 else 255
  rep := by
    show ∀ b : Fin 4, (1#32).extractLsb' (8 * b) 8 = _
    decide

def emptyFour : Ring Word := Ring.init 4 fun _ => .raw fun _ => 0

theorem emptyFour_ready : Ready mpscUint64.T emptyFour :=
  (Between.init 4 _).ready (show 2 ≤ 31 by decide) rfl (by decide) (by decide)

/-- The call reads eight bytes of an object of four, and the dequeue after it stores a number in which the upper
four are the bytes behind the object. -/
theorem enqueue_int_reads_beyond : Ready mpscUint64.T emptyFour ∧
    (exec mpscUint64 3 emptyFour
      (Local.start mpscUint64 (Op.enqueue (Word.arg one.mem)).call)).2.1.reads = some 0 ∧
    ((seqStep mpscUint64 (seqStep mpscUint64 emptyFour (.enqueue (Word.arg one.mem))).1
      (.dequeue (rawWords mpscUint64.T fun _ => 0))).2.map fun rep =>
        List.ofFn (stored mpscUint64.T rep.obj)) = some [1, 0, 0, 0, 255, 255, 255, 255] ∧
    ¬Conveys mpscUint64 emptyFour (intType (sizeofElem mpscUint64.T)) (intCast true) one := by
  refine ⟨emptyFour_ready, by rfl, by rfl, fun h => ?_⟩
  have hle := h.reads 3 0 rfl
  revert hle
  decide

end Sqkio.Common.Ring
