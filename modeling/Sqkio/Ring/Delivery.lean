import Sqkio.Ring.Values

/-!
# Delivery: dequeue number `p` gets the value of enqueue number `p`

Positions number the successful calls of each side in the order of their head
reservations.  `Delivered` says what a user sees of a state: which call a position
belongs to, and that a returned dequeue holds the words passed to the enqueue with
the same number.

`enqueue_elements` multiplies index, count and size by `sizeof(T) / 4` in 32 bits.
Where these products wrap, two positions of one lap share slot words and delivery
fails (`mtRing_mixes_values`, `htsRing_mixes_values`); where they do not (`Fits`), it
holds in every reachable state (`mtRing_delivers`, `htsRing_delivers`).
-/

namespace Sqkio.Common.Ring

open Sqkio.Lib

variable {W τ : Type}

structure Delivered (P : Params τ) (s : State τ W) : Prop where
  /-- A returned call owns the positions it reserved. -/
  owned : ∀ t n, (s.loc t).pc = .done n → 0 < n.toNat →
    s.hist.start t + n.toNat ≤ s.hist.resv (s.loc t).call.side ∧
      ∀ i, i < n.toNat → s.hist.owner (s.loc t).call.side (s.hist.start t + i) = ⟨t, s.hist.calls t, i⟩
  /-- No two elements share a position of a side, and no element has two. -/
  unique : ∀ d p p', p < s.hist.resv d → p' < s.hist.resv d → s.hist.owner d p = s.hist.owner d p' →
    p = p'
  /-- The elements of one thread are numbered in the order the thread passed them. -/
  order : ∀ d p p', p < p' → p' < s.hist.resv d →
    (s.hist.owner d p).thread = (s.hist.owner d p').thread →
    (s.hist.owner d p).call < (s.hist.owner d p').call ∨
      ((s.hist.owner d p).call = (s.hist.owner d p').call ∧
        (s.hist.owner d p).index < (s.hist.owner d p').index)
  /-- A dequeue copies positions whose enqueues have all finished copying. -/
  finished : ∀ t p u p', Holds (held s .cons) t p → Holds (held s .prod) u p' →
    p < s.hist.rel .prod ∧ s.hist.rel .prod ≤ p'
  /-- A returned dequeue holds the words passed to the enqueues of its positions. -/
  value : ∀ t n, (s.loc t).pc = .done n → (s.loc t).call.side = .cons →
    ∀ i w, i < n.toNat → w < P.cfg.T.words →
      (s.loc t).call.obj (i * P.cfg.T.words + w) =
        s.hist.elem P.cfg.T.words (s.hist.start t + i) w

section

variable {P : Params τ} {s : State τ W}

theorem Hist.word_mul_add (h : Hist τ W) {words p w : Nat} (hw : w < words) :
    h.word words (p * words + w) = h.elem words p w := by
  have hpos : 0 < words := by omega
  unfold Hist.word
  rw [Nat.mul_comm p, Nat.mul_add_div hpos, Nat.mul_add_mod, Nat.div_eq_of_lt hw,
    Nat.mod_eq_of_lt hw, Nat.add_zero]

theorem Delivered.of_vals (hI : Inv P s) (hV : Vals P s) (hsz : 0 < P.sz.toNat) : Delivered P s where
  owned := by
    intro t n hpc hn
    exact (hV.thread t).mine n (by rw [hpc]; rfl) hn
  unique := by
    intro d p p' hp hp' heq
    rcases Nat.lt_trichotomy p p' with h | h | h
    · have := hV.owners.order d p p' h hp' (by rw [heq])
      rw [heq] at this
      omega
    · exact h
    · have := hV.owners.order d p' p h hp (by rw [heq])
      rw [heq] at this
      omega
  order := hV.owners.order
  finished := by
    intro t p u p' hp hp'
    have h1 := hI.held_window hsz hp
    have h2 := hI.held_window hsz hp'
    have := hI.chain
    exact ⟨by omega, h2.2.2.1⟩
  value := by
    intro t n hpc hside i w hi hw
    obtain ⟨k, hk, -, hcons⟩ := (hV.thread t).copied n (by rw [hpc]; rfl)
    rw [hpc] at hk
    simp only [Pc.CopiedTo] at hk
    have hlt : i * P.cfg.T.words + w < k := by
      have := Nat.mul_le_mul_right P.cfg.T.words hi
      rw [Nat.succ_mul] at this
      omega
    rw [hcons hside _ hlt, ← Nat.add_assoc, ← Nat.add_mul, Hist.word_mul_add _ hw]

end

/-! ## MT and ST rings -/

variable [DecidableEq τ] {P : Params τ}

/-- **Delivery of the MT and ST rings**, for public calls (bursts of one element) whose
index products fit into 32 bits. -/
theorem mtRing_delivers
    (hmode : (P.cfg.prodSync = .mt ∧ (P.cfg.consSync = .mt ∨ P.cfg.consSync = .st)) ∨
      (P.cfg.prodSync = .st ∧ P.cfg.consSync = .st))
    (hone : ∀ n, P.bursts n → n = 1) {e : Nat} (he : e ≤ 31) (hsz : P.sz.toNat = 2 ^ e)
    (hfit : Fits P.cfg.T (2 ^ e) (min 1 (2 ^ e - 1))) {s : State τ W}
    (h : (machine W P).Reachable s) :
    Delivered P s ∧ ∀ d p, p < s.hist.resv d → (s.hist.owner d p).index = 0 := by
  have hrts : ∀ d, P.cfg.sync d ≠ .mtRts := by
    intro d
    cases d <;> rcases hmode with ⟨h1, h2 | h2⟩ | ⟨h1, h2⟩ <;> simp [Config.sync, h1, h2]
  have hpos : 0 < P.sz.toNat := by rw [hsz]; exact Nat.two_pow_pos e
  have hV : Vals P s := Reachable.vals he hsz hrts (fun m hm => by rw [hone m hm]; exact hfit) h
  refine ⟨Delivered.of_vals (Reachable.inv hpos hrts h) hV hpos, fun d p hp => ?_⟩
  obtain ⟨n, hn, hlt⟩ := hV.owners.index d p hp
  rw [hone n hn] at hlt
  exact Nat.lt_one_iff.mp hlt

/-- One thread, MT producers and one ST consumer, elements of `4 * k` bytes. -/
def mpscOne (k : Nat) (hk : 0 < k) (sz : UInt32) : Params Unit where
  cfg := ⟨⟨k, hk⟩, .mt, .st, false, false⟩
  sz := sz
  stThread := fun _ => ()
  bursts := (· = 1)

instance (k : Nat) (hk : 0 < k) (sz : UInt32) : DecidablePred (mpscOne k hk sz).bursts :=
  fun n => inferInstanceAs (Decidable (n = 1))

/-- Two enqueues and a dequeue, one after the other; each call runs for `len` accesses. -/
def twoInOneOut (len : Nat) (a b : Nat → Bool) : List (Act Unit Bool) :=
  .call () ⟨.prod, 1, a⟩ :: List.replicate len (.exec ()) ++
    (.call () ⟨.prod, 1, b⟩ :: List.replicate len (.exec ()) ++
      (.call () ⟨.cons, 1, fun _ => false⟩ :: List.replicate len (.exec ())))

/-- `twoInOneOut` on a fresh ring. -/
def afterTwoInOneOut (P : Params Unit) (len : Nat) (a b : Nat → Bool) : State Unit Bool :=
  (machine Bool P).runList (State.fresh P false) (twoInOneOut len a b)

/-- 12-byte elements in four slots. -/
def mpscThreeWords : Params Unit := mpscOne 3 (by decide) 4

theorem mtRing_delivers_threeWords :
    let s := afterTwoInOneOut mpscThreeWords 9 (· = 1) (· = 2)
    Delivered mpscThreeWords s ∧ ∀ d p, p < s.hist.resv d → (s.hist.owner d p).index = 0 := by
  have hrun : (machine Bool mpscThreeWords).AllEnabled (State.fresh mpscThreeWords false)
      (twoInOneOut 9 (· = 1) (· = 2)) := by
    unfold mpscThreeWords
    decide +kernel
  exact mtRing_delivers (Or.inl ⟨rfl, Or.inr rfl⟩) (fun _ h => h) (show 2 ≤ 31 by decide) rfl
    (by decide) (.runList (.init (State.fresh_init _ _)) hrun)

/-- 32-byte elements in `2 ^ 29` slots: `size * scale` wraps to 0. -/
def mpscEightWords : Params Unit := mpscOne 8 (by decide) 536870912

/-- The dequeue with number 0 returned something else than enqueue 0 was passed. -/
theorem not_delivered {P : Params Unit} {s : State Unit Bool} (hwords : P.cfg.T.words = 8)
    (hside : (s.loc ()).call.side = .cons) (hpc : (s.loc ()).pc = .done 1)
    (hstart : s.hist.start () = 0) (helem : s.hist.elem 8 0 0 = false)
    (hobj : (s.loc ()).call.obj 0 = true) : ¬ Delivered P s := by
  intro h
  have hvalue := h.value () 1 hpc hside 0 0 (by decide) (by rw [hwords]; decide)
  rw [hwords, hstart, Nat.zero_mul, hobj, helem] at hvalue
  cases hvalue

/-- Every element is copied to the words `0, …, 7`, so the dequeue with number 0 returns
the value passed to the enqueue with number 1. -/
theorem mtRing_mixes_values :
    ∃ s : State Unit Bool, (machine Bool mpscEightWords).Reachable s ∧
      (s.loc ()).call.side = .cons ∧ (s.loc ()).pc = .done 1 ∧ s.hist.start () = 0 ∧
      s.hist.elem 8 0 0 = false ∧ (s.loc ()).call.obj 0 = true ∧ ¬ Delivered mpscEightWords s := by
  have hrun : (machine Bool mpscEightWords).AllEnabled (State.fresh mpscEightWords false)
      (twoInOneOut 14 (fun _ => false) (fun _ => true)) := by
    unfold mpscEightWords
    decide +kernel
  let s := afterTwoInOneOut mpscEightWords 14 (fun _ => false) (fun _ => true)
  have hside : (s.loc ()).call.side = .cons := by decide +kernel
  have hpc : (s.loc ()).pc = .done 1 := by decide +kernel
  have hstart : s.hist.start () = 0 := by decide +kernel
  have helem : s.hist.elem 8 0 0 = false := by decide +kernel
  have hobj : (s.loc ()).call.obj 0 = true := by decide +kernel
  exact ⟨s, .runList (.init (State.fresh_init _ _)) hrun, hside, hpc, hstart, helem, hobj,
    not_delivered rfl hside hpc hstart helem hobj⟩

/-! ## HTS rings -/

/-- What holds of an HTS side at any time. -/
structure HtsSide (s : State τ W) (d : Side) : Prop where
  /-- At most one reservation is outstanding. -/
  one : ∀ t u, held s d t ≠ none → held s d u ≠ none → t = u
  le : s.hist.rel d ≤ s.hist.resv d
  registers : s.ring.ht d = ⟨UInt32.ofNat (s.hist.resv d), UInt32.ofNat (s.hist.rel d)⟩
  /-- Head equals tail, in the registers too, exactly when none is. -/
  idle : (s.ring.ht d).head = (s.ring.ht d).tail ↔ ∀ t, held s d t = none

omit [DecidableEq τ] in
theorem HtsSide.of_inv {s : State τ W} (hI : Inv P s) {d : Side} (hd : P.cfg.sync d = .mtHts) :
    HtsSide s d := by
  have hle := (hI.tiles d).le
  have hspan := (hI.span d).1
  have hlt := P.sz.toNat_lt
  have hwhole : ∀ t, held s d t ≠ none →
      ∃ n, held s d t = some (s.hist.rel d, n) ∧ s.hist.rel d + n = s.hist.resv d := by
    intro t ht
    unfold held at ht ⊢
    split at ht
    · next hside =>
      cases hr : (s.loc t).pc.reserved with
      | none => simp [hr] at ht
      | some r =>
        obtain ⟨-, -, h3⟩ := (hI.thread t).reserved r.1 r.2 hr
        obtain ⟨h4, h5⟩ := h3 (by rw [hside, hd]; nofun)
        rw [hside] at h4 h5
        exact ⟨r.2.toNat, by simp [hside, h4], by omega⟩
    · exact absurd rfl ht
  refine ⟨?_, hle, by rw [← hI.head, ← hI.tail], ?_⟩
  · intro t u ht hu
    obtain ⟨n, hn, hend⟩ := hwhole t ht
    obtain ⟨m, hm, -⟩ := hwhole u hu
    exact ((hI.tiles d).eq_of_whole hn hend hm).symm
  · rw [hI.head, hI.tail]
    constructor
    · intro h
      exact (hI.tiles d).none_of_eq (ofNat_inj_window hle (by omega) h.symm)
    · intro h
      -- an uncovered position between tail and head would be held
      rcases Nat.eq_or_lt_of_le hle with heq | hlt'
      · rw [heq]
      · obtain ⟨t, a, n, ht, -⟩ := (hI.tiles d).cover _ (Nat.le_refl _) hlt'
        rw [h t] at ht
        cases ht

/-- **HTS rings**: HTS on either side or on both, the other side HTS, MT or ST; any bursts.  The counters are right in every
reachable state, the values too if the index products of all bursts fit into 32 bits. -/
theorem htsRing_delivers (hrts : ∀ d, P.cfg.sync d ≠ .mtRts) {e : Nat} (he : e ≤ 31)
    (hsz : P.sz.toNat = 2 ^ e) {s : State τ W} (h : (machine W P).Reachable s) :
    Counters P s ∧ (∀ d, P.cfg.sync d = .mtHts → HtsSide s d) ∧
      ((∀ n, P.bursts n → Fits P.cfg.T (2 ^ e) (min n.toNat (2 ^ e - 1))) → Delivered P s) := by
  have hpos : 0 < P.sz.toNat := by rw [hsz]; exact Nat.two_pow_pos e
  have hI : Inv P s := Reachable.inv hpos hrts h
  refine ⟨Counters.of_inv hI (by omega) hsz, fun d hd => HtsSide.of_inv hI hd, fun hfit => ?_⟩
  exact Delivered.of_vals hI (Reachable.vals he hsz hrts hfit h) hpos

/-- One thread, HTS on both sides. -/
def htsOne (k : Nat) (hk : 0 < k) (sz : UInt32) : Params Unit where
  cfg := ⟨⟨k, hk⟩, .mtHts, .mtHts, false, false⟩
  sz := sz
  stThread := fun _ => ()
  bursts := (· = 1)

instance (k : Nat) (hk : 0 < k) (sz : UInt32) : DecidablePred (htsOne k hk sz).bursts :=
  fun n => inferInstanceAs (Decidable (n = 1))

def htsThreeWords : Params Unit := htsOne 3 (by decide) 4

theorem htsRing_delivers_threeWords :
    let s := afterTwoInOneOut htsThreeWords 8 (· = 1) (· = 2)
    Counters htsThreeWords s ∧ (∀ d, htsThreeWords.cfg.sync d = .mtHts → HtsSide s d) ∧
      ((∀ n, htsThreeWords.bursts n → Fits htsThreeWords.cfg.T (2 ^ 2) (min n.toNat (2 ^ 2 - 1))) →
        Delivered htsThreeWords s) := by
  have hrun : (machine Bool htsThreeWords).AllEnabled (State.fresh htsThreeWords false)
      (twoInOneOut 8 (· = 1) (· = 2)) := by
    unfold htsThreeWords
    decide +kernel
  exact htsRing_delivers (fun d => by cases d <;> decide) (by decide) rfl
    (.runList (.init (State.fresh_init _ _)) hrun)

def htsEightWords : Params Unit := htsOne 8 (by decide) 536870912

/-- The same overflow on an HTS ring. -/
theorem htsRing_mixes_values :
    ∃ s : State Unit Bool, (machine Bool htsEightWords).Reachable s ∧
      (s.loc ()).call.side = .cons ∧ (s.loc ()).pc = .done 1 ∧ s.hist.start () = 0 ∧
      s.hist.elem 8 0 0 = false ∧ (s.loc ()).call.obj 0 = true ∧ ¬ Delivered htsEightWords s := by
  have hrun : (machine Bool htsEightWords).AllEnabled (State.fresh htsEightWords false)
      (twoInOneOut 13 (fun _ => false) (fun _ => true)) := by
    unfold htsEightWords
    decide +kernel
  let s := afterTwoInOneOut htsEightWords 13 (fun _ => false) (fun _ => true)
  have hside : (s.loc ()).call.side = .cons := by decide +kernel
  have hpc : (s.loc ()).pc = .done 1 := by decide +kernel
  have hstart : s.hist.start () = 0 := by decide +kernel
  have helem : s.hist.elem 8 0 0 = false := by decide +kernel
  have hobj : (s.loc ()).call.obj 0 = true := by decide +kernel
  exact ⟨s, .runList (.init (State.fresh_init _ _)) hrun, hside, hpc, hstart, helem, hobj,
    not_delivered rfl hside hpc hstart helem hobj⟩

end Sqkio.Common.Ring
