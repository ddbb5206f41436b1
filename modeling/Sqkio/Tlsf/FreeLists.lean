import Sqkio.Lib.Dll
import Sqkio.Tlsf.Layout

/-!
# The free lists

Every free block is in the list of its class, and a bit of `sl_bitmap` is set where a list is not empty, one of
`fl_bitmap` where a word of `sl_bitmap` is not zero (`FreeLists`).

    insertBlock, extractBlock    one block more or less in the lists; only link words of free blocks change
    findSuitableBlock            the first block of the least class at or above the one asked for that has any
-/

namespace Sqkio.Common.TlsfT

open Sqkio.Lib

variable {h : TlsfT} {L : Idx → List Nat} {F A B : List (Nat × Nat)} {a b x y s v : Nat} {c c' : Idx}

/-! ## Bitmaps -/

theorem getLsbD_setBit {n j : Nat} {m : BitVec 32} (hn : n < 32) :
    (setBit n m).getLsbD j = (m.getLsbD j || decide (n = j)) := by
  have hand : n &&& 0x1f = n := by
    rw [show 0x1f = 2 ^ 5 - 1 from rfl, Nat.and_two_pow_sub_one_eq_mod]
    omega
  unfold setBit
  rw [hand, BitVec.getLsbD_or, ← BitVec.twoPow_eq, BitVec.getLsbD_twoPow]
  simp [hn]

theorem getLsbD_clearBit {n j : Nat} {m : BitVec 32} (hn : n < 32) :
    (clearBit n m).getLsbD j = (m.getLsbD j && decide (n ≠ j)) := by
  have hand : n &&& 0x1f = n := by
    rw [show 0x1f = 2 ^ 5 - 1 from rfl, Nat.and_two_pow_sub_one_eq_mod]
    omega
  unfold clearBit
  rw [hand, BitVec.getLsbD_and, BitVec.getLsbD_not, ← BitVec.twoPow_eq, BitVec.getLsbD_twoPow]
  rcases Nat.lt_or_ge j 32 with hj | hj
  · simp [hn, hj]
  · rw [BitVec.getLsbD_of_ge m j hj, Bool.false_and, Bool.false_and]

theorem getLsbD_from {n j : Nat} {m : BitVec 32} (hj : j < 32) :
    (m &&& BitVec.allOnes 32 <<< n).getLsbD j = (m.getLsbD j && decide (n ≤ j)) := by
  rw [BitVec.getLsbD_and, BitVec.getLsbD_shiftLeft, BitVec.getLsbD_allOnes]
  rcases Nat.lt_or_ge j n with hlt | hge
  · simp [hj, Nat.not_le.mpr hlt, hlt]
  · simp [hj, hge, Nat.not_lt.mpr hge, show j - n < 32 by omega]

theorem ne_zero_iff {m : BitVec 32} : m ≠ 0#32 ↔ ∃ j, m.getLsbD j = true := by
  constructor
  · exact Bits.exists_getLsbD
  · rintro ⟨j, hj⟩ rfl
    rw [BitVec.getLsbD_zero] at hj
    cases hj

theorem lowest_eq {m : BitVec 32} (hm : m ≠ 0#32) :
    ∃ k : Nat, lsBit m = k ∧ m.getLsbD k = true ∧ ∀ j, m.getLsbD j = true → k ≤ j := by
  obtain ⟨k, hk⟩ := Bits.exists_isLowest hm
  refine ⟨k, lsBit_eq hk, hk.set, fun j hj => ?_⟩
  by_contra hlt
  rw [hk.below j (Nat.lt_of_not_le hlt)] at hj
  cases hj

theorem from_ne_zero {n j : Nat} {m : BitVec 32} (hj : m.getLsbD j = true) (hnj : n ≤ j) :
    m &&& BitVec.allOnes 32 <<< n ≠ 0#32 := by
  refine ne_zero_iff.mpr ⟨j, ?_⟩
  rw [getLsbD_from (BitVec.lt_of_getLsbD hj), hj, Bool.true_and, decide_eq_true hnj]

/-- The lowest of the bits from `n` on. -/
theorem lowest_from_eq {n : Nat} {m : BitVec 32} (hm : m &&& BitVec.allOnes 32 <<< n ≠ 0#32) :
    ∃ k : Nat, lsBit (m &&& BitVec.allOnes 32 <<< n) = k ∧ m.getLsbD k = true ∧ n ≤ k ∧
      ∀ j, m.getLsbD j = true → n ≤ j → k ≤ j := by
  obtain ⟨k, hlow, hk, hmin⟩ := lowest_eq hm
  have hset := hk
  rw [getLsbD_from (BitVec.lt_of_getLsbD hk), Bool.and_eq_true, decide_eq_true_eq] at hset
  refine ⟨k, hlow, hset.1, hset.2, fun j hj hnj => hmin j ?_⟩
  rw [getLsbD_from (BitVec.lt_of_getLsbD hj), hj, Bool.true_and, decide_eq_true hnj]

/-! ## Link words -/

/-- Blocks that do not share words. -/
def Apart (x y : Nat) : Prop := x + 32 ≤ y ∨ y + 32 ≤ x

theorem Apart.symm (h : Apart x y) : Apart y x := Or.symm h

theorem Apart.ne (h : Apart x y) : x ≠ y := by
  unfold Apart at h
  omega

theorem mem_store : (h.store x v).mem a = if a = x then v else h.mem a := by
  unfold store
  exact Function.update_apply _ _ _ _

theorem next_setPrev (hxy : x = y ∨ Apart x y) : (h.setPrev x v).next y = h.next y := by
  unfold Apart at hxy
  exact mem_store.trans (if_neg (by omega))

theorem prev_setNext (hxy : x = y ∨ Apart x y) : (h.setNext x v).prev y = h.prev y := by
  unfold Apart at hxy
  exact mem_store.trans (if_neg (by omega))

theorem next_setNext : (h.setNext x v).next y = if y = x then v else h.next y := by
  refine mem_store.trans ?_
  split
  · exact (if_pos (by omega)).symm
  · exact (if_neg (by omega)).symm

theorem prev_setPrev : (h.setPrev x v).prev y = if y = x then v else h.prev y := by
  refine mem_store.trans ?_
  split
  · exact (if_pos (by omega)).symm
  · exact (if_neg (by omega)).symm

/-! ## The invariant -/

/-- The bitmaps say which lists are not empty. -/
structure Marked (L : Idx → List Nat) (slBitmap : Nat → BitVec 32) (flBitmap : BitVec 32) : Prop where
  sl : ∀ c : Idx, (slBitmap c.fl).getLsbD c.sl = true ↔ L c ≠ []
  fl : ∀ fl, flBitmap.getLsbD fl = true ↔ fl < 24 ∧ slBitmap fl ≠ 0#32

/-- `L` are the lists, and they have the blocks `F` in them. -/
structure Listed (L : Idx → List Nat) (F : List (Nat × Nat)) (h : TlsfT) : Prop where
  dll : ∀ c, Dll 0 h.next h.prev 0 (h.matrix c) (L c)
  nodup : ∀ c, (L c).Nodup
  mem : ∀ c b, b ∈ L c ↔ ∃ s, (b, s) ∈ F ∧ c.Has s
  marked : Marked L h.slBitmap h.flBitmap

def FreeLists (F : List (Nat × Nat)) (h : TlsfT) : Prop := ∃ L, Listed L F h

/-- The blocks `F` do not share words, and have an address. -/
structure Spread (F : List (Nat × Nat)) : Prop where
  pos : ∀ x ∈ F, 0 < x.1
  apart : F.Pairwise fun x y => Apart x.1 y.1

theorem Spread.eq_or_apart (hF : Spread F) {t : Nat} (hx : (x, s) ∈ F) (hy : (y, t) ∈ F) :
    (x = y ∧ s = t) ∨ Apart x y := by
  rcases eq_or_ne (x, s) (y, t) with heq | hne
  · obtain ⟨rfl, rfl⟩ := Prod.mk.inj heq
    exact .inl ⟨rfl, rfl⟩
  · right
    have hsymm : Std.Symm fun u w : Nat × Nat => Apart u.1 w.1 := ⟨fun _ _ huw => huw.symm⟩
    exact hF.apart.forall hx hy hne

theorem Spread.sublist (hF : Spread F) (hs : A.Sublist F) : Spread A :=
  ⟨fun x hx => hF.pos x (hs.subset hx), hF.apart.sublist hs⟩

theorem Listed.ne_zero (hl : Listed L F h) (hb : b ∈ L c) : b ≠ 0 := (hl.dll c).ne_nil b hb

theorem Listed.matrix_eq_zero (hl : Listed L F h) : h.matrix c = 0 ↔ L c = [] := (hl.dll c).eq_nil_iff

theorem Listed.matrix_mem (hl : Listed L F h) (hc : h.matrix c ≠ 0) : h.matrix c ∈ L c := (hl.dll c).mem_head hc

/-- A block is in one list only. -/
theorem Listed.unique (hl : Listed L F h) (hF : Spread F) (hb : b ∈ L c) (hb' : b ∈ L c') : c = c' := by
  obtain ⟨s, hs, hhas⟩ := (hl.mem c b).mp hb
  obtain ⟨t, ht, hhas'⟩ := (hl.mem c' b).mp hb'
  rcases hF.eq_or_apart hs ht with ⟨-, rfl⟩ | hap
  · exact Idx.has_unique hhas hhas'
  · exact absurd rfl hap.ne

theorem Listed.apart (hl : Listed L F h) (hF : Spread F) (hx : x ∈ L c) (hy : y ∈ L c') : x = y ∨ Apart x y := by
  obtain ⟨s, hs, -⟩ := (hl.mem c x).mp hx
  obtain ⟨t, ht, -⟩ := (hl.mem c' y).mp hy
  exact (hF.eq_or_apart hs ht).imp_left fun heq => heq.1

/-- The lists depend on link words only. -/
theorem FreeLists.congr {h' : TlsfT} (hl : FreeLists F h) (hm : h'.matrix = h.matrix)
    (hs : h'.slBitmap = h.slBitmap)
    (hf : h'.flBitmap = h.flBitmap) (hw : ∀ x ∈ F, h'.mem (x.1 + 16) = h.mem (x.1 + 16) ∧
    h'.mem (x.1 + 24) = h.mem (x.1 + 24)) :
    FreeLists F h' := by
  obtain ⟨L, hL⟩ := hl
  refine ⟨L, ⟨fun c => ?_, hL.nodup, hL.mem, hs ▸ hf ▸ hL.marked⟩⟩
  rw [hm]
  refine (hL.dll c).congr (fun y hy => ?_) (fun y hy => ?_)
  · obtain ⟨s, hs, -⟩ := (hL.mem c y).mp hy
    exact (hw _ hs).2
  · obtain ⟨s, hs, -⟩ := (hL.mem c y).mp hy
    exact (hw _ hs).1

/-! ## One bit -/

variable {sl : Nat → BitVec 32} {fm : BitVec 32} {l : List Nat}

theorem Idx.sl_ne (hne : c' ≠ c) (hfl : c'.fl = c.fl) : c'.sl ≠ c.sl := by
  intro hsl
  apply hne
  apply Idx.ext_key
  unfold Idx.key
  omega

theorem Idx.key_le_key_iff : c.key ≤ c'.key ↔ c.fl < c'.fl ∨ (c'.fl = c.fl ∧ c.sl ≤ c'.sl) := by
  have := c.sl_lt
  have := c'.sl_lt
  unfold Idx.key
  omega

theorem Marked.row (hm : Marked L sl fm) (hc : L c ≠ []) : fm.getLsbD c.fl = true :=
  (hm.fl c.fl).mpr ⟨c.fl_lt, ne_zero_iff.mpr ⟨c.sl, (hm.sl c).mpr hc⟩⟩

theorem Marked.congr {L' : Idx → List Nat} (hm : Marked L sl fm) (hL : ∀ c, L' c = [] ↔ L c = []) :
    Marked L' sl fm :=
  ⟨fun c => (hm.sl c).trans (not_congr (hL c)).symm, hm.fl⟩

/-- The list of one class has a block now. -/
theorem Marked.set (hm : Marked L sl fm) (hl : l ≠ []) :
    Marked (Function.update L c l) (Function.update sl c.fl (setBit c.sl (sl c.fl))) (setBit c.fl fm) := by
  constructor
  · intro c'
    rcases eq_or_ne c' c with rfl | hne
    · rw [Function.update_self, Function.update_self, getLsbD_setBit c'.sl_lt, decide_eq_true rfl, Bool.or_true]
      exact iff_of_true rfl hl
    · rw [Function.update_of_ne hne]
      rcases eq_or_ne c'.fl c.fl with hfl | hfl
      · rw [hfl, Function.update_self, getLsbD_setBit c.sl_lt, ← hfl, decide_eq_false (Idx.sl_ne hne hfl).symm,
          Bool.or_false]
        exact hm.sl c'
      · rw [Function.update_of_ne hfl]
        exact hm.sl c'
  · intro fl
    rw [getLsbD_setBit (Nat.lt_trans c.fl_lt (by omega)), Bool.or_eq_true, decide_eq_true_eq, hm.fl]
    rcases eq_or_ne c.fl fl with rfl | hne
    · rw [Function.update_self]
      refine iff_of_true (.inr rfl) ⟨c.fl_lt, ne_zero_iff.mpr ⟨c.sl, ?_⟩⟩
      rw [getLsbD_setBit c.sl_lt, decide_eq_true rfl, Bool.or_true]
    · rw [Function.update_of_ne hne.symm]
      exact or_iff_left hne

/-- The list of one class is empty now. -/
theorem Marked.clear (hm : Marked L h.slBitmap h.flBitmap) :
    Marked (Function.update L c []) (h.clearBits c).slBitmap (h.clearBits c).flBitmap := by
  have hsl : (h.clearBits c).slBitmap = Function.update h.slBitmap c.fl (clearBit c.sl (h.slBitmap c.fl)) := by
    unfold clearBits
    dsimp only
    split <;> rfl
  have hfl : (h.clearBits c).flBitmap =
      if clearBit c.sl (h.slBitmap c.fl) = 0 then clearBit c.fl h.flBitmap else h.flBitmap := by
    have hself : Function.update h.slBitmap c.fl (clearBit c.sl (h.slBitmap c.fl)) c.fl =
      clearBit c.sl (h.slBitmap c.fl) :=
      Function.update_self _ _ _
    unfold clearBits
    dsimp only
    split
    next hzero => exact (if_pos (hself.symm.trans hzero)).symm
    next hnz => exact (if_neg fun hzero => hnz (hself.trans hzero)).symm
  rw [hsl, hfl]
  constructor
  · intro c'
    rcases eq_or_ne c' c with rfl | hne
    · rw [Function.update_self, Function.update_self, getLsbD_clearBit c'.sl_lt, decide_eq_false (not_not.mpr rfl),
        Bool.and_false]
      exact iff_of_false (by simp) (not_not.mpr rfl)
    · rw [Function.update_of_ne hne]
      rcases eq_or_ne c'.fl c.fl with hfl | hfl
      · rw [hfl, Function.update_self, getLsbD_clearBit c.sl_lt, ← hfl, decide_eq_true (Idx.sl_ne hne hfl).symm,
          Bool.and_true]
        exact hm.sl c'
      · rw [Function.update_of_ne hfl]
        exact hm.sl c'
  · intro fl
    rcases eq_or_ne fl c.fl with rfl | hne
    · rw [Function.update_self]
      split
      next hzero =>
        rw [getLsbD_clearBit (Nat.lt_trans c.fl_lt (by omega)), decide_eq_false (not_not.mpr rfl), Bool.and_false]
        exact iff_of_false (by simp) fun hand => hand.2 hzero
      next hnz =>
        refine iff_of_true ((hm.fl c.fl).mpr ⟨c.fl_lt, fun hzero => hnz ?_⟩) ⟨c.fl_lt, hnz⟩
        rw [hzero]
        unfold clearBit
        exact BitVec.zero_and
    · rw [Function.update_of_ne hne]
      split
      · rw [getLsbD_clearBit (Nat.lt_trans c.fl_lt (by omega)), decide_eq_true hne.symm, Bool.and_true]
        exact hm.fl fl
      · exact hm.fl fl

/-! ## `INSERT_BLOCK` -/

/-- A word that is no link word of a block. -/
def NoLink (F : List (Nat × Nat)) (a : Nat) : Prop := ∀ x ∈ F, a ≠ x.1 + 16 ∧ a ≠ x.1 + 24

theorem insertBlock_matrix : (h.insertBlock b c).matrix = Function.update h.matrix c b := by
  unfold insertBlock
  dsimp only
  split <;> rfl

theorem insertBlock_sl :
    (h.insertBlock b c).slBitmap = Function.update h.slBitmap c.fl (setBit c.sl (h.slBitmap c.fl)) := by
  unfold insertBlock
  dsimp only
  split <;> rfl

theorem insertBlock_fl : (h.insertBlock b c).flBitmap = setBit c.fl h.flBitmap := by
  unfold insertBlock
  dsimp only
  split <;> rfl

theorem insertBlock_next (hb : b = y ∨ Apart b y) (hm : h.matrix c ≠ 0 → h.matrix c = y ∨ Apart (h.matrix c) y) :
    (h.insertBlock b c).next y = if y = b then h.matrix c else h.next y := by
  unfold insertBlock
  dsimp only
  split
  next hne =>
    show (((h.setPrev b 0).setNext b (h.matrix c)).setPrev (h.matrix c) b).next y = _
    rw [next_setPrev (hm hne), next_setNext, next_setPrev hb]
  next =>
    show ((h.setPrev b 0).setNext b (h.matrix c)).next y = _
    rw [next_setNext, next_setPrev hb]

theorem insertBlock_prev (hy : y ≠ 0) (hb : b = y ∨ Apart b y) :
    (h.insertBlock b c).prev y = if y = h.matrix c then b else if y = b then 0 else h.prev y := by
  unfold insertBlock
  dsimp only
  split
  next =>
    show (((h.setPrev b 0).setNext b (h.matrix c)).setPrev (h.matrix c) b).prev y = _
    rw [prev_setPrev, prev_setNext hb, prev_setPrev]
  next hnull =>
    have hzero : h.matrix c = 0 := not_not.mp hnull
    show ((h.setPrev b 0).setNext b (h.matrix c)).prev y = _
    rw [hzero, if_neg hy, prev_setNext hb, prev_setPrev]

theorem insertBlock_mem (hb : a ≠ b + 16 ∧ a ≠ b + 24) (hm : h.matrix c ≠ 0 → a ≠ h.matrix c + 16) :
    (h.insertBlock b c).mem a = h.mem a := by
  unfold insertBlock
  dsimp only
  split
  next hne =>
    show (((h.setPrev b 0).setNext b (h.matrix c)).setPrev (h.matrix c) b).mem a = _
    exact mem_store.trans ((if_neg (hm hne)).trans
      (mem_store.trans ((if_neg hb.2).trans (mem_store.trans (if_neg hb.1)))))
  next =>
    show ((h.setPrev b 0).setNext b (h.matrix c)).mem a = _
    exact mem_store.trans ((if_neg hb.2).trans (mem_store.trans (if_neg hb.1)))

theorem Listed.noLink (hl : Listed L F h) (ha : NoLink F a) (hb : b ∈ L c) : a ≠ b + 16 ∧ a ≠ b + 24 := by
  obtain ⟨s, hs, -⟩ := (hl.mem c b).mp hb
  exact ha _ hs

/-- The other blocks are those at other addresses. -/
theorem Spread.mem_others {t : Nat} (hF : Spread (A ++ (b, s) :: B)) :
    (y, t) ∈ A ++ B ↔ y ≠ b ∧ (y, t) ∈ A ++ (b, s) :: B := by
  have hpair := List.pairwise_middle (fun hxy => Apart.symm hxy) |>.mp hF.apart
  rw [List.pairwise_cons] at hpair
  rw [List.perm_middle.mem_iff, List.mem_cons]
  constructor
  · exact fun ht => ⟨(hpair.1 (y, t) ht).ne.symm, .inr ht⟩
  · rintro ⟨hyb, heq | ht⟩
    · exact absurd (Prod.mk.inj heq).1 hyb
    · exact ht

theorem Spread.others (hF : Spread (A ++ (b, s) :: B)) : Spread (A ++ B) :=
  hF.sublist ((List.Sublist.refl A).append (List.sublist_cons_self _ _))

/-- A block that is not listed yet is none of the listed ones, and shares no words with them. -/
theorem Listed.ne_and_apart (hl : Listed L (A ++ B) h) (hF : Spread (A ++ (b, s) :: B)) (hy : y ∈ L c) :
    y ≠ b ∧ Apart b y := by
  obtain ⟨t, ht, -⟩ := (hl.mem c y).mp hy
  obtain ⟨hyb, hin⟩ := hF.mem_others.mp ht
  have hbin : (b, s) ∈ A ++ (b, s) :: B := List.mem_append_right _ List.mem_cons_self
  exact ⟨hyb, (hF.eq_or_apart hbin hin).resolve_left fun heq => hyb heq.1.symm⟩

theorem insertBlock_next_listed (hl : Listed L (A ++ B) h) (hF : Spread (A ++ (b, s) :: B)) (hy : y ∈ L c') :
    (h.insertBlock b c).next y = h.next y := by
  obtain ⟨hyb, hby⟩ := hl.ne_and_apart hF hy
  rw [insertBlock_next (.inr hby) fun hne => hl.apart hF.others (hl.matrix_mem hne) hy, if_neg hyb]

theorem insertBlock_prev_listed (hl : Listed L (A ++ B) h) (hF : Spread (A ++ (b, s) :: B)) (hy : y ∈ L c') :
    (h.insertBlock b c).prev y = if y = h.matrix c then b else h.prev y := by
  obtain ⟨hyb, hby⟩ := hl.ne_and_apart hF hy
  rw [insertBlock_prev (hl.ne_zero hy) (.inr hby), if_neg hyb]

theorem insertBlock_dll (hl : Listed L (A ++ B) h) (hF : Spread (A ++ (b, s) :: B)) (c' : Idx) :
    Dll 0 (h.insertBlock b c).next (h.insertBlock b c).prev 0 ((h.insertBlock b c).matrix c')
      (Function.update L c (b :: L c) c') := by
  have hbpos : b ≠ 0 := Nat.ne_of_gt (hF.pos (b, s) (List.mem_append_right _ List.mem_cons_self))
  rw [insertBlock_matrix]
  rcases eq_or_ne c' c with rfl | hne
  · have hhead : h.matrix c' ≠ b := by
      intro hmb
      have hmem := hl.matrix_mem (hmb ▸ hbpos)
      exact (hl.ne_and_apart hF hmem).1 hmb
    rw [Function.update_self, Function.update_self]
    refine (hl.dll c').cons hbpos (hl.nodup c') ?_ ?_ ?_ ?_ ?_
    · rw [insertBlock_next (.inl rfl) fun hne => .inr (hl.ne_and_apart hF (hl.matrix_mem hne)).2.symm, if_pos rfl]
    · rw [insertBlock_prev hbpos (.inl rfl), if_neg hhead.symm, if_pos rfl]
    · intro hne
      rw [insertBlock_prev_listed hl hF (hl.matrix_mem hne), if_pos rfl]
    · exact fun y hy => insertBlock_next_listed hl hF hy
    · intro y hy hym
      rw [insertBlock_prev_listed hl hF hy, if_neg hym]
  · rw [Function.update_of_ne hne, Function.update_of_ne hne]
    refine (hl.dll c').congr (fun y hy => insertBlock_next_listed hl hF hy) (fun y hy => ?_)
    rw [insertBlock_prev_listed hl hF hy, if_neg]
    intro hym
    have hnz : h.matrix c ≠ 0 := hym ▸ hl.ne_zero hy
    exact hne (hl.unique hF.others hy (hym ▸ hl.matrix_mem hnz))

theorem Listed.mem_add (hl : Listed L (A ++ B) h) (hc : c.Has s) :
    y ∈ Function.update L c (b :: L c) c' ↔ ∃ t, (y, t) ∈ A ++ (b, s) :: B ∧ c'.Has t := by
  have hmem : (∃ t, (y, t) ∈ A ++ (b, s) :: B ∧ c'.Has t) ↔ (y = b ∧ c'.Has s) ∨ y ∈ L c' := by
    rw [hl.mem c' y]
    constructor
    · rintro ⟨t, ht, hhas⟩
      rcases List.mem_cons.mp (List.perm_middle.mem_iff.mp ht) with heq | ht
      · obtain ⟨rfl, rfl⟩ := Prod.mk.inj heq
        exact .inl ⟨rfl, hhas⟩
      · exact .inr ⟨t, ht, hhas⟩
    · rintro (⟨rfl, hhas⟩ | ⟨t, ht, hhas⟩)
      · exact ⟨s, List.mem_append_right _ List.mem_cons_self, hhas⟩
      · exact ⟨t, List.perm_middle.mem_iff.mpr (List.mem_cons_of_mem _ ht), hhas⟩
  rw [hmem]
  rcases eq_or_ne c' c with rfl | hne
  · rw [Function.update_self, List.mem_cons, and_iff_left hc]
  · rw [Function.update_of_ne hne]
    exact (or_iff_right fun hy => hne (Idx.has_unique hy.2 hc)).symm

/-- **`INSERT_BLOCK`** puts the block in front of the list of its class. -/
theorem insertBlock_lists (hl : FreeLists (A ++ B) h) (hF : Spread (A ++ (b, s) :: B)) (hc : c.Has s) :
    FreeLists (A ++ (b, s) :: B) (h.insertBlock b c) ∧
      ∀ a, NoLink (A ++ (b, s) :: B) a → (h.insertBlock b c).mem a = h.mem a := by
  obtain ⟨L, hL⟩ := hl
  constructor
  · refine ⟨Function.update L c (b :: L c), insertBlock_dll hL hF, fun c' => ?_, fun c' y => hL.mem_add hc, ?_⟩
    · rcases eq_or_ne c' c with rfl | hne
      · rw [Function.update_self]
        exact List.nodup_cons.mpr ⟨fun hb => (hL.ne_and_apart hF hb).1 rfl, hL.nodup c'⟩
      · rw [Function.update_of_ne hne]
        exact hL.nodup c'
    · rw [insertBlock_sl, insertBlock_fl]
      exact hL.marked.set (List.cons_ne_nil _ _)
  · intro a ha
    have hothers : NoLink (A ++ B) a := fun x hx =>
      ha x (List.perm_middle.mem_iff.mpr (List.mem_cons_of_mem _ hx))
    exact insertBlock_mem (ha (b, s) (List.mem_append_right _ List.mem_cons_self)) fun hne =>
      (hL.noLink hothers (hL.matrix_mem hne)).1

/-! ## `EXTRACT_BLOCK` -/

/-- The blocks next to `b` in its list share no words with `b`. -/
structure Linked (h : TlsfT) (b : Nat) : Prop where
  pos : b ≠ 0
  next : h.next b ≠ 0 → Apart (h.next b) b
  prev : h.prev b ≠ 0 → Apart (h.prev b) b

theorem unlink_eq (hb : Linked h b) :
    h.unlink b =
      (if h.prev b ≠ 0 then (if h.next b ≠ 0 then h.setPrev (h.next b) (h.prev b) else h).setNext
      (h.prev b) (h.next b)
      else if h.next b ≠ 0 then h.setPrev (h.next b) (h.prev b) else h) := by
  have hnext : (if h.next b ≠ 0 then h.setPrev (h.next b) (h.prev b) else h).next b = h.next b := by
    split
    next hne => exact next_setPrev (.inr (hb.next hne))
    next => rfl
  have hprev : (if h.next b ≠ 0 then h.setPrev (h.next b) (h.prev b) else h).prev b = h.prev b := by
    split
    next hne => exact prev_setPrev.trans (if_neg (hb.next hne).symm.ne)
    next => rfl
  unfold unlink
  dsimp only
  rw [hnext, hprev]

theorem unlink_fields : (h.unlink b).matrix = h.matrix ∧ (h.unlink b).slBitmap = h.slBitmap ∧
    (h.unlink b).flBitmap = h.flBitmap := by
  unfold unlink
  dsimp only
  split <;> split <;> exact ⟨rfl, rfl, rfl⟩

theorem unlink_next (hb : Linked h b) (hy : y ≠ 0) (hn : h.next b ≠ 0 → h.next b = y ∨ Apart (h.next b) y) :
    (h.unlink b).next y = if y = h.prev b then h.next b else h.next y := by
  have hfirst : (if h.next b ≠ 0 then h.setPrev (h.next b) (h.prev b) else h).next y = h.next y := by
    split
    next hne => exact next_setPrev (hn hne)
    next => rfl
  rw [unlink_eq hb]
  split
  next => rw [next_setNext, hfirst]
  next hzero => rw [hfirst, not_not.mp hzero, if_neg hy]

theorem unlink_prev (hb : Linked h b) (hy : y ≠ 0) (hp : h.prev b ≠ 0 → h.prev b = y ∨ Apart (h.prev b) y) :
    (h.unlink b).prev y = if y = h.next b then h.prev b else h.prev y := by
  have hfirst : (if h.next b ≠ 0 then h.setPrev (h.next b) (h.prev b) else h).prev y =
      if y = h.next b then h.prev b else h.prev y := by
    by_cases hzero : h.next b = 0
    · rw [if_neg (not_not.mpr hzero), hzero, if_neg hy]
    · rw [if_pos hzero, prev_setPrev]
  rw [unlink_eq hb]
  split
  next hne => rw [prev_setNext (hp hne), hfirst]
  next => exact hfirst

theorem unlink_mem (hb : Linked h b) (hn : h.next b ≠ 0 → a ≠ h.next b + 16)
    (hp : h.prev b ≠ 0 → a ≠ h.prev b + 24) :
    (h.unlink b).mem a = h.mem a := by
  have hfirst : (if h.next b ≠ 0 then h.setPrev (h.next b) (h.prev b) else h).mem a = h.mem a := by
    split
    next hne => exact mem_store.trans (if_neg (hn hne))
    next => rfl
  rw [unlink_eq hb]
  split
  next hne => exact mem_store.trans ((if_neg (hp hne)).trans hfirst)
  next => exact hfirst

theorem clearBits_mem : (h.clearBits c).mem = h.mem := by
  unfold clearBits
  dsimp only
  split <;> rfl

theorem clearBits_matrix : (h.clearBits c).matrix = h.matrix := by
  unfold clearBits
  dsimp only
  split <;> rfl

theorem extractBlock_mem_eq : (h.extractBlock b c).mem = (((h.unlink b).setPrev b 0).setNext b 0).mem := by
  unfold extractBlock
  dsimp only
  split
  · split
    · show ((((h.unlink b).setMatrix c ((h.unlink b).next b)).clearBits c).setPrev b 0 |>.setNext b 0).mem = _
      unfold setNext setPrev store
      dsimp only
      rw [clearBits_mem]
      rfl
    · rfl
  · rfl

theorem unlink_next_self (hb : Linked h b) : (h.unlink b).next b = h.next b := by
  rw [unlink_next hb hb.pos fun hne => .inr (hb.next hne)]
  split
  next hbp => exact absurd hbp.symm (hb.prev (hbp ▸ hb.pos)).ne
  next => rfl

theorem extractBlock_matrix (hb : Linked h b) :
    (h.extractBlock b c).matrix = if h.matrix c = b then Function.update h.matrix c (h.next b) else h.matrix := by
  have hm : (h.unlink b).matrix = h.matrix := unlink_fields.1
  have hn := unlink_next_self hb
  unfold extractBlock
  dsimp only
  rw [hm]
  split
  · split
    · show (((h.unlink b).setMatrix c ((h.unlink b).next b)).clearBits c).matrix = _
      rw [clearBits_matrix, hn]
      show Function.update (h.unlink b).matrix c (h.next b) = _
      rw [hm]
    · show Function.update (h.unlink b).matrix c ((h.unlink b).next b) = _
      rw [hm, hn]
  · exact hm

/-- The bitmaps change if the block was the only one of its class. -/
theorem extractBlock_bits (hb : Linked h b) :
    ((h.extractBlock b c).slBitmap, (h.extractBlock b c).flBitmap) =
      if h.matrix c = b ∧ h.next b = 0 then ((h.clearBits c).slBitmap, (h.clearBits c).flBitmap)
      else (h.slBitmap, h.flBitmap) := by
  obtain ⟨hm, hsl, hfl⟩ := unlink_fields (h := h) (b := b)
  have hn := unlink_next_self hb
  have hclear : ∀ h' : TlsfT, h'.slBitmap = h.slBitmap → h'.flBitmap = h.flBitmap →
      ((h'.clearBits c).slBitmap, (h'.clearBits c).flBitmap) = ((h.clearBits c).slBitmap,
      (h.clearBits c).flBitmap) := by
    intro h' hsl' hfl'
    unfold clearBits
    dsimp only
    rw [hsl', hfl']
    split <;> rfl
  have hself : (Function.update h.matrix c (h.next b)) c = h.next b := Function.update_self _ _ _
  unfold extractBlock
  dsimp only
  rw [hm, hn]
  by_cases hhead : h.matrix c = b
  · rw [if_pos hhead]
    have hmc : ((h.unlink b).setMatrix c (h.next b)).matrix c = h.next b := Function.update_self _ _ _
    by_cases hlast : h.next b = 0
    · rw [if_pos (hmc.trans hlast), if_pos ⟨hhead, hlast⟩]
      exact hclear _ hsl hfl
    · rw [if_neg fun hzero => hlast (hmc.symm.trans hzero), if_neg fun hand => hlast hand.2]
      exact congrArg₂ Prod.mk hsl hfl
  · rw [if_neg hhead, if_neg fun hand => hhead hand.1]
    exact congrArg₂ Prod.mk hsl hfl

theorem Listed.linked (hl : Listed L F h) (hF : Spread F) {l₁ l₂ : List Nat} (hL : L c = l₁ ++ b :: l₂) :
    Linked h b ∧ (h.next b ≠ 0 → h.next b ∈ l₂) ∧ (h.prev b ≠ 0 → h.prev b ∈ l₁) ∧ (h.next b = 0 ↔ l₂ = []) ∧
      (h.matrix c = b ↔ l₁ = []) := by
  have hdll := hl.dll c
  have hnodup := hl.nodup c
  rw [hL] at hdll hnodup
  have hmem : ∀ y, y ∈ l₁ ++ b :: l₂ → y ∈ L c := fun y hy => hL.symm ▸ hy
  have hbmem : b ∈ L c := hmem b (List.mem_append_right _ List.mem_cons_self)
  have hnotin : b ∉ l₁ ++ l₂ := (List.nodup_cons.mp (List.nodup_middle.mp hnodup)).1
  have hnext : h.next b ≠ 0 → h.next b ∈ l₂ := hdll.behind.mem_head
  have hprev : h.prev b ≠ 0 → h.prev b ∈ l₁ := fun hne =>
    (List.mem_cons.mp hdll.prev_mem).resolve_left hne
  have hapart : ∀ y ∈ l₁ ++ l₂, Apart y b := by
    intro y hy
    have hyL : y ∈ L c := hmem y (by
      rcases List.mem_append.mp hy with hy | hy
      · exact List.mem_append_left _ hy
      · exact List.mem_append_right _ (List.mem_cons_of_mem _ hy))
    exact (hl.apart hF hyL hbmem).resolve_left fun heq => hnotin (heq ▸ hy)
  refine ⟨⟨hl.ne_zero hbmem, fun hne => ?_, fun hne => ?_⟩, hnext, hprev, hdll.behind.eq_nil_iff, ?_⟩
  · exact hapart _ (List.mem_append_right _ (hnext hne))
  · exact hapart _ (List.mem_append_left _ (hprev hne))
  · cases l₁ with
    | nil => exact iff_of_true hdll.1 rfl
    | cons z l₁ =>
      refine iff_of_false (fun hmb => ?_) (List.cons_ne_nil _ _)
      exact hnotin (hmb ▸ hdll.1 ▸ List.mem_append_left _ List.mem_cons_self)

/-- The blocks next to `b` are of the same list. -/
theorem Listed.neighbors (hl : Listed L F h) (hF : Spread F) (hb : b ∈ L c) :
    Linked h b ∧ (h.next b ≠ 0 → h.next b ∈ L c) ∧ (h.prev b ≠ 0 → h.prev b ∈ L c) := by
  obtain ⟨l₁, l₂, hsplit⟩ := List.append_of_mem hb
  obtain ⟨hlinked, hnext, hprev, -, -⟩ := hl.linked hF hsplit
  rw [hsplit]
  refine ⟨hlinked, fun hne => ?_, fun hne => List.mem_append_left _ (hprev hne)⟩
  exact List.mem_append_right _ (List.mem_cons_of_mem _ (hnext hne))

theorem extractBlock_next (hl : Listed L F h) (hF : Spread F) (hb : b ∈ L c) (hy : y ∈ L c') (hyb : y ≠ b) :
    (h.extractBlock b c).next y = if y = h.prev b then h.next b else h.next y := by
  obtain ⟨hlinked, hnext, -⟩ := hl.neighbors hF hb
  have hby : Apart b y := (hl.apart hF hb hy).resolve_left hyb.symm
  show (h.extractBlock b c).mem (y + 24) = _
  rw [extractBlock_mem_eq]
  show (((h.unlink b).setPrev b 0).setNext b 0).next y = _
  rw [next_setNext, if_neg hyb, next_setPrev (.inr hby)]
  exact unlink_next hlinked (hl.ne_zero hy) fun hne => hl.apart hF (hnext hne) hy

theorem extractBlock_prev (hl : Listed L F h) (hF : Spread F) (hb : b ∈ L c) (hy : y ∈ L c') (hyb : y ≠ b) :
    (h.extractBlock b c).prev y = if y = h.next b then h.prev b else h.prev y := by
  obtain ⟨hlinked, -, hprev⟩ := hl.neighbors hF hb
  have hby : Apart b y := (hl.apart hF hb hy).resolve_left hyb.symm
  show (h.extractBlock b c).mem (y + 16) = _
  rw [extractBlock_mem_eq]
  show (((h.unlink b).setPrev b 0).setNext b 0).prev y = _
  rw [prev_setNext (.inr hby), prev_setPrev, if_neg hyb]
  exact unlink_prev hlinked (hl.ne_zero hy) fun hne => hl.apart hF (hprev hne) hy

theorem Listed.mem_remove (hl : Listed L F h) (hF : Spread F) {l₁ l₂ : List Nat} (hsplit : L c = l₁ ++ b :: l₂) :
    y ∈ Function.update L c (l₁ ++ l₂) c' ↔ y ≠ b ∧ y ∈ L c' := by
  rcases eq_or_ne c' c with rfl | hne
  · have hnodup : (l₁ ++ b :: l₂).Nodup := hsplit ▸ hl.nodup c'
    have hnotin : b ∉ l₁ ++ l₂ := (List.nodup_cons.mp (List.nodup_middle.mp hnodup)).1
    rw [Function.update_self, hsplit, List.perm_middle.mem_iff, List.mem_cons]
    constructor
    · exact fun hy => ⟨fun hyb => hnotin (hyb ▸ hy), .inr hy⟩
    · exact fun hy => hy.2.resolve_left hy.1
  · have hbL : b ∈ L c := hsplit ▸ List.mem_append_right _ List.mem_cons_self
    rw [Function.update_of_ne hne]
    exact (and_iff_right_of_imp fun hy hyb => hne (hl.unique hF hy (hyb ▸ hbL))).symm

theorem extractBlock_dll (hl : Listed L F h) (hF : Spread F) {l₁ l₂ : List Nat} (hsplit : L c = l₁ ++ b :: l₂)
    (c' : Idx) :
    Dll 0 (h.extractBlock b c).next (h.extractBlock b c).prev 0 ((h.extractBlock b c).matrix c')
      (Function.update L c (l₁ ++ l₂) c') := by
  have hbL : b ∈ L c := hsplit ▸ List.mem_append_right _ List.mem_cons_self
  obtain ⟨hlinked, hnext, hprev⟩ := hl.neighbors hF hbL
  rcases eq_or_ne c' c with rfl | hne
  · have hdll := hl.dll c'
    rw [hsplit] at hdll
    have hmatrix : (h.extractBlock b c').matrix c' = if h.matrix c' = b then h.next b else h.matrix c' := by
      rw [extractBlock_matrix hlinked]
      split
      · exact Function.update_self _ _ _
      · rfl
    have hmem : ∀ y ∈ l₁ ++ l₂, y ≠ b ∧ y ∈ L c' := by
      intro y hy
      rw [← hl.mem_remove hF hsplit, Function.update_self]
      exact hy
    rw [Function.update_self, hmatrix]
    refine hdll.remove (hsplit ▸ hl.nodup c') (fun hzero => hl.ne_zero (hsplit ▸ hzero) rfl) (fun hne => ?_)
      (fun hne => ?_) (fun y hy hyp => ?_) (fun y hy hyn => ?_)
    · rw [extractBlock_next hl hF hbL (hprev hne) (hlinked.prev hne).ne, if_pos rfl]
    · rw [extractBlock_prev hl hF hbL (hnext hne) (hlinked.next hne).ne, if_pos rfl]
    · rw [extractBlock_next hl hF hbL (hmem y hy).2 (hmem y hy).1, if_neg hyp]
    · rw [extractBlock_prev hl hF hbL (hmem y hy).2 (hmem y hy).1, if_neg hyn]
  · have hmatrix : (h.extractBlock b c).matrix c' = h.matrix c' := by
      rw [extractBlock_matrix hlinked]
      split
      · exact Function.update_of_ne hne _ _
      · rfl
    have hnot : ∀ y ∈ L c', ∀ z ∈ L c, y ≠ z := fun y hy z hz hyz => hne (hl.unique hF hy (hyz ▸ hz))
    rw [Function.update_of_ne hne, hmatrix]
    refine (hl.dll c').congr (fun y hy => ?_) (fun y hy => ?_)
    · rw [extractBlock_next hl hF hbL hy (hnot y hy b hbL), if_neg]
      exact fun hyp => hnot y hy _ (hprev (hyp ▸ hl.ne_zero hy)) hyp
    · rw [extractBlock_prev hl hF hbL hy (hnot y hy b hbL), if_neg]
      exact fun hyn => hnot y hy _ (hnext (hyn ▸ hl.ne_zero hy)) hyn

theorem extractBlock_marked (hl : Listed L F h) (hF : Spread F) {l₁ l₂ : List Nat}
    (hsplit : L c = l₁ ++ b :: l₂) :
    Marked (Function.update L c (l₁ ++ l₂)) (h.extractBlock b c).slBitmap (h.extractBlock b c).flBitmap := by
  obtain ⟨hlinked, -, -, hlast, hhead⟩ := hl.linked hF hsplit
  have hbits := extractBlock_bits (c := c) hlinked
  split at hbits
  next hand =>
    obtain ⟨hsl, hfl⟩ := Prod.mk.inj hbits
    rw [hsl, hfl, hhead.mp hand.1, hlast.mp hand.2]
    exact hl.marked.clear
  next hnot =>
    obtain ⟨hsl, hfl⟩ := Prod.mk.inj hbits
    rw [hsl, hfl]
    refine hl.marked.congr fun c' => ?_
    rcases eq_or_ne c' c with rfl | hne
    · rw [Function.update_self, hsplit, List.append_eq_nil_iff, List.append_eq_nil_iff]
      refine iff_of_false (fun hnil => ?_) fun hnil => List.cons_ne_nil _ _ hnil.2
      exact hnot ⟨hhead.mpr hnil.1, hlast.mpr hnil.2⟩
    · rw [Function.update_of_ne hne]

/-- **`EXTRACT_BLOCK`** takes the block out of the list of its class. -/
theorem extractBlock_lists (hl : FreeLists (A ++ (b, s) :: B) h) (hF : Spread (A ++ (b, s) :: B)) (hc : c.Has s) :
    FreeLists (A ++ B) (h.extractBlock b c) ∧
      ∀ a, NoLink (A ++ (b, s) :: B) a → (h.extractBlock b c).mem a = h.mem a := by
  obtain ⟨L, hL⟩ := hl
  have hbL : b ∈ L c := (hL.mem c b).mpr ⟨s, List.mem_append_right _ List.mem_cons_self, hc⟩
  obtain ⟨l₁, l₂, hsplit⟩ := List.append_of_mem hbL
  obtain ⟨hlinked, hnext, hprev⟩ := hL.neighbors hF hbL
  constructor
  · refine ⟨Function.update L c (l₁ ++ l₂), extractBlock_dll hL hF hsplit, fun c' => ?_, fun c' y => ?_,
      extractBlock_marked hL hF hsplit⟩
    · rcases eq_or_ne c' c with rfl | hne
      · have hnodup : (l₁ ++ b :: l₂).Nodup := hsplit ▸ hL.nodup c'
        rw [Function.update_self]
        exact (List.nodup_cons.mp (List.nodup_middle.mp hnodup)).2
      · rw [Function.update_of_ne hne]
        exact hL.nodup c'
    · rw [hL.mem_remove hF hsplit, hL.mem c' y, ← exists_and_left]
      exact exists_congr fun t => by rw [hF.mem_others, and_assoc]
  · intro a ha
    have hb := hL.noLink ha hbL
    rw [extractBlock_mem_eq]
    refine mem_store.trans ((if_neg hb.2).trans (mem_store.trans ((if_neg hb.1).trans ?_)))
    exact unlink_mem hlinked (fun hne => (hL.noLink ha (hnext hne)).1) fun hne => (hL.noLink ha (hprev hne)).2

/-- `EXTRACT_BLOCK_HDR` is `EXTRACT_BLOCK` of the first block. -/
theorem extractBlockHdr_eq (hb : Linked h b) (hm : h.matrix c = b) (hp : h.prev b = 0) :
    h.extractBlockHdr b c = h.extractBlock b c := by
  have hself : ∀ h' : TlsfT, (h'.setMatrix c (h.next b)).matrix c = h.next b := fun _ => Function.update_self _ _ _
  have hunlink : h.unlink b = if h.next b ≠ 0 then h.setPrev (h.next b) 0 else h := by
    rw [unlink_eq hb, if_neg (not_not.mpr hp), hp]
  unfold extractBlockHdr extractBlock
  dsimp only
  rw [unlink_fields.1, if_pos hm, unlink_next_self hb, hunlink]
  by_cases hlast : h.next b = 0
  · rw [if_neg (not_not.mpr ((hself h).trans hlast)), if_neg (not_not.mpr hlast), if_pos ((hself h).trans hlast)]
  · rw [if_pos (fun hzero => hlast ((hself h).symm.trans hzero)), if_pos hlast,
      if_neg fun hzero => hlast ((hself _).symm.trans hzero), hself]
    rfl

/-! ## `FIND_SUITABLE_BLOCK` -/

/-- **`FIND_SUITABLE_BLOCK`**: the first block of the least class at or above `c` that has any. -/
theorem findSuitableBlock_eq (hl : Listed L F h) (c : Idx) :
    ∃ b c', h.findSuitableBlock c = some (b, c') ∧
      ((b = 0 ∧ ∀ d, c.key ≤ d.key → L d = []) ∨
        (b = h.matrix c' ∧ L c' ≠ [] ∧ c.key ≤ c'.key ∧ ∀ d, c.key ≤ d.key → L d ≠ [] → c'.key ≤ d.key)) := by
  unfold findSuitableBlock
  dsimp only
  split
  next htmp =>
    -- a list of the same row
    obtain ⟨k, hlow, hk, hck, hmin⟩ := lowest_from_eq htmp
    have hk32 := BitVec.lt_of_getLsbD hk
    rw [hlow, idx?_eq c.fl_lt hk32]
    refine ⟨_, _, rfl, .inr ⟨rfl, (hl.marked.sl ⟨c.fl, k, c.fl_lt, hk32⟩).mp hk, ?_, fun d hle hd => ?_⟩⟩
    · exact Idx.key_le_key_iff.mpr (.inr ⟨rfl, hck⟩)
    · rw [Idx.key_le_key_iff] at hle ⊢
      refine hle.imp_right fun hrow => ⟨hrow.1, hmin d.sl ?_ hrow.2⟩
      rw [← hrow.1]
      exact (hl.marked.sl d).mpr hd
  next htmp =>
    have hnone : ∀ d : Idx, L d ≠ [] → c.key ≤ d.key → c.fl < d.fl := by
      intro d hd hle
      refine (Idx.key_le_key_iff.mp hle).resolve_right fun hrow => htmp (from_ne_zero ?_ hrow.2)
      rw [← hrow.1]
      exact (hl.marked.sl d).mpr hd
    split
    next hfl =>
      -- a list of the next row that has any
      have hne : h.flBitmap &&& BitVec.allOnes 32 <<< (c.fl + 1) ≠ 0#32 := by
        intro hzero
        rw [hzero, lsBit_zero] at hfl
        omega
      obtain ⟨m, hmlow, hm, hcm, hmmin⟩ := lowest_from_eq hne
      obtain ⟨hm24, hslne⟩ := (hl.marked.fl m).mp hm
      obtain ⟨k, hklow, hk, hkmin⟩ := lowest_eq hslne
      have hk32 := BitVec.lt_of_getLsbD hk
      rw [hmlow, Int.toNat_natCast, hklow, idx?_eq hm24 hk32]
      refine ⟨_, _, rfl, .inr ⟨rfl, (hl.marked.sl ⟨m, k, hm24, hk32⟩).mp hk, ?_, fun d hle hd => ?_⟩⟩
      · exact Idx.key_le_key_iff.mpr (.inl hcm)
      · rw [Idx.key_le_key_iff]
        have hmd : m ≤ d.fl := hmmin d.fl (hl.marked.row hd) (hnone d hd hle)
        refine hmd.lt_or_eq.imp_right fun hdm => ⟨hdm.symm, hkmin d.sl ?_⟩
        rw [hdm]
        exact (hl.marked.sl d).mpr hd
    next hfl =>
      refine ⟨0, c, rfl, .inl ⟨rfl, fun d hle => ?_⟩⟩
      by_contra hd
      obtain ⟨m, hmlow, -, hcm, -⟩ := lowest_from_eq (from_ne_zero (hl.marked.row hd) (hnone d hd hle))
      rw [hmlow] at hfl
      omega

end Sqkio.Common.TlsfT
