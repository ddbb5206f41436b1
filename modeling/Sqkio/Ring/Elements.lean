import Sqkio.Ring.Seq

/-!
# The copy routines against the plain one

The three `enqueue_elements` move words of 8, 16 and 4 bytes.  In 32-bit words
(`enqueueWords`) each of them should write element `i` to slot `(head + i) & mask`, and
do what the template for the other sizes does at the same arguments
(`enqueueElementsPlain`).  The routines for 8 and 16 bytes always write the right words.  The
plain one computes `idx + n` in 32-bit words, and this sum wraps for rings of more than 2^31
words although `size * k` does not; it then takes the unrolled branch and runs past the
last slot.

    Agree V T size mask head n ↔ ((head & mask) + n) * k < 2 ^ 32      (agree_iff)
-/

namespace Sqkio.Common

open Sqkio.Lib
open Sqkio.Common.Ring (writeWords writeWords_eq writeWords_of_ne readWords)

/-- The 32-bit words in one word of the copy routine of `T`. -/
def ElemType.unit (T : ElemType) : Nat := if T.k = 2 then 2 else if T.k = 4 then 4 else 1

/-- A copy of one word as copies of its 32-bit words. -/
def Copy.split (u : Nat) (c : Copy) : List Copy :=
  (List.range u).map fun j => ⟨c.ring * u + j, c.obj * u + j⟩

def enqueueWords (T : ElemType) (size mask prodHead n : UInt32) : List Copy :=
  (enqueueElements T size mask prodHead n).flatMap (Copy.split T.unit)

def dequeueWords (T : ElemType) (size mask consHead num : UInt32) : List Copy :=
  (dequeueElements T size mask consHead num).flatMap (Copy.split T.unit)

/-- `enqueue_elements` without a `requires` clause, for any `T`. -/
def enqueueElementsPlain (T : ElemType) (size mask prodHead n : UInt32) : List Copy :=
  let nrNum := n * T.scale
  let idx := prodHead &&& mask
  let nrIdx := idx * T.scale
  let nrSize := size * T.scale
  enqueueElems32 nrSize nrIdx nrNum

def dequeueElementsPlain (T : ElemType) (size mask consHead num : UInt32) : List Copy :=
  let nrNum := num * T.scale
  let idx := consHead &&& mask
  let nrIdx := idx * T.scale
  let nrSize := size * T.scale
  dequeueElems32 nrSize nrIdx nrNum

section

variable {V : Type}

/-- The slot area after the copies of an enqueue. -/
def store (slots obj : Nat → V) (cs : List Copy) : Nat → V :=
  cs.foldl (fun m c => Function.update m c.ring (obj c.obj)) slots

/-- The caller's array after the copies of a dequeue. -/
def fetch (slots obj : Nat → V) (cs : List Copy) : Nat → V :=
  cs.foldl (fun m c => Function.update m c.obj (slots c.ring)) obj

/-- 32-bit word `j` of slot `(head + i) & mask`. -/
def slotWord (T : ElemType) (mask head : UInt32) (i j : Nat) : Nat :=
  ((head + UInt32.ofNat i) &&& mask).toNat * T.k + j

end

/-- The variant for `T` writes each element to its slot and nothing else, `dequeue_elements`
reads the same elements back, and both do what the plain routine does. -/
structure Agree (V : Type) (T : ElemType) (size mask head n : UInt32) : Prop where
  stored : ∀ (slots obj : Nat → V) (i j : Nat), i < n.toNat → j < T.k →
    store slots obj (enqueueWords T size mask head n) (slotWord T mask head i j) = obj (i * T.k + j)
  kept : ∀ (slots obj : Nat → V) (y : Nat),
    (∀ i j, i < n.toNat → j < T.k → y ≠ slotWord T mask head i j) →
      store slots obj (enqueueWords T size mask head n) y = slots y
  fetched : ∀ slots obj buf : Nat → V,
    fetch (store slots obj (enqueueWords T size mask head n)) buf (dequeueWords T size mask head n) =
      fun y => if y < n.toNat * T.k then obj y else buf y
  storedPlain : ∀ slots obj : Nat → V, store slots obj (enqueueWords T size mask head n) =
    store slots obj (enqueueElementsPlain T size mask head n)
  fetchedPlain : ∀ slots obj : Nat → V, fetch slots obj (dequeueWords T size mask head n) =
    fetch slots obj (dequeueElementsPlain T size mask head n)

/-! ## Words of words -/

theorem ElemType.words_mul_unit (T : ElemType) : T.words * T.unit = T.k := by
  unfold ElemType.words ElemType.unit
  split_ifs <;> omega

theorem ElemType.unit_pos (T : ElemType) : 0 < T.unit := by
  unfold ElemType.unit
  split_ifs <;> omega

/-- Word `r` of the `a`-th of `m` words of width `u`. -/
theorem mod_mul_add {a m u r : Nat} (hr : r < u) : a % m * u + r = (a * u + r) % (m * u) := by
  have hu : 0 < u := Nat.zero_lt_of_lt hr
  have hlow : (a * u + r) % u = r := by
    rw [Nat.mul_comm, Nat.mul_add_mod, Nat.mod_eq_of_lt hr]
  have hhigh : (a * u + r) / u = a := by
    rw [Nat.mul_comm, Nat.mul_add_div hu, Nat.div_eq_of_lt hr, Nat.add_zero]
  rw [Nat.mul_comm m, Nat.mod_mul, hlow, hhigh, Nat.mul_comm u, Nat.add_comm]

theorem split_range (f : Nat → Nat) (m : Nat) {u : Nat} (hu : 0 < u) :
    ((List.range m).map fun i => (⟨f i, i⟩ : Copy)).flatMap (Copy.split u) =
      (List.range (m * u)).map fun i => ⟨f (i / u) * u + i % u, i⟩ := by
  induction m with
  | zero => simp
  | succ m ih =>
    rw [List.range_succ, List.map_append, List.flatMap_append, ih, Nat.succ_mul, List.range_add,
      List.map_append, List.map_map]
    congr 1
    simp only [List.map_cons, List.map_nil, List.flatMap_cons, List.flatMap_nil, List.append_nil,
      Copy.split]
    apply List.map_congr_left
    intro j hj
    rw [List.mem_range] at hj
    simp only [Function.comp_apply, Copy.mk.injEq, and_true]
    rw [Nat.mul_comm m u, Nat.mul_add_div hu, Nat.mul_add_mod, Nat.div_eq_of_lt hj,
      Nat.mod_eq_of_lt hj, Nat.add_zero]

theorem store_range {V : Type} (slots obj : Nat → V) (f : Nat → Nat) (n : Nat) :
    store slots obj ((List.range n).map fun i => ⟨f i, i⟩) = writeWords slots obj f n := by
  rw [store, List.foldl_map, writeWords]

theorem fetch_range {V : Type} (slots obj : Nat → V) (f : Nat → Nat) (n : Nat) :
    fetch slots obj ((List.range n).map fun i => ⟨f i, i⟩) = readWords slots obj f n := by
  rw [fetch, List.foldl_map]
  induction n with
  | zero => rfl
  | succ n ih =>
    rw [List.range_succ, List.foldl_append, ih]
    funext i
    simp only [List.foldl_cons, List.foldl_nil, Function.update_apply, readWords]
    grind

/-! ## The right words -/

section

variable {T : ElemType} {size mask head n : UInt32} {e : Nat}

/-- The copies of `n` elements at position `p`, in 32-bit words. -/
def elementCopies (T : ElemType) (e p n : Nat) : List Copy :=
  (List.range (n * T.k)).map fun i => ⟨(p * T.k + i) % (2 ^ e * T.k), i⟩

/-- **The variants** write these words as long as the plain sum does not wrap, and for 8 and 16
bytes always. -/
theorem enqueueWords_eq (he : e ≤ 31) (hsize : size.toNat = 2 ^ e) (hmask : mask.toNat = 2 ^ e - 1)
    (hn : n.toNat ≤ 2 ^ e) (hsk : 2 ^ e * T.k < 2 ^ 32)
    (hfit : T.k = 2 ∨ T.k = 4 ∨ (head.toNat % 2 ^ e + n.toNat) * T.k < 2 ^ 32) :
    enqueueWords T size mask head n = elementCopies T e head.toNat n.toNat := by
  have hmod := Nat.mod_lt head.toNat (Nat.two_pow_pos e)
  have hword := T.words_mul_unit
  have hupos := T.unit_pos
  have hpow : 2 ^ e ≤ 2 ^ 31 := Nat.pow_le_pow_right (by decide) he
  have hsw : 2 ^ e * T.words < 2 ^ 32 := by
    refine Nat.lt_of_le_of_lt (Nat.mul_le_mul_left _ ?_) hsk
    rw [← hword]
    exact Nat.le_mul_of_pos_right _ hupos
  have hhead : (head.toNat % 2 ^ e + n.toNat) * T.words < 2 ^ 32 := by
    unfold ElemType.words
    split
    · omega
    · next hk =>
      rcases hfit with h | h | h
      · exact absurd (.inl h) hk
      · exact absurd (.inr h) hk
      · exact h
  have hplan := enqueueElements_head T size mask n e head.toNat he hsize hmask hn hsw hhead
  rw [UInt32.ofNat_toNat] at hplan
  rw [enqueueWords, hplan, split_range _ _ hupos, elementCopies, Nat.mul_assoc, hword]
  apply List.map_congr_left
  intro i _
  rw [mod_mul_add (Nat.mod_lt i hupos), Nat.mul_assoc, hword, Nat.add_mul, Nat.mul_assoc, hword,
    Nat.add_assoc, Nat.mul_comm (i / T.unit), Nat.div_add_mod]

/-- **The plain routine** writes the right words if its sum does not wrap. -/
theorem enqueueElementsPlain_eq (he : e ≤ 31) (hsize : size.toNat = 2 ^ e)
    (hmask : mask.toNat = 2 ^ e - 1) (hn : n.toNat ≤ 2 ^ e) (hsk : 2 ^ e * T.k < 2 ^ 32)
    (hfit : (head.toNat % 2 ^ e + n.toNat) * T.k < 2 ^ 32) :
    enqueueElementsPlain T size mask head n = elementCopies T e head.toNat n.toNat := by
  have hplan := copyElems_scaled block32 3 (by decide) he hsize hmask hn T.pos hsk hfit
    fun idx i _ _ => block32_eq idx i
  rw [UInt32.ofNat_toNat] at hplan
  exact hplan

/-- Where the sum wraps the plain routine goes on to the word behind the last slot. -/
theorem enqueueElementsPlain_overflow {V : Type} (he : e ≤ 31) (hsize : size.toNat = 2 ^ e)
    (hmask : mask.toNat = 2 ^ e - 1) (hn : n.toNat ≤ 2 ^ e) (hsk : 2 ^ e * T.k < 2 ^ 32)
    (hover : 2 ^ 32 ≤ (head.toNat % 2 ^ e + n.toNat) * T.k) (slots : Nat → V) (v : V) :
    store slots (fun _ => v) (enqueueElementsPlain T size mask head n) (2 ^ e * T.k) = v := by
  have hmod := Nat.mod_lt head.toNat (Nat.two_pow_pos e)
  have hk32 : T.k < 2 ^ 32 := Nat.lt_of_le_of_lt (Nat.le_mul_of_pos_left _ (Nat.two_pow_pos e)) hsk
  have hnk : n.toNat * T.k ≤ 2 ^ e * T.k := Nat.mul_le_mul_right _ hn
  have hik : head.toNat % 2 ^ e * T.k ≤ 2 ^ e * T.k := Nat.mul_le_mul_right _ (Nat.le_of_lt hmod)
  have hidx := and_mask (show e ≤ 32 by omega) hmask head.toNat
  rw [UInt32.ofNat_toNat] at hidx
  rw [Nat.add_mul] at hover
  have hS : (size * T.scale).toNat = 2 ^ e * T.k := by
    rw [ElemType.scale, mul_ofNat_toNat hk32 (by rw [hsize]; exact hsk), hsize]
  have hI : ((head &&& mask) * T.scale).toNat = head.toNat % 2 ^ e * T.k := by
    rw [ElemType.scale, mul_ofNat_toNat hk32 (by rw [hidx]; omega), hidx]
  have hN : (n * T.scale).toNat = n.toNat * T.k := mul_ofNat_toNat hk32 (by omega)
  have hfast : (head &&& mask) * T.scale + n * T.scale < size * T.scale := by
    rw [UInt32.lt_iff_toNat_lt, UInt32.toNat_add, hI, hN, hS]
    omega
  have hplan : enqueueElementsPlain T size mask head n = _ :=
    copyElems_eq block32 3 (by decide) (size * T.scale) ((head &&& mask) * T.scale) (n * T.scale)
      fun _ j _ => block32_eq _ _
  rw [hplan, store_range, hN]
  have hlast : 2 ^ e * T.k - head.toNat % 2 ^ e * T.k < 2 ^ 32 := Nat.lt_of_le_of_lt (Nat.sub_le _ _) hsk
  refine writeWords_eq _ _ _ _ ⟨2 ^ e * T.k - head.toNat % 2 ^ e * T.k, Nat.zero_le _, by omega, ?_⟩
    fun _ _ _ _ => rfl
  rw [wordIndex, if_pos hfast, UInt32.toNat_add, hI, ofNat_toNat, Nat.mod_eq_of_lt hlast,
    Nat.add_sub_cancel' hik, Nat.mod_eq_of_lt hsk]

/-- Word `j` of the slot of element `i`. -/
theorem slotWord_eq (he : e ≤ 31) (hmask : mask.toNat = 2 ^ e - 1) {i j : Nat} (hj : j < T.k) :
    slotWord T mask head i j = (head.toNat * T.k + (i * T.k + j)) % (2 ^ e * T.k) := by
  have hidx := and_mask (show e ≤ 32 by omega) hmask (head.toNat + i)
  rw [UInt32.ofNat_add, UInt32.ofNat_toNat] at hidx
  rw [slotWord, hidx, mod_mul_add hj, Nat.add_mul, Nat.add_assoc]

/-! ## Agreement -/

/-- Two words of at most `size` elements have two slot words. -/
theorem copies_inj {p i i' : Nat} (hi : i < 2 ^ e * T.k) (hi' : i' < 2 ^ e * T.k)
    (h : (p * T.k + i) % (2 ^ e * T.k) = (p * T.k + i') % (2 ^ e * T.k)) : i = i' := by
  have heq := mod_inj_window (Nat.le_add_right (p * T.k) i) (by omega) (Nat.le_add_right _ i')
    (by omega) h
  omega

theorem agree_of_fits (V : Type) (he : e ≤ 31) (hsize : size.toNat = 2 ^ e)
    (hmask : mask.toNat = 2 ^ e - 1) (hn : n.toNat ≤ 2 ^ e) (hsk : 2 ^ e * T.k < 2 ^ 32)
    (hfit : (head.toNat % 2 ^ e + n.toNat) * T.k < 2 ^ 32) : Agree V T size mask head n := by
  have hwords := enqueueWords_eq he hsize hmask hn hsk (.inr (.inr hfit))
  have hplain := enqueueElementsPlain_eq he hsize hmask hn hsk hfit
  have hnk : n.toNat * T.k ≤ 2 ^ e * T.k := Nat.mul_le_mul_right _ hn
  have hstore : ∀ (slots obj : Nat → V) (i : Nat), i < n.toNat * T.k →
      store slots obj (elementCopies T e head.toNat n.toNat) ((head.toNat * T.k + i) % (2 ^ e * T.k)) =
        obj i := by
    intro slots obj i hi
    rw [elementCopies, store_range]
    refine writeWords_eq _ _ _ _ ⟨i, Nat.zero_le i, hi, rfl⟩ fun i' _ hi' heq => ?_
    rw [copies_inj (by omega) (by omega) heq]
  have hdequeue : dequeueWords T size mask head n = elementCopies T e head.toNat n.toNat := hwords
  have hdequeuePlain : dequeueElementsPlain T size mask head n = elementCopies T e head.toNat n.toNat :=
    hplain
  constructor
  case stored =>
    intro slots obj i j hi hj
    have hij := Nat.mul_le_mul_right T.k (show i + 1 ≤ n.toNat by omega)
    rw [Nat.add_mul] at hij
    rw [hwords, slotWord_eq he hmask hj, hstore slots obj _ (by omega)]
  case kept =>
    intro slots obj y hy
    rw [hwords, elementCopies, store_range]
    apply writeWords_of_ne
    intro i hi heq
    have hk := T.pos
    have hdiv : i / T.k < n.toNat := Nat.div_lt_of_lt_mul (by rwa [Nat.mul_comm])
    refine hy (i / T.k) (i % T.k) hdiv (Nat.mod_lt i hk) ?_
    rw [slotWord_eq he hmask (Nat.mod_lt i hk), Nat.mul_comm (i / T.k), Nat.div_add_mod, heq]
  case fetched =>
    intro slots obj buf
    rw [hwords, hdequeue]
    funext y
    rw [elementCopies, fetch_range, readWords]
    split
    next hy => exact hstore slots obj y hy
    · rfl
  case storedPlain =>
    intro slots obj
    rw [hwords, hplain]
  case fetchedPlain =>
    intro slots obj
    rw [hdequeue, hdequeuePlain]

theorem not_agree_of_overflow (V : Type) [Nontrivial V] (he : e ≤ 31) (hsize : size.toNat = 2 ^ e)
    (hmask : mask.toNat = 2 ^ e - 1) (hn : n.toNat ≤ 2 ^ e) (hsk : 2 ^ e * T.k < 2 ^ 32)
    (hover : 2 ^ 32 ≤ (head.toNat % 2 ^ e + n.toNat) * T.k) : ¬ Agree V T size mask head n := by
  intro h
  obtain ⟨v0, v1, hne⟩ := exists_pair_ne V
  have hwritten := enqueueElementsPlain_overflow he hsize hmask hn hsk hover (fun _ => v0) v1
  rw [← h.storedPlain, h.kept] at hwritten
  · exact hne hwritten
  · intro i j _ hj heq
    rw [slotWord_eq he hmask hj] at heq
    have hlt := Nat.mod_lt (head.toNat * T.k + (i * T.k + j))
      (Nat.mul_pos (Nat.two_pow_pos e) T.pos)
    omega

/-- **The variants agree with the plain routine** and write the right slots exactly if the sum
that the plain routine compares does not wrap. -/
theorem agree_iff (V : Type) [Nontrivial V] (T : ElemType) {size : UInt32} (head n : UInt32)
    (hsize : ∃ e, size.toNat = 2 ^ e) (hsk : size.toNat * T.k < 2 ^ 32) (hn : n ≤ size) :
    Agree V T size (size - 1) head n ↔
      ((head &&& (size - 1)).toNat + n.toNat) * T.k < 2 ^ 32 := by
  obtain ⟨e, hsize⟩ := hsize
  have he : e ≤ 31 := by
    have hlt := size.toNat_lt
    rw [hsize, Nat.pow_lt_pow_iff_right (by decide)] at hlt
    omega
  have hmask : (size - 1).toNat = 2 ^ e - 1 := by
    rw [toNat_sub_one (by rw [hsize]; exact Nat.two_pow_pos e), hsize]
  have hidx := and_mask (show e ≤ 32 by omega) hmask head.toNat
  rw [UInt32.ofNat_toNat] at hidx
  rw [hsize] at hsk
  have hn' : n.toNat ≤ 2 ^ e := hsize ▸ UInt32.le_iff_toNat_le.mp hn
  rw [hidx]
  constructor
  · intro h
    by_contra hover
    exact not_agree_of_overflow V he hsize hmask hn' hsk (by omega) h
  · exact agree_of_fits V he hsize hmask hn' hsk

end

/-- Three `int`s across the end of a ring of four. -/
theorem agree_iff_wraps : Agree Bool ⟨1, by decide⟩ 4 3 4294967294 3 ↔
    (((4294967294 : UInt32) &&& 3).toNat + (3 : UInt32).toNat) * 1 < 2 ^ 32 :=
  agree_iff Bool ⟨1, by decide⟩ 4294967294 3 ⟨2, rfl⟩ (by decide) (by decide)

/-- 28-byte elements in a ring of `2 ^ 29`, filled from the last slot on: `nr_idx + nr_num` wraps
to below `nr_size`. -/
theorem not_agree_wrapped : ¬ Agree Bool ⟨7, by decide⟩ 536870912 536870911 536870911 536870912 := by
  apply not_agree_of_overflow Bool (show 29 ≤ 31 by decide) rfl rfl
  · decide
  · decide
  · decide

end Sqkio.Common
