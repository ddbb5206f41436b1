import Sqkio.Lib.Counter
import Mathlib.Tactic.Common

/-!
# The slot copies of `enqueue_elements` and `dequeue_elements`

Elements are moved word by word between the caller's object and the slot area
behind the ring header, by a routine chosen by `sizeof(T)`: 64-bit words for 8
bytes, 128-bit words for 16, 32-bit words otherwise.  Only the indices depend on
the ring, so a routine is the list of its word copies in program order; an
enqueue stores `ring[c.ring] = obj[c.obj]`, a dequeue `obj[c.obj] = ring[c.ring]`.

    enqueueElements T size mask head n = (range nrNum).map fun i => ⟨wordIndex …, i⟩   (enqueueElements_eq)
    head at position p, n ≤ size, no 32-bit overflow → word i goes to (p * w + i) % (size * w)   (enqueueElements_at)
-/

namespace Sqkio.Common

open Sqkio.Lib

/-- One word copy: word `ring` of the slot area, word `obj` of the caller's object. -/
structure Copy where
  ring : Nat
  obj : Nat
  deriving DecidableEq, Repr

/-- A trivially copyable `T` with `sizeof(T) = 4 * k`. -/
structure ElemType where
  k : Nat
  pos : 0 < k
  deriving DecidableEq, Repr

/-! ## The copy loops -/

/-- `trips` copies `ring[idx++] = obj[i++]`: the fall-through of `switch (n & …)` and
the bodies of the two loops of the wrap branch. -/
def copyRun : Nat → UInt32 → UInt32 → List Copy
  | 0, _, _ => []
  | trips + 1, idx, i => ⟨idx.toNat, i.toNat⟩ :: copyRun trips (idx + 1) (i + 1)

/-- `for (i = 0; i < m; i += b, idx += b)` around an unrolled block of `b` copies,
`m = b * trips`. -/
def unrolledLoop (block : UInt32 → UInt32 → List Copy) (b : Nat) : Nat → UInt32 → UInt32 → List Copy
  | 0, _, _ => []
  | trips + 1, idx, i =>
    block idx i ++ unrolledLoop block b trips (idx + UInt32.ofNat b) (i + UInt32.ofNat b)

/-- The shape the six routines share: the unrolled branch when the words end before
`size`, else up to `size` and on from word 0.  `b` is 8, 4 or 2. -/
def copyElems (block : UInt32 → UInt32 → List Copy) (b : Nat) (size idx n : UInt32) : List Copy :=
  if idx + n < size then
    let m := n &&& ~~~(UInt32.ofNat b - 1)
    unrolledLoop block b (m.toNat / b) idx 0 ++
      copyRun (n &&& (UInt32.ofNat b - 1)).toNat (idx + m) m
  else
    -- the first loop runs to `size` whatever `n` is
    let i := size.toNat - idx.toNat
    copyRun i idx 0 ++ copyRun (n.toNat - i) 0 (UInt32.ofNat i)

/-- `ring[idx] = obj[i]; … ring[idx + 7] = obj[i + 7];` -/
def block32 (idx i : UInt32) : List Copy :=
  [⟨idx.toNat, i.toNat⟩, ⟨(idx + 1).toNat, (i + 1).toNat⟩, ⟨(idx + 2).toNat, (i + 2).toNat⟩,
    ⟨(idx + 3).toNat, (i + 3).toNat⟩, ⟨(idx + 4).toNat, (i + 4).toNat⟩,
    ⟨(idx + 5).toNat, (i + 5).toNat⟩, ⟨(idx + 6).toNat, (i + 6).toNat⟩,
    ⟨(idx + 7).toNat, (i + 7).toNat⟩]

/-- `ring[idx] = obj[i]; … ring[idx + 3] = obj[i + 3];` -/
def block64 (idx i : UInt32) : List Copy :=
  [⟨idx.toNat, i.toNat⟩, ⟨(idx + 1).toNat, (i + 1).toNat⟩, ⟨(idx + 2).toNat, (i + 2).toNat⟩,
    ⟨(idx + 3).toNat, (i + 3).toNat⟩]

/-- `memcpy(ring + idx, obj + i, 32)`: two 128-bit words; the second one is addressed
from the pointer, not through a 32-bit index. -/
def block128 (idx i : UInt32) : List Copy :=
  [⟨idx.toNat, i.toNat⟩, ⟨idx.toNat + 1, i.toNat + 1⟩]

def enqueueElems32 (size idx n : UInt32) : List Copy := copyElems block32 8 size idx n

def enqueueElems64 (size mask prodHead n : UInt32) : List Copy :=
  copyElems block64 4 size (prodHead &&& mask) n

def enqueueElems128 (size mask prodHead n : UInt32) : List Copy :=
  copyElems block128 2 size (prodHead &&& mask) n

def dequeueElems32 (size idx n : UInt32) : List Copy := copyElems block32 8 size idx n

def dequeueElems64 (size mask prodHead n : UInt32) : List Copy :=
  copyElems block64 4 size (prodHead &&& mask) n

def dequeueElems128 (size mask prodHead n : UInt32) : List Copy :=
  copyElems block128 2 size (prodHead &&& mask) n

/-- `sizeof(T) / sizeof(uint32_t)`, kept in a `uint32_t`. -/
def ElemType.scale (T : ElemType) : UInt32 := UInt32.ofNat T.k

def enqueueElements (T : ElemType) (size mask prodHead n : UInt32) : List Copy :=
  if T.k = 2 then enqueueElems64 size mask prodHead n
  else if T.k = 4 then enqueueElems128 size mask prodHead n
  else
    let nrNum := n * T.scale
    let idx := prodHead &&& mask
    let nrIdx := idx * T.scale
    let nrSize := size * T.scale
    enqueueElems32 nrSize nrIdx nrNum

def dequeueElements (T : ElemType) (size mask consHead num : UInt32) : List Copy :=
  if T.k = 2 then dequeueElems64 size mask consHead num
  else if T.k = 4 then dequeueElems128 size mask consHead num
  else
    let nrNum := num * T.scale
    let idx := consHead &&& mask
    let nrIdx := idx * T.scale
    let nrSize := size * T.scale
    dequeueElems32 nrSize nrIdx nrNum

/-- Both directions visit the same words in the same order. -/
theorem dequeueElements_eq_enqueueElements (T : ElemType) (size mask head n : UInt32) :
    dequeueElements T size mask head n = enqueueElements T size mask head n := rfl

/-! ## The loops, flattened -/

theorem toNat_and_low (n : UInt32) (e : Nat) (he : e < 32) :
    (n &&& (UInt32.ofNat (2 ^ e) - 1)).toNat = n.toNat % 2 ^ e := by
  have h1 := Nat.one_le_two_pow (n := e)
  have hlt : 2 ^ e < 2 ^ 32 := Nat.pow_lt_pow_right (by decide) he
  have hm : (UInt32.ofNat (2 ^ e) - 1).toNat = 2 ^ e - 1 := by
    have := ofNat_sub_toNat (a := 2 ^ e) (b := 1) h1 (by omega)
    simpa using this
  rw [UInt32.toNat_and, hm, Nat.and_two_pow_sub_one_eq_mod]

theorem toNat_and_high (n : UInt32) (e : Nat) (he : e < 32) :
    (n &&& ~~~(UInt32.ofNat (2 ^ e) - 1)).toNat = n.toNat / 2 ^ e * 2 ^ e := by
  have h1 := Nat.one_le_two_pow (n := e)
  have hlt : 2 ^ e < 2 ^ 32 := Nat.pow_lt_pow_right (by decide) he
  have hm : (UInt32.ofNat (2 ^ e) - 1).toNat = 2 ^ e - 1 := by
    have := ofNat_sub_toNat (a := 2 ^ e) (b := 1) h1 (by omega)
    simpa using this
  rw [UInt32.toNat_and, UInt32.toNat_not, hm, ← Nat.shiftRight_eq_div_pow, ← Nat.shiftLeft_eq]
  apply Nat.eq_of_testBit_eq
  intro i
  have hs : UInt32.size - 1 - (2 ^ e - 1) = 2 ^ 32 - ((2 ^ e - 1) + 1) := by
    simp only [UInt32.size]; omega
  rw [hs, Nat.testBit_and, Nat.testBit_two_pow_sub_succ (by omega), Nat.testBit_shiftLeft,
    Nat.testBit_shiftRight, Nat.testBit_two_pow_sub_one]
  by_cases hi : e ≤ i
  · have hie : e + (i - e) = i := by omega
    by_cases h32 : i < 32
    · simp [hi, h32, hie]
    · have hz : n.toNat.testBit i = false :=
        Nat.testBit_lt_two_pow (Nat.lt_of_lt_of_le n.toNat_lt (Nat.pow_le_pow_right (by decide) (by omega)))
      simp [hie, hz]
  · have : i < e := by omega
    simp [hi, this]

theorem copyRun_add (a b : Nat) (idx i : UInt32) :
    copyRun (a + b) idx i = copyRun a idx i ++ copyRun b (idx + UInt32.ofNat a) (i + UInt32.ofNat a) := by
  induction a generalizing idx i with
  | zero => simp [copyRun]
  | succ a ih =>
    rw [Nat.succ_add, copyRun, copyRun, ih, List.cons_append]
    simp only [UInt32.ofNat_add, UInt32.add_assoc, UInt32.add_comm (UInt32.ofNat a)]
    rfl

theorem copyRun_eq (m : Nat) (idx i : UInt32) :
    copyRun m idx i = (List.range m).map fun j =>
      ⟨(idx + UInt32.ofNat j).toNat, (i + UInt32.ofNat j).toNat⟩ := by
  induction m with
  | zero => rfl
  | succ m ih => rw [copyRun_add, ih, List.range_succ, List.map_append]; rfl

theorem unrolledLoop_eq (block : UInt32 → UInt32 → List Copy) (b trips : Nat) (idx i : UInt32)
    (h : ∀ j, j < trips → block (idx + UInt32.ofNat (b * j)) (i + UInt32.ofNat (b * j)) =
      copyRun b (idx + UInt32.ofNat (b * j)) (i + UInt32.ofNat (b * j))) :
    unrolledLoop block b trips idx i = copyRun (b * trips) idx i := by
  induction trips generalizing idx i with
  | zero => rfl
  | succ trips ih =>
    have h0 := h 0 (by omega)
    simp only [Nat.mul_zero, UInt32.reduceOfNat, UInt32.add_zero] at h0
    rw [unrolledLoop, h0, ih]
    · rw [Nat.mul_succ, Nat.add_comm, copyRun_add]
    · intro j hj
      have hj' := h (j + 1) (by omega)
      rw [Nat.mul_succ, Nat.add_comm (b * j)] at hj'
      simpa only [UInt32.ofNat_add, UInt32.add_assoc] using hj'

theorem block32_eq (idx i : UInt32) : block32 idx i = copyRun 8 idx i := by
  simp [block32, copyRun, UInt32.add_assoc]

theorem block64_eq (idx i : UInt32) : block64 idx i = copyRun 4 idx i := by
  simp [block64, copyRun, UInt32.add_assoc]

theorem block128_eq (idx i : UInt32) (h1 : idx.toNat + 1 < 2 ^ 32) (h2 : i.toNat + 1 < 2 ^ 32) :
    block128 idx i = copyRun 2 idx i := by
  simp only [block128, copyRun, UInt32.toNat_add, UInt32.toNat_one]
  rw [Nat.mod_eq_of_lt h1, Nat.mod_eq_of_lt h2]

/-! ## The word touched at step `i` -/

/-- Slot word of the `i`-th copy, wrapped index arithmetic included. -/
def wordIndex (size idx n : UInt32) (i : Nat) : Nat :=
  if idx + n < size then (idx + UInt32.ofNat i).toNat
  else if i < size.toNat - idx.toNat then idx.toNat + i
  else i - (size.toNat - idx.toNat)

/-- The wrap branch is taken only if the words reach `size`. -/
theorem sub_le_of_not_lt {size idx n : UInt32} (h : ¬ idx + n < size) :
    size.toNat - idx.toNat ≤ n.toNat := by
  rw [UInt32.lt_iff_toNat_lt, UInt32.toNat_add] at h
  have := idx.toNat_lt
  have := n.toNat_lt
  have := size.toNat_lt
  omega

/-- **Copy routine.**  Each routine copies the words `0, …, n - 1` of the object in
order, for every `size`, `idx` and `n`, provided its unrolled block does `2 ^ e`
consecutive copies. -/
theorem copyElems_eq (block : UInt32 → UInt32 → List Copy) (e : Nat) (he : e < 32)
    (size idx n : UInt32)
    (hblock : idx + n < size → ∀ j, 2 ^ e * j + 2 ^ e ≤ n.toNat →
      block (idx + UInt32.ofNat (2 ^ e * j)) (UInt32.ofNat (2 ^ e * j)) =
        copyRun (2 ^ e) (idx + UInt32.ofNat (2 ^ e * j)) (UInt32.ofNat (2 ^ e * j))) :
    copyElems block (2 ^ e) size idx n =
      (List.range n.toNat).map fun i => ⟨wordIndex size idx n i, i⟩ := by
  have hn := n.toNat_lt
  unfold copyElems
  by_cases hfast : idx + n < size
  · have hdm := Nat.div_add_mod n.toNat (2 ^ e)
    rw [Nat.mul_comm] at hdm
    have hhigh := toNat_and_high n e he
    have hm : n &&& ~~~(UInt32.ofNat (2 ^ e) - 1) = UInt32.ofNat (n.toNat / 2 ^ e * 2 ^ e) := by
      rw [← hhigh, UInt32.ofNat_toNat]
    rw [if_pos hfast]
    simp only
    rw [hhigh, toNat_and_low n e he, hm, Nat.mul_div_cancel _ (Nat.two_pow_pos e)]
    rw [unrolledLoop_eq]
    · have happ := copyRun_add (2 ^ e * (n.toNat / 2 ^ e)) (n.toNat % 2 ^ e) idx 0
      rw [Nat.mul_comm (2 ^ e), hdm, UInt32.zero_add] at happ
      rw [Nat.mul_comm (2 ^ e), ← happ, copyRun_eq]
      apply List.map_congr_left
      intro i hi
      rw [List.mem_range] at hi
      rw [wordIndex, if_pos hfast, UInt32.zero_add, ofNat_toNat, Nat.mod_eq_of_lt (by omega)]
    · intro j hj
      rw [UInt32.zero_add]
      apply hblock hfast
      have := Nat.mul_le_mul_right (2 ^ e) (show j + 1 ≤ n.toNat / 2 ^ e by omega)
      rw [Nat.add_mul, Nat.mul_comm j] at this
      omega
  · have hle := sub_le_of_not_lt hfast
    have hsize := size.toNat_lt
    rw [if_neg hfast]
    simp only
    generalize hi0 : size.toNat - idx.toNat = i0 at hle
    have hsplit : n.toNat = i0 + (n.toNat - i0) := by omega
    rw [hsplit, List.range_add, List.map_append, List.map_map, Nat.add_sub_cancel_left,
      copyRun_eq, copyRun_eq]
    congr 1
    · apply List.map_congr_left
      intro i hi
      rw [List.mem_range] at hi
      rw [wordIndex, if_neg hfast, hi0, if_pos hi, UInt32.zero_add, UInt32.toNat_add, ofNat_toNat,
        Nat.mod_eq_of_lt (show i < 2 ^ 32 by omega), Nat.mod_eq_of_lt (by omega)]
    · apply List.map_congr_left
      intro i hi
      rw [List.mem_range] at hi
      rw [Function.comp_apply, wordIndex, if_neg hfast, hi0, if_neg (by omega),
        Nat.add_sub_cancel_left, UInt32.zero_add, ← UInt32.ofNat_add, ofNat_toNat, ofNat_toNat,
        Nat.mod_eq_of_lt (show i < 2 ^ 32 by omega), Nat.mod_eq_of_lt (by omega)]

/-- Without overflow the `i`-th word is `(idx + i) mod size`. -/
theorem wordIndex_eq_mod {size idx n : UInt32} {i : Nat} (hidx : idx.toNat < size.toNat)
    (hn : n.toNat ≤ size.toNat) (hlt : idx.toNat + n.toNat < 2 ^ 32) (hi : i < n.toNat) :
    wordIndex size idx n i = (idx.toNat + i) % size.toNat := by
  have hi32 : i < 2 ^ 32 := by omega
  unfold wordIndex
  split
  · next h =>
    rw [UInt32.lt_iff_toNat_lt, UInt32.toNat_add, Nat.mod_eq_of_lt hlt] at h
    rw [UInt32.toNat_add, ofNat_toNat, Nat.mod_eq_of_lt hi32, Nat.mod_eq_of_lt (by omega),
      Nat.mod_eq_of_lt (by omega)]
  · split
    · rw [Nat.mod_eq_of_lt (by omega)]
    · rw [Nat.mod_eq_sub_mod (by omega), Nat.mod_eq_of_lt (by omega)]
      omega

theorem mul_ofNat_toNat {x : UInt32} {w : Nat} (hw : w < 2 ^ 32) (h : x.toNat * w < 2 ^ 32) :
    (x * UInt32.ofNat w).toNat = x.toNat * w := by
  rw [UInt32.toNat_mul, ofNat_toNat, Nat.mod_eq_of_lt hw, Nat.mod_eq_of_lt h]

/-- **Scaled copy.**  For a power-of-two size, a head at position `p` and `n ≤ size` elements
of `w` words each, a routine whose index sums do not wrap puts word `i` at
`(p * w + i) % (size * w)`. -/
theorem copyElems_scaled (block : UInt32 → UInt32 → List Copy) (b : Nat) (hb : b < 32)
    {size mask n : UInt32} {e p w : Nat} (he : e ≤ 31) (hsize : size.toNat = 2 ^ e)
    (hmask : mask.toNat = 2 ^ e - 1) (hn : n.toNat ≤ 2 ^ e) (hw : 0 < w) (hsw : 2 ^ e * w < 2 ^ 32)
    (hfit : (p % 2 ^ e + n.toNat) * w < 2 ^ 32)
    (hblock : ∀ idx i : UInt32, idx.toNat + 2 ^ b ≤ (p % 2 ^ e + n.toNat) * w →
      i.toNat + 2 ^ b ≤ n.toNat * w → block idx i = copyRun (2 ^ b) idx i) :
    copyElems block (2 ^ b) (size * UInt32.ofNat w) ((UInt32.ofNat p &&& mask) * UInt32.ofNat w)
        (n * UInt32.ofNat w) =
      (List.range (n.toNat * w)).map fun i => ⟨(p * w + i) % (2 ^ e * w), i⟩ := by
  have hspos := Nat.two_pow_pos e
  have hidx := and_mask (by omega) hmask p
  have hmod := Nat.mod_lt p hspos
  have hw32 : w < 2 ^ 32 := Nat.lt_of_le_of_lt (Nat.le_mul_of_pos_left w hspos) hsw
  have hle : p % 2 ^ e * w + w ≤ 2 ^ e * w := by
    have := Nat.mul_le_mul_right w (show p % 2 ^ e + 1 ≤ 2 ^ e by omega)
    rwa [Nat.add_mul, Nat.one_mul] at this
  have hnw : n.toNat * w ≤ 2 ^ e * w := Nat.mul_le_mul_right w hn
  rw [Nat.add_mul] at hfit hblock
  have hS : (size * UInt32.ofNat w).toNat = 2 ^ e * w := by
    rw [mul_ofNat_toNat hw32 (by rw [hsize]; exact hsw), hsize]
  have hI : ((UInt32.ofNat p &&& mask) * UInt32.ofNat w).toNat = p % 2 ^ e * w := by
    rw [mul_ofNat_toNat hw32 (by rw [hidx]; omega), hidx]
  have hN : (n * UInt32.ofNat w).toNat = n.toNat * w := mul_ofNat_toNat hw32 (by omega)
  rw [copyElems_eq block b hb]
  · rw [hN]
    apply List.map_congr_left
    intro i hi
    rw [List.mem_range] at hi
    simp only [Copy.mk.injEq, and_true]
    rw [wordIndex_eq_mod (by omega) (by omega) (by omega) (by omega), hI, hS, Nat.add_mod (p * w),
      Nat.mul_mod_mul_right, Nat.add_mod_mod]
  · intro _ j hj
    rw [hN] at hj
    have hjn : 2 ^ b * j ≤ n.toNat * w := Nat.le_of_add_right_le hj
    have hj32 : (UInt32.ofNat (2 ^ b * j)).toNat = 2 ^ b * j := by
      rw [ofNat_toNat, Nat.mod_eq_of_lt (by omega)]
    apply hblock
    · rw [UInt32.toNat_add, hI, hj32, Nat.mod_eq_of_lt (by omega)]
      omega
    · rw [hj32]
      exact hj

/-! ## `enqueue_elements` -/

/-- The routines for 8 and 16 bytes count in whole elements, the other one in 32-bit
words; so many words make one element. -/
def ElemType.words (T : ElemType) : Nat := if T.k = 2 ∨ T.k = 4 then 1 else T.k

theorem ElemType.words_pos (T : ElemType) : 0 < T.words := by
  unfold ElemType.words
  split
  · exact Nat.one_pos
  · exact T.pos

/-- The factor applied to `size`, `idx` and `n` before the copy routine sees them. -/
def ElemType.factor (T : ElemType) : UInt32 := if T.k = 2 ∨ T.k = 4 then 1 else T.scale

def nrSize (T : ElemType) (size : UInt32) : UInt32 := size * T.factor

def nrIdx (T : ElemType) (mask head : UInt32) : UInt32 := (head &&& mask) * T.factor

def nrNum (T : ElemType) (n : UInt32) : UInt32 := n * T.factor

/-- The word copies of `enqueue_elements`, for all arguments.  (Two-word `memcpy`s of the
16-byte routine are used only for `n > 1`, within 32-bit indices.) -/
theorem enqueueElements_eq (T : ElemType) (size mask head n : UInt32)
    (h128 : T.k = 4 → 1 < n.toNat → (head &&& mask).toNat + n.toNat < 2 ^ 32) :
    enqueueElements T size mask head n = (List.range (nrNum T n).toNat).map fun i =>
      ⟨wordIndex (nrSize T size) (nrIdx T mask head) (nrNum T n) i, i⟩ := by
  unfold enqueueElements nrSize nrIdx nrNum ElemType.factor
  by_cases h2 : T.k = 2
  · simp only [h2, if_true, true_or, UInt32.mul_one]
    exact copyElems_eq block64 2 (by decide) _ _ _ fun _ j _ => block64_eq _ _
  · by_cases h4 : T.k = 4
    · simp only [h4, if_true, or_true, UInt32.mul_one, Nat.reduceEqDiff, if_false]
      refine copyElems_eq block128 1 (by decide) _ _ _ fun _ j hj => ?_
      have hn := n.toNat_lt
      have hlt := h128 h4 (by omega)
      apply block128_eq
      · rw [UInt32.toNat_add, ofNat_toNat, Nat.mod_eq_of_lt (show 2 ^ 1 * j < 2 ^ 32 by omega)]
        omega
      · rw [ofNat_toNat]
        omega
    · simp only [h2, h4, if_false, or_self]
      exact copyElems_eq block32 3 (by decide) _ _ _ fun _ j _ => block32_eq _ _

/-- The index sums of a burst of `n` elements stay below `2 ^ 32`. -/
def Fits (T : ElemType) (size n : Nat) : Prop := T.k = 2 ∨ T.k = 4 ∨ (size + n - 1) * T.k < 2 ^ 32

instance (T : ElemType) (size n : Nat) : Decidable (Fits T size n) :=
  inferInstanceAs (Decidable (_ ∨ _ ∨ _))

theorem Fits.mono {T : ElemType} {size n m : Nat} (h : Fits T size n) (hm : m ≤ n) :
    Fits T size m := by
  rcases h with h | h | h
  · exact Or.inl h
  · exact Or.inr (Or.inl h)
  · exact Or.inr (Or.inr (Nat.lt_of_le_of_lt (Nat.mul_le_mul_right _ (by omega)) h))

theorem factor_words (T : ElemType) : T.factor = UInt32.ofNat T.words := by
  unfold ElemType.factor ElemType.words ElemType.scale
  split <;> rfl

/-- With room for the index sums no factor wraps. -/
theorem Fits.words_lt {T : ElemType} {size n : Nat} (h : Fits T size n) (hs : size ≤ 2 ^ 31)
    (hn : n ≤ size) : (size + n - 1) * T.words < 2 ^ 32 := by
  unfold ElemType.words
  split
  · omega
  · next hk =>
    rcases h with h | h | h
    · exact absurd (Or.inl h) hk
    · exact absurd (Or.inr h) hk
    · exact h

/-- The slot words of a reservation at position `p`, if the index sums of its words do not
wrap. -/
theorem enqueueElements_head (T : ElemType) (size mask n : UInt32) (e p : Nat) (he : e ≤ 31)
    (hsize : size.toNat = 2 ^ e) (hmask : mask.toNat = 2 ^ e - 1) (hn : n.toNat ≤ 2 ^ e)
    (hsw : 2 ^ e * T.words < 2 ^ 32) (hfit : (p % 2 ^ e + n.toNat) * T.words < 2 ^ 32) :
    enqueueElements T size mask (UInt32.ofNat p) n = (List.range (n.toNat * T.words)).map fun i =>
      ⟨(p * T.words + i) % (2 ^ e * T.words), i⟩ := by
  have hwpos := T.words_pos
  unfold enqueueElements
  by_cases h2 : T.k = 2
  · have hw : T.words = 1 := if_pos (.inl h2)
    rw [hw] at hsw hfit ⊢
    rw [if_pos h2, ← copyElems_scaled block64 2 (by decide) he hsize hmask hn Nat.one_pos hsw hfit
      fun idx i _ _ => block64_eq idx i]
    simp only [UInt32.reduceOfNat, UInt32.mul_one]
    rfl
  · by_cases h4 : T.k = 4
    · have hw : T.words = 1 := if_pos (.inr h4)
      rw [hw] at hsw hfit ⊢
      rw [if_neg h2, if_pos h4, ← copyElems_scaled block128 1 (by decide) he hsize hmask hn
        Nat.one_pos hsw hfit fun idx i h1 h2 => block128_eq idx i (by omega) (by omega)]
      simp only [UInt32.reduceOfNat, UInt32.mul_one]
      rfl
    · have hw : T.words = T.k := if_neg (by omega)
      rw [hw] at hwpos hsw hfit ⊢
      rw [if_neg h2, if_neg h4, ← copyElems_scaled block32 3 (by decide) he hsize hmask hn hwpos hsw
        hfit fun idx i _ _ => block32_eq idx i]
      rfl

/-- **Slot words of a reservation.**  For a power-of-two size, a head at position `p` and
`n ≤ size` elements whose index sums fit, word `i` of the object goes to slot word
`(p * words + i) % (size * words)`. -/
theorem enqueueElements_at (T : ElemType) (size mask n : UInt32) (e p : Nat) (he : e ≤ 31)
    (hsize : size.toNat = 2 ^ e) (hmask : mask.toNat = 2 ^ e - 1) (hn : n.toNat ≤ 2 ^ e)
    (hfit : Fits T (2 ^ e) n.toNat) :
    enqueueElements T size mask (UInt32.ofNat p) n = (List.range (n.toNat * T.words)).map fun i =>
      ⟨(p * T.words + i) % (2 ^ e * T.words), i⟩ := by
  have hs31 : 2 ^ e ≤ 2 ^ 31 := Nat.pow_le_pow_right (by decide) he
  have hmod := Nat.mod_lt p (Nat.two_pow_pos e)
  have hw := hfit.words_lt hs31 hn
  by_cases hn0 : n.toNat = 0
  · have hz : n = 0 := UInt32.toNat_inj.mp hn0
    rw [enqueueElements_eq _ _ _ _ _ (by omega)]
    simp [nrNum, hz]
  · apply enqueueElements_head T size mask n e p he hsize hmask hn
    · exact Nat.lt_of_le_of_lt (Nat.mul_le_mul_right _ (by omega)) hw
    · exact Nat.lt_of_le_of_lt (Nat.mul_le_mul_right _ (by omega)) hw

end Sqkio.Common
