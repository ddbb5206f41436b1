import Mathlib.Data.List.Chain
import Sqkio.Tlsf.Model

/-!
# The blocks of an area

The blocks of an area lie one behind the other, up to a sentinel of size 0.  A list of chunks says what they are;
the headers in memory say the same:

    Seg h.mem p b cs      the headers of `cs` are at `b`, and `p` is the block before `b` if that is free
    Tail h.mem p b cs     ... and the sentinel is behind them

Only the words of the headers matter (`Tail.congr`), and they are in no block (`starts_apart`).
-/

namespace Sqkio.Common.TlsfT

open Sqkio.Lib

/-! ## The word `size` -/

/-- The size of a block and its two flags, in one word. -/
def hdr (size : Nat) (free prevFree : Bool) : Nat := size + free.toNat + 2 * prevFree.toNat

section

variable {s t : Nat} (f p : Bool)

theorem hdr_parts (k : Nat) : hdr (16 * k) f p = 2 ^ 4 * k + hdr 0 f p := by
  unfold hdr
  omega

theorem hdr_low : hdr 0 f p < 2 ^ 4 := by cases f <;> cases p <;> decide

/-- A size is read with 32 bits. -/
theorem hdr_and_blockSize_mod (h16 : s % 16 = 0) : hdr s f p &&& BLOCK_SIZE = s % 2 ^ 32 := by
  obtain ⟨k, rfl⟩ : ∃ k, s = 16 * k := ⟨s / 16, by omega⟩
  have hmask : BLOCK_SIZE = 2 ^ 4 * (2 ^ 28 - 1) + 8 := rfl
  have hlow : hdr 0 f p &&& 8 = 0 := by cases f <;> cases p <;> rfl
  rw [hdr_parts, hmask, Bits.and_parts _ _ _ (hdr_low f p) (by omega), hlow, Nat.and_two_pow_sub_one_eq_mod]
  omega

theorem hdr_and_blockSize (h16 : s % 16 = 0) (hlt : s < 2 ^ 32) : hdr s f p &&& BLOCK_SIZE = s :=
  (hdr_and_blockSize_mod f p h16).trans (Nat.mod_eq_of_lt hlt)

theorem hdr_and_free (h16 : s % 16 = 0) : hdr s f p &&& FREE_BLOCK = f.toNat := by
  obtain ⟨k, rfl⟩ : ∃ k, s = 16 * k := ⟨s / 16, by omega⟩
  have hmask : FREE_BLOCK = 2 ^ 4 * 0 + 1 := rfl
  have hlow : hdr 0 f p &&& 1 = f.toNat := by cases f <;> cases p <;> rfl
  rw [hdr_parts, hmask, Bits.and_parts _ _ _ (hdr_low f p) (by omega), hlow, Nat.and_zero]
  omega

theorem hdr_and_prev (h16 : s % 16 = 0) : hdr s f p &&& PREV_FREE = 2 * p.toNat := by
  obtain ⟨k, rfl⟩ : ∃ k, s = 16 * k := ⟨s / 16, by omega⟩
  have hmask : PREV_FREE = 2 ^ 4 * 0 + 2 := rfl
  have hlow : hdr 0 f p &&& 2 = 2 * p.toNat := by cases f <;> cases p <;> rfl
  rw [hdr_parts, hmask, Bits.and_parts _ _ _ (hdr_low f p) (by omega), hlow, Nat.and_zero]
  omega

theorem hdr_or_free (h16 : s % 16 = 0) : hdr s f p ||| FREE_BLOCK = hdr s true p := by
  obtain ⟨k, rfl⟩ : ∃ k, s = 16 * k := ⟨s / 16, by omega⟩
  have hmask : FREE_BLOCK = 2 ^ 4 * 0 + 1 := rfl
  have hlow : hdr 0 f p ||| 1 = hdr 0 true p := by cases f <;> cases p <;> rfl
  rw [hdr_parts, hdr_parts, hmask, Bits.or_parts _ _ _ (hdr_low f p) (by omega), hlow, Nat.or_zero]

theorem hdr_or_prev (h16 : s % 16 = 0) : hdr s f p ||| PREV_FREE = hdr s f true := by
  obtain ⟨k, rfl⟩ : ∃ k, s = 16 * k := ⟨s / 16, by omega⟩
  have hmask : PREV_FREE = 2 ^ 4 * 0 + 2 := rfl
  have hlow : hdr 0 f p ||| 2 = hdr 0 f true := by cases f <;> cases p <;> rfl
  rw [hdr_parts, hdr_parts, hmask, Bits.or_parts _ _ _ (hdr_low f p) (by omega), hlow, Nat.or_zero]

theorem hdr_and_inv_free (h16 : s % 16 = 0) (hlt : s < 2 ^ 32) : hdr s f p &&& inv FREE_BLOCK = hdr s false p := by
  obtain ⟨k, rfl⟩ : ∃ k, s = 16 * k := ⟨s / 16, by omega⟩
  have hmask : inv FREE_BLOCK = 2 ^ 4 * (2 ^ 60 - 1) + 14 := rfl
  have hlow : hdr 0 f p &&& 14 = hdr 0 false p := by cases f <;> cases p <;> rfl
  rw [hdr_parts, hdr_parts, hmask, Bits.and_parts _ _ _ (hdr_low f p) (by omega), hlow,
    Nat.and_two_pow_sub_one_eq_mod, Nat.mod_eq_of_lt (by omega)]

theorem hdr_and_inv_prev (h16 : s % 16 = 0) (hlt : s < 2 ^ 32) : hdr s f p &&& inv PREV_FREE = hdr s f false := by
  obtain ⟨k, rfl⟩ : ∃ k, s = 16 * k := ⟨s / 16, by omega⟩
  have hmask : inv PREV_FREE = 2 ^ 4 * (2 ^ 60 - 1) + 13 := rfl
  have hlow : hdr 0 f p &&& 13 = hdr 0 f false := by cases f <;> cases p <;> rfl
  rw [hdr_parts, hdr_parts, hmask, Bits.and_parts _ _ _ (hdr_low f p) (by omega), hlow,
    Nat.and_two_pow_sub_one_eq_mod, Nat.mod_eq_of_lt (by omega)]

/-- A new header for a used block keeps `PREV_STATE`. -/
theorem or_hdr_and_prev (h16 : s % 16 = 0) (ht : t % 16 = 0) :
    s ||| (hdr t f p &&& PREV_STATE) = hdr s false p := by
  obtain ⟨k, rfl⟩ : ∃ k, s = 16 * k := ⟨s / 16, by omega⟩
  have hprev : hdr t f p &&& PREV_STATE = 2 ^ 4 * 0 + 2 * p.toNat := by
    have hand : hdr t f p &&& PREV_STATE = 2 * p.toNat := hdr_and_prev f p ht
    omega
  have hlow : 0 ||| 2 * p.toNat = hdr 0 false p := by cases p <;> rfl
  have hp : 2 * p.toNat < 2 ^ 4 := by cases p <;> decide
  rw [hprev, hdr_parts, show 16 * k = 2 ^ 4 * k + 0 by omega, Bits.or_parts _ _ _ (by omega) hp, hlow, Nat.or_zero]

theorem or_free_or_prevUsed (h16 : s % 16 = 0) : s ||| FREE_BLOCK ||| PREV_USED = hdr s true false := by
  have hs : s = hdr s false false := by
    unfold hdr
    rfl
  show s ||| FREE_BLOCK ||| 0 = _
  rw [Nat.or_zero]
  conv => lhs; rw [hs]
  exact hdr_or_free false false h16

theorem add_hdr (h : s + t + 3 < 2 ^ 64) : add (hdr s f p) t = hdr (s + t) f p := by
  have hf : f.toNat ≤ 1 := by cases f <;> decide
  have hp : p.toNat ≤ 1 := by cases p <;> decide
  unfold add hdr
  omega

end

/-! ## Chunks -/

structure Chunk where
  size : Nat
  free : Bool
  size_mod : size % 16 = 0
  size_ge : 16 ≤ size
  deriving DecidableEq

theorem Chunk.eq_of {c d : Chunk} (hsize : c.size = d.size) (hfree : c.free = d.free) : c = d := by
  obtain ⟨s, f, hs, hs'⟩ := c
  obtain ⟨t, g, ht, ht'⟩ := d
  obtain rfl : s = t := hsize
  obtain rfl : f = g := hfree
  rfl

/-- What the next block knows about a block at `b`. -/
def Chunk.link (c : Chunk) (b : Nat) : Option Nat := if c.free then some b else none

theorem Chunk.link_used {c : Chunk} (hc : c.free = false) (b : Nat) : c.link b = none :=
  if_neg (Bool.not_eq_true _ ▸ hc)

theorem Chunk.link_free {c : Chunk} (hc : c.free = true) (b : Nat) : c.link b = some b := if_pos hc

/-- The header of a block: the size and the flags, and the block before if that is free. -/
def HeadAt (mem : Nat → Nat) (p : Option Nat) (b : Nat) (size : Nat) (free : Bool) : Prop :=
  mem (b + 8) = hdr size free p.isSome ∧ ∀ x ∈ p, mem b = x

def Seg (mem : Nat → Nat) : Option Nat → Nat → List Chunk → Prop
  | _, _, [] => True
  | p, b, c :: cs => HeadAt mem p b c.size c.free ∧ Seg mem (c.link b) (b + 16 + c.size) cs

def Tail (mem : Nat → Nat) : Option Nat → Nat → List Chunk → Prop
  | p, b, [] => HeadAt mem p b 0 false
  | p, b, c :: cs => HeadAt mem p b c.size c.free ∧ Tail mem (c.link b) (b + 16 + c.size) cs

/-- The address behind `cs`. -/
def endAddr : Nat → List Chunk → Nat
  | b, [] => b
  | b, c :: cs => endAddr (b + 16 + c.size) cs

/-- The last block of `cs`, if it is free. -/
def endLink : Option Nat → Nat → List Chunk → Option Nat
  | p, _, [] => p
  | _, b, c :: cs => endLink (c.link b) (b + 16 + c.size) cs

/-- The blocks with their addresses. -/
def blocks : Nat → List Chunk → List (Nat × Chunk)
  | _, [] => []
  | b, c :: cs => (b, c) :: blocks (b + 16 + c.size) cs

/-- The address and the size of every free block. -/
def frees : Nat → List Chunk → List (Nat × Nat)
  | _, [] => []
  | b, c :: cs => if c.free then (b, c.size) :: frees (b + 16 + c.size) cs else frees (b + 16 + c.size) cs

/-- Where a header is: at every block, and at the sentinel. -/
def starts : Nat → List Chunk → List Nat
  | b, [] => [b]
  | b, c :: cs => b :: starts (b + 16 + c.size) cs

/-- No two free blocks side by side. -/
def Coalesced (cs : List Chunk) : Prop := cs.IsChain fun c d => ¬(c.free = true ∧ d.free = true)

variable {mem mem' : Nat → Nat} {p q : Option Nat} {a b x y : Nat} {c : Chunk} {cs l₁ l₂ : List Chunk}

theorem endAddr_append : endAddr b (l₁ ++ l₂) = endAddr (endAddr b l₁) l₂ := by
  induction l₁ generalizing b with
  | nil => rfl
  | cons c l₁ ih => exact ih

theorem blocks_append : blocks b (l₁ ++ l₂) = blocks b l₁ ++ blocks (endAddr b l₁) l₂ := by
  induction l₁ generalizing b with
  | nil => rfl
  | cons c l₁ ih => exact congrArg _ ih

theorem frees_append : frees b (l₁ ++ l₂) = frees b l₁ ++ frees (endAddr b l₁) l₂ := by
  induction l₁ generalizing b with
  | nil => rfl
  | cons c l₁ ih =>
    show (if c.free then _ else _) = (if c.free then _ else _) ++ _
    split
    · exact congrArg _ ih
    · exact ih

theorem endLink_append : endLink p b (l₁ ++ l₂) = endLink (endLink p b l₁) (endAddr b l₁) l₂ := by
  induction l₁ generalizing p b with
  | nil => rfl
  | cons c l₁ ih => exact ih

theorem tail_append : Tail mem p b (l₁ ++ l₂) ↔ Seg mem p b l₁ ∧ Tail mem (endLink p b l₁) (endAddr b l₁) l₂ := by
  induction l₁ generalizing p b with
  | nil => exact (iff_of_eq (true_and _)).symm
  | cons c l₁ ih =>
    show _ ∧ Tail mem (c.link b) (b + 16 + c.size) (l₁ ++ l₂) ↔ _
    rw [ih, ← and_assoc]
    exact Iff.rfl

theorem seg_append : Seg mem p b (l₁ ++ l₂) ↔ Seg mem p b l₁ ∧ Seg mem (endLink p b l₁) (endAddr b l₁) l₂ := by
  induction l₁ generalizing p b with
  | nil => exact (iff_of_eq (true_and _)).symm
  | cons c l₁ ih =>
    show _ ∧ Seg mem (c.link b) (b + 16 + c.size) (l₁ ++ l₂) ↔ _
    rw [ih, ← and_assoc]
    exact Iff.rfl

theorem le_endAddr (b : Nat) (cs : List Chunk) : b ≤ endAddr b cs := by
  induction cs generalizing b with
  | nil => exact Nat.le_refl _
  | cons c cs ih =>
    have := ih (b := b + 16 + c.size)
    show b ≤ endAddr (b + 16 + c.size) cs
    omega

theorem mem_blocks_mod (h : (y, c) ∈ blocks b cs) : y % 16 = b % 16 := by
  induction cs generalizing b with
  | nil => cases h
  | cons d cs ih =>
    have hd := d.size_mod
    rcases List.mem_cons.mp h with heq | hmem
    · obtain ⟨rfl, rfl⟩ := Prod.mk.inj heq
      rfl
    · have := ih hmem
      omega

theorem mem_blocks_bounds (h : (y, c) ∈ blocks b cs) : b ≤ y ∧ y + 16 + c.size ≤ endAddr b cs := by
  induction cs generalizing b with
  | nil => cases h
  | cons d cs ih =>
    show b ≤ y ∧ y + 16 + c.size ≤ endAddr (b + 16 + d.size) cs
    rcases List.mem_cons.mp h with heq | hmem
    · obtain ⟨rfl, rfl⟩ := Prod.mk.inj heq
      exact ⟨Nat.le_refl _, le_endAddr _ _⟩
    · have := ih hmem
      omega

theorem mem_frees {s : Nat} : (y, s) ∈ frees b cs ↔ ∃ c, (y, c) ∈ blocks b cs ∧ c.free = true ∧ c.size = s := by
  induction cs generalizing b with
  | nil =>
    constructor
    · intro h
      cases h
    · rintro ⟨c, h, -⟩
      cases h
  | cons d cs ih =>
    have hhead : (∃ c, (y, c) ∈ (b, d) :: blocks (b + 16 + d.size) cs ∧ c.free = true ∧ c.size = s) ↔
        (y = b ∧ d.free = true ∧ d.size = s) ∨ (y, s) ∈ frees (b + 16 + d.size) cs := by
      rw [ih]
      constructor
      · rintro ⟨c, hmem, hfree, hsize⟩
        rcases List.mem_cons.mp hmem with heq | hmem
        · obtain ⟨rfl, rfl⟩ := Prod.mk.inj heq
          exact .inl ⟨rfl, hfree, hsize⟩
        · exact .inr ⟨c, hmem, hfree, hsize⟩
      · rintro (⟨rfl, hfree, hsize⟩ | ⟨c, hmem, hfree, hsize⟩)
        · exact ⟨d, List.mem_cons_self, hfree, hsize⟩
        · exact ⟨c, List.mem_cons_of_mem _ hmem, hfree, hsize⟩
    show (y, s) ∈ (if d.free then _ else _) ↔ ∃ c, (y, c) ∈ (b, d) :: blocks (b + 16 + d.size) cs ∧ _
    rw [hhead]
    split
    next hfree =>
      rw [List.mem_cons, Prod.mk.injEq]
      constructor
      · rintro (⟨rfl, rfl⟩ | hmem)
        · exact .inl ⟨rfl, hfree, rfl⟩
        · exact .inr hmem
      · rintro (⟨rfl, -, rfl⟩ | hmem)
        · exact .inl ⟨rfl, rfl⟩
        · exact .inr hmem
    next hused => exact (or_iff_right fun h => hused h.2.1).symm

theorem frees_bounds {s : Nat} (h : (y, s) ∈ frees b cs) : b ≤ y ∧ y + 16 + s ≤ endAddr b cs ∧ 16 ≤ s ∧
    s % 16 = 0 := by
  obtain ⟨c, hmem, -, rfl⟩ := mem_frees.mp h
  have := mem_blocks_bounds hmem
  exact ⟨this.1, this.2, c.size_ge, c.size_mod⟩

theorem frees_pairwise : (frees b cs).Pairwise fun x y => x.1 + 32 ≤ y.1 := by
  induction cs generalizing b with
  | nil => exact .nil
  | cons c cs ih =>
    show (if c.free then _ else _ : List _).Pairwise _
    split
    · refine .cons (fun y hy => ?_) ih
      have := (frees_bounds (s := y.2) hy).1
      have := c.size_ge
      show b + 32 ≤ y.1
      omega
    · exact ih

theorem mem_starts : y ∈ starts b cs ↔ (∃ c, (y, c) ∈ blocks b cs) ∨ y = endAddr b cs := by
  induction cs generalizing b with
  | nil =>
    show y ∈ [b] ↔ (∃ c, (y, c) ∈ []) ∨ y = b
    simp
  | cons d cs ih =>
    show y ∈ b :: starts (b + 16 + d.size) cs ↔ (∃ c, (y, c) ∈ (b, d) :: blocks (b + 16 + d.size) cs) ∨ _
    rw [List.mem_cons, ih]
    constructor
    · rintro (rfl | ⟨c, hmem⟩ | hend)
      · exact .inl ⟨d, List.mem_cons_self⟩
      · exact .inl ⟨c, List.mem_cons_of_mem _ hmem⟩
      · exact .inr hend
    · rintro (⟨c, hmem⟩ | hend)
      · rcases List.mem_cons.mp hmem with heq | hmem
        · exact .inl (Prod.mk.inj heq).1
        · exact .inr (.inl ⟨c, hmem⟩)
      · exact .inr (.inr hend)

/-- A header is not in a block. -/
theorem starts_apart (hy : y ∈ starts b cs) (hx : (x, c) ∈ blocks b cs) : y ≤ x ∨ x + 16 + c.size ≤ y := by
  induction cs generalizing b with
  | nil => cases hx
  | cons d cs ih =>
    rcases List.mem_cons.mp hy with rfl | hy
    · exact .inl (mem_blocks_bounds hx).1
    · rcases List.mem_cons.mp hx with heq | hx
      · obtain ⟨rfl, rfl⟩ := Prod.mk.inj heq
        right
        rcases mem_starts.mp hy with ⟨e, he⟩ | rfl
        · exact (mem_blocks_bounds he).1
        · exact le_endAddr _ _
      · exact ih hy hx

/-- Two blocks are the same, or one is behind the other. -/
theorem blocks_apart {d : Chunk} (hx : (x, c) ∈ blocks b cs) (hy : (y, d) ∈ blocks b cs) :
    (x = y ∧ c = d) ∨ x + 16 + c.size ≤ y ∨ y + 16 + d.size ≤ x := by
  induction cs generalizing b with
  | nil => cases hx
  | cons e cs ih =>
    rcases List.mem_cons.mp hx with heq | hx
    · obtain ⟨rfl, rfl⟩ := Prod.mk.inj heq
      rcases List.mem_cons.mp hy with heq | hy
      · obtain ⟨rfl, rfl⟩ := Prod.mk.inj heq
        exact .inl ⟨rfl, rfl⟩
      · exact .inr (.inl (mem_blocks_bounds hy).1)
    · rcases List.mem_cons.mp hy with heq | hy
      · obtain ⟨rfl, rfl⟩ := Prod.mk.inj heq
        exact .inr (.inr (mem_blocks_bounds hx).1)
      · exact ih hx hy

/-! ## Frames -/

theorem HeadAt.congr {s : Nat} {f : Bool} (h : HeadAt mem p b s f) (h8 : mem' (b + 8) = mem (b + 8))
    (h0 : mem' b = mem b) : HeadAt mem' p b s f :=
  ⟨h8.trans h.1, fun x hx => h0.trans (h.2 x hx)⟩

theorem Tail.congr (h : Tail mem p b cs) (hm : ∀ y ∈ starts b cs, mem' (y + 8) = mem (y + 8) ∧ mem' y = mem y) :
    Tail mem' p b cs := by
  induction cs generalizing p b with
  | nil =>
    have hb := hm b (List.mem_singleton.mpr rfl)
    exact HeadAt.congr h hb.1 hb.2
  | cons c cs ih =>
    have hb := hm b List.mem_cons_self
    exact ⟨h.1.congr hb.1 hb.2, ih h.2 fun y hy => hm y (List.mem_cons_of_mem _ hy)⟩

theorem Seg.congr (h : Seg mem p b cs) (hm : ∀ y ∈ (blocks b cs).map Prod.fst, mem' (y + 8) = mem (y + 8) ∧
    mem' y = mem y) :
    Seg mem' p b cs := by
  induction cs generalizing p b with
  | nil => exact h
  | cons c cs ih =>
    have hb := hm b List.mem_cons_self
    exact ⟨h.1.congr hb.1 hb.2, ih h.2 fun y hy => hm y (List.mem_cons_of_mem _ hy)⟩

/-- The first header of a tail: a block, or the sentinel. -/
theorem Tail.head (h : Tail mem p b cs) : HeadAt mem p b (cs.head?.elim 0 Chunk.size)
    (cs.head?.elim false Chunk.free) := by
  cases cs with
  | nil => exact h
  | cons c cs => exact h.1

/-- Another block is before a tail. -/
theorem Tail.rehead (h : Tail mem p b cs) (hb : HeadAt mem' q b (cs.head?.elim 0 Chunk.size)
    (cs.head?.elim false Chunk.free))
    (hm : ∀ y ∈ starts b cs, b < y → mem' (y + 8) = mem (y + 8) ∧ mem' y = mem y) : Tail mem' q b cs := by
  cases cs with
  | nil => exact hb
  | cons c cs =>
    refine ⟨hb, h.2.congr fun y hy => hm y (List.mem_cons_of_mem _ hy) ?_⟩
    have hle : b + 16 + c.size ≤ y := by
      rcases mem_starts.mp hy with ⟨d, hd⟩ | rfl
      · exact (mem_blocks_bounds hd).1
      · exact le_endAddr _ _
    omega

end Sqkio.Common.TlsfT
