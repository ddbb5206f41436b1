import Sqkio.Tlsf.FreeLists

/-!
# The invariant of a pool

    Inv base lim cs h    the blocks from `base` to the sentinel at `lim` are `cs`, the free ones are in the free
                         lists, and no two free ones are side by side

The words of a block in use belong to the program (`Used`); they and everything outside the area are not the
allocator's (`Foreign`).
-/

namespace Sqkio.Common.TlsfT

variable {h : TlsfT} {F A B : List (Nat × Nat)} {p : Option Nat} {a b x y s base lim : Nat} {c : Chunk}
  {cs cs' l₁ l₂ : List Chunk}

/-! ## Words that are no link words -/

theorem noLink_append : NoLink (A ++ B) a ↔ NoLink A a ∧ NoLink B a := List.forall_mem_append

theorem noLink_cons : NoLink ((b, s) :: F) a ↔ (a ≠ b + 16 ∧ a ≠ b + 24) ∧ NoLink F a := List.forall_mem_cons

theorem noLink_insert : NoLink (A ++ (b, s) :: B) a ↔ (a ≠ b + 16 ∧ a ≠ b + 24) ∧ NoLink (A ++ B) a := by
  rw [noLink_append, noLink_cons, noLink_append, and_left_comm]

theorem noLink_below (h : a < b + 16) : NoLink (frees b cs) a := by
  rintro ⟨x, s⟩ hx
  have := (frees_bounds hx).1
  dsimp only
  omega

theorem noLink_above (h : endAddr b cs ≤ a) : NoLink (frees b cs) a := by
  rintro ⟨x, s⟩ hx
  have := frees_bounds hx
  dsimp only
  omega

theorem noLink_start (hy : y ∈ starts b cs) : NoLink (frees b cs) (y + 8) ∧ NoLink (frees b cs) y := by
  constructor
  · rintro ⟨x, s⟩ hx
    obtain ⟨c, hmem, -, rfl⟩ := mem_frees.mp hx
    have := starts_apart hy hmem
    have := c.size_ge
    dsimp only
    omega
  · rintro ⟨x, s⟩ hx
    obtain ⟨c, hmem, -, rfl⟩ := mem_frees.mp hx
    have := starts_apart hy hmem
    have := c.size_ge
    dsimp only
    omega

theorem mem_starts_of_blocks (hy : y ∈ (blocks b cs).map Prod.fst) : y ∈ starts b cs := by
  obtain ⟨⟨z, c⟩, hmem, rfl⟩ := List.mem_map.mp hy
  exact mem_starts.mpr (.inl ⟨c, hmem⟩)

theorem lt_endAddr_of_blocks (hy : y ∈ (blocks b cs).map Prod.fst) : y + 32 ≤ endAddr b cs := by
  obtain ⟨⟨z, c⟩, hmem, rfl⟩ := List.mem_map.mp hy
  have := mem_blocks_bounds hmem
  have := c.size_ge
  dsimp only
  omega

theorem starts_bounds (hy : y ∈ starts b cs) : b ≤ y ∧ y ≤ endAddr b cs := by
  rcases mem_starts.mp hy with ⟨c, hmem⟩ | rfl
  · have := mem_blocks_bounds hmem
    omega
  · exact ⟨le_endAddr _ _, Nat.le_refl _⟩

theorem spread_frees (hb : 0 < b) : Spread (frees b cs) := by
  constructor
  · rintro ⟨x, s⟩ hx
    have := (frees_bounds hx).1
    show 0 < x
    omega
  · exact frees_pairwise.imp fun hxy => .inl hxy

/-! ## The program's words -/

def InUse (b : Nat) (cs : List Chunk) (y : Nat) (c : Chunk) : Prop := (y, c) ∈ blocks b cs ∧ c.free = false

theorem inUse_append : InUse b (l₁ ++ l₂) y c ↔ InUse b l₁ y c ∨ InUse (endAddr b l₁) l₂ y c := by
  unfold InUse
  rw [blocks_append, List.mem_append, or_and_right]

theorem inUse_cons {d : Chunk} : InUse b (d :: cs) y c ↔ (d.free = false ∧ y = b ∧ c = d) ∨
    InUse (b + 16 + d.size) cs y c := by
  unfold InUse
  show (y, c) ∈ (b, d) :: blocks (b + 16 + d.size) cs ∧ _ ↔ _
  rw [List.mem_cons, Prod.mk.injEq, or_and_right]
  refine or_congr_left ?_
  constructor
  · rintro ⟨⟨rfl, rfl⟩, hused⟩
    exact ⟨hused, rfl, rfl⟩
  · rintro ⟨hused, rfl, rfl⟩
    exact ⟨⟨rfl, rfl⟩, hused⟩

theorem InUse.bounds (h : InUse b cs y c) : b ≤ y ∧ y + 16 + c.size ≤ endAddr b cs := mem_blocks_bounds h.1

theorem blocks_unique {d : Chunk} (hx : (x, c) ∈ blocks b cs) (hy : (x, d) ∈ blocks b cs) : c = d := by
  refine ((blocks_apart hx hy).resolve_right fun hap => ?_).2
  have := c.size_ge
  have := d.size_ge
  omega

/-- Blocks in use do not overlap. -/
theorem InUse.apart {d : Chunk} (hx : InUse b cs x c) (hy : InUse b cs y d) (hne : x ≠ y) :
    x + 16 + c.size ≤ y ∨ y + 16 + d.size ≤ x :=
  (blocks_apart hx.1 hy.1).resolve_left fun hand => hne hand.1

/-- A word of a block in use. -/
def Used (b : Nat) (cs : List Chunk) (a : Nat) : Prop := ∃ y c, InUse b cs y c ∧ y + 16 ≤ a ∧ a < y + 16 + c.size

theorem used_append : Used b (l₁ ++ l₂) a ↔ Used b l₁ a ∨ Used (endAddr b l₁) l₂ a := by
  unfold Used
  simp only [inUse_append, or_and_right, exists_or]

theorem used_iff_of_free (hc : c.free = true) : Used b (c :: cs) a ↔ Used (b + 16 + c.size) cs a := by
  unfold Used
  simp [inUse_cons, hc]

theorem Used.bounds (h : Used b cs a) : b + 16 ≤ a ∧ a < endAddr b cs := by
  obtain ⟨y, c, hmem, hin⟩ := h
  have := hmem.bounds
  omega

/-- It is no link word of a free block. -/
theorem Used.noLink (h : Used b cs a) : NoLink (frees b cs) a := by
  obtain ⟨y, c, ⟨hmem, hused⟩, hin⟩ := h
  rintro ⟨x, s⟩ hx
  obtain ⟨d, hd, hfree, rfl⟩ := mem_frees.mp hx
  have := d.size_ge
  rcases blocks_apart hmem hd with ⟨-, rfl⟩ | hap
  · rw [hused] at hfree
    cases hfree
  · dsimp only
    omega

/-- It is no word of a header. -/
theorem Used.ne_start (h : Used b cs a) (hy : y ∈ starts b cs) : a ≠ y ∧ a ≠ y + 8 := by
  obtain ⟨x, c, ⟨hmem, -⟩, hin⟩ := h
  have := starts_apart hy hmem
  omega

/-- A word that the allocator has no right to change: one of a block in use, or one outside the area. -/
def Foreign (base : Nat) (cs : List Chunk) (a : Nat) : Prop :=
  Used base cs a ∨ a < base ∨ endAddr base cs + 16 ≤ a

theorem Foreign.ne_start (h : Foreign b cs a) (hy : y ∈ starts b cs) : a ≠ y ∧ a ≠ y + 8 := by
  rcases h with hused | hout
  · exact hused.ne_start hy
  · have := starts_bounds hy
    omega

theorem Foreign.noLink (h : Foreign b cs a) : NoLink (frees b cs) a := by
  rcases h with hused | hout | hout
  · exact hused.noLink
  · exact noLink_below (by omega)
  · exact noLink_above (by omega)

/-! ## Neighbours -/

/-- The size of the first block, or of the sentinel. -/
def headSize (cs : List Chunk) : Nat := cs.head?.elim 0 Chunk.size

def headFree (cs : List Chunk) : Bool := cs.head?.elim false Chunk.free

@[simp] theorem headSize_cons : headSize (c :: cs) = c.size := rfl

@[simp] theorem headFree_cons : headFree (c :: cs) = c.free := rfl

theorem exists_of_headFree (h : headFree cs = true) : ∃ c cs', cs = c :: cs' ∧ c.free = true := by
  cases cs with
  | nil => cases h
  | cons c cs => exact ⟨c, cs, rfl, h⟩

theorem headSize_mod : headSize cs % 16 = 0 := by
  cases cs with
  | nil => rfl
  | cons c cs => exact c.size_mod

theorem headSize_le (b : Nat) (cs : List Chunk) : b + headSize cs ≤ endAddr b cs := by
  cases cs with
  | nil => exact Nat.le_refl _
  | cons c cs =>
    have := le_endAddr (b + 16 + c.size) cs
    show b + c.size ≤ endAddr (b + 16 + c.size) cs
    omega

theorem mem_starts_self : b ∈ starts b cs := by
  cases cs with
  | nil => exact List.mem_singleton.mpr rfl
  | cons c cs => exact List.mem_cons_self

/-- The block before is free. -/
theorem endLink_some {q : Nat} (h : endLink none b l₁ = some q) :
    ∃ l₀ c, l₁ = l₀ ++ [c] ∧ c.free = true ∧ q = endAddr b l₀ := by
  rcases List.eq_nil_or_concat l₁ with rfl | ⟨l₀, c, rfl⟩
  · cases h
  · refine ⟨l₀, c, List.concat_eq_append ▸ rfl, ?_⟩
    rw [List.concat_eq_append, endLink_append] at h
    change c.link _ = some q at h
    unfold Chunk.link at h
    split at h
    next hfree => exact ⟨hfree, (Option.some.inj h).symm⟩
    next => cases h

theorem endLink_none_iff : endLink none b l₁ = none ↔ ∀ x ∈ l₁.getLast?, x.free = false := by
  rcases List.eq_nil_or_concat l₁ with rfl | ⟨l₀, c, rfl⟩
  · exact iff_of_true rfl (by simp)
  · rw [List.concat_eq_append, endLink_append, List.getLast?_concat]
    show c.link _ = none ↔ ∀ x ∈ some c, x.free = false
    unfold Chunk.link
    cases hfree : c.free
    · simp [hfree]
    · simp [hfree]

theorem coalesced_append : Coalesced (l₁ ++ l₂) ↔
    Coalesced l₁ ∧ Coalesced l₂ ∧ (headFree l₂ = true → endLink none b l₁ = none) := by
  unfold Coalesced
  rw [List.isChain_append, endLink_none_iff]
  refine and_congr_right fun _ => and_congr_right fun _ => ?_
  cases l₂ with
  | nil => simp [headFree]
  | cons d l₂ =>
    show (∀ x ∈ l₁.getLast?, ∀ y ∈ some d, _) ↔ (d.free = true → _)
    constructor
    · intro hall hd x hx
      exact Bool.eq_false_iff.mpr fun hx' => hall x hx d rfl ⟨hx', hd⟩
    · rintro hall x hx y hy ⟨hx', hy'⟩
      obtain rfl := Option.some.inj hy
      rw [hall hy' x hx] at hx'
      cases hx'

theorem coalesced_cons : Coalesced (c :: l₂) ↔ Coalesced l₂ ∧ (c.free = true → headFree l₂ = false) := by
  unfold Coalesced
  rw [List.isChain_cons, and_comm]
  refine and_congr_right fun _ => ?_
  cases l₂ with
  | nil => simp [headFree]
  | cons d l₂ =>
    show (∀ y ∈ some d, _) ↔ (c.free = true → d.free = false)
    constructor
    · exact fun hall hc => Bool.eq_false_iff.mpr fun hd => hall d rfl ⟨hc, hd⟩
    · rintro hall y hy ⟨hc, hy'⟩
      obtain rfl := Option.some.inj hy
      rw [hall hc] at hy'
      cases hy'

/-- A block in use has no say in it. -/
theorem coalesced_used (hc : c.free = false) : Coalesced (l₁ ++ c :: l₂) ↔ Coalesced l₁ ∧ Coalesced l₂ := by
  rw [coalesced_append (b := 0), coalesced_cons, headFree_cons, hc]
  simp

/-! ## The invariant -/

structure Inv (base lim : Nat) (cs : List Chunk) (h : TlsfT) : Prop where
  pos : 0 < base
  stop : endAddr base cs = lim
  small : lim < base + 16 + 2 ^ 30
  tail : Tail h.mem none base cs
  lists : FreeLists (frees base cs) h
  coalesced : Coalesced cs

/-- A block of the pool and the blocks on both sides. -/
theorem split_blocks (h : (y, c) ∈ blocks b cs) : ∃ l₁ l₂, cs = l₁ ++ c :: l₂ ∧ y = endAddr b l₁ := by
  induction cs generalizing b with
  | nil => cases h
  | cons d cs ih =>
    rcases List.mem_cons.mp h with heq | hmem
    · obtain ⟨rfl, rfl⟩ := Prod.mk.inj heq
      exact ⟨[], cs, rfl, rfl⟩
    · obtain ⟨l₁, l₂, rfl, hy⟩ := ih hmem
      exact ⟨d :: l₁, l₂, rfl, hy⟩

theorem Inv.size_lt (hi : Inv base lim cs h) (hc : (y, c) ∈ blocks base cs) : c.size < 2 ^ 30 := by
  have := mem_blocks_bounds hc
  have := hi.stop
  have := hi.small
  omega

/-- The program may write what it likes to the blocks it has. -/
theorem Inv.write {h' : TlsfT} (hi : Inv base lim cs h) (hm : ∀ a, ¬Used base cs a → h'.mem a = h.mem a)
    (hmatrix : h'.matrix = h.matrix) (hsl : h'.slBitmap = h.slBitmap) (hfl : h'.flBitmap = h.flBitmap) :
    Inv base lim cs h' := by
  refine ⟨hi.pos, hi.stop, hi.small, hi.tail.congr fun y hy => ⟨?_, ?_⟩, ?_, hi.coalesced⟩
  · exact hm _ fun hu => (hu.ne_start hy).2 rfl
  · exact hm _ fun hu => (hu.ne_start hy).1 rfl
  · refine hi.lists.congr hmatrix hsl hfl fun x hx => ⟨?_, ?_⟩
    · exact hm _ fun hu => (hu.noLink x hx).1 rfl
    · exact hm _ fun hu => (hu.noLink x hx).2 rfl

end Sqkio.Common.TlsfT
