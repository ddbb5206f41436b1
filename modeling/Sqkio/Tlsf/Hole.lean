import Sqkio.Tlsf.Heap

/-!
# Taking a block out of the layout and closing the gap

While a call works on a block, its header and what the next header says about it are out of date.  A pool with a
gap (`Hole`) has everything but that: the blocks before it, those behind it, and the free lists without it.

    close_one     the gap becomes one block
    close_two     the gap becomes a block in use and a free one
    splitBlock    the same in the code
-/

namespace Sqkio.Common.TlsfT

variable {h h' : TlsfT} {A B : List (Nat × Nat)} {a b r s t base lim : Nat} {l₁ l₂ : List Chunk}

theorem setSize_mem {v : Nat} (ha : a ≠ b + 8) : (h.setSize b v).mem a = h.mem a := mem_store.trans (if_neg ha)

theorem setSize_mem_self {v : Nat} : (h.setSize b v).mem (b + 8) = v := mem_store.trans (if_pos rfl)

theorem setPrevHdr_mem {v : Nat} (ha : a ≠ b) : (h.setPrevHdr b v).mem a = h.mem a := mem_store.trans (if_neg ha)

theorem setPrevHdr_mem_self {v : Nat} : (h.setPrevHdr b v).mem b = v := mem_store.trans (if_pos rfl)

/-- A header gets a size, and the block no links. -/
theorem unlinked_mem {v : Nat} : (((h.setSize b v).setPrev b 0).setNext b 0).mem a =
    if a = b + 24 then 0 else if a = b + 16 then 0 else if a = b + 8 then v else h.mem a :=
  mem_store.trans (congrArg _ (mem_store.trans (congrArg _ mem_store)))

theorem store_self {v : Nat} (hv : h.mem a = v) : h.store a v = h := by
  unfold store
  rw [← hv, Function.update_eq_self]

/-! ## In and out of the free lists -/

theorem takeOut_eq {f p : Bool} (hhead : h.mem (b + 8) = hdr s f p) (h16 : s % 16 = 0) (hlt : s < 2 ^ 30)
    (hl : FreeLists (A ++ (b, s) :: B) h) (hF : Spread (A ++ (b, s) :: B)) :
    ∃ h', h.takeOut b = some h' ∧ FreeLists (A ++ B) h' ∧ ∀ a, NoLink (A ++ (b, s) :: B) a →
      h'.mem a = h.mem a := by
  obtain ⟨c, hc, hhas⟩ := mappingInsert_eq hlt
  have hsize : h.size b &&& BLOCK_SIZE = s := by
    unfold size
    rw [hhead]
    exact hdr_and_blockSize f p h16 (by omega)
  obtain ⟨hlists, hmem⟩ := extractBlock_lists hl hF hhas
  refine ⟨h.extractBlock b c, ?_, hlists, hmem⟩
  unfold takeOut
  rw [hsize, hc, Option.map_some]

theorem putIn_eq (hlt : s < 2 ^ 30) (hl : FreeLists (A ++ B) h) (hF : Spread (A ++ (b, s) :: B)) :
    ∃ h', h.putIn b s = some h' ∧ FreeLists (A ++ (b, s) :: B) h' ∧
      ∀ a, NoLink (A ++ (b, s) :: B) a → h'.mem a = h.mem a := by
  obtain ⟨c, hc, hhas⟩ := mappingInsert_eq hlt
  obtain ⟨hlists, hmem⟩ := insertBlock_lists hl hF hhas
  refine ⟨h.insertBlock b c, ?_, hlists, hmem⟩
  unfold putIn
  rw [hc, Option.map_some]

/-- Link words are the same, so the lists are. -/
theorem FreeLists.store {v : Nat} (hl : FreeLists A h) (ha : NoLink A a) : FreeLists A (h.store a v) := by
  refine hl.congr rfl rfl rfl fun x hx => ⟨?_, ?_⟩
  · exact mem_store.trans (if_neg (ha x hx).1.symm)
  · exact mem_store.trans (if_neg (ha x hx).2.symm)

/-! ## The gap -/

/-- The pool without the `16 + s` bytes behind `l₁`. -/
structure Hole (base : Nat) (l₁ : List Chunk) (s : Nat) (l₂ : List Chunk) (h : TlsfT) : Prop where
  seg : Seg h.mem none base l₁
  prev : ∀ x ∈ endLink none base l₁, h.mem (endAddr base l₁) = x
  tail : ∃ q, Tail h.mem q (endAddr base l₁ + 16 + s) l₂
  lists : FreeLists (frees base l₁ ++ frees (endAddr base l₁ + 16 + s) l₂) h

theorem spread_gap (l₁ : List Chunk) (s : Nat) (l₂ : List Chunk) (hbase : 0 < base) :
    Spread (frees base l₁ ++ frees (endAddr base l₁ + 16 + s) l₂) := by
  have hle := le_endAddr base l₁
  have hleft : Spread (frees base l₁) := spread_frees hbase
  have hright : Spread (frees (endAddr base l₁ + 16 + s) l₂) := spread_frees (by omega)
  refine ⟨List.forall_mem_append.mpr ⟨hleft.pos, hright.pos⟩, List.pairwise_append.mpr ⟨hleft.apart,
    hright.apart, ?_⟩⟩
  rintro ⟨x, t⟩ hx ⟨y, u⟩ hy
  have := frees_bounds hx
  have := frees_bounds hy
  left
  dsimp only
  omega

/-- No links are in the gap or in the header behind it. -/
theorem noLink_gap (hlo : endAddr base l₁ ≤ a) (hhi : a < endAddr base l₁ + 32 + s) :
    NoLink (frees base l₁ ++ frees (endAddr base l₁ + 16 + s) l₂) a :=
  noLink_append.mpr ⟨noLink_above hlo, noLink_below (by omega)⟩

/-- The headers that the work on a gap leaves alone: those before it, those behind the next one, and the pointer of
its own. -/
structure Same (base : Nat) (l₁ : List Chunk) (s : Nat) (l₂ : List Chunk) (h h' : TlsfT) : Prop where
  before : ∀ y ∈ (blocks base l₁).map Prod.fst, h'.mem (y + 8) = h.mem (y + 8) ∧ h'.mem y = h.mem y
  own : h'.mem (endAddr base l₁) = h.mem (endAddr base l₁)
  behind : ∀ y ∈ starts (endAddr base l₁ + 16 + s) l₂, endAddr base l₁ + 16 + s < y →
    h'.mem (y + 8) = h.mem (y + 8) ∧ h'.mem y = h.mem y

/-- What is written while the gap is worked on: its own words and those of the next header, but not its own
`prev_hdr`, and link words of free blocks. -/
theorem Same.of_mem (ha : ∀ a, (a < endAddr base l₁ + 8 ∨ endAddr base l₁ + 32 + s ≤ a) →
    NoLink (frees base l₁ ++ frees (endAddr base l₁ + 16 + s) l₂) a →
    h'.mem a = h.mem a) : Same base l₁ s l₂ h h' := by
  have hbelow : ∀ {a}, a < endAddr base l₁ + 8 → NoLink (frees (endAddr base l₁ + 16 + s) l₂) a := fun hlt =>
    noLink_below (by omega)
  refine ⟨fun y hy => ?_, ?_, fun y hy hlt => ?_⟩
  · have hend := lt_endAddr_of_blocks hy
    obtain ⟨h8, h0⟩ := noLink_start (mem_starts_of_blocks hy)
    constructor
    · exact ha _ (.inl (by omega)) (noLink_append.mpr ⟨h8, hbelow (by omega)⟩)
    · exact ha _ (.inl (by omega)) (noLink_append.mpr ⟨h0, hbelow (by omega)⟩)
  · exact ha _ (.inl (by omega)) (noLink_append.mpr ⟨noLink_above (Nat.le_refl _), hbelow (by omega)⟩)
  · have hstep : endAddr base l₁ + 32 + s ≤ y := by
      cases l₂ with
      | nil =>
        have := List.mem_singleton.mp hy
        omega
      | cons c l₂ =>
        rcases List.mem_cons.mp hy with rfl | hy
        · omega
        · have := (starts_bounds hy).1
          have := c.size_ge
          omega
    obtain ⟨h8, h0⟩ := noLink_start hy
    constructor
    · exact ha _ (.inr (by omega)) (noLink_append.mpr ⟨noLink_above (by omega), h8⟩)
    · exact ha _ (.inr hstep) (noLink_append.mpr ⟨noLink_above (by omega), h0⟩)

/-- A word that is neither in the gap nor the allocator's. -/
def Around (base : Nat) (l₁ : List Chunk) (s : Nat) (l₂ : List Chunk) (a : Nat) : Prop :=
  Used base l₁ a ∨ Used (endAddr base l₁ + 16 + s) l₂ a ∨ a < base ∨ endAddr (endAddr base l₁ + 16 + s) l₂ + 16 ≤ a

theorem Around.apart (h : Around base l₁ s l₂ a) : a < endAddr base l₁ ∨ endAddr base l₁ + 32 + s ≤ a := by
  have hle := le_endAddr base l₁
  have hle' := le_endAddr (endAddr base l₁ + 16 + s) l₂
  rcases h with hused | hused | hout | hout
  · exact .inl hused.bounds.2
  · have := hused.bounds.1
    omega
  · omega
  · omega

theorem Around.noLink (h : Around base l₁ s l₂ a) :
    NoLink (frees base l₁ ++ frees (endAddr base l₁ + 16 + s) l₂) a := by
  have hle := le_endAddr base l₁
  have hle' := le_endAddr (endAddr base l₁ + 16 + s) l₂
  rw [noLink_append]
  rcases h with hused | hused | hout | hout
  · have := hused.bounds.2
    exact ⟨hused.noLink, noLink_below (by omega)⟩
  · have := hused.bounds.1
    exact ⟨noLink_above (by omega), hused.noLink⟩
  · exact ⟨noLink_below (by omega), noLink_below (by omega)⟩
  · exact ⟨noLink_above (by omega), noLink_above (by omega)⟩

theorem Around.ne_start {y : Nat} (h : Around base l₁ s l₂ a) (hy : y ∈ starts base l₁) : a ≠ y ∧ a ≠ y + 8 := by
  have hle := le_endAddr (endAddr base l₁ + 16 + s) l₂
  have := starts_bounds hy
  rcases h with hused | hused | hout | hout
  · exact hused.ne_start hy
  · have := hused.bounds.1
    omega
  · omega
  · omega

theorem foreign_iff_around {d : Chunk} (hd : d.free = true) : Foreign base (l₁ ++ d :: l₂) a ↔
    Around base l₁ d.size l₂ a := by
  unfold Foreign Around
  rw [used_append, used_iff_of_free hd, endAddr_append, or_assoc]
  exact Iff.rfl

/-- **The gap becomes one block.** -/
theorem Hole.close_one (hh : Hole base l₁ s l₂ h) (hs : Same base l₁ s l₂ h h') {d : Chunk} (hd : d.size = s)
    (h8 : h'.mem (endAddr base l₁ + 8) = hdr s d.free (endLink none base l₁).isSome)
    (hnext : HeadAt h'.mem (d.link (endAddr base l₁)) (endAddr base l₁ + 16 + s) (headSize l₂) (headFree l₂)) :
    Tail h'.mem none base (l₁ ++ d :: l₂) := by
  obtain ⟨q, htail⟩ := hh.tail
  rw [tail_append]
  refine ⟨hh.seg.congr hs.before, ⟨hd ▸ h8, fun x hx => hs.own.trans (hh.prev x hx)⟩, ?_⟩
  rw [hd]
  exact htail.rehead hnext hs.behind

/-- **The gap becomes a block in use and a free one.** -/
theorem Hole.close_two (hh : Hole base l₁ s l₂ h) (hs : Same base l₁ s l₂ h h') {d e : Chunk} (hd : d.free = false)
    (he : e.free = true) (hde : d.size + 16 + e.size = s)
    (h8 : h'.mem (endAddr base l₁ + 8) = hdr d.size false (endLink none base l₁).isSome)
    (h2 : h'.mem (endAddr base l₁ + 16 + d.size + 8) = hdr e.size true false)
    (hnext : HeadAt h'.mem (some (endAddr base l₁ + 16 + d.size)) (endAddr base l₁ + 16 + s) (headSize l₂)
    (headFree l₂)) :
    Tail h'.mem none base (l₁ ++ d :: e :: l₂) := by
  obtain ⟨q, htail⟩ := hh.tail
  rw [tail_append]
  refine ⟨hh.seg.congr hs.before, ⟨hd ▸ h8, fun x hx => hs.own.trans (hh.prev x hx)⟩, ?_⟩
  rw [Chunk.link_used hd]
  refine ⟨⟨he ▸ h2, fun x hx => by cases hx⟩, ?_⟩
  rw [Chunk.link_free he, show endAddr base l₁ + 16 + d.size + 16 + e.size = endAddr base l₁ + 16 + s by omega]
  exact htail.rehead hnext hs.behind

theorem frees_close_used (base : Nat) (l₁ l₂ : List Chunk) {d : Chunk} (hd : d.size = s) (hdf : d.free = false) :
    frees base (l₁ ++ d :: l₂) = frees base l₁ ++ frees (endAddr base l₁ + 16 + s) l₂ := by
  subst hd
  rw [frees_append]
  congr 1
  show (if d.free then _ else _) = _
  rw [hdf]
  rfl

theorem frees_close_free (base : Nat) (l₁ l₂ : List Chunk) {d : Chunk} (hd : d.size = s) (hdf : d.free = true) :
    frees base (l₁ ++ d :: l₂) =
      frees base l₁ ++ (endAddr base l₁, s) :: frees (endAddr base l₁ + 16 + s) l₂ := by
  subst hd
  rw [frees_append]
  congr 1
  exact if_pos hdf

theorem frees_close_two (base : Nat) (l₁ l₂ : List Chunk) {d e : Chunk} (hd : d.free = false) (he : e.free = true)
    (hde : d.size + 16 + e.size = s) :
    frees base (l₁ ++ d :: e :: l₂) =
      frees base l₁ ++ (endAddr base l₁ + 16 + d.size, e.size) :: frees (endAddr base l₁ + 16 + s) l₂ := by
  rw [frees_append]
  congr 1
  show (if d.free then _ else if e.free then _ else _) = _
  rw [if_neg (by simp [hd]), if_pos he,
    show endAddr base l₁ + 16 + d.size + 16 + e.size = endAddr base l₁ + 16 + s by omega]

theorem starts_append : starts b (l₁ ++ l₂) = (blocks b l₁).map Prod.fst ++ starts (endAddr b l₁) l₂ := by
  induction l₁ generalizing b with
  | nil => rfl
  | cons c l₁ ih => exact congrArg _ ih

theorem sub_eq {x y : Nat} (hle : y ≤ x) (hlt : x < 2 ^ 64) : sub x y = x - y := by
  unfold sub
  omega

/-- The next header, with the gap before it. -/
theorem Hole.size_next (hh : Hole base l₁ s l₂ h) : ∃ p, h.mem (endAddr base l₁ + 16 + s + 8) = hdr (headSize l₂)
    (headFree l₂) p := by
  obtain ⟨q, htail⟩ := hh.tail
  exact ⟨_, htail.head.1⟩

/-- **The end of `realloc_ex`**: the gap becomes a block of `r` bytes and a free one. -/
theorem splitBlock_eq (hh : Hole base l₁ s l₂ h) (hbase : 0 < base) {t : Nat} {f : Bool}
    (hown : h.mem (endAddr base l₁ + 8) = hdr t f (endLink none base l₁).isSome) (ht : t % 16 = 0)
    (hr16 : r % 16 = 0) (hr : 16 ≤ r) (hs16 : s % 16 = 0) (hfit : r + 32 ≤ s) (hs : s < 2 ^ 30) :
    ∃ h' d e, h.splitBlock (endAddr base l₁) (endAddr base l₁ + 16 + s) r (s - r) = some h' ∧
      d.size = r ∧ d.free = false ∧ e.free = true ∧ d.size + 16 + e.size = s ∧
      Tail h'.mem none base (l₁ ++ d :: e :: l₂) ∧ FreeLists (frees base (l₁ ++ d :: e :: l₂)) h' ∧
      ∀ a, Foreign base (l₁ ++ d :: e :: l₂) a → h'.mem a = h.mem a := by
  obtain ⟨b, hb⟩ : ∃ b, b = endAddr base l₁ := ⟨_, rfl⟩
  obtain ⟨d, hd, hdf⟩ : ∃ d : Chunk, d.size = r ∧ d.free = false := ⟨⟨r, false, hr16, hr⟩, rfl, rfl⟩
  obtain ⟨e, he, hef⟩ : ∃ e : Chunk, e.size = s - r - 16 ∧ e.free = true :=
    ⟨⟨s - r - 16, true, by omega, by omega⟩, rfl, rfl⟩
  have hde : d.size + 16 + e.size = s := by omega
  have he16 : e.size % 16 = 0 := e.size_mod
  obtain ⟨q, hnext⟩ := hh.size_next
  rw [← hb] at hown hnext ⊢
  -- the writes before the block goes into its list
  obtain ⟨h₁, hh₁⟩ : ∃ h₁, h₁ = h.setSize (b + 16 + r) (hdr e.size true false) := ⟨_, rfl⟩
  obtain ⟨h₂, hh₂⟩ : ∃ h₂, h₂ = h₁.setPrevHdr (b + 16 + s) (b + 16 + r) := ⟨_, rfl⟩
  obtain ⟨h₃, hh₃⟩ : ∃ h₃, h₃ = h₂.setSize (b + 16 + s) (hdr (headSize l₂) (headFree l₂) true) := ⟨_, rfl⟩
  have hfrees := frees_close_two base l₁ l₂ hdf hef hde
  have hspread : Spread (frees base (l₁ ++ d :: e :: l₂)) := spread_frees hbase
  rw [← hb, hd] at hfrees
  rw [hfrees] at hspread
  have hlists : FreeLists (frees base l₁ ++ frees (b + 16 + s) l₂) h := by
    rw [hb]
    exact hh.lists
  have hno : ∀ a, b ≤ a → a < b + 32 + s → NoLink (frees base l₁ ++ frees (b + 16 + s) l₂) a := by
    rw [hb]
    exact fun a => noLink_gap
  have hlists₃ : FreeLists (frees base l₁ ++ frees (b + 16 + s) l₂) h₃ := by
    rw [hh₃, hh₂, hh₁]
    exact ((hlists.store (hno _ (by omega) (by omega))).store (hno _ (by omega) (by omega))).store
      (hno _ (by omega) (by omega))
  obtain ⟨h₄, hput, hlists₄, hmem₄⟩ := putIn_eq (show e.size < 2 ^ 30 by omega) hlists₃ hspread
  have hno₄ : ∀ a, b ≤ a → a < b + 32 + s → a ≠ b + 16 + r + 16 → a ≠ b + 16 + r + 24 →
      NoLink (frees base l₁ ++ (b + 16 + r, e.size) :: frees (b + 16 + s) l₂) a := fun a hle hlt h16 h24 =>
    noLink_insert.mpr ⟨⟨h16, h24⟩, hno a hle hlt⟩
  have hmem₃ : ∀ a, a ≠ b + 16 + r + 8 → a ≠ b + 16 + s → a ≠ b + 16 + s + 8 → h₃.mem a = h.mem a := by
    intro a ha₁ ha₂ ha₃
    rw [hh₃, setSize_mem ha₃, hh₂, setPrevHdr_mem ha₂, hh₁, setSize_mem ha₁]
  have hown₄ : h₄.size b = hdr t f (endLink none base l₁).isSome := by
    show h₄.mem (b + 8) = _
    rw [hmem₄ _ (hno₄ _ (by omega) (by omega) (by omega) (by omega)), hmem₃ _ (by omega) (by omega) (by omega)]
    exact hown
  obtain ⟨h₅, hh₅⟩ : ∃ h₅, h₅ = h₄.setSize b (hdr r false (endLink none base l₁).isSome) := ⟨_, rfl⟩
  have hcall : h.splitBlock b (b + 16 + s) r (s - r) = some h₅ := by
    have htmp : sub (s - r) BHDR_OVERHEAD = e.size :=
      (sub_eq (show 16 ≤ s - r by omega) (by omega)).trans he.symm
    have hsize₂ : h₂.size (b + 16 + s) ||| PREV_FREE = hdr (headSize l₂) (headFree l₂) true := by
      show h₂.mem (b + 16 + s + 8) ||| PREV_FREE = _
      rw [hh₂, setPrevHdr_mem (by omega), hh₁, setSize_mem (by omega), hnext]
      exact hdr_or_prev _ _ headSize_mod
    unfold splitBlock
    rw [if_pos (show sizeofBhdr ≤ s - r by unfold sizeofBhdr; omega)]
    dsimp only
    rw [htmp]
    have hwrites : (h.setSize (b + 16 + r) (e.size ||| FREE_BLOCK ||| PREV_USED)).setPrevHdr (b + 16 + s)
        (b + 16 + r) = h₂ := by
      rw [or_free_or_prevUsed he16, ← hh₁, ← hh₂]
    have hbuffer : getNextBlock (buffer b) r = b + 16 + r := rfl
    rw [hbuffer, hwrites, hsize₂, ← hh₃, hput, Option.map_some, hown₄,
      or_hdr_and_prev _ _ hr16 ht, ← hh₅]
  have hmem₅ : ∀ a, a ≠ b + 8 → NoLink (frees base l₁ ++ (b + 16 + r, e.size) :: frees (b + 16 + s) l₂) a →
      h₅.mem a = h₃.mem a := by
    intro a ha hnl
    rw [hh₅, setSize_mem ha]
    exact hmem₄ a hnl
  have hsame : Same base l₁ s l₂ h h₅ := by
    refine Same.of_mem fun a ha hnl => ?_
    rw [← hb] at ha hnl
    rw [hmem₅ a (by omega) (noLink_insert.mpr ⟨⟨by omega, by omega⟩, hnl⟩)]
    exact hmem₃ a (by omega) (by omega) (by omega)
  refine ⟨h₅, d, e, hcall, hd, hdf, hef, hde, ?_, ?_, fun a ha => ?_⟩
  · refine hh.close_two hsame hdf hef hde ?_ ?_ ⟨?_, fun x hx => ?_⟩
    · rw [← hb, hh₅, setSize_mem_self, hd]
    · rw [← hb, hd, hmem₅ _ (by omega) (hno₄ _ (by omega) (by omega) (by omega) (by omega)), hh₃,
        setSize_mem (by omega), hh₂, setPrevHdr_mem (by omega), hh₁]
      exact setSize_mem_self
    · rw [← hb, hmem₅ _ (by omega) (hno₄ _ (by omega) (by omega) (by omega) (by omega)), hh₃]
      exact setSize_mem_self
    · rw [← hb, hd] at hx
      rw [← hb, ← Option.some.inj hx, hmem₅ _ (by omega) (hno₄ _ (by omega) (by omega) (by omega) (by omega)), hh₃,
        setSize_mem (by omega), hh₂]
      exact setPrevHdr_mem_self
  · rw [hfrees, hh₅]
    exact hlists₄.store (hno₄ _ (by omega) (by omega) (by omega) (by omega))
  · have hstarts : starts base (l₁ ++ d :: e :: l₂) =
        (blocks base l₁).map Prod.fst ++ b :: (b + 16 + r) :: starts (b + 16 + s) l₂ := by
      rw [starts_append, ← hb]
      show _ ++ b :: (b + 16 + d.size) :: starts (b + 16 + d.size + 16 + e.size) l₂ = _
      rw [show b + 16 + d.size + 16 + e.size = b + 16 + s by omega, hd]
    have hstart : ∀ y, y ∈ b :: (b + 16 + r) :: starts (b + 16 + s) l₂ → a ≠ y ∧ a ≠ y + 8 := fun y hy =>
      ha.ne_start (hstarts ▸ List.mem_append_right _ hy)
    have hb₁ := hstart b List.mem_cons_self
    have hb₂ := hstart (b + 16 + r) (List.mem_cons_of_mem _ List.mem_cons_self)
    have hb₃ := hstart (b + 16 + s) (List.mem_cons_of_mem _ (List.mem_cons_of_mem _ mem_starts_self))
    rw [hmem₅ a hb₁.2 (hfrees ▸ ha.noLink)]
    exact hmem₃ a hb₂.2 hb₃.1 hb₃.2

end Sqkio.Common.TlsfT
