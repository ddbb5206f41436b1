import Sqkio.Tlsf.Hole

/-!
# `malloc_ex`

A request takes a free block of the lowest class in which every block is large enough, and gives back what is left
of it if that can be a block (`Takes`).  There is no such block exactly if no free block has the size that the
request is rounded up to (`mallocEx_eq`).
-/

namespace Sqkio.Common.TlsfT

open Sqkio.Lib

variable {h : TlsfT} {a b r s base lim : Nat} {c : Chunk} {cs cs' l₁ l₂ : List Chunk}

/-! ## The size of a request -/

theorem roundupSize_eq {n : Nat} (hn : n ≤ 2 ^ 64 - 16) : roundupSize n = 16 * ((n + 15) / 16) := by
  have hadd : add n MEM_ALIGN = n + 15 := Nat.mod_eq_of_lt (show n + 15 < 2 ^ 64 by omega)
  unfold roundupSize
  rw [hadd]
  exact Bits.and_high 4 64 (n + 15) (by omega) (by omega)

theorem blockSize_bounds {n : Nat} (hn : n ≤ 2 ^ 64 - 16) :
    16 ≤ blockSize n ∧ blockSize n % 16 = 0 ∧ n ≤ blockSize n ∧ (blockSize n < n + 16 ∨ blockSize n = 16) := by
  unfold blockSize MIN_BLOCK_SIZE
  split
  · omega
  · rw [roundupSize_eq hn]
    omega

/-- The size of the block that a request is given at least. -/
def need (n : Nat) : Nat := searchSize (blockSize n)

theorem need_bounds {n : Nat} (hn : n ≤ 2 ^ 64 - 16) : 16 ≤ need n ∧ need n % 16 = 0 ∧ n ≤ need n := by
  obtain ⟨hge, hmod, hle, -⟩ := blockSize_bounds hn
  have := (searchSize_bounds (blockSize n)).1
  exact ⟨by unfold need; omega, searchSize_mod hmod, by unfold need; omega⟩

/-! ## The block that is found -/

/-- A free block is taken, as a whole or in part. -/
inductive Takes (base r : Nat) : List Chunk → Nat → List Chunk → Prop
  | whole {l₁ l₂ : List Chunk} {c d : Chunk} : c.free = true → d.free = false → d.size = c.size → r ≤ c.size →
      c.size < r + 32 → Takes base r (l₁ ++ c :: l₂) (endAddr base l₁) (l₁ ++ d :: l₂)
  | split {l₁ l₂ : List Chunk} {c d e : Chunk} : c.free = true → d.free = false → e.free = true → d.size = r →
      d.size + 16 + e.size = c.size → Takes base r (l₁ ++ c :: l₂) (endAddr base l₁) (l₁ ++ d :: e :: l₂)

theorem Takes.endAddr_eq (ht : Takes base r cs b cs') : endAddr base cs' = endAddr base cs := by
  cases ht with
  | whole _ _ hd _ _ =>
    rw [endAddr_append, endAddr_append]
    show endAddr (_ + 16 + _) _ = endAddr (_ + 16 + _) _
    rw [hd]
  | split _ _ _ hd hde =>
    rw [endAddr_append, endAddr_append]
    show endAddr (_ + 16 + _ + 16 + _) _ = endAddr (_ + 16 + _) _
    congr 1
    omega

/-- `b` is in use now, and nothing else has changed. -/
theorem Takes.inUse (ht : Takes base r cs b cs') :
    ∃ d, r ≤ d.size ∧ d.size < r + 32 ∧ d.free = false ∧ (∀ c, ¬InUse base cs b c) ∧
      ∀ y c, InUse base cs' y c ↔ InUse base cs y c ∨ y = b ∧ c = d := by
  have hfree : ∀ {l₁ l₂ : List Chunk} {c : Chunk}, c.free = true →
      ∀ d, ¬InUse base (l₁ ++ c :: l₂) (endAddr base l₁) d := by
    intro l₁ l₂ c hc d hin
    rcases inUse_append.mp hin with hin | hin
    · have := hin.bounds
      omega
    · rcases inUse_cons.mp hin with ⟨hused, -⟩ | hin
      · rw [hc] at hused
        cases hused
      · have := hin.bounds
        omega
  cases ht with
  | @whole l₁ l₂ c d hc hd hsize hr _ =>
    refine ⟨d, by omega, by omega, hd, hfree hc, fun y c' => ?_⟩
    rw [inUse_append, inUse_append, inUse_cons, inUse_cons, hsize]
    have hnot : ¬(c.free = false ∧ y = endAddr base l₁ ∧ c' = c) := fun hand => by
      rw [hc] at hand
      cases hand.1
    rw [or_iff_right hnot, and_iff_right hd]
    tauto
  | @split l₁ l₂ c d e hc hd he hsize hde =>
    refine ⟨d, by omega, by omega, hd, hfree hc, fun y c' => ?_⟩
    rw [inUse_append, inUse_append, inUse_cons, inUse_cons, inUse_cons,
      show endAddr base l₁ + 16 + d.size + 16 + e.size = endAddr base l₁ + 16 + c.size by omega]
    have hnot : ¬(c.free = false ∧ y = endAddr base l₁ ∧ c' = c) := fun hand => by
      rw [hc] at hand
      cases hand.1
    have hnot' : ¬(e.free = false ∧ y = endAddr base l₁ + 16 + d.size ∧ c' = e) := fun hand => by
      rw [he] at hand
      cases hand.1
    rw [or_iff_right hnot, or_iff_right hnot', and_iff_right hd]
    tauto

theorem Takes.foreign (ht : Takes base r cs b cs') (ha : Foreign base cs a) : Foreign base cs' a := by
  rcases ha with ⟨y, c, hin, hlt⟩ | hout
  · obtain ⟨d, -, -, -, -, hiff⟩ := ht.inUse
    exact .inl ⟨y, c, (hiff y c).mpr (.inl hin), hlt⟩
  · rw [← ht.endAddr_eq] at hout
    exact .inr hout

theorem Takes.coalesced (ht : Takes base r cs b cs') (hc : Coalesced cs) : Coalesced cs' := by
  cases ht with
  | whole hfree hd _ _ _ =>
    rw [coalesced_append (b := base), coalesced_cons] at hc
    exact (coalesced_used hd).mpr ⟨hc.1, hc.2.1.1⟩
  | split hfree hd he _ _ =>
    rw [coalesced_append (b := base), coalesced_cons] at hc
    exact (coalesced_used hd).mpr ⟨hc.1, coalesced_cons.mpr ⟨hc.2.1.1, fun _ => hc.2.1.2 hfree⟩⟩

/-- The next block knows already that the one before it is free. -/
theorem found_split {p : Bool} (hown : h.mem (b + 8) = hdr s true p)
    (hnext : h.mem (b + 16 + s + 8) = hdr (headSize l₂) (headFree l₂) true) (hs16 : s % 16 = 0) (hs : s < 2 ^ 30)
    (hfit : r + 32 ≤ s) : h.found b r = (h.splitBlock b (b + 16 + s) r (s - r)).map fun h => (b + 16, h) := by
  have hsize : h.size b &&& BLOCK_SIZE = s := by
    show h.mem (b + 8) &&& BLOCK_SIZE = s
    rw [hown]
    exact hdr_and_blockSize _ _ hs16 (by omega)
  have htmp : sub s r = s - r := sub_eq (by omega) (by omega)
  have htmp' : sub (s - r) BHDR_OVERHEAD = s - r - 16 := sub_eq (show 16 ≤ s - r by omega) (by omega)
  have hfits : sizeofBhdr ≤ s - r := show 32 ≤ s - r by omega
  have hbuffer : ∀ n, getNextBlock (buffer b) n = b + 16 + n := fun _ => rfl
  unfold found splitBlock
  dsimp only
  rw [hsize, htmp, if_pos hfits, if_pos hfits, htmp', hbuffer, hbuffer]
  -- `|= PREV_FREE` writes what is there
  have hno : ∀ v w, ((h.setSize (b + 16 + r) v).setPrevHdr (b + 16 + s) w).setSize
      (b + 16 + s)
      (((h.setSize (b + 16 + r) v).setPrevHdr (b + 16 + s) w).size (b + 16 + s) |||
        PREV_FREE) = (h.setSize (b + 16 + r) v).setPrevHdr (b + 16 + s) w := by
    intro v w
    have hread : ((h.setSize (b + 16 + r) v).setPrevHdr (b + 16 + s) w).mem
        (b + 16 + s + 8) = hdr (headSize l₂) (headFree l₂) true := by
      rw [setPrevHdr_mem (by omega), setSize_mem (by omega), hnext]
    apply store_self
    rw [hread]
    show _ = TlsfT.mem _ (b + 16 + s + 8) ||| PREV_FREE
    rw [hread]
    exact (hdr_or_prev _ _ headSize_mod).symm
  rw [hno]
  unfold putIn
  cases mappingInsert (s - r - 16) with
  | none => rfl
  | some c => rfl

/-- The rest is too small for a block. -/
theorem found_whole {p : Bool} (hh : Hole base l₁ s l₂ h)
    (hown : h.mem (endAddr base l₁ + 8) = hdr s true (endLink none base l₁).isSome)
    (hnext : h.mem (endAddr base l₁ + 16 + s + 8) = hdr (headSize l₂) (headFree l₂) p)
    (hsmall : headSize l₂ < 2 ^ 30)
    (hs16 : s % 16 = 0) (hs : s < 2 ^ 30) (hle : r ≤ s) (hfit : s < r + 32) {d : Chunk} (hd : d.size = s)
    (hdf : d.free = false) :
    ∃ h', h.found (endAddr base l₁) r = some (endAddr base l₁ + 16, h') ∧ Tail h'.mem none base (l₁ ++ d :: l₂) ∧
      FreeLists (frees base (l₁ ++ d :: l₂)) h' ∧ ∀ a, Foreign base (l₁ ++ d :: l₂) a → h'.mem a = h.mem a := by
  obtain ⟨b, hb⟩ : ∃ b, b = endAddr base l₁ := ⟨_, rfl⟩
  rw [← hb] at hown hnext ⊢
  have hsize : h.size b &&& BLOCK_SIZE = s := by
    show h.mem (b + 8) &&& BLOCK_SIZE = s
    rw [hown]
    exact hdr_and_blockSize _ _ hs16 (by omega)
  obtain ⟨h₁, hh₁⟩ : ∃ h₁, h₁ = h.setSize (b + 16 + s) (hdr (headSize l₂) (headFree l₂) false) := ⟨_, rfl⟩
  obtain ⟨h₂, hh₂⟩ : ∃ h₂, h₂ = h₁.setSize b (hdr s false (endLink none base l₁).isSome) := ⟨_, rfl⟩
  have hcall : h.found b r = some (b + 16, h₂) := by
    have hnext' : h.size (b + 16 + s) &&& inv PREV_FREE = hdr (headSize l₂) (headFree l₂) false := by
      show h.mem (b + 16 + s + 8) &&& _ = _
      rw [hnext]
      exact hdr_and_inv_prev _ _ headSize_mod (by omega)
    have hown' : h₁.size b &&& inv FREE_BLOCK = hdr s false (endLink none base l₁).isSome := by
      show h₁.mem (b + 8) &&& _ = _
      rw [hh₁, setSize_mem (by omega), hown]
      exact hdr_and_inv_free _ _ hs16 (by omega)
    have hbuffer : getNextBlock (buffer b) s = b + 16 + s := rfl
    have htmp : ¬sizeofBhdr ≤ sub s r := by
      rw [sub_eq hle (by omega)]
      show ¬32 ≤ s - r
      omega
    unfold found
    dsimp only
    rw [hsize, if_neg htmp, hbuffer, hnext', ← hh₁, hown', ← hh₂]
    rfl
  have hmem : ∀ a, a ≠ b + 8 → a ≠ b + 16 + s + 8 → h₂.mem a = h.mem a := by
    intro a ha₁ ha₂
    rw [hh₂, setSize_mem ha₁, hh₁, setSize_mem ha₂]
  have hsame : Same base l₁ s l₂ h h₂ := Same.of_mem fun a ha _ => by
    rw [← hb] at ha
    exact hmem a (by omega) (by omega)
  have hno : ∀ a, endAddr base l₁ ≤ a → a < endAddr base l₁ + 32 + s →
      NoLink (frees base l₁ ++ frees (endAddr base l₁ + 16 + s) l₂) a := fun a => noLink_gap
  refine ⟨h₂, hcall, ?_, ?_, fun a ha => ?_⟩
  · refine hh.close_one hsame hd ?_ ⟨?_, fun x hx => ?_⟩
    · rw [← hb, hh₂, hdf]
      exact setSize_mem_self
    · rw [← hb, Chunk.link_used hdf, hh₂, setSize_mem (by omega), hh₁]
      exact setSize_mem_self
    · rw [Chunk.link_used hdf] at hx
      cases hx
  · rw [frees_close_used base l₁ l₂ hd hdf, hh₂, hh₁, hb]
    exact (hh.lists.store (hno _ (by omega) (by omega))).store (hno _ (by omega) (by omega))
  · have hstarts : starts base (l₁ ++ d :: l₂) = (blocks base l₁).map Prod.fst ++ b :: starts (b + 16 + s) l₂ := by
      rw [starts_append, ← hb, ← hd]
      rfl
    have hstart : ∀ y, y ∈ b :: starts (b + 16 + s) l₂ → a ≠ y ∧ a ≠ y + 8 := fun y hy =>
      ha.ne_start (hstarts ▸ List.mem_append_right _ hy)
    exact hmem a (hstart b List.mem_cons_self).2 (hstart _ (List.mem_cons_of_mem _ mem_starts_self)).2

/-! ## `malloc_ex` -/

/-- The free block `b` is of the lowest class that has a block of `r` bytes. -/
def GoodFit (base r : Nat) (cs : List Chunk) (b : Nat) : Prop :=
  ∃ s d, (b, s) ∈ frees base cs ∧ Idx.Has d s ∧ r ≤ s ∧
    ∀ x t e, (x, t) ∈ frees base cs → Idx.Has e t → r ≤ t → d.key ≤ e.key

/-- A block is larger by at most a 32nd than any of its class or a higher one. -/
theorem Idx.Has.le_add {d : Idx} {t : Nat} (hs : d.Has s) (hs16 : s % 16 = 0) (ht16 : t % 16 = 0)
    (hle : d.lower ≤ t) :
    s ≤ t + t / 32 := by
  obtain ⟨hlo, hhi⟩ := hs
  unfold Idx.lower at hle hlo hhi
  unfold Idx.width at hhi
  by_cases hzero : d.fl = 0
  · rw [if_pos hzero] at hle hhi
    rw [if_pos hzero] at hhi
    omega
  · rw [if_neg hzero] at hle hhi
    rw [if_neg hzero] at hhi
    have hwidth : 32 * 2 ^ (d.fl + 1) ≤ (32 + d.sl) * 2 ^ (d.fl + 1) := Nat.mul_le_mul_right _ (by omega)
    omega

/-- **Good fit.**  No other block that is large enough is smaller by more than a 32nd. -/
theorem GoodFit.le (hg : GoodFit base r cs b) (hi : Inv base lim cs h) :
    ∃ s, (b, s) ∈ frees base cs ∧ r ≤ s ∧ ∀ x ∈ frees base cs, r ≤ x.2 → s ≤ x.2 + x.2 / 32 := by
  obtain ⟨s, d, hs, hd, hle, hmin⟩ := hg
  refine ⟨s, hs, hle, fun ⟨x, t⟩ hx hr => ?_⟩
  obtain ⟨f, hf, -, hft⟩ := mem_frees.mp hx
  obtain ⟨e, -, he⟩ := mappingInsert_eq (hi.size_lt hf)
  rw [hft] at he
  exact hd.le_add (frees_bounds hs).2.2.2 (frees_bounds hx).2.2.2 ((Idx.key_le_iff he).mp (hmin x t e hx he hr))

/-- The pool without the block that has been found. -/
theorem Inv.hole_free (hi : Inv base lim (l₁ ++ c :: l₂) h) (hfree : c.free = true) {d : Idx} (hd : d.Has c.size)
    {h' : TlsfT}
    (hh' : h' = h.extractBlock (endAddr base l₁) d) :
    Hole base l₁ c.size l₂ h' ∧ h'.mem (endAddr base l₁ + 8) = hdr c.size true (endLink none base l₁).isSome ∧
      (∃ q, HeadAt h'.mem (some q) (endAddr base l₁ + 16 + c.size) (headSize l₂) (headFree l₂)) ∧
      ∀ a, NoLink (frees base (l₁ ++ c :: l₂)) a → h'.mem a = h.mem a := by
  have hfrees := frees_close_free base l₁ l₂ rfl hfree
  have hlists := hi.lists
  have hspread : Spread (frees base (l₁ ++ c :: l₂)) := spread_frees hi.pos
  rw [hfrees] at hlists hspread
  obtain ⟨hout, hmem⟩ := extractBlock_lists hlists hspread hd
  rw [← hfrees, ← hh'] at hmem
  rw [← hh'] at hout
  have htail : Tail h'.mem none base (l₁ ++ c :: l₂) := hi.tail.congr fun y hy =>
    ⟨hmem _ (noLink_start hy).1, hmem _ (noLink_start hy).2⟩
  rw [tail_append] at htail
  obtain ⟨hseg, hhead, hrest⟩ := htail
  rw [Chunk.link_free hfree] at hrest
  exact ⟨⟨hseg, hhead.2, ⟨_, hrest⟩, hout⟩, hfree ▸ hhead.1, ⟨_, hrest.head⟩, hmem⟩

/-- The first block of a list is found. -/
theorem Inv.hole_found {L : Idx → List Nat} (hi : Inv base lim (l₁ ++ c :: l₂) h)
    (hL : Listed L (frees base (l₁ ++ c :: l₂)) h)
    (hfree : c.free = true) {d : Idx} (hd : d.Has c.size) (hb : endAddr base l₁ = h.matrix d)
    (hmem : endAddr base l₁ ∈ L d)
    {h' : TlsfT} (hh' : h' = h.extractBlockHdr (endAddr base l₁) d) :
    Hole base l₁ c.size l₂ h' ∧ h'.mem (endAddr base l₁ + 8) = hdr c.size true (endLink none base l₁).isSome ∧
      (∃ q, HeadAt h'.mem (some q) (endAddr base l₁ + 16 + c.size) (headSize l₂) (headFree l₂)) ∧
      ∀ a, NoLink (frees base (l₁ ++ c :: l₂)) a → h'.mem a = h.mem a := by
  have hb0 : h.matrix d ≠ 0 := fun hzero => hL.ne_zero hmem (hb.trans hzero)
  have hprev : h.prev (endAddr base l₁) = 0 := by
    rw [hb]
    exact (hL.dll d).prev_head hb0
  obtain ⟨m₁, m₂, hsplit⟩ := List.append_of_mem hmem
  have hlinked := (hL.linked (spread_frees hi.pos) hsplit).1
  exact hi.hole_free hfree hd (hh'.trans (extractBlockHdr_eq hlinked hb.symm hprev))

/-- **`malloc_ex`** returns no block exactly if no free block has the size that is needed; otherwise it takes a
block of the lowest class that has a block of that size. -/
theorem mallocEx_eq (hi : Inv base lim cs h) {n : Nat} (hn : n ≤ 2 ^ 30 - 2 ^ 24) :
    (h.mallocEx n = some (0, h) ∧ ∀ x ∈ frees base cs, x.2 < need n) ∨
      ∃ b cs' h', h.mallocEx n = some (b + 16, h') ∧ Takes base (need n) cs b cs' ∧ GoodFit base (need n) cs b ∧
        Inv base lim cs' h' ∧ ∀ a, Foreign base cs a → h'.mem a = h.mem a := by
  obtain ⟨h16, hmod, -, hup⟩ := blockSize_bounds (n := n) (by omega)
  obtain ⟨r16, rmod, -⟩ := need_bounds (n := n) (by omega)
  obtain ⟨c, hsearch, hlower⟩ := mappingSearch_eq hmod (by omega)
  obtain ⟨L, hL⟩ := hi.lists
  obtain ⟨b, d, hfind, hcase⟩ := findSuitableBlock_eq hL c
  -- a free block is large enough if its class is not below the one that is searched for
  have hclass : ∀ {x s}, (x, s) ∈ frees base cs → ∃ e : Idx, e.Has s ∧ x ∈ L e ∧ (c.key ≤ e.key ↔ need n ≤ s) := by
    intro x s hx
    obtain ⟨f, hf, -, rfl⟩ := mem_frees.mp hx
    obtain ⟨e, -, he⟩ := mappingInsert_eq (hi.size_lt hf)
    refine ⟨e, he, (hL.mem e x).mpr ⟨_, hx, he⟩, ?_⟩
    rw [Idx.key_le_iff he, hlower]
    rfl
  have hcall : h.mallocEx n = if b = 0 then some (0, h) else (h.extractBlockHdr b d).found b (need n) := by
    unfold mallocEx
    dsimp only
    rw [hsearch]
    show (h.findSuitableBlock c).bind _ = _
    rw [hfind]
    rfl
  rcases hcase with ⟨rfl, hnone⟩ | ⟨hb, hne, hle, hmin⟩
  · left
    refine ⟨hcall, fun x hx => ?_⟩
    obtain ⟨e, -, hmem, hiff⟩ := hclass hx
    by_contra hge
    rw [hnone e (hiff.mpr (by omega))] at hmem
    cases hmem
  · right
    have hb0 : b ≠ 0 := by
      rw [hb]
      exact fun hzero => hne (hL.matrix_eq_zero.mp hzero)
    have hbL : b ∈ L d := by
      rw [hb]
      exact hL.matrix_mem (hb ▸ hb0)
    obtain ⟨s, hs, hhas⟩ := (hL.mem d b).mp hbL
    have hfit : need n ≤ s := by
      rw [← show c.lower = need n from hlower]
      exact (Idx.key_le_iff hhas).mp hle
    have hgood : GoodFit base (need n) cs b := by
      refine ⟨s, d, hs, hhas, hfit, fun x t e hx he hr => ?_⟩
      obtain ⟨e', he', hmem, hiff⟩ := hclass hx
      rw [Idx.has_unique he he']
      exact hmin e' (hiff.mpr hr) (List.ne_nil_of_mem hmem)
    obtain ⟨f, hf, hfree, rfl⟩ := mem_frees.mp hs
    have hslt := hi.size_lt hf
    have hs16 := f.size_mod
    obtain ⟨l₁, l₂, rfl, rfl⟩ := split_blocks hf
    obtain ⟨h₁, hh₁⟩ : ∃ h₁, h₁ = h.extractBlockHdr (endAddr base l₁) d := ⟨_, rfl⟩
    obtain ⟨hhole, hown, ⟨q, hnext⟩, hmem⟩ := hi.hole_found hL hfree hhas hb hbL hh₁
    rw [← hh₁] at hcall
    rw [if_neg hb0] at hcall
    have hbound : endAddr (endAddr base l₁ + 16 + f.size) l₂ = lim := by
      have := hi.stop
      rw [endAddr_append] at this
      exact this
    have hinv : ∀ {cs' h'}, Takes base (need n) (l₁ ++ f :: l₂) (endAddr base l₁) cs' → Tail h'.mem none base cs' →
        FreeLists (frees base cs') h' → Inv base lim cs' h' := fun ht htail hlists =>
      ⟨hi.pos, ht.endAddr_eq.trans hi.stop, hi.small, htail, hlists, ht.coalesced hi.coalesced⟩
    rcases Nat.lt_or_ge f.size (need n + 32) with hsmall | hlarge
    · obtain ⟨e, he, hef⟩ : ∃ e : Chunk, e.size = f.size ∧ e.free = false :=
        ⟨⟨f.size, false, f.size_mod, f.size_ge⟩, rfl, rfl⟩
      have hhead : headSize l₂ < 2 ^ 30 := by
        have := headSize_le (endAddr base l₁ + 16 + f.size) l₂
        have := (mem_blocks_bounds hf).1
        have := hi.small
        omega
      obtain ⟨h', hfound, htail, hlists, hkept⟩ :=
        found_whole hhole hown hnext.1 hhead hs16 hslt hfit hsmall he hef
      have ht : Takes base (need n) (l₁ ++ f :: l₂) (endAddr base l₁) (l₁ ++ e :: l₂) :=
        .whole hfree hef he hfit hsmall
      refine ⟨_, _, h', hcall.trans hfound, ht, hgood, hinv ht htail hlists, fun a ha => ?_⟩
      rw [hkept a (ht.foreign ha), hmem a ha.noLink]
    · obtain ⟨h', e, g, hcall', he, hef, hg, heg, htail, hlists, hkept⟩ :=
        splitBlock_eq hhole hi.pos hown hs16 rmod r16 hs16 hlarge hslt
      have ht : Takes base (need n) (l₁ ++ f :: l₂) (endAddr base l₁) (l₁ ++ e :: g :: l₂) :=
        .split hfree hef hg he heg
      refine ⟨_, _, h', ?_, ht, hgood, hinv ht htail hlists, fun a ha => ?_⟩
      · rw [hcall, found_split hown hnext.1 hs16 hslt hlarge, hcall', Option.map_some]
      · rw [hkept a (ht.foreign ha), hmem a ha.noLink]

/-- Whatever is free, a request of more than `2 ^ 30 - 2 ^ 24` bytes leaves the tables. -/
theorem mallocEx_none {n : Nat} (hlo : 2 ^ 30 - 2 ^ 24 < n) (hhi : n ≤ 2 ^ 32 - 16) : h.mallocEx n = none := by
  have hsize : blockSize n = 16 * ((n + 15) / 16) := by
    unfold blockSize MIN_BLOCK_SIZE
    rw [if_neg (by omega), roundupSize_eq (by omega)]
  have hnone : mappingSearch (blockSize n) = none := mappingSearch_none (by omega) (by omega)
  unfold mallocEx
  dsimp only
  rw [hnone]
  rfl

theorem mallocEx_isSome_iff (hi : Inv base lim cs h) {n : Nat} (hn : n ≤ 2 ^ 32 - 16) :
    (h.mallocEx n).isSome ↔ n ≤ 2 ^ 30 - 2 ^ 24 := by
  constructor
  · intro hsome
    by_contra hgt
    rw [mallocEx_none (by omega) hn] at hsome
    cases hsome
  · intro hle
    rcases mallocEx_eq hi hle with ⟨hcall, -⟩ | ⟨b, cs', h', hcall, -⟩
    · rw [hcall]
      rfl
    · rw [hcall]
      rfl

/-! ## A request that wraps around -/

theorem blockSize_wrap {n : Nat} (hlo : 2 ^ 64 - 16 < n) (hhi : n < 2 ^ 64) : blockSize n = 0 := by
  have hadd : add n MEM_ALIGN = n + 15 - 2 ^ 64 := by
    unfold add MEM_ALIGN
    omega
  have hround : n + 15 - 2 ^ 64 &&& inv MEM_ALIGN = 16 * ((n + 15 - 2 ^ 64) / 16) :=
    Bits.and_high 4 64 _ (by omega) (by omega)
  unfold blockSize MIN_BLOCK_SIZE roundupSize
  rw [if_neg (by omega), hadd, hround]
  omega

/-- `found` with a size of 0 leaves a block that is too small for anything. -/
theorem found_zero {p : Bool} (hown : h.mem (b + 8) = hdr s true p) (hs16 : s % 16 = 0) (hs0 : 16 ≤ s)
    (hs : s < 2 ^ 30) :
    ∃ h', h.found b 0 = some (b + 16, h') ∧ h'.size b &&& BLOCK_SIZE ≤ 16 := by
  have hsize : h.size b &&& BLOCK_SIZE = s := by
    show h.mem (b + 8) &&& BLOCK_SIZE = s
    rw [hown]
    exact hdr_and_blockSize _ _ hs16 (by omega)
  have htmp : sub s 0 = s := sub_eq (Nat.zero_le _) (by omega)
  by_cases hfit : 32 ≤ s
  · obtain ⟨c, hc, -⟩ := mappingInsert_eq (show s - 16 < 2 ^ 30 by omega)
    have htmp' : sub s BHDR_OVERHEAD = s - 16 := sub_eq (show 16 ≤ s by omega) (by omega)
    obtain ⟨h₁, hh₁⟩ : ∃ h₁, h₁ = TlsfT.insertBlock (b + 16) c
        ((h.setSize (b + 16) (s - 16 ||| FREE_BLOCK ||| PREV_USED)).setPrevHdr (b + 16 + s) (b + 16)) := ⟨_, rfl⟩
    refine ⟨h₁.setSize b (0 ||| (h₁.size b &&& PREV_STATE)), ?_, ?_⟩
    · have hbuffer : getNextBlock (buffer b) s = b + 16 + s := rfl
      have hbuffer' : getNextBlock (buffer b) 0 = b + 16 := rfl
      unfold found
      dsimp only
      rw [hsize, htmp, if_pos (show sizeofBhdr ≤ s from hfit), htmp', hbuffer, hbuffer', hc, hh₁]
      rfl
    · have hmask : ∀ x, (0 ||| (x &&& PREV_STATE)) &&& BLOCK_SIZE = 0 := by
        intro x
        rw [Nat.zero_or, Nat.and_assoc]
        exact Nat.and_zero x
      show TlsfT.mem _ (b + 8) &&& BLOCK_SIZE ≤ 16
      rw [setSize_mem_self, hmask]
      omega
  · obtain ⟨h₁, hh₁⟩ : ∃ h₁, h₁ = h.setSize (b + 16 + s) (h.size (b + 16 + s) &&& inv PREV_FREE) := ⟨_, rfl⟩
    refine ⟨h₁.setSize b (h₁.size b &&& inv FREE_BLOCK), ?_, ?_⟩
    · have hbuffer : getNextBlock (buffer b) s = b + 16 + s := rfl
      unfold found
      dsimp only
      rw [hsize, htmp, if_neg (show ¬sizeofBhdr ≤ s from hfit), hbuffer, hh₁]
      rfl
    · have hown₁ : h₁.size b = hdr s true p := by
        show h₁.mem (b + 8) = _
        rw [hh₁, setSize_mem (by omega), hown]
      show TlsfT.mem _ (b + 8) &&& BLOCK_SIZE ≤ 16
      rw [setSize_mem_self, hown₁, hdr_and_inv_free _ _ hs16 (by omega), hdr_and_blockSize _ _ hs16 (by omega)]
      omega

/-- **A request of more than `2 ^ 64 - 16` bytes** wraps around to 0: it gets a block of at most 16 bytes as long
as any is free. -/
theorem mallocEx_wrap (hi : Inv base lim cs h) {n : Nat} (hlo : 2 ^ 64 - 16 < n) (hhi : n < 2 ^ 64) :
    (h.mallocEx n = some (0, h) ∧ frees base cs = []) ∨
      ∃ b s h', h.mallocEx n = some (b + 16, h') ∧ (b, s) ∈ frees base cs ∧ h'.size b &&& BLOCK_SIZE ≤ 16 := by
  obtain ⟨L, hL⟩ := hi.lists
  obtain ⟨c, hsearch, hlower⟩ := mappingSearch_eq (r := 0) rfl (by omega)
  have hzero : searchSize 0 = 0 := rfl
  rw [hzero] at hsearch hlower
  obtain ⟨b, d, hfind, hcase⟩ := findSuitableBlock_eq hL c
  have hcall : h.mallocEx n = if b = 0 then some (0, h) else (h.extractBlockHdr b d).found b 0 := by
    unfold mallocEx
    dsimp only
    rw [blockSize_wrap hlo hhi, hsearch]
    show (h.findSuitableBlock c).bind _ = _
    rw [hfind]
    rfl
  rcases hcase with ⟨rfl, hnone⟩ | ⟨hb, hne, -, -⟩
  · left
    refine ⟨hcall, List.eq_nil_iff_forall_not_mem.mpr fun ⟨x, s⟩ hx => ?_⟩
    obtain ⟨f, hf, -, rfl⟩ := mem_frees.mp hx
    obtain ⟨e, -, he⟩ := mappingInsert_eq (hi.size_lt hf)
    have hmem : x ∈ L e := (hL.mem e x).mpr ⟨_, hx, he⟩
    rw [hnone e ((Idx.key_le_iff he).mpr (by omega))] at hmem
    cases hmem
  · right
    have hb0 : b ≠ 0 := by
      rw [hb]
      exact fun hzero => hne (hL.matrix_eq_zero.mp hzero)
    have hbL : b ∈ L d := by
      rw [hb]
      exact hL.matrix_mem (hb ▸ hb0)
    obtain ⟨s, hs, hhas⟩ := (hL.mem d b).mp hbL
    obtain ⟨f, hf, hfree, rfl⟩ := mem_frees.mp hs
    have hslt := hi.size_lt hf
    obtain ⟨l₁, l₂, rfl, rfl⟩ := split_blocks hf
    obtain ⟨-, hown, -⟩ := hi.hole_found hL hfree hhas hb hbL rfl
    rw [if_neg hb0] at hcall
    obtain ⟨h', hfound, hsmall⟩ := found_zero hown f.size_mod f.size_ge hslt
    exact ⟨_, f.size, h', hcall.trans hfound, hs, hsmall⟩

end Sqkio.Common.TlsfT
