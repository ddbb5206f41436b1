import Sqkio.Tlsf.Malloc
import Sqkio.Tlsf.Free

/-!
# `realloc_ex`

    the block is large enough                    it stays, and what is behind it is put together
    it is with the free block behind it          it stays
    otherwise                                    a new block gets the contents

A block that stays has at least the size that was asked for (`Resized`).  If there is no new block, the old one
stays as it is.
-/

namespace Sqkio.Common.TlsfT

variable {h : TlsfT} {a b r s base lim : Nat} {c : Chunk} {cs cs' l₁ l₂ : List Chunk}

/-! ## A block that stays -/

/-- The block `b` has `r` bytes now, or too few more for a block, and no other has changed. -/
structure Resized (base b r : Nat) (cs cs' : List Chunk) : Prop where
  endAddr_eq : endAddr base cs' = endAddr base cs
  self : ∃ d, r ≤ d.size ∧ d.size < r + 32 ∧ InUse base cs' b d
  other : ∀ y c, y ≠ b → (InUse base cs' y c ↔ InUse base cs y c)

theorem inUse_mid {d : Chunk} {m : List Chunk} {y : Nat} (hm : ∀ x ∈ m, x.free = true)
    (hy : y ≠ endAddr base l₁) : InUse base (l₁ ++ d :: (m ++ l₂)) y c ↔
      InUse base l₁ y c ∨ InUse (endAddr (endAddr base l₁ + 16 + d.size) m) l₂ y c := by
  rw [inUse_append, inUse_cons, inUse_append, or_iff_right fun hand : d.free = false ∧ _ => hy hand.2.1,
    or_iff_right (not_inUse_of_free hm y)]

/-- The chunks from the block up to `l₂` have been put together differently. -/
theorem Resized.mk_mid {d e : Chunk} (m m' : List Chunk) (he : e.free = false) (hr : r ≤ e.size)
    (hr' : e.size < r + 32)
    (hm : ∀ x ∈ m, x.free = true) (hm' : ∀ x ∈ m', x.free = true)
    (hend : endAddr (endAddr base l₁ + 16 + e.size) m' = endAddr (endAddr base l₁ + 16 + d.size) m) :
    Resized base (endAddr base l₁) r (l₁ ++ d :: (m ++ l₂)) (l₁ ++ e :: (m' ++ l₂)) := by
  refine ⟨?_, ⟨e, hr, hr', ?_⟩, fun y c hy => ?_⟩
  · rw [endAddr_append, endAddr_append]
    show endAddr (_ + 16 + e.size) (m' ++ l₂) = endAddr (_ + 16 + d.size) (m ++ l₂)
    rw [endAddr_append, endAddr_append, hend]
  · exact inUse_append.mpr (.inr (inUse_cons.mpr (.inl ⟨he, rfl, rfl⟩)))
  · rw [inUse_mid hm hy, inUse_mid hm' hy, hend]

theorem Inv.size_eq (hi : Inv base lim cs h) (hb : InUse base cs b c) : h.size b &&& BLOCK_SIZE = c.size := by
  have hslt := hi.size_lt hb.1
  obtain ⟨l₁, l₂, rfl, rfl⟩ := split_blocks hb.1
  exact size_own (hi.hole_used hb.2).2.1 c.size_mod hslt

theorem singleton_free {n : Chunk} (hn : n.free = true) : ∀ x ∈ [n], x.free = true := by
  intro x hx
  rw [List.mem_singleton.mp hx]
  exact hn

/-- `splitBlock` of a block in use that has no free one behind it. -/
theorem splitBlock_used (hi : Inv base lim (l₁ ++ c :: l₂) h) (hc : c.free = false) (hnext : headFree l₂ = false)
    (hr16 : r % 16 = 0) (hr : 16 ≤ r) (hle : r ≤ c.size) :
    ∃ cs' h', h.splitBlock (endAddr base l₁) (endAddr base l₁ + 16 + c.size) r (c.size - r) = some h' ∧
      Inv base lim cs' h' ∧
      Resized base (endAddr base l₁) r (l₁ ++ c :: l₂) cs' ∧ ∀ a, Foreign base cs' a → h'.mem a = h.mem a := by
  have hmem : (endAddr base l₁, c) ∈ blocks base (l₁ ++ c :: l₂) := by
    rw [blocks_append]
    exact List.mem_append_right _ List.mem_cons_self
  have hslt := hi.size_lt hmem
  obtain ⟨hh, hown, -⟩ := hi.hole_used hc
  rcases Nat.lt_or_ge c.size (r + 32) with hsmall | hlarge
  · refine ⟨_, h, ?_, hi, ?_, fun _ _ => rfl⟩
    · unfold splitBlock
      exact if_neg (show ¬32 ≤ c.size - r by omega)
    · exact Resized.mk_mid [] [] hc hle hsmall (by simp) (by simp) rfl
  · obtain ⟨h', d, e, hcall, hd, hdf, hef, hde, htail, hlists, hkept⟩ :=
      splitBlock_eq hh hi.pos hown c.size_mod hr16 hr c.size_mod hlarge hslt
    have hend : endAddr base l₁ + 16 + d.size + 16 + e.size = endAddr base l₁ + 16 + c.size := by omega
    have hres : Resized base (endAddr base l₁) r (l₁ ++ c :: l₂) (l₁ ++ d :: e :: l₂) :=
      Resized.mk_mid [] [e] hdf (by omega) (by omega) (by simp) (singleton_free hef) hend
    obtain ⟨hc₁, hc₂⟩ := (coalesced_used hc).mp hi.coalesced
    refine ⟨_, h', hcall, ⟨hi.pos, hres.endAddr_eq.trans hi.stop, hi.small, htail, hlists, ?_⟩, hres, hkept⟩
    exact (coalesced_used hdf).mpr ⟨hc₁, coalesced_cons.mpr ⟨hc₂, fun _ => hnext⟩⟩

/-- What a free block behind `c` means for the header. -/
theorem Inv.next_free (hi : Inv base lim (l₁ ++ c :: l₂) h) (hc : c.free = false) :
    h.size (endAddr base l₁ + 16 + c.size) &&& FREE_BLOCK = (headFree l₂).toNat := by
  unfold size
  rw [(hi.hole_used hc).2.2]
  exact hdr_and_free _ _ headSize_mod

theorem Inv.next_size (hi : Inv base lim (l₁ ++ c :: l₂) h) (hc : c.free = false) :
    h.size (endAddr base l₁ + 16 + c.size) &&& BLOCK_SIZE = headSize l₂ := by
  have hsmall := hi.small
  have hstop := hi.stop
  rw [endAddr_append] at hstop
  change endAddr (endAddr base l₁ + 16 + c.size) l₂ = lim at hstop
  have hle := headSize_le (endAddr base l₁ + 16 + c.size) l₂
  have hle' := le_endAddr base l₁
  exact size_own (hi.hole_used hc).2.2 headSize_mod (by omega)

/-- The first branch of `realloc_ex`. -/
theorem reallocShrink_eq (hi : Inv base lim cs h) (hb : InUse base cs b c) (hr16 : r % 16 = 0) (hr : 16 ≤ r)
    (hle : r ≤ c.size) :
    ∃ cs' h', h.reallocShrink b r = some (b + 16, h') ∧ Inv base lim cs' h' ∧ Resized base b r cs cs' ∧
      ∀ a, Foreign base cs a → Foreign base cs' a → h'.mem a = h.mem a := by
  have hsize := hi.size_eq hb
  have hslt := hi.size_lt hb.1
  have hc := hb.2
  obtain ⟨l₁, l₂, rfl, rfl⟩ := split_blocks hb.1
  obtain ⟨hh, hown, hnext⟩ := hi.hole_used hc
  have hbuffer : getNextBlock (buffer (endAddr base l₁)) c.size = endAddr base l₁ + 16 + c.size := rfl
  have hfree := hi.next_free hc
  cases hhead : headFree l₂ with
  | false =>
    obtain ⟨cs', h', hcall, hi', hres, hkept⟩ := splitBlock_used hi hc hhead hr16 hr hle
    refine ⟨cs', h', ?_, hi', hres, fun a _ ha => hkept a ha⟩
    unfold reallocShrink
    rw [hsize, hbuffer]
    dsimp only
    rw [hfree, hhead, if_neg (by decide)]
    show (h.splitBlock _ _ r (sub c.size r)).bind _ = _
    rw [sub_eq hle (by omega), hcall]
    rfl
  | true =>
    obtain ⟨n, l₃, rfl, hn⟩ := exists_of_headFree hhead
    have hn16 := n.size_mod
    have hn0 := n.size_ge
    have hc16 := c.size_mod
    have hnsize := hi.next_size hc
    rw [headSize_cons] at hnsize
    have hnlt : c.size + 16 + n.size < 2 ^ 30 := by
      have hstop := hi.stop
      rw [endAddr_append] at hstop
      have hend : endAddr base l₁ + 16 + c.size + 16 + n.size ≤ lim := hstop ▸ le_endAddr _ _
      have := hi.small
      have := le_endAddr base l₁
      omega
    obtain ⟨h₁, htake, hh₁, hmem₁⟩ := takeOut_next hh hi.pos hn (by omega)
    have hown₁ := (hmem₁ _ (noLink_gap (by omega) (by omega))).trans hown
    have hnsize₁ : h₁.size (endAddr base l₁ + 16 + c.size) &&& BLOCK_SIZE = n.size := by
      rw [← hnsize]
      unfold size
      rw [hmem₁ _ (noLink_gap (by omega) (by omega))]
    obtain ⟨h', d, e, hcall, hd, hdf, hef, hde, htail, hlists, hkept⟩ :=
      splitBlock_eq hh₁ hi.pos hown₁ hc16 hr16 hr (by omega) (by omega) hnlt
    have hend : endAddr base l₁ + 16 + d.size + 16 + e.size =
        endAddr base l₁ + 16 + c.size + 16 + n.size := by omega
    have hres : Resized base (endAddr base l₁) r (l₁ ++ c :: n :: l₃) (l₁ ++ d :: e :: l₃) :=
      Resized.mk_mid [n] [e] hdf (by omega) (by omega) (singleton_free hn) (singleton_free hef) hend
    obtain ⟨hc₁, hc₂⟩ := (coalesced_used hc).mp hi.coalesced
    rw [coalesced_cons] at hc₂
    refine ⟨_, h', ?_, ⟨hi.pos, hres.endAddr_eq.trans hi.stop, hi.small, htail, hlists, ?_⟩, hres,
      fun a ha ha' => ?_⟩
    · have htmp : add c.size (add n.size BHDR_OVERHEAD) = c.size + 16 + n.size := by
        unfold add BHDR_OVERHEAD
        omega
      have hnext' : getNextBlock (buffer (endAddr base l₁ + 16 + c.size)) n.size =
          endAddr base l₁ + 16 + (c.size + 16 + n.size) := by
        show endAddr base l₁ + 16 + c.size + 16 + n.size = _
        omega
      unfold reallocShrink
      rw [hsize, hbuffer]
      dsimp only
      rw [hfree, hhead, if_pos (show true.toNat ≠ 0 by decide), htake, Option.map_some, hnsize₁, hnext', htmp]
      show (h₁.splitBlock _ _ r (sub (c.size + 16 + n.size) r)).bind _ = _
      rw [sub_eq (by omega) (by omega), hcall]
      rfl
    · exact (coalesced_used hdf).mpr ⟨hc₁, coalesced_cons.mpr ⟨hc₂.1, fun _ => hc₂.2 hn⟩⟩
    · rw [hkept a ha']
      exact hmem₁ a (frees_close_used base l₁ (n :: l₃) rfl hc ▸ ha.noLink)

/-- The block takes in the free one behind it, before it is split. -/
theorem grow_next {n : Chunk} {l₃ : List Chunk} (hi : Inv base lim (l₁ ++ c :: n :: l₃) h) (hc : c.free = false)
    (hn : n.free = true) {d : Chunk} (hd : d.size = c.size + 16 + n.size) (hdf : d.free = false) :
    ∃ h₁ h', h.takeOut (endAddr base l₁ + 16 + c.size) = some h₁ ∧
      add (h₁.size (endAddr base l₁)) (add (h₁.size (endAddr base l₁ + 16 + c.size) &&& BLOCK_SIZE)
      BHDR_OVERHEAD) =
        hdr d.size false (endLink none base l₁).isSome ∧
      h' = (TlsfT.setPrevHdr (h₁.setSize (endAddr base l₁) (hdr d.size false (endLink none base l₁).isSome))
        (endAddr base l₁ + 16 + d.size) (endAddr base l₁)).setSize (endAddr base l₁ + 16 + d.size)
          ((TlsfT.setPrevHdr (h₁.setSize (endAddr base l₁) (hdr d.size false (endLink none base l₁).isSome))
            (endAddr base l₁ + 16 + d.size) (endAddr base l₁)).size (endAddr base l₁ + 16 + d.size) &&& inv
            PREV_FREE) ∧
      Inv base lim (l₁ ++ d :: l₃) h' ∧ Resized base (endAddr base l₁) d.size (l₁ ++ c :: n :: l₃)
      (l₁ ++ d :: l₃) ∧
      headFree l₃ = false ∧ ∀ a, Foreign base (l₁ ++ c :: n :: l₃) a → h'.mem a = h.mem a := by
  obtain ⟨b, hb⟩ : ∃ b, b = endAddr base l₁ := ⟨_, rfl⟩
  have hc16 := c.size_mod
  have hn16 := n.size_mod
  obtain ⟨hh, hown, -⟩ := hi.hole_used hc
  have hnsize := hi.next_size hc
  rw [headSize_cons] at hnsize
  have hdlim : b + 16 + d.size + headSize l₃ ≤ lim := by
    have hstop := hi.stop
    rw [endAddr_append] at hstop
    have hend : endAddr (endAddr base l₁ + 16 + c.size + 16 + n.size) l₃ = lim := hstop
    have hle := headSize_le (endAddr base l₁ + 16 + c.size + 16 + n.size) l₃
    omega
  have hlim := hi.small
  have hle := le_endAddr base l₁
  obtain ⟨h₁, htake, hh₁, hmem₁⟩ := takeOut_next hh hi.pos hn (by omega)
  rw [← hd] at hh₁
  have hadd : add (h₁.size (endAddr base l₁)) (add (h₁.size (endAddr base l₁ + 16 + c.size) &&& BLOCK_SIZE)
    BHDR_OVERHEAD) =
      hdr d.size false (endLink none base l₁).isSome := by
    have hown₁ : h₁.size (endAddr base l₁) = hdr c.size false (endLink none base l₁).isSome :=
      (hmem₁ _ (noLink_gap (by omega) (by omega))).trans hown
    have hnsize₁ : h₁.size (endAddr base l₁ + 16 + c.size) &&& BLOCK_SIZE = n.size := by
      rw [← hnsize]
      unfold size
      rw [hmem₁ _ (noLink_gap (by omega) (by omega))]
    rw [hown₁, hnsize₁, add_overhead (by omega), hd]
  obtain ⟨q, hnext⟩ := hh₁.size_next
  rw [← hb] at hnext
  obtain ⟨h₂, hh₂⟩ : ∃ h₂, h₂ = TlsfT.setPrevHdr (h₁.setSize b (hdr d.size false (endLink none base l₁).isSome))
    (b + 16 + d.size) b :=
    ⟨_, rfl⟩
  have hnext₂ : h₂.size (b + 16 + d.size) &&& inv PREV_FREE = hdr (headSize l₃) (headFree l₃) false := by
    show h₂.mem (b + 16 + d.size + 8) &&& _ = _
    rw [hh₂, setPrevHdr_mem (by omega), setSize_mem (by omega), hnext]
    exact hdr_and_inv_prev _ _ headSize_mod (by omega)
  obtain ⟨h₃, hh₃⟩ : ∃ h₃, h₃ = h₂.setSize (b + 16 + d.size) (hdr (headSize l₃) (headFree l₃) false) := ⟨_, rfl⟩
  have hmem₃ : ∀ a, a ≠ b + 8 → a ≠ b + 16 + d.size → a ≠ b + 16 + d.size + 8 → h₃.mem a = h₁.mem a := by
    intro a ha₁ ha₂ ha₃
    rw [hh₃, setSize_mem ha₃, hh₂, setPrevHdr_mem ha₂, setSize_mem ha₁]
  have hsame : Same base l₁ d.size l₃ h₁ h₃ := Same.of_mem fun a ha _ => by
    rw [← hb] at ha
    exact hmem₃ a (by omega) (by omega) (by omega)
  have htail : Tail h₃.mem none base (l₁ ++ d :: l₃) := by
    refine hh₁.close_one hsame rfl ?_ ⟨?_, fun x hx => ?_⟩
    · rw [← hb, hh₃, setSize_mem (by omega), hh₂, setPrevHdr_mem (by omega), hdf]
      exact setSize_mem_self
    · rw [Chunk.link_used hdf, ← hb, hh₃]
      exact setSize_mem_self
    · rw [Chunk.link_used hdf] at hx
      cases hx
  have hlists : FreeLists (frees base (l₁ ++ d :: l₃)) h₃ := by
    have hno : ∀ a, endAddr base l₁ ≤ a → a < endAddr base l₁ + 32 + d.size →
        NoLink (frees base l₁ ++ frees (endAddr base l₁ + 16 + d.size) l₃) a := fun a => noLink_gap
    rw [frees_close_used base l₁ l₃ rfl hdf, hh₃, hh₂, hb]
    exact ((hh₁.lists.store (hno _ (by omega) (by omega))).store (hno _ (by omega) (by omega))).store
      (hno _ (by omega) (by omega))
  have hres : Resized base (endAddr base l₁) d.size (l₁ ++ c :: n :: l₃) (l₁ ++ d :: l₃) :=
    Resized.mk_mid [n] [] hdf (Nat.le_refl _) (by omega) (singleton_free hn) (by simp)
      (show endAddr base l₁ + 16 + d.size = endAddr base l₁ + 16 + c.size + 16 + n.size by omega)
  obtain ⟨hc₁, hc₂⟩ := (coalesced_used hc).mp hi.coalesced
  rw [coalesced_cons] at hc₂
  refine ⟨h₁, h₃, htake, hadd, ?_, ⟨hi.pos, hres.endAddr_eq.trans hi.stop, hi.small, htail, hlists,
    (coalesced_used hdf).mpr ⟨hc₁, hc₂.1⟩⟩, hres, hc₂.2 hn, fun a ha => ?_⟩
  · rw [← hb, ← hh₂, hnext₂, hh₃]
  · have hnl := ha.noLink
    rw [frees_close_used base l₁ (n :: l₃) rfl hc] at hnl
    have hstart : ∀ y, y ∈ starts base (l₁ ++ c :: n :: l₃) → a ≠ y ∧ a ≠ y + 8 := fun y hy => ha.ne_start hy
    rw [starts_append, ← hb] at hstart
    have hb₁ := hstart b (List.mem_append_right _ List.mem_cons_self)
    have hb₃ := hstart (b + 16 + c.size + 16 + n.size)
      (List.mem_append_right _ (List.mem_cons_of_mem _ (List.mem_cons_of_mem _ mem_starts_self)))
    rw [hmem₃ a (by omega) (by omega) (by omega)]
    exact hmem₁ a hnl

/-- The second branch of `realloc_ex`. -/
theorem reallocGrow_eq {n : Chunk} {l₃ : List Chunk} (hi : Inv base lim (l₁ ++ c :: n :: l₃) h)
    (hc : c.free = false)
    (hn : n.free = true) (hr16 : r % 16 = 0) (hr : 16 ≤ r) (hle : r ≤ c.size + 16 + n.size) :
    ∃ cs' h', h.reallocGrow (endAddr base l₁) r = some (endAddr base l₁ + 16, h') ∧ Inv base lim cs' h' ∧
      Resized base (endAddr base l₁) r (l₁ ++ c :: n :: l₃) cs' ∧
      ∀ a, Foreign base (l₁ ++ c :: n :: l₃) a → Foreign base cs' a → h'.mem a = h.mem a := by
  have hc16 := c.size_mod
  have hn16 := n.size_mod
  have hbin : InUse base (l₁ ++ c :: n :: l₃) (endAddr base l₁) c :=
    inUse_append.mpr (.inr (inUse_cons.mpr (.inl ⟨hc, rfl, rfl⟩)))
  have hsize := hi.size_eq hbin
  obtain ⟨d, hd, hdf⟩ : ∃ d : Chunk, d.size = c.size + 16 + n.size ∧ d.free = false :=
    ⟨⟨c.size + 16 + n.size, false, by omega, by omega⟩, rfl, rfl⟩
  obtain ⟨h₁, h₂, htake, hadd, hh₂, hi₂, hres₂, hhead, hkept₂⟩ := grow_next hi hc hn hd hdf
  have hdin : InUse base (l₁ ++ d :: l₃) (endAddr base l₁) d :=
    inUse_append.mpr (.inr (inUse_cons.mpr (.inl ⟨hdf, rfl, rfl⟩)))
  have hdlt := hi₂.size_lt hdin.1
  obtain ⟨cs', h', hcall, hi', hres, hkept⟩ := splitBlock_used hi₂ hdf hhead hr16 hr (by omega)
  refine ⟨cs', h', ?_, hi', ⟨hres.endAddr_eq.trans hres₂.endAddr_eq, hres.self, fun y e hy => ?_⟩,
    fun a ha ha' => ?_⟩
  · have hbuffer : getNextBlock (buffer (endAddr base l₁)) c.size = endAddr base l₁ + 16 + c.size := rfl
    have hown : ∀ h' : TlsfT, (h'.setSize (endAddr base l₁) (hdr d.size false (endLink none base l₁).isSome)).size
        (endAddr base l₁) &&& BLOCK_SIZE = d.size := fun h' => size_own setSize_mem_self d.size_mod hdlt
    have hnext : getNextBlock (buffer (endAddr base l₁)) d.size = endAddr base l₁ + 16 + d.size := rfl
    unfold reallocGrow
    rw [hsize, hbuffer]
    show (TlsfT.takeOut _ _).bind _ = _
    rw [htake, Option.bind_some]
    dsimp only
    rw [hadd, hown, hnext, ← hh₂, hi₂.size_eq hdin, sub_eq (by omega) (by omega)]
    show (TlsfT.splitBlock _ _ _ _ _).bind _ = _
    rw [hcall]
    rfl
  · rw [hres.other y e hy, hres₂.other y e hy]
  · rw [hkept a ha', hkept₂ a ha]

/-! ## A block that moves -/

/-- The block `b` is at `b'` now, with `r` bytes or as many as a request of `r` bytes may get, and no other has
changed. -/
structure Moved (base b r : Nat) (cs : List Chunk) (b' : Nat) (cs' : List Chunk) : Prop where
  endAddr_eq : endAddr base cs' = endAddr base cs
  self : ∃ d, r ≤ d.size ∧ d.size < need r + 32 ∧ InUse base cs' b' d
  fresh : b' = b ∨ ∀ c, ¬InUse base cs b' c
  other : ∀ y c, y ≠ b' → (InUse base cs' y c ↔ InUse base cs y c ∧ y ≠ b)

theorem Resized.moved (hr : Resized base b r cs cs') (hmax : r ≤ 2 ^ 64 - 16) : Moved base b r cs b cs' := by
  obtain ⟨d, hge, hlt, hin⟩ := hr.self
  have hneed := (need_bounds hmax).2.2
  refine ⟨hr.endAddr_eq, ⟨d, hge, by omega, hin⟩, .inl rfl, fun y c hy => ?_⟩
  rw [hr.other y c hy, and_iff_left hy]

theorem blockSize_self {m : Nat} (h16 : m % 16 = 0) (hm : 16 ≤ m) (hlt : m ≤ 2 ^ 64 - 16) : blockSize m = m := by
  unfold blockSize MIN_BLOCK_SIZE
  rw [if_neg (by omega), roundupSize_eq hlt]
  omega

/-- The last branch of `realloc_ex`. -/
theorem reallocMove_eq (hi : Inv base lim cs h) (hb : InUse base cs b c) (hr16 : r % 16 = 0) (hr : 16 ≤ r)
    (hr30 : r ≤ 2 ^ 30 - 2 ^ 24) (hlt : c.size < r) :
    (h.reallocMove (b + 16) r = some (0, h) ∧ ∀ x ∈ frees base cs, x.2 < need r) ∨
      ∃ b' cs' h', h.reallocMove (b + 16) r = some (b' + 16, h') ∧ Inv base lim cs' h' ∧ Moved base b r cs b' cs' ∧
        (∀ i, i < c.size → h'.mem (b' + 16 + i) = h.mem (b + 16 + i)) ∧
        ∀ a, Foreign base cs a → Foreign base cs' a → h'.mem a = h.mem a := by
  rcases mallocEx_eq hi hr30 with ⟨hcall, hnone⟩ | ⟨b', cs₁, h₁, hcall, ht, -, hi₁, hkept₁⟩
  · left
    refine ⟨?_, hnone⟩
    unfold reallocMove
    rw [hcall]
    rfl
  · right
    obtain ⟨d, hd, hd', hdf, hfresh, hiff⟩ := ht.inUse
    have hneed := (need_bounds (n := r) (by omega)).2.2
    have hbb' : b ≠ b' := fun heq => hfresh c (heq ▸ hb)
    have hb₁ : InUse base cs₁ b c := (hiff b c).mpr (.inl hb)
    have hd₁ : InUse base cs₁ b' d := (hiff b' d).mpr (.inr ⟨rfl, rfl⟩)
    have hclt := hi.size_lt hb.1
    -- the contents are copied
    obtain ⟨h₂, hh₂⟩ : ∃ h₂, h₂ = h₁.memcpy (b' + 16) (b + 16) c.size := ⟨_, rfl⟩
    have hmem₂ : ∀ a, h₂.mem a = if b' + 16 ≤ a ∧ a < b' + 16 + c.size then h₁.mem (b + 16 + (a - (b' + 16)))
        else h₁.mem a := by
      intro a
      rw [hh₂]
      rfl
    have hi₂ : Inv base lim cs₁ h₂ := by
      refine hi₁.write (fun a ha => ?_) (by rw [hh₂]; rfl) (by rw [hh₂]; rfl) (by rw [hh₂]; rfl)
      rw [hmem₂, if_neg]
      exact fun hin => ha ⟨b', d, hd₁, hin.1, by omega⟩
    obtain ⟨cs₂, h₃, hfree, hf, hi₃, hkept₃⟩ := freeEx_eq hi₂ hb₁
    have hd₂ : InUse base cs₂ b' d := (hf.inUse b' d).mpr ⟨hd₁, hbb'.symm⟩
    refine ⟨b', cs₂, h₃, ?_, hi₃, ⟨?_, ⟨d, by omega, hd', hd₂⟩, .inr hfresh, fun y e hy => ?_⟩, fun i hic => ?_,
      fun a ha ha' => ?_⟩
    · have hptr : b + 16 - BHDR_OVERHEAD = b := Nat.add_sub_cancel (n := b) (m := 16)
      have hne : ¬b' + 16 = 0 := by omega
      have hcp : (if r < c.size then r else c.size) % 2 ^ 32 = c.size := by
        rw [if_neg (by omega)]
        exact Nat.mod_eq_of_lt (by omega)
      unfold reallocMove
      rw [hcall, hptr]
      show (if b' + 16 = 0 then some (0, h₁) else
        ((h₁.memcpy (b' + 16) (b + 16) ((if r < h₁.size b &&& BLOCK_SIZE then r else h₁.size
        b &&& BLOCK_SIZE) % 2 ^ 32)).freeEx
          (b + 16)).bind fun h => some (b' + 16, h)) = _
      rw [if_neg hne, hi₁.size_eq hb₁, hcp, ← hh₂, hfree]
      rfl
    · rw [hf.endAddr_eq, ht.endAddr_eq]
    · rw [hf.inUse y e, hiff y e, or_iff_left fun hand : y = b' ∧ _ => hy hand.1]
    · have hused : Foreign base cs₂ (b' + 16 + i) := .inl ⟨b', d, hd₂, by omega, by omega⟩
      have hold : Foreign base cs (b + 16 + i) := .inl ⟨b, c, hb, by omega, by omega⟩
      rw [hkept₃ _ hused, hmem₂, if_pos (by omega), show b + 16 + (b' + 16 + i - (b' + 16)) = b + 16 + i by omega]
      exact hkept₁ _ hold
    · rw [hkept₃ a ha', hmem₂, if_neg, hkept₁ a ha]
      rintro ⟨hlo, hhi⟩
      rcases ha with ⟨y, e, hy, hylo, hyhi⟩ | hout
      · have hne : b' ≠ y := fun heq => hfresh e (heq ▸ hy)
        have := hd₁.apart ((hiff y e).mpr (.inl hy)) hne
        omega
      · have := hd₁.bounds
        have := ht.endAddr_eq
        omega

/-! ## `realloc_ex` -/

/-- **`realloc_ex`** of a block, to a size other than 0: there is no block of the new size and the old one stays,
or the block is at its old or a new place, with the contents of the smaller of both sizes. -/
theorem reallocEx_eq (hi : Inv base lim cs h) (hb : InUse base cs b c) {n : Nat} (hn0 : n ≠ 0)
    (hn : n ≤ 2 ^ 30 - 2 ^ 24) :
    (h.reallocEx (b + 16) n = some (0, h) ∧ c.size < blockSize n ∧ ∀ x ∈ frees base cs, x.2 < need n) ∨
      ∃ b' cs' h', h.reallocEx (b + 16) n = some (b' + 16, h') ∧ Inv base lim cs' h' ∧
        Moved base b (blockSize n) cs b' cs' ∧
        (∀ i, i < c.size → i < blockSize n → h'.mem (b' + 16 + i) = h.mem (b + 16 + i)) ∧
        ∀ a, Foreign base cs a → Foreign base cs' a → h'.mem a = h.mem a := by
  obtain ⟨hr, hr16, -, hup⟩ := blockSize_bounds (n := n) (by omega)
  have hsize := hi.size_eq hb
  have hclt := hi.size_lt hb.1
  have hptr : b + 16 - BHDR_OVERHEAD = b := Nat.add_sub_cancel (n := b) (m := 16)
  have hbuffer : getNextBlock (buffer b) c.size = b + 16 + c.size := rfl
  have hcall : h.reallocEx (b + 16) n =
      if blockSize n ≤ c.size then h.reallocShrink b (blockSize n)
      else if h.size (b + 16 + c.size) &&& FREE_BLOCK ≠ 0 ∧
          blockSize n ≤ add c.size (h.size (b + 16 + c.size) &&& BLOCK_SIZE) then h.reallocGrow b (blockSize n)
      else h.reallocMove (b + 16) (blockSize n) := by
    unfold reallocEx
    rw [if_neg (by omega), if_neg hn0, hptr]
    dsimp only
    rw [hsize, hbuffer]
  -- a block that stays keeps the words it had
  have hstay : ∀ {cs' : List Chunk} {h' : TlsfT}, Resized base b (blockSize n) cs cs' →
    (∀ a, Foreign base cs a → Foreign base cs' a → h'.mem a = h.mem a) →
      ∀ i, i < c.size → i < blockSize n → h'.mem (b + 16 + i) = h.mem (b + 16 + i) := by
    intro cs' h' hres hkept i hic hin
    obtain ⟨d, hd, -, hdin⟩ := hres.self
    exact hkept _ (.inl ⟨b, c, hb, by omega, by omega⟩) (.inl ⟨b, d, hdin, by omega, by omega⟩)
  rcases Nat.lt_or_ge c.size (blockSize n) with hlt | hge
  · rw [if_neg (by omega)] at hcall
    split at hcall
    next hgrow =>
      right
      have hc := hb.2
      obtain ⟨l₁, l₂, rfl, rfl⟩ := split_blocks hb.1
      rw [hi.next_free hc, hi.next_size hc] at hgrow
      obtain ⟨k, l₃, rfl⟩ : ∃ k l₃, l₂ = k :: l₃ := by
        cases l₂ with
        | nil => exact absurd rfl hgrow.1
        | cons k l₃ => exact ⟨k, l₃, rfl⟩
      rw [headFree_cons, headSize_cons] at hgrow
      have hk : k.free = true := by
        cases hfree : k.free with
        | true => rfl
        | false =>
          rw [hfree] at hgrow
          exact absurd rfl hgrow.1
      have hkin : (endAddr base l₁ + 16 + c.size, k) ∈ blocks base (l₁ ++ c :: k :: l₃) := by
        rw [blocks_append]
        exact List.mem_append_right _ (List.mem_cons_of_mem _ List.mem_cons_self)
      have hklt := hi.size_lt hkin
      have hadd : add c.size k.size = c.size + k.size := Nat.mod_eq_of_lt (by omega)
      obtain ⟨cs', h', hgrown, hi', hres, hkept⟩ := reallocGrow_eq hi hc hk hr16 hr (by omega)
      exact ⟨_, cs', h', hcall.trans hgrown, hi', hres.moved (by omega), hstay hres hkept, hkept⟩
    next =>
      have hself := blockSize_self hr16 hr (by omega)
      have hneed : need (blockSize n) = need n := by
        unfold need
        rw [hself]
      rcases reallocMove_eq hi hb hr16 hr (by omega) hlt with ⟨hmove, hnone⟩ | ⟨b', cs', h', hmove, hi', hmoved,
        hcopy, hkept⟩
      · exact .inl ⟨hcall.trans hmove, hlt, hneed ▸ hnone⟩
      · exact .inr ⟨b', cs', h', hcall.trans hmove, hi', hmoved, fun i hic _ => hcopy i hic, hkept⟩
  · right
    rw [if_pos hge] at hcall
    obtain ⟨cs', h', hshrunk, hi', hres, hkept⟩ := reallocShrink_eq hi hb hr16 hr hge
    exact ⟨b, cs', h', hcall.trans hshrunk, hi', hres.moved (by omega), hstay hres hkept, hkept⟩

end Sqkio.Common.TlsfT
