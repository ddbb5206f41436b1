import Sqkio.Tlsf.Hole

/-!
# `free_ex`

The block becomes one free block with the free ones on both sides of it (`Frees`), so that no two free blocks are
side by side afterwards.  Its header and the next one are wrong in between: the gap grows to the right
(`mergeNext_eq`), then to the left (`mergePrev_eq`), and is closed last.
-/

namespace Sqkio.Common.TlsfT

variable {h : TlsfT} {a b r s base lim : Nat} {f : Bool} {c : Chunk} {cs cs' l₁ l₂ : List Chunk}

/-! ## Growing the gap -/

theorem size_own {p : Bool} (hown : h.mem (b + 8) = hdr s f p) (hs16 : s % 16 = 0) (hs : s < 2 ^ 30) :
    h.size b &&& BLOCK_SIZE = s := by
  unfold size
  rw [hown]
  exact hdr_and_blockSize _ _ hs16 (by omega)

theorem add_overhead {n : Nat} {p : Bool} (hlt : s + 16 + n < 2 ^ 30) :
    add (hdr s f p) (add n BHDR_OVERHEAD) = hdr (s + 16 + n) f p := by
  have hadd : add n BHDR_OVERHEAD = n + 16 := Nat.mod_eq_of_lt (show n + 16 < 2 ^ 64 by omega)
  rw [hadd, add_hdr _ _ (by omega), show s + (n + 16) = s + 16 + n by omega]

theorem Hole.store {v : Nat} (hh : Hole base l₁ s l₂ h) (hlo : endAddr base l₁ + 8 ≤ a)
    (hhi : a < endAddr base l₁ + 16 + s) :
    Hole base l₁ s l₂ (h.store a v) := by
  have hmem : ∀ y, y ≠ a → (h.store a v).mem y = h.mem y := fun y hy => mem_store.trans (if_neg hy)
  obtain ⟨q, htail⟩ := hh.tail
  refine ⟨hh.seg.congr fun y hy => ?_, fun x hx => ?_, ⟨q, htail.congr fun y hy => ?_⟩, ?_⟩
  · have := lt_endAddr_of_blocks hy
    exact ⟨hmem _ (by omega), hmem _ (by omega)⟩
  · rw [hmem _ (by omega)]
    exact hh.prev x hx
  · have := starts_bounds hy
    exact ⟨hmem _ (by omega), hmem _ (by omega)⟩
  · exact hh.lists.store (noLink_append.mpr ⟨noLink_above (by omega), noLink_below (by omega)⟩)

/-- A free block behind the gap comes into it. -/
theorem takeOut_next {n : Chunk} {l₃ : List Chunk} (hh : Hole base l₁ s (n :: l₃) h) (hbase : 0 < base)
    (hfree : n.free = true)
    (hn : n.size < 2 ^ 30) :
    ∃ h', h.takeOut (endAddr base l₁ + 16 + s) = some h' ∧ Hole base l₁ (s + 16 + n.size) l₃ h' ∧
      ∀ a, NoLink (frees base l₁ ++ frees (endAddr base l₁ + 16 + s) (n :: l₃)) a → h'.mem a = h.mem a := by
  have hfrees : frees (endAddr base l₁ + 16 + s) (n :: l₃) =
      (endAddr base l₁ + 16 + s, n.size) :: frees (endAddr base l₁ + 16 + s + 16 + n.size) l₃ := if_pos hfree
  obtain ⟨q, hhead, htail⟩ := hh.tail
  have hlists := hh.lists
  have hspread := spread_gap l₁ s (n :: l₃) hbase
  rw [hfrees] at hlists hspread
  obtain ⟨h', htake, hlists', hmem⟩ := takeOut_eq hhead.1 n.size_mod hn hlists hspread
  rw [← hfrees] at hmem
  have hsame : Same base l₁ s (n :: l₃) h h' := Same.of_mem fun a _ hnl => hmem a hnl
  have hend : endAddr base l₁ + 16 + (s + 16 + n.size) = endAddr base l₁ + 16 + s + 16 + n.size := by omega
  refine ⟨h', htake, ⟨hh.seg.congr hsame.before, fun x hx => hsame.own.trans (hh.prev x hx), ?_, ?_⟩, hmem⟩
  · rw [hend]
    refine ⟨_, htail.congr fun y hy => hsame.behind y (List.mem_cons_of_mem _ hy) ?_⟩
    have := (starts_bounds hy).1
    omega
  · rw [hend]
    exact hlists'

/-- The next block, if it is free, comes into the gap. -/
theorem mergeNext_eq (hh : Hole base l₁ s l₂ h) (hbase : 0 < base) {p : Bool}
    (hown : h.mem (endAddr base l₁ + 8) = hdr s f p)
    (hs16 : s % 16 = 0) (hs : s < 2 ^ 30) (hsmall : ∀ n l₃, l₂ = n :: l₃ → s + 16 + n.size < 2 ^ 30) :
    (headFree l₂ = false ∧ h.mergeNext (endAddr base l₁) = some h) ∨
      ∃ n l₃ h', l₂ = n :: l₃ ∧ n.free = true ∧ h.mergeNext (endAddr base l₁) = some h' ∧
        Hole base l₁ (s + 16 + n.size) l₃ h' ∧ h'.mem (endAddr base l₁ + 8) = hdr (s + 16 + n.size) f p ∧
        ∀ a, Around base l₁ s l₂ a → h'.mem a = h.mem a := by
  obtain ⟨q, hnext⟩ := hh.size_next
  have hsize := size_own hown hs16 hs
  have hbuffer : getNextBlock (buffer (endAddr base l₁)) s = endAddr base l₁ + 16 + s := rfl
  have hfree : h.size (endAddr base l₁ + 16 + s) &&& FREE_BLOCK = (headFree l₂).toNat := by
    unfold size
    rw [hnext]
    exact hdr_and_free _ _ headSize_mod
  have hcall : h.mergeNext (endAddr base l₁) =
      if (headFree l₂).toNat ≠ 0 then (h.takeOut (endAddr base l₁ + 16 + s)).map fun h =>
        h.setSize (endAddr base l₁) (add (h.size (endAddr base l₁))
          (add (h.size (endAddr base l₁ + 16 + s) &&& BLOCK_SIZE) BHDR_OVERHEAD))
      else some h := by
    unfold mergeNext
    rw [hsize, hbuffer]
    dsimp only
    rw [hfree]
  cases hhead : headFree l₂ with
  | false =>
    left
    rw [hcall, hhead]
    exact ⟨rfl, rfl⟩
  | true =>
    right
    obtain ⟨n, l₃, rfl, hn⟩ := exists_of_headFree hhead
    have hsmall := hsmall n l₃ rfl
    rw [headSize_cons] at hnext
    obtain ⟨h₁, htake, hh₁, hmem₁⟩ := takeOut_next hh hbase hn (by omega)
    have hsize₁ : h₁.size (endAddr base l₁ + 16 + s) &&& BLOCK_SIZE = n.size :=
      size_own ((hmem₁ _ (noLink_gap (by omega) (by omega))).trans hnext) n.size_mod (by omega)
    have hown₁ : h₁.size (endAddr base l₁) = hdr s f p := (hmem₁ _ (noLink_gap (by omega) (by omega))).trans hown
    refine ⟨n, l₃, h₁.setSize (endAddr base l₁) (hdr (s + 16 + n.size) f p), rfl, hn, ?_, ?_, setSize_mem_self,
      fun a ha => ?_⟩
    · rw [hcall, hhead, if_pos (show true.toNat ≠ 0 by decide), htake, Option.map_some, hsize₁, hown₁,
        add_overhead hsmall]
    · exact hh₁.store (by omega) (by omega)
    · have hap := ha.apart
      rw [setSize_mem (by omega)]
      exact hmem₁ a ha.noLink

/-- A free block before the gap comes into it. -/
theorem takeOut_prev {n : Chunk} {l₀ : List Chunk} (hh : Hole base (l₀ ++ [n]) s l₂ h) (hbase : 0 < base)
    (hfree : n.free = true)
    (hn : n.size < 2 ^ 30) :
    ∃ h', h.takeOut (endAddr base l₀) = some h' ∧ Hole base l₀ (n.size + 16 + s) l₂ h' ∧
      h'.mem (endAddr base l₀ + 8) = hdr n.size true (endLink none base l₀).isSome ∧
      ∀ a, NoLink (frees base (l₀ ++ [n]) ++ frees (endAddr base (l₀ ++ [n]) + 16 + s) l₂) a → h'.mem a = h.mem a := by
  have hend : endAddr base (l₀ ++ [n]) = endAddr base l₀ + 16 + n.size := endAddr_append
  have hfrees : frees base (l₀ ++ [n]) ++ frees (endAddr base (l₀ ++ [n]) + 16 + s) l₂ =
      frees base l₀ ++ (endAddr base l₀, n.size) :: frees (endAddr base (l₀ ++ [n]) + 16 + s) l₂ := by
    rw [show frees base (l₀ ++ [n]) = frees base l₀ ++ [(endAddr base l₀, n.size)] from
      frees_close_free base l₀ [] rfl hfree, List.append_assoc, List.singleton_append]
  obtain ⟨hseg, hhead, -⟩ := seg_append.mp hh.seg
  have hlists := hh.lists
  have hspread := spread_gap (l₀ ++ [n]) s l₂ hbase
  rw [hfrees] at hlists hspread
  obtain ⟨h', htake, hlists', hmem⟩ := takeOut_eq (hfree ▸ hhead.1) n.size_mod hn hlists hspread
  rw [← hfrees] at hmem
  have hsame : Same base (l₀ ++ [n]) s l₂ h h' := Same.of_mem fun a _ hnl => hmem a hnl
  have hblocks : (blocks base (l₀ ++ [n])).map Prod.fst = (blocks base l₀).map Prod.fst ++ [endAddr base l₀] := by
    rw [blocks_append, List.map_append]
    rfl
  have hbefore := hsame.before
  rw [hblocks] at hbefore
  have hself := hbefore (endAddr base l₀) (List.mem_append_right _ (List.mem_singleton.mpr rfl))
  have hgap : endAddr base l₀ + 16 + (n.size + 16 + s) = endAddr base (l₀ ++ [n]) + 16 + s := by omega
  refine ⟨h', htake, ⟨hseg.congr fun y hy => hbefore y (List.mem_append_left _ hy),
    fun x hx => hself.2.trans (hhead.2 x hx), ?_, ?_⟩, hself.1.trans (hfree ▸ hhead.1), hmem⟩
  · obtain ⟨q, htail⟩ := hh.tail
    rw [hgap]
    refine ⟨q, htail.congr fun y hy => ?_⟩
    have hyge := (starts_bounds hy).1
    obtain ⟨hy8, hy0⟩ := noLink_start hy
    constructor
    · exact hmem _ (noLink_append.mpr ⟨noLink_above (by omega), hy8⟩)
    · exact hmem _ (noLink_append.mpr ⟨noLink_above (by omega), hy0⟩)
  · rw [hgap]
    exact hlists'

/-- The block before, if it is free, comes into the gap. -/
theorem mergePrev_eq (hh : Hole base l₁ s l₂ h) (hbase : 0 < base)
    (hown : h.mem (endAddr base l₁ + 8) = hdr s f (endLink none base l₁).isSome) (hs16 : s % 16 = 0)
    (hsmall : endAddr base l₁ + 16 + s < base + 16 + 2 ^ 30) :
    (endLink none base l₁ = none ∧ h.mergePrev (endAddr base l₁) = some (endAddr base l₁, h)) ∨
      ∃ l₀ n h', l₁ = l₀ ++ [n] ∧ n.free = true ∧ h.mergePrev (endAddr base l₁) = some (endAddr base l₀, h') ∧
        Hole base l₀ (n.size + 16 + s) l₂ h' ∧
        h'.mem (endAddr base l₀ + 8) = hdr (n.size + 16 + s) true (endLink none base l₀).isSome ∧
        ∀ a, Around base l₁ s l₂ a → h'.mem a = h.mem a := by
  have hprev : h.size (endAddr base l₁) &&& PREV_FREE = 2 * (endLink none base l₁).isSome.toNat := by
    unfold size
    rw [hown]
    exact hdr_and_prev _ _ hs16
  cases hlink : endLink none base l₁ with
  | none =>
    left
    refine ⟨rfl, ?_⟩
    unfold mergePrev
    rw [hprev, hlink]
    rfl
  | some q =>
    right
    obtain ⟨l₀, n, rfl, hfree, rfl⟩ := endLink_some hlink
    have hle := le_endAddr base l₀
    have hend : endAddr base (l₀ ++ [n]) = endAddr base l₀ + 16 + n.size := endAddr_append
    have hptr : h.prevHdr (endAddr base (l₀ ++ [n])) = endAddr base l₀ := hh.prev _ hlink
    obtain ⟨h₁, htake, hh₁, hsize₁, hmem₁⟩ := takeOut_prev hh hbase hfree (by omega)
    have hown₁ := (hmem₁ _ (noLink_gap (by omega) (by omega))).trans hown
    have hself : endAddr base l₀ ∈ starts base (l₀ ++ [n]) := by
      rw [starts_append]
      exact List.mem_append_right _ mem_starts_self
    refine ⟨l₀, n, h₁.setSize (endAddr base l₀) (hdr (n.size + 16 + s) true (endLink none base l₀).isSome), rfl,
      hfree, ?_, ?_, setSize_mem_self, fun a ha => ?_⟩
    · have hset : 2 * (some (endAddr base l₀)).isSome.toNat ≠ 0 := Nat.succ_ne_zero 1
      have hread : h₁.size (endAddr base l₀) = hdr n.size true (endLink none base l₀).isSome := hsize₁
      unfold mergePrev
      rw [hprev, hlink, if_pos hset, hptr]
      dsimp only
      rw [htake, Option.map_some, hread, size_own hown₁ hs16 (by omega), add_overhead (by omega)]
    · exact hh₁.store (by omega) (by omega)
    · rw [setSize_mem (ha.ne_start hself).2]
      exact hmem₁ a ha.noLink

/-! ## The blocks afterwards -/

/-- A block becomes one with the free blocks `m₁` before it and `m₂` behind it. -/
inductive Frees (base : Nat) : List Chunk → Nat → List Chunk → Prop
  | mk {l₁ m₁ m₂ l₂ : List Chunk} {c d : Chunk} : c.free = false → (∀ x ∈ m₁, x.free = true) →
      (∀ x ∈ m₂, x.free = true) →
      d.free = true → endAddr (endAddr base l₁) (m₁ ++ c :: m₂) = endAddr base l₁ + 16 + d.size →
      Frees base (l₁ ++ (m₁ ++ c :: m₂) ++ l₂) (endAddr base (l₁ ++ m₁)) (l₁ ++ d :: l₂)

theorem not_inUse_of_free {m : List Chunk} (hm : ∀ x ∈ m, x.free = true) (y : Nat) : ¬InUse b m y c := by
  intro hin
  obtain ⟨l, l', rfl, -⟩ := split_blocks hin.1
  have hc := hm c (List.mem_append_right _ List.mem_cons_self)
  rw [hin.2] at hc
  cases hc

theorem Frees.endAddr_eq (hf : Frees base cs b cs') : endAddr base cs' = endAddr base cs := by
  cases hf with
  | mk _ _ _ _ hsum =>
    rw [endAddr_append, endAddr_append, endAddr_append, hsum]
    rfl

/-- The block is not in use any more, and nothing else has changed. -/
theorem Frees.inUse (hf : Frees base cs b cs') (y : Nat) (c : Chunk) : InUse base cs' y c ↔
    InUse base cs y c ∧ y ≠ b := by
  cases hf with
  | @mk l₁ m₁ m₂ l₂ c₀ d hc hm₁ hm₂ hd hsum =>
    rw [inUse_append, inUse_append, inUse_append, inUse_append, inUse_cons, inUse_cons, ← hsum, ← endAddr_append,
      ← endAddr_append]
    have hd' : ¬(d.free = false ∧ y = endAddr base l₁ ∧ c = d) := fun hand => by
      rw [hd] at hand
      cases hand.1
    rw [or_iff_right hd', or_iff_right (not_inUse_of_free hm₁ y), or_iff_left (not_inUse_of_free hm₂ y)]
    have hlo : InUse base l₁ y c → y ≠ endAddr base (l₁ ++ m₁) := by
      intro hin
      have := hin.bounds
      have := le_endAddr (endAddr base l₁) m₁
      rw [endAddr_append]
      omega
    have hhi : InUse (endAddr base (l₁ ++ (m₁ ++ c₀ :: m₂))) l₂ y c → y ≠ endAddr base (l₁ ++ m₁) := by
      intro hin
      have := hin.bounds
      have hle := le_endAddr (endAddr base (l₁ ++ m₁) + 16 + c₀.size) m₂
      have hsplit : endAddr base (l₁ ++ (m₁ ++ c₀ :: m₂)) =
          endAddr (endAddr base (l₁ ++ m₁) + 16 + c₀.size) m₂ := by
        rw [← List.append_assoc, endAddr_append]
        rfl
      rw [hsplit] at this
      omega
    constructor
    · rintro (hin | hin)
      · exact ⟨.inl (.inl hin), hlo hin⟩
      · exact ⟨.inr hin, hhi hin⟩
    · rintro ⟨(hin | ⟨-, hy, -⟩) | hin, hne⟩
      · exact .inl hin
      · exact absurd hy hne
      · exact .inr hin

theorem Frees.foreign (hf : Frees base cs b cs') (ha : Foreign base cs' a) : Foreign base cs a := by
  rcases ha with ⟨y, c, hin, hlt⟩ | hout
  · exact .inl ⟨y, c, ((hf.inUse y c).mp hin).1, hlt⟩
  · rw [hf.endAddr_eq] at hout
    exact .inr hout

/-! ## `free_ex` -/

/-- The pool without the block that is freed. -/
theorem Inv.hole_used (hi : Inv base lim (l₁ ++ c :: l₂) h) (hused : c.free = false) :
    Hole base l₁ c.size l₂ h ∧ h.mem (endAddr base l₁ + 8) = hdr c.size false (endLink none base l₁).isSome ∧
      h.mem (endAddr base l₁ + 16 + c.size + 8) = hdr (headSize l₂) (headFree l₂) false := by
  have hfrees := frees_close_used base l₁ l₂ rfl hused
  obtain ⟨hseg, hhead, hrest⟩ := tail_append.mp hi.tail
  rw [Chunk.link_used hused] at hrest
  exact ⟨⟨hseg, hhead.2, ⟨_, hrest⟩, hfrees ▸ hi.lists⟩, hused ▸ hhead.1, hrest.head.1⟩

/-- The last part: the gap becomes a free block. -/
theorem close_free (hh : Hole base l₁ s l₂ h) (hbase : 0 < base)
    (hown : h.mem (endAddr base l₁ + 8) = hdr s true (endLink none base l₁).isSome) {d : Chunk} (hd : d.size = s)
    (hdf : d.free = true) (hs : s < 2 ^ 30) :
    ∃ h₁ h', h.putIn (endAddr base l₁) (h.size (endAddr base l₁) &&& BLOCK_SIZE) = some h₁ ∧
      getNextBlock (buffer (endAddr base l₁)) (h₁.size (endAddr base l₁) &&& BLOCK_SIZE) =
      endAddr base l₁ + 16 + s ∧
      h' = (h₁.setSize (endAddr base l₁ + 16 + s) (h₁.size (endAddr base l₁ + 16 + s) ||| PREV_FREE)).setPrevHdr
        (endAddr base l₁ + 16 + s) (endAddr base l₁) ∧
      Tail h'.mem none base (l₁ ++ d :: l₂) ∧ FreeLists (frees base (l₁ ++ d :: l₂)) h' ∧
      ∀ a, Around base l₁ s l₂ a → h'.mem a = h.mem a := by
  obtain ⟨b, hb⟩ : ∃ b, b = endAddr base l₁ := ⟨_, rfl⟩
  have hs16 : s % 16 = 0 := hd ▸ d.size_mod
  have hs0 : 16 ≤ s := hd ▸ d.size_ge
  have hfrees := frees_close_free base l₁ l₂ hd hdf
  have hspread : Spread (frees base (l₁ ++ d :: l₂)) := spread_frees hbase
  rw [hfrees] at hspread
  obtain ⟨h₁, hput, hlists₁, hmem₁⟩ := putIn_eq hs hh.lists hspread
  obtain ⟨q, hnext⟩ := hh.size_next
  rw [← hb] at hown hfrees hput hlists₁ hmem₁ hnext ⊢
  have hno : ∀ a, b ≤ a → a < b + 16 + s + 16 → a ≠ b + 16 → a ≠ b + 24 →
      NoLink (frees base l₁ ++ (b, s) :: frees (b + 16 + s) l₂) a := by
    rw [hb]
    exact fun a hlo hhi h16 h24 => noLink_insert.mpr ⟨⟨h16, h24⟩, noLink_gap hlo (by omega)⟩
  have hsize₁ : h₁.size b &&& BLOCK_SIZE = s :=
    size_own ((hmem₁ _ (hno _ (by omega) (by omega) (by omega) (by omega))).trans hown) hs16 hs
  have hnext₁ : h₁.size (b + 16 + s) ||| PREV_FREE = hdr (headSize l₂) (headFree l₂) true := by
    show h₁.mem (b + 16 + s + 8) ||| PREV_FREE = _
    rw [hmem₁ _ (hno _ (by omega) (by omega) (by omega) (by omega)), hnext]
    exact hdr_or_prev _ _ headSize_mod
  obtain ⟨h₂, hh₂⟩ : ∃ h₂, h₂ = h₁.setSize (b + 16 + s) (hdr (headSize l₂) (headFree l₂) true) := ⟨_, rfl⟩
  obtain ⟨h₃, hh₃⟩ : ∃ h₃, h₃ = h₂.setPrevHdr (b + 16 + s) b := ⟨_, rfl⟩
  have hmem : ∀ a, a ≠ b + 16 + s → a ≠ b + 16 + s + 8 →
      NoLink (frees base l₁ ++ (b, s) :: frees (b + 16 + s) l₂) a → h₃.mem a = h.mem a := by
    intro a ha ha' hnl
    rw [hh₃, setPrevHdr_mem ha, hh₂, setSize_mem ha']
    exact hmem₁ a hnl
  have hsame : Same base l₁ s l₂ h h₃ := Same.of_mem fun a ha hnl => by
    rw [← hb] at ha hnl
    exact hmem a (by omega) (by omega) (noLink_insert.mpr ⟨⟨by omega, by omega⟩, hnl⟩)
  refine ⟨h₁, h₃, ?_, ?_, ?_, ?_, ?_, fun a ha => ?_⟩
  · rw [size_own hown hs16 hs]
    exact hput
  · rw [hsize₁]
    rfl
  · rw [hnext₁, ← hh₂, hh₃]
  · refine hh.close_one hsame hd ?_ ⟨?_, fun x hx => ?_⟩
    · rw [← hb, hmem _ (by omega) (by omega) (hno _ (by omega) (by omega) (by omega) (by omega)), hdf]
      exact hown
    · rw [Chunk.link_free hdf, ← hb, hh₃, setPrevHdr_mem (by omega), hh₂]
      exact setSize_mem_self
    · rw [Chunk.link_free hdf] at hx
      rw [← Option.some.inj hx, ← hb, hh₃]
      exact setPrevHdr_mem_self
  · rw [hfrees, hh₃, hh₂]
    exact (hlists₁.store (hno _ (by omega) (by omega) (by omega) (by omega))).store
      (hno _ (by omega) (by omega) (by omega) (by omega))
  · have hap := ha.apart
    have hnl := ha.noLink
    rw [← hb] at hap hnl
    exact hmem a (by omega) (by omega) (noLink_insert.mpr ⟨⟨by omega, by omega⟩, hnl⟩)

/-- `mergeNext` for a block behind which no two free blocks are side by side. -/
theorem mergeNext_gap (hh : Hole base l₁ s l₂ h) (hbase : 0 < base) {p : Bool}
    (hown : h.mem (endAddr base l₁ + 8) = hdr s f p)
    (hs16 : s % 16 = 0) (hs : s < 2 ^ 30) (hsmall : ∀ n l₃, l₂ = n :: l₃ → s + 16 + n.size < 2 ^ 30)
    (hc : Coalesced l₂) :
    ∃ m l₃ t h', l₂ = m ++ l₃ ∧ (∀ x ∈ m, x.free = true) ∧ h.mergeNext (endAddr base l₁) = some h' ∧
      Hole base l₁ t l₃ h' ∧
      h'.mem (endAddr base l₁ + 8) = hdr t f p ∧ t % 16 = 0 ∧
      endAddr (endAddr base l₁ + 16 + s) m = endAddr base l₁ + 16 + t ∧
      headFree l₃ = false ∧ Coalesced l₃ ∧ ∀ a, Around base l₁ t l₃ a → h'.mem a = h.mem a := by
  rcases mergeNext_eq hh hbase hown hs16 hs hsmall with ⟨hhead, hcall⟩ | ⟨n, l₃, h', rfl, hfree, hcall, hh',
    hown', hmem⟩
  · exact ⟨[], l₂, s, h, rfl, by simp, hcall, hh, hown, hs16, rfl, hhead, hc, fun _ _ => rfl⟩
  · obtain ⟨hc', hhead⟩ := coalesced_cons.mp hc
    have hn16 := n.size_mod
    have hend : endAddr base l₁ + 16 + (s + 16 + n.size) = endAddr base l₁ + 16 + s + 16 + n.size := by omega
    refine ⟨[n], l₃, s + 16 + n.size, h', rfl, ?_, hcall, hh', hown', by omega, hend.symm, hhead hfree, hc',
      fun a ha => hmem a ?_⟩
    · intro x hx
      rw [List.mem_singleton.mp hx]
      exact hfree
    · unfold Around at ha ⊢
      rw [hend] at ha
      rw [used_iff_of_free hfree]
      exact ha

/-- `mergePrev` for a block before which no two free blocks are side by side. -/
theorem mergePrev_gap (hh : Hole base l₁ s l₂ h) (hbase : 0 < base)
    (hown : h.mem (endAddr base l₁ + 8) = hdr s true (endLink none base l₁).isSome) (hs16 : s % 16 = 0)
    (hsmall : endAddr base l₁ + 16 + s < base + 16 + 2 ^ 30) (hc : Coalesced l₁) :
    ∃ l₀ m t h', l₁ = l₀ ++ m ∧ (∀ x ∈ m, x.free = true) ∧
      h.mergePrev (endAddr base l₁) = some (endAddr base l₀, h') ∧ Hole base l₀ t l₂ h' ∧
      h'.mem (endAddr base l₀ + 8) = hdr t true (endLink none base l₀).isSome ∧ t % 16 = 0 ∧
      endAddr base l₀ + 16 + t = endAddr base l₁ + 16 + s ∧ endLink none base l₀ = none ∧ Coalesced l₀ ∧
      ∀ a, Around base l₀ t l₂ a → h'.mem a = h.mem a := by
  rcases mergePrev_eq hh hbase hown hs16 hsmall with ⟨hlink, hcall⟩ | ⟨l₀, n, h', rfl, hfree, hcall, hh',
    hown', hmem⟩
  · exact ⟨l₁, [], s, h, (List.append_nil _).symm, by simp, hcall, hh, hown, hs16, rfl, hlink, hc, fun _ _ => rfl⟩
  · obtain ⟨hc', -, hlink⟩ := (coalesced_append (b := base)).mp hc
    have hn16 := n.size_mod
    have hstep : endAddr base (l₀ ++ [n]) = endAddr base l₀ + 16 + n.size := endAddr_append
    have hend : endAddr base l₀ + 16 + (n.size + 16 + s) = endAddr base (l₀ ++ [n]) + 16 + s := by omega
    refine ⟨l₀, [n], n.size + 16 + s, h', rfl, ?_, hcall, hh', hown', by omega, hend, hlink hfree, hc',
      fun a ha => hmem a ?_⟩
    · intro x hx
      rw [List.mem_singleton.mp hx]
      exact hfree
    · unfold Around at ha ⊢
      rw [hend] at ha
      rw [used_append]
      rcases ha with hused | hrest
      · exact .inl (.inl hused)
      · exact .inr hrest

/-- `free_ex` of a block in use; the next block need not know that it is. -/
theorem freeEx_hole (hbase : 0 < base) (hh : Hole base l₁ c.size l₂ h) (hused : c.free = false)
    (hown : h.mem (endAddr base l₁ + 8) = hdr c.size false (endLink none base l₁).isSome) (hc₁ : Coalesced l₁)
    (hc₂ : Coalesced l₂)
    (hlim : endAddr base (l₁ ++ c :: l₂) = lim) (hbound : lim < base + 16 + 2 ^ 30) :
    ∃ cs' h', h.freeEx (endAddr base l₁ + 16) = some h' ∧ Frees base (l₁ ++ c :: l₂) (endAddr base l₁) cs' ∧
      Inv base lim cs' h' ∧ ∀ a, Foreign base cs' a → h'.mem a = h.mem a := by
  have hc16 := c.size_mod
  have hc0 := c.size_ge
  have hstop := hlim
  rw [endAddr_append] at hstop
  change endAddr (endAddr base l₁ + 16 + c.size) l₂ = lim at hstop
  have hle := le_endAddr base l₁
  have hle' := le_endAddr (endAddr base l₁ + 16 + c.size) l₂
  have hslt : c.size < 2 ^ 30 := by omega
  -- the block is marked as free
  obtain ⟨h₀, hh₀⟩ : ∃ h₀, h₀ = ((h.setSize (endAddr base l₁)
    (hdr c.size true (endLink none base l₁).isSome)).setPrev
      (endAddr base l₁) 0).setNext (endAddr base l₁) 0 := ⟨_, rfl⟩
  have hhole₀ : Hole base l₁ c.size l₂ h₀ := by
    rw [hh₀]
    have hnext : Hole base l₁ c.size l₂ ((h.setSize (endAddr base l₁)
      (hdr c.size true (endLink none base l₁).isSome)).setPrev
      (endAddr base l₁) 0) := (hh.store (by omega) (by omega)).store (by omega) (by omega)
    exact hnext.store (by omega) (by omega)
  have hmem₀ : ∀ a, (a < endAddr base l₁ ∨ endAddr base l₁ + 32 ≤ a) → h₀.mem a = h.mem a := by
    intro a ha
    rw [hh₀, unlinked_mem, if_neg (by omega), if_neg (by omega), if_neg (by omega)]
  have hown₀ : h₀.mem (endAddr base l₁ + 8) = hdr c.size true (endLink none base l₁).isSome := by
    rw [hh₀, unlinked_mem, if_neg (by omega), if_neg (by omega), if_pos rfl]
  -- the gap grows on both sides
  have hsmall : ∀ n l₃, l₂ = n :: l₃ → c.size + 16 + n.size < 2 ^ 30 := by
    rintro n l₃ rfl
    have hend : endAddr base l₁ + 16 + c.size + 16 + n.size ≤ lim := hstop ▸ le_endAddr _ _
    omega
  obtain ⟨m₂, l₃, t, h₁, rfl, hm₂, hcall₁, hhole₁, hown₁, ht16, hend₁, hhead₃, hcoal₃, hkept₁⟩ :=
    mergeNext_gap hhole₀ hbase hown₀ hc16 hslt hsmall hc₂
  rw [endAddr_append, hend₁] at hstop
  have hle₃ := le_endAddr (endAddr base l₁ + 16 + t) l₃
  obtain ⟨l₀, m₁, u, h₂, rfl, hm₁, hcall₂, hhole₂, hown₂, hu16, hend₂, hlink₀, hcoal₀, hkept₂⟩ :=
    mergePrev_gap hhole₁ hbase hown₁ ht16 (by omega) hc₁
  have hle₀ := le_endAddr base l₀
  have hle₁ := le_endAddr (endAddr base (l₀ ++ m₁) + 16 + c.size) m₂
  have hle₂ : endAddr base l₀ ≤ endAddr base (l₀ ++ m₁) := by
    rw [endAddr_append]
    exact le_endAddr _ _
  obtain ⟨d, hd, hdf⟩ : ∃ d : Chunk, d.size = u ∧ d.free = true := ⟨⟨u, true, hu16, by omega⟩, rfl, rfl⟩
  obtain ⟨h₃, h', hput, hnext, hh', htail, hlists, hkept₃⟩ := close_free hhole₂ hbase hown₂ hd hdf (by omega)
  have hcs : l₀ ++ m₁ ++ c :: (m₂ ++ l₃) = l₀ ++ (m₁ ++ c :: m₂) ++ l₃ := by simp
  have hf : Frees base (l₀ ++ m₁ ++ c :: (m₂ ++ l₃)) (endAddr base (l₀ ++ m₁)) (l₀ ++ d :: l₃) := by
    rw [hcs]
    refine .mk hused hm₁ hm₂ hdf ?_
    rw [endAddr_append, ← endAddr_append (b := base), hd, hend₂]
    exact hend₁
  refine ⟨l₀ ++ d :: l₃, h', ?_, hf, ⟨hbase, hf.endAddr_eq.trans hlim, hbound, htail, hlists, ?_⟩, fun a ha => ?_⟩
  · have hptr : endAddr base (l₀ ++ m₁) + 16 - BHDR_OVERHEAD = endAddr base (l₀ ++ m₁) := by
      unfold BHDR_OVERHEAD
      omega
    have hmark : h.size (endAddr base (l₀ ++ m₁)) ||| FREE_BLOCK =
        hdr c.size true (endLink none base (l₀ ++ m₁)).isSome := by
      unfold size
      rw [hown]
      exact hdr_or_free _ _ hc16
    unfold freeEx
    rw [if_neg (by omega), hptr]
    dsimp only
    rw [hmark]
    show (TlsfT.mergeNext _ _).bind _ = _
    rw [← hh₀, hcall₁, Option.bind_some]
    show (TlsfT.mergePrev _ _).bind _ = _
    rw [hcall₂, Option.bind_some]
    show (TlsfT.putIn _ _ _).bind _ = _
    rw [hput, Option.bind_some, hnext, hh']
    rfl
  · rw [coalesced_append (b := base), coalesced_cons]
    exact ⟨hcoal₀, ⟨hcoal₃, fun _ => hhead₃⟩, fun _ => hlink₀⟩
  · have ha₀ : Around base l₀ u l₃ a := hd ▸ (foreign_iff_around hdf).mp ha
    have ha₁ : Around base (l₀ ++ m₁) t l₃ a := by
      unfold Around at ha₀ ⊢
      rw [hend₂] at ha₀
      rw [used_append]
      exact ha₀.imp_left .inl
    have hap := ha₁.apart
    rw [hkept₃ a ha₀, hkept₂ a ha₀, hkept₁ a ha₁]
    exact hmem₀ a (by omega)

/-- **`free_ex`** makes the block and the free ones next to it one free block. -/
theorem freeEx_eq (hi : Inv base lim cs h) (hb : InUse base cs b c) :
    ∃ cs' h', h.freeEx (b + 16) = some h' ∧ Frees base cs b cs' ∧ Inv base lim cs' h' ∧
      ∀ a, Foreign base cs' a → h'.mem a = h.mem a := by
  obtain ⟨hmem, hused⟩ := hb
  obtain ⟨l₁, l₂, rfl, rfl⟩ := split_blocks hmem
  obtain ⟨hh, hown, -⟩ := hi.hole_used hused
  obtain ⟨hc₁, hc₂⟩ := (coalesced_used hused).mp hi.coalesced
  exact freeEx_hole hi.pos hh hused hown hc₁ hc₂ hi.stop hi.small

end Sqkio.Common.TlsfT
