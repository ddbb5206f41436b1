import Sqkio.Tlsf.Runs

/-!
# What a pool looks like in every state of a run

    live_apart          the blocks of the program are inside the area, aligned and apart
    blocks_tile         the blocks cover the area, and no two free ones are side by side
    blocks_determined   where the free blocks are depends on the blocks in use only
    malloc_null_iff     there is no block exactly if no free one is large enough
    free_lists          what the tables say about the free blocks
-/

namespace Sqkio.Common.TlsfT

open Sqkio.Lib

variable {pool size a b i m n p q v : Nat} {h k : TlsfT} {s s' t : Client} {c : Chunk}
    {cs cs' : List Chunk} {op : Op}
  {ops : List Op} {es fs : List (Op × Nat)}

/-- The blocks of a pool, as `print_all_blocks` shows them, but for the one of the `area_info_t` with which it
starts. -/
def poolBlocks (pool size : Nat) (h : TlsfT) : List BlockInfo := allBlocks (areaSize size) (firstBlock pool) h

theorem reachable_cs (hu : Usable pool size h) (hr : (machine pool size h).Reachable (some (es, s))) :
    ∃ cs, Holds (firstBlock pool) (sentinel pool size) cs s := by
  obtain ⟨es', s', cs, heq, hs, -⟩ := reachable_holds hu hr
  obtain ⟨rfl, rfl⟩ := Prod.mk.inj (Option.some.inj heq)
  exact ⟨cs, hs⟩

theorem fuel_lt (hu : Usable pool size h) : sentinel pool size - firstBlock pool < areaSize size := by
  have hge := hu.size_ge
  unfold sentinel firstBlock poolBlock areaSize
  omega

theorem Holds.poolBlocks_eq (hu : Usable pool size h) (hs : Holds (firstBlock pool) (sentinel pool size) cs s) :
    poolBlocks pool size s.pool = (blocks (firstBlock pool) cs).map info ++ [⟨sentinel pool size, 0, false⟩] :=
  hs.inv.allBlocks_eq (fuel_lt hu)

/-! ## The blocks of the program -/

/-- **The blocks that the program has** are inside the area, aligned as the pool is, and have a header between
them. -/
theorem live_apart (hu : Usable pool size h) (hr : (machine pool size h).Reachable (some (es, s)))
    (hp : s.live p = some n) :
    pool + 6320 ≤ p ∧ p + n + 16 ≤ pool + 6272 + areaSize size ∧ p % 16 = pool % 16 ∧
      ∀ q m, s.live q = some m → p ≠ q → p + n + 16 ≤ q ∨ q + m + 16 ≤ p := by
  obtain ⟨cs, hs⟩ := reachable_cs hu hr
  obtain ⟨b, c, rfl, hin, hle, -⟩ := hs.block p n hp
  obtain ⟨hlo, hhi⟩ := hin.bounds
  have hmod := mem_blocks_mod hin.1
  have hstop := hs.inv.stop
  have harea := area_eq hu
  unfold firstBlock at hlo hhi hmod hstop
  refine ⟨by omega, by omega, by omega, fun q m hq hne => ?_⟩
  obtain ⟨y, e, rfl, hy, hme, -⟩ := hs.block q m hq
  have := hin.apart hy (by omega)
  omega

theorem live_apart_two : 65536 + 6320 ≤ 71856 ∧ 71856 + 100 + 16 ≤ 65536 + 6272 + areaSize 8192 ∧
    71856 % 16 = 65536 % 16 ∧
    ∀ q m, two.2.live q = some m → 71856 ≠ q → 71856 + 100 + 16 ≤ q ∨ q + m + 16 ≤ 71856 :=
  live_apart sample_usable two_reachable (by decide +kernel)

/-- The block `f` is behind `e`, and only one of them is free. -/
def BlockInfo.Next (e f : BlockInfo) : Prop := f.addr = e.addr + 16 + e.size ∧ ¬(e.free = true ∧ f.free = true)

theorem isChain_blocks (hc : Coalesced cs) :
    List.IsChain BlockInfo.Next ((blocks b cs).map info ++ [⟨endAddr b cs, 0, false⟩]) := by
  induction cs generalizing b with
  | nil => exact List.isChain_singleton _
  | cons c cs ih =>
    obtain ⟨hcs, hhead⟩ := coalesced_cons.mp hc
    cases cs with
    | nil => exact List.isChain_pair.mpr ⟨rfl, fun hand => Bool.false_ne_true hand.2⟩
    | cons d cs =>
      refine List.isChain_cons_cons.mpr ⟨⟨rfl, fun hand => ?_⟩, ih hcs⟩
      have hd : d.free = false := hhead hand.1
      exact Bool.false_ne_true (hd.symm.trans hand.2)

/-- **The blocks cover the area** from the first one to the sentinel, no two free ones are side by side, and those
that are not free are the ones that the program has. -/
theorem blocks_tile (hu : Usable pool size h) (hr : (machine pool size h).Reachable (some (es, s))) :
    ∃ l, poolBlocks pool size s.pool = l ++ [⟨sentinel pool size, 0, false⟩] ∧
      (∀ e ∈ (poolBlocks pool size s.pool).head?, e.addr = firstBlock pool) ∧
      (poolBlocks pool size s.pool).IsChain BlockInfo.Next ∧
      (∀ e ∈ l, e.size % 16 = 0 ∧ 16 ≤ e.size ∧ (e.free = false ↔ (s.live (e.addr + 16)).isSome)) ∧
      ∀ p, (s.live p).isSome → ∃ e ∈ l, e.addr + 16 = p := by
  obtain ⟨cs, hs⟩ := reachable_cs hu hr
  have hstop := hs.inv.stop
  refine ⟨(blocks (firstBlock pool) cs).map info, hs.poolBlocks_eq hu, ?_, ?_, fun e he => ?_, fun p hp => ?_⟩
  · rw [hs.poolBlocks_eq hu]
    intro e he
    cases cs with
    | nil =>
      rw [← hstop] at he
      obtain rfl := Option.some.inj he
      rfl
    | cons c cs =>
      obtain rfl := Option.some.inj he
      rfl
  · rw [hs.poolBlocks_eq hu, ← hstop]
    exact isChain_blocks hs.inv.coalesced
  · obtain ⟨⟨y, c⟩, hmem, rfl⟩ := List.mem_map.mp he
    refine ⟨c.size_mod, c.size_ge, ?_⟩
    constructor
    · intro hused
      exact Option.isSome_iff_exists.mpr (hs.owned y c ⟨hmem, hused⟩)
    · intro hlive
      obtain ⟨n, hn⟩ := Option.isSome_iff_exists.mp hlive
      obtain ⟨y', c', hy, hin, -⟩ := hs.block _ n hn
      obtain rfl : y = y' := by
        change y + 16 = y' + 16 at hy
        omega
      rw [blocks_unique hmem hin.1]
      exact hin.2
  · obtain ⟨n, hn⟩ := Option.isSome_iff_exists.mp hp
    obtain ⟨y, c, rfl, hin, -⟩ := hs.block p n hn
    exact ⟨info (y, c), List.mem_map_of_mem hin.1, rfl⟩

theorem blocks_tile_two : ∃ l, poolBlocks 65536 8192 two.2.pool = l ++ [⟨sentinel 65536 8192, 0, false⟩] ∧
    (∀ e ∈ (poolBlocks 65536 8192 two.2.pool).head?, e.addr = firstBlock 65536) ∧
    (poolBlocks 65536 8192 two.2.pool).IsChain BlockInfo.Next ∧
    (∀ e ∈ l, e.size % 16 = 0 ∧ 16 ≤ e.size ∧ (e.free = false ↔ (two.2.live (e.addr + 16)).isSome)) ∧
    ∀ p, (two.2.live p).isSome → ∃ e ∈ l, e.addr + 16 = p :=
  blocks_tile sample_usable two_reachable

theorem mem_poolBlocks_used (hu : Usable pool size h) (hs : Holds (firstBlock pool) (sentinel pool size) cs s)
    (hc : c.free = false) :
    (⟨a, c.size, false⟩ : BlockInfo) ∈ poolBlocks pool size s.pool ↔ InUse (firstBlock pool) cs a c := by
  have hpos := c.size_ge
  refine (mem_allBlocks hs.inv (fuel_lt hu)).trans ?_
  constructor
  · rintro (⟨d, hd, hsize, hfree⟩ | heq)
    · obtain rfl := Chunk.eq_of (c := c) (d := d) hsize (hc.trans hfree)
      exact ⟨hd, hc⟩
    · have hzero : c.size = 0 := congrArg BlockInfo.size heq
      omega
  · intro hin
    exact .inl ⟨c, hin.1, rfl, hc.symm⟩

/-- **The layout has no history.**  In two states with the same blocks in use, of any runs on a pool at the same
place, the free blocks are the same too. -/
theorem blocks_determined (hu : Usable pool size h) (hr : (machine pool size h).Reachable (some (es, s)))
    (hu' : Usable pool size k) (hr' : (machine pool size k).Reachable (some (fs, t)))
    (hsame : ∀ e : BlockInfo, e.free = false → (e ∈ poolBlocks pool size s.pool ↔
    e ∈ poolBlocks pool size t.pool)) :
    poolBlocks pool size s.pool = poolBlocks pool size t.pool := by
  obtain ⟨cs, hs⟩ := reachable_cs hu hr
  obtain ⟨cs', ht⟩ := reachable_cs hu' hr'
  have hiff : ∀ y c, InUse (firstBlock pool) cs y c ↔ InUse (firstBlock pool) cs' y c := by
    intro y c
    cases hc : c.free with
    | true => exact iff_of_false (fun hin => by cases hc.symm.trans hin.2) fun hin => by cases hc.symm.trans hin.2
    | false => rw [← mem_poolBlocks_used hu hs hc, ← mem_poolBlocks_used hu' ht hc, hsame _ rfl]
  have hcs := layout_unique hs.inv.coalesced ht.inv.coalesced (hs.inv.stop.trans ht.inv.stop.symm) hiff
  rw [hs.poolBlocks_eq hu, ht.poolBlocks_eq hu', hcs]

/-- The same two blocks from other calls. -/
theorem blocks_determined_two : poolBlocks 65536 8192 two.2.pool =
    poolBlocks 65536 8192 (sample [.calloc 10 10, .malloc 500, .realloc 71984 24]).2.pool :=
  blocks_determined sample_usable two_reachable sample_usable (sample_reachable (by decide +kernel)) fun e _ => by
    have hleft : poolBlocks 65536 8192 two.2.pool =
        [⟨71840, 112, false⟩, ⟨71968, 32, false⟩, ⟨72016, 1680, true⟩, ⟨73712, 0, false⟩] := by decide +kernel
    have hright : poolBlocks 65536 8192 (sample [.calloc 10 10, .malloc 500, .realloc 71984 24]).2.pool =
        [⟨71840, 112, false⟩, ⟨71968, 32, false⟩, ⟨72016, 1680, true⟩, ⟨73712, 0, false⟩] := by decide +kernel
    rw [hleft, hright]

/-- Every block of the program is one that a call has returned. -/
theorem live_returned (hu : Usable pool size h) (hr : (machine pool size h).Reachable (some (es, s))) :
    ∀ p, (s.live p).isSome → ∃ e ∈ es, e.2 = p := by
  have hinv : ∃ es' s' cs, some (es, s) = some (es', s') ∧ Holds (firstBlock pool) (sentinel pool size) cs s' ∧
      ∀ p, (s'.live p).isSome → ∃ e ∈ es', e.2 = p := by
    refine @Machine.Reachable.inv _ _ _ (fun t => ∃ es s cs, t = some (es, s) ∧
      Holds (firstBlock pool) (sentinel pool size) cs s ∧
        ∀ p, (s.live p).isSome → ∃ e ∈ es, e.2 = p) ?_ ?_ _ hr
    · rintro _ rfl
      obtain ⟨s, c, hstart, hs, -, -, hempty, -⟩ := start_holds hu
      refine ⟨[], s, [c], hstart, hs, fun p hp => ?_⟩
      have hnone : s.store p = none := congrFun hempty p
      unfold Client.store at hnone
      rw [Option.map_eq_none_iff.mp hnone] at hp
      cases hp
    · rintro _ op - ⟨es, s, cs, rfl, hs, hlive⟩ hop
      obtain ⟨q, t, cs', hcall, ht, hstep, -⟩ := hs.step (hop _ rfl)
      refine ⟨es ++ [(op, q)], t, cs', runList_step hcall, ht, fun p hp => ?_⟩
      have hreturned := hstep.returned (p := p)
      unfold Client.store at hreturned
      rw [Option.isSome_map, Option.isSome_map] at hreturned
      rcases hreturned hp with hold | rfl
      · obtain ⟨e, he, hep⟩ := hlive p hold
        exact ⟨e, List.mem_append_left _ he, hep⟩
      · exact ⟨(op, p), List.mem_append_right _ (List.mem_singleton_self _), rfl⟩
  obtain ⟨es', s', cs, heq, -, hlive⟩ := hinv
  obtain ⟨rfl, rfl⟩ := Prod.mk.inj (Option.some.inj heq)
  exact hlive

/-- **Nothing is lost.**  When every block that a call has returned is given back, there is one free block again. -/
theorem blocks_all_free (hu : Usable pool size h) (hr : (machine pool size h).Reachable (some (es, s)))
    (hback : ∀ e ∈ es, s.live e.2 = none) :
    poolBlocks pool size s.pool = [⟨firstBlock pool, poolBlock size, true⟩, ⟨sentinel pool size, 0, false⟩] := by
  have hnone : ∀ p, s.live p = none := by
    intro p
    cases hp : s.live p with
    | none => rfl
    | some n =>
      obtain ⟨e, he, rfl⟩ := live_returned hu hr p (hp ▸ rfl)
      exact hp.symm.trans (hback e he)
  obtain ⟨cs, hs⟩ := reachable_cs hu hr
  obtain ⟨s₀, c, -, hs₀, hsize, hfree, -⟩ := start_holds hu
  have hiff : ∀ y d, InUse (firstBlock pool) cs y d ↔ InUse (firstBlock pool) [c] y d := by
    intro y d
    refine iff_of_false (fun hin => ?_) fun hin => ?_
    · obtain ⟨n, hn⟩ := hs.owned y d hin
      rw [hnone] at hn
      cases hn
    · rcases inUse_cons.mp hin with ⟨hused, -⟩ | hin
      · rw [hfree] at hused
        cases hused
      · cases hin.1
  have hcs := layout_unique hs.inv.coalesced hs₀.inv.coalesced (hs.inv.stop.trans hs₀.inv.stop.symm) hiff
  rw [hs.poolBlocks_eq hu, hcs, ← hsize, ← hfree]
  rfl

/-- One block is moved, and both are given back. -/
theorem blocks_all_free_sample :
    poolBlocks 65536 8192 (sample [.malloc 100, .malloc 24, .realloc 71856 300, .free 71984, .free 72032]).2.pool =
      [⟨firstBlock 65536, poolBlock 8192, true⟩, ⟨sentinel 65536 8192, 0, false⟩] :=
  blocks_all_free sample_usable (sample_reachable (by decide +kernel)) (by decide +kernel)

/-- **`tlsf_free` undoes `tlsf_malloc`.** -/
theorem malloc_free (hu : Usable pool size h) (hr : (machine pool size h).Reachable (some (es, s)))
    (hn : n ≤ maxRequest)
    (hcall : s.call (.malloc n) = some (p, s')) (hp : p ≠ 0) :
    ∃ t, s'.call (.free p) = some (0, t) ∧ t.live = s.live ∧
      poolBlocks pool size t.pool = poolBlocks pool size s.pool := by
  obtain ⟨cs, hs⟩ := reachable_cs hu hr
  have hmalloc : (s.pool.mallocEx n).map (fun r => (r.1, (⟨r.2, Client.gets s.live r.1 n⟩ : Client))) =
    some (p, s') := hcall
  unfold maxRequest at hn
  rcases mallocEx_eq hs.inv hn with ⟨hnull, -⟩ | ⟨b, cs', h', hnew, ht, -, hi, hkept⟩
  · rw [hnull] at hmalloc
    exact absurd (Prod.mk.inj (Option.some.inj hmalloc)).1.symm hp
  · rw [hnew] at hmalloc
    obtain ⟨rfl, rfl⟩ := Prod.mk.inj (Option.some.inj hmalloc)
    dsimp only at hp hcall ⊢
    obtain ⟨d, hd, -, hdf, hfresh, hiff⟩ := ht.inUse
    obtain ⟨hs', -, -⟩ := hs.take ht hi (need_bounds (n := n) (by omega)).2.2 hkept
    have hdin : InUse (firstBlock pool) cs' b d := (hiff b d).mpr (.inr ⟨rfl, rfl⟩)
    obtain ⟨cs'', h'', hfree, hf, hi', hkept'⟩ := freeEx_eq hi hdin
    obtain ⟨hs'', -⟩ := hs'.give hf hi' hkept'
    have hgets : Client.gets s.live (b + 16) n = Function.update s.live (b + 16) (some n) := if_neg (by omega)
    have hlive : Function.update (Client.gets s.live (b + 16) n) (b + 16) none = s.live := by
      rw [hgets, Function.update_idem, Function.update_eq_self_iff]
      exact (hs.live_of_not_inUse hfresh).symm
    refine ⟨⟨h'', Function.update (Client.gets s.live (b + 16) n) (b + 16) none⟩, ?_, hlive, ?_⟩
    · show (h'.freeEx (b + 16)).map _ = _
      rw [hfree]
      rfl
    · have hcs : cs'' = cs := by
        refine layout_unique hi'.coalesced hs.inv.coalesced (hi'.stop.trans hs.inv.stop.symm) fun y c => ?_
        rw [hf.inUse y c, hiff y c]
        constructor
        · rintro ⟨hold | ⟨hyb, -⟩, hne⟩
          · exact hold
          · exact absurd hyb hne
        · intro hold
          refine ⟨.inl hold, ?_⟩
          rintro rfl
          exact hfresh c hold
      rw [hs''.poolBlocks_eq hu, hs.poolBlocks_eq hu, hcs]

theorem malloc_free_two : ∃ p s', two.2.call (.malloc 200) = some (p, s') ∧ ∃ t, s'.call (.free p) = some (0, t) ∧
    t.live = two.2.live ∧ poolBlocks 65536 8192 t.pool = poolBlocks 65536 8192 two.2.pool := by
  have hptr : (two.2.call (.malloc 200)).map Prod.fst = some 72032 := by decide +kernel
  obtain ⟨⟨p, s'⟩, hcall, rfl⟩ := Option.map_eq_some_iff.mp hptr
  exact ⟨72032, s', hcall, malloc_free sample_usable two_reachable (by decide) hcall (by decide)⟩

/-! ## When there is a block -/

theorem mem_poolBlocks_free (hu : Usable pool size h) (hs : Holds (firstBlock pool) (sentinel pool size) cs s) :
    (⟨a, n, true⟩ : BlockInfo) ∈ poolBlocks pool size s.pool ↔ (a, n) ∈ frees (firstBlock pool) cs := by
  refine (mem_allBlocks hs.inv (fuel_lt hu)).trans ?_
  rw [mem_frees]
  constructor
  · rintro (⟨c, hc, hsize, hfree⟩ | heq)
    · exact ⟨c, hc, hfree.symm, hsize.symm⟩
    · cases congrArg BlockInfo.free heq
  · rintro ⟨c, hc, hfree, hsize⟩
    exact .inl ⟨c, hc, hsize.symm, hfree.symm⟩

theorem forall_free_iff (hu : Usable pool size h) (hs : Holds (firstBlock pool) (sentinel pool size) cs s)
    {P : Nat → Prop} :
    (∀ e ∈ poolBlocks pool size s.pool, e.free = true → P e.size) ↔ ∀ x ∈ frees (firstBlock pool) cs, P x.2 := by
  constructor
  · rintro hall ⟨a, n⟩ hx
    exact hall _ ((mem_poolBlocks_free hu hs).mpr hx) rfl
  · rintro hall ⟨a, n, f⟩ he rfl
    exact hall (a, n) ((mem_poolBlocks_free hu hs).mp he)

/-- **`tlsf_malloc` returns no block** for a request of at most `2 ^ 30 - 2 ^ 24` bytes exactly if no free block has the
size that the request is rounded up to. -/
theorem malloc_null_iff (hu : Usable pool size h) (hr : (machine pool size h).Reachable (some (es, s)))
    (hn : n ≤ maxRequest) :
    s.call (.malloc n) = some (0, s) ↔ ∀ e ∈ poolBlocks pool size s.pool, e.free = true → e.size < need n := by
  obtain ⟨cs, hs⟩ := reachable_cs hu hr
  rw [forall_free_iff hu hs (P := fun k => k < need n)]
  have hcall : s.call (.malloc n) = (s.pool.mallocEx n).map fun r => (r.1, ⟨r.2, Client.gets s.live r.1 n⟩) := rfl
  rw [hcall]
  unfold maxRequest at hn
  rcases mallocEx_eq hs.inv hn with ⟨hnull, hnone⟩ | ⟨b, cs', h', hnew, -, ⟨k, d, hk, -, hle, -⟩, -⟩
  · rw [hnull]
    exact iff_of_true rfl hnone
  · rw [hnew]
    refine iff_of_false (fun heq => ?_) fun hall => ?_
    · have hzero := (Prod.mk.inj (Option.some.inj heq)).1
      dsimp only at hzero
      omega
    · have := hall _ hk
      dsimp only at this
      omega

/-- The last block has 1680 bytes. -/
theorem malloc_null_iff_two : two.2.call (.malloc 2000) = some (0, two.2) ↔
    ∀ e ∈ poolBlocks 65536 8192 two.2.pool, e.free = true → e.size < need 2000 :=
  malloc_null_iff sample_usable two_reachable (by decide)

/-- **Good fit.**  The block that `tlsf_malloc` takes is larger by at most a 32nd than any free one that is large
enough. -/
theorem malloc_good_fit (hu : Usable pool size h) (hr : (machine pool size h).Reachable (some (es, s)))
    (hn : n ≤ maxRequest)
    (hcall : s.call (.malloc n) = some (p, s')) (hp : p ≠ 0) :
    ∃ e ∈ poolBlocks pool size s.pool, e.free = true ∧ e.addr + 16 = p ∧ need n ≤ e.size ∧
      ∀ f ∈ poolBlocks pool size s.pool, f.free = true → need n ≤ f.size → e.size ≤ f.size + f.size / 32 := by
  obtain ⟨cs, hs⟩ := reachable_cs hu hr
  have hmalloc : (s.pool.mallocEx n).map (fun r => (r.1, (⟨r.2, Client.gets s.live r.1 n⟩ : Client))) =
    some (p, s') := hcall
  unfold maxRequest at hn
  rcases mallocEx_eq hs.inv hn with ⟨hnull, -⟩ | ⟨b, cs', h', hnew, -, hgood, -⟩
  · rw [hnull] at hmalloc
    exact absurd (Prod.mk.inj (Option.some.inj hmalloc)).1.symm hp
  · rw [hnew] at hmalloc
    obtain ⟨rfl, -⟩ := Prod.mk.inj (Option.some.inj hmalloc)
    obtain ⟨k, hk, hle, hmin⟩ := hgood.le hs.inv
    refine ⟨⟨b, k, true⟩, (mem_poolBlocks_free hu hs).mpr hk, rfl, rfl, hle, ?_⟩
    exact (forall_free_iff hu hs (P := fun m => need n ≤ m → k ≤ m + m / 32)).mpr hmin

/-- Only the block that has been given back is taken apart. -/
theorem malloc_good_fit_sample : ∃ s', (sample [.malloc 100, .malloc 24, .free 71856]).2.call (.malloc 40) =
    some (71856, s') ∧
    ∃ e ∈ poolBlocks 65536 8192 (sample [.malloc 100, .malloc 24, .free 71856]).2.pool,
      e.free = true ∧ e.addr + 16 = 71856 ∧ need 40 ≤ e.size ∧
        ∀ f ∈ poolBlocks 65536 8192 (sample [.malloc 100, .malloc 24, .free 71856]).2.pool,
          f.free = true → need 40 ≤ f.size → e.size ≤ f.size + f.size / 32 := by
  have hptr : ((sample [.malloc 100, .malloc 24, .free 71856]).2.call (.malloc 40)).map Prod.fst = some 71856 := by
    decide +kernel
  obtain ⟨⟨p, s'⟩, hcall, rfl⟩ := Option.map_eq_some_iff.mp hptr
  exact ⟨s', hcall, malloc_good_fit sample_usable (sample_reachable (by decide +kernel)) (by decide) hcall
    (by decide)⟩

/-- **The largest request** for which `tlsf_malloc` stays inside its tables, whatever is free. -/
theorem malloc_isSome_iff (hu : Usable pool size h) (hr : (machine pool size h).Reachable (some (es, s)))
    (hn : n ≤ 2 ^ 32 - 16) : (s.call (.malloc n)).isSome ↔ n ≤ maxRequest := by
  obtain ⟨cs, hs⟩ := reachable_cs hu hr
  show ((s.pool.mallocEx n).map _).isSome ↔ _
  rw [Option.isSome_map]
  exact mallocEx_isSome_iff hs.inv hn

theorem malloc_isSome_iff_two : (two.2.call (.malloc (2 ^ 30 - 2 ^ 24 + 1))).isSome ↔
    2 ^ 30 - 2 ^ 24 + 1 ≤ maxRequest :=
  malloc_isSome_iff sample_usable two_reachable (by decide)

/-- **`tlsf_calloc`** gives a block of zeros.  It has room for all elements exactly if their size fits in a
`size_t`. -/
theorem calloc_zero (hu : Usable pool size h) (hr : (machine pool size h).Reachable (some (es, s)))
    (hmn : m * n % 2 ^ 64 ≤ maxRequest) (hcall : s.call (.calloc m n) = some (p, s')) (hp : p ≠ 0) :
    s.live p = none ∧ s'.live p = some (m * n % 2 ^ 64) ∧ (∀ i, i < m * n % 2 ^ 64 → s'.pool.byte (p + i) = 0) ∧
      ∃ e ∈ poolBlocks pool size s'.pool, e.addr + 16 = p ∧ e.free = false ∧
        (m * n ≤ e.size ↔ m * n < 2 ^ 64) := by
  obtain ⟨cs, hs⟩ := reachable_cs hu hr
  obtain ⟨q, t, cs', hcall', ht, hstep, -⟩ := hs.calloc hmn
  obtain ⟨rfl, rfl⟩ := Prod.mk.inj (Option.some.inj (hcall.symm.trans hcall'))
  obtain ⟨hfresh, b, hb, hsize, hzero⟩ := BlockStore.Step.allocZero_new hstep hp
  obtain ⟨k, hk, rfl⟩ := Option.map_eq_some_iff.mp hb
  obtain rfl : k = m * n % 2 ^ 64 := hsize
  obtain ⟨y, c, rfl, hin, hle, -⟩ := ht.block p _ hk
  have hlt := ht.inv.size_lt hin.1
  refine ⟨Option.map_eq_none_iff.mp hfresh, hk, fun i hi => (if_pos hi).symm.trans (hzero i hi),
    info (y, c), ?_, rfl, hin.2, ?_⟩
  · rw [ht.poolBlocks_eq hu]
    exact List.mem_append_left _ (List.mem_map_of_mem hin.1)
  · show m * n ≤ c.size ↔ _
    constructor
    · omega
    · intro hfit
      rw [Nat.mod_eq_of_lt hfit] at hle
      exact hle

/-- `2 ^ 63 + 8` elements of 2 bytes have 16 bytes. -/
theorem calloc_zero_two : ∃ s', two.2.call (.calloc (2 ^ 63 + 8) 2) = some (72032, s') ∧ two.2.live 72032 = none ∧
    s'.live 72032 = some ((2 ^ 63 + 8) * 2 % 2 ^ 64) ∧
      (∀ i, i < (2 ^ 63 + 8) * 2 % 2 ^ 64 → s'.pool.byte (72032 + i) = 0) ∧
        ∃ e ∈ poolBlocks 65536 8192 s'.pool, e.addr + 16 = 72032 ∧ e.free = false ∧
          ((2 ^ 63 + 8) * 2 ≤ e.size ↔ (2 ^ 63 + 8) * 2 < 2 ^ 64) := by
  have hptr : (two.2.call (.calloc (2 ^ 63 + 8) 2)).map Prod.fst = some 72032 := by decide +kernel
  obtain ⟨⟨p, s'⟩, hcall, rfl⟩ := Option.map_eq_some_iff.mp hptr
  exact ⟨s', hcall, calloc_zero sample_usable two_reachable (by decide) hcall (by decide)⟩

/-- **A request of more than `2 ^ 64 - 16` bytes** is only refused if nothing is free: it gets a block of 16 bytes
at most. -/
theorem malloc_wrap (hu : Usable pool size h) (hr : (machine pool size h).Reachable (some (es, s)))
    (hlo : 2 ^ 64 - 16 < n)
    (hhi : n < 2 ^ 64) :
    (s.call (.malloc n) = some (0, s) ∧ ∀ e ∈ poolBlocks pool size s.pool, e.free = false) ∨
      ∃ e ∈ poolBlocks pool size s.pool, ∃ s', e.free = true ∧ s.call (.malloc n) = some (e.addr + 16, s') ∧
        s'.pool.size e.addr &&& BLOCK_SIZE ≤ 16 := by
  obtain ⟨cs, hs⟩ := reachable_cs hu hr
  have hcall : s.call (.malloc n) = (s.pool.mallocEx n).map fun r => (r.1, ⟨r.2, Client.gets s.live r.1 n⟩) := rfl
  rcases mallocEx_wrap hs.inv hlo hhi with ⟨hnull, hnone⟩ | ⟨b, k, h', hnew, hmem, hsmall⟩
  · left
    refine ⟨?_, fun e he => ?_⟩
    · rw [hcall, hnull]
      rfl
    · have hall := (forall_free_iff hu hs (P := fun _ => False)).mpr fun x hx => by
        rw [hnone] at hx
        cases hx
      exact Bool.eq_false_iff.mpr fun hfree => hall e he hfree
  · right
    refine ⟨⟨b, k, true⟩, (mem_poolBlocks_free hu hs).mpr hmem, ⟨h', Client.gets s.live (b + 16) n⟩,
      rfl, ?_, hsmall⟩
    rw [hcall, hnew]
    rfl

theorem malloc_wrap_two : (two.2.call (.malloc (2 ^ 64 - 1)) = some (0, two.2) ∧
      ∀ e ∈ poolBlocks 65536 8192 two.2.pool, e.free = false) ∨
    ∃ e ∈ poolBlocks 65536 8192 two.2.pool, ∃ s', e.free = true ∧
      two.2.call (.malloc (2 ^ 64 - 1)) = some (e.addr + 16, s') ∧ s'.pool.size e.addr &&& BLOCK_SIZE ≤ 16 :=
  malloc_wrap sample_usable two_reachable (by decide) (by decide)

/-! ## The tables -/

/-- **The free lists.**  A list has the free blocks of its class, each once, and the bitmaps say which lists have
any. -/
theorem free_lists (hu : Usable pool size h) (hr : (machine pool size h).Reachable (some (es, s))) (d : Idx) :
    (freeList (areaSize size) (s.pool.matrix d) s.pool).Nodup ∧
      (∀ b, b ∈ freeList (areaSize size) (s.pool.matrix d) s.pool ↔
        ∃ e ∈ poolBlocks pool size s.pool, e.addr = b ∧ e.free = true ∧ mappingInsert e.size = some d) ∧
      ((s.pool.slBitmap d.fl).getLsbD d.sl = true ↔ freeList (areaSize size) (s.pool.matrix d) s.pool ≠ []) ∧
      ∀ fl, s.pool.flBitmap.getLsbD fl = true ↔ fl < 24 ∧ s.pool.slBitmap fl ≠ 0#32 := by
  obtain ⟨cs, hs⟩ := reachable_cs hu hr
  obtain ⟨hnodup, hmem, hsl, hfl⟩ := hs.inv.freeList_eq (fuel_lt hu) d
  refine ⟨hnodup, fun b => (hmem b).trans ?_, hsl, hfl⟩
  constructor
  · rintro ⟨c, hc, hfree, hhas⟩
    exact ⟨⟨b, c.size, true⟩, (mem_poolBlocks_free hu hs).mpr (mem_frees.mpr ⟨c, hc, hfree, rfl⟩), rfl, rfl,
      (mappingInsert_some (hs.inv.size_lt hc)).mpr hhas⟩
  · rintro ⟨⟨a, n, f⟩, he, rfl, rfl, hins⟩
    obtain ⟨c, hc, hfree, rfl⟩ := mem_frees.mp ((mem_poolBlocks_free hu hs).mp he)
    exact ⟨c, hc, hfree, (mappingInsert_some (hs.inv.size_lt hc)).mp hins⟩

/-- The list of the last block. -/
theorem free_lists_two : (freeList (areaSize 8192) (two.2.pool.matrix ⟨4, 20, by decide, by decide⟩)
    two.2.pool).Nodup ∧
    (∀ b, b ∈ freeList (areaSize 8192) (two.2.pool.matrix ⟨4, 20, by decide, by decide⟩) two.2.pool ↔
      ∃ e ∈ poolBlocks 65536 8192 two.2.pool, e.addr = b ∧ e.free = true ∧
        mappingInsert e.size = some ⟨4, 20, by decide, by decide⟩) ∧
      ((two.2.pool.slBitmap 4).getLsbD 20 = true ↔
        freeList (areaSize 8192) (two.2.pool.matrix ⟨4, 20, by decide, by decide⟩) two.2.pool ≠ []) ∧
      ∀ fl, two.2.pool.flBitmap.getLsbD fl = true ↔ fl < 24 ∧ two.2.pool.slBitmap fl ≠ 0#32 :=
  free_lists sample_usable two_reachable ⟨4, 20, by decide, by decide⟩

/-! ## The memory of the pool -/

/-- **Setting up a pool and using it** changes no word outside the area of the pool. -/
theorem outside_kept (hu : Usable pool size h) (hr : (machine pool size h).Reachable (some (es, s)))
    (ha : a < pool + 6272 ∨ pool + 6272 + areaSize size ≤ a) : s.pool.mem a = h.mem a := by
  obtain ⟨es', s', cs, heq, -, hkept⟩ := reachable_holds hu hr
  obtain ⟨rfl, rfl⟩ := Prod.mk.inj (Option.some.inj heq)
  exact hkept a ha

/-- The tables are in front of the area. -/
theorem outside_kept_two : two.2.pool.mem (65536 + 6264) = blank.mem (65536 + 6264) :=
  outside_kept sample_usable two_reachable (.inl (by decide))

/-- **The memory that a pool needs.**  Setting up stays inside the `size` bytes that it is given, whatever they
hold, exactly if `size` is less than 8 above a multiple of 16. -/
theorem start_inside_iff (hu : Usable pool size h) :
    (∀ k s, Usable pool size k → start pool size k = some ([], s) →
      ∀ a, a % 8 = 0 → pool + size < a + 8 → s.pool.mem a = k.mem a) ↔ size % 16 < 8 := by
  have harea := area_eq hu
  have hmod := hu.aligned
  have hge := hu.size_ge
  have hend : areaSize size = 16 * ((size - 6264) / 16) := rfl
  constructor
  · intro hall
    by_contra hge8
    -- the second word of the sentinel is written
    have hu₀ : Usable pool size { h with mem := fun _ => 0 } :=
      ⟨hu.pool_ne, hu.aligned, hu.size_ge, hu.block_lt, hu.unsigned⟩
    obtain ⟨s, c, hstart, hs, -, hfree, -⟩ := start_holds hu₀
    have hword : s.pool.mem (sentinel pool size + 8) = hdr 0 false true := by
      have hlast := hs.inv.tail.2.1
      rw [Chunk.link_free hfree] at hlast
      rw [← hs.inv.stop]
      exact hlast
    have hzero := hall _ s hu₀ hstart (sentinel pool size + 8) (by omega) (by omega)
    rw [hword] at hzero
    cases hzero
  · intro hlt k s hk hstart a ha8 ha
    obtain ⟨s', c, hstart', -, -, -, -, hkept⟩ := start_holds hk
    obtain ⟨-, rfl⟩ := Prod.mk.inj (Option.some.inj (hstart.symm.trans hstart'))
    exact hkept a (.inr (by omega))

theorem start_inside_iff_sample : (∀ k s, Usable 65536 8192 k → start 65536 8192 k = some ([], s) →
    ∀ a, a % 8 = 0 → 65536 + 8192 < a + 8 → s.pool.mem a = k.mem a) ↔ 8192 % 16 < 8 :=
  start_inside_iff sample_usable

end Sqkio.Common.TlsfT
