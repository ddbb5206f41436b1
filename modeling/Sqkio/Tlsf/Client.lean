import Sqkio.Lib.BlockStore
import Sqkio.Tlsf.Bytes
import Sqkio.Tlsf.Realloc
import Sqkio.Tlsf.Init

/-!
# A program and its pool

A program calls `tlsf_malloc`, `tlsf_calloc`, `tlsf_realloc` and `tlsf_free` in any order and writes bytes of the
blocks that it has.  It gives back only what it has, and asks for at most `2 ^ 30 - 2 ^ 24` bytes (`Legal`).

    Client          the pool, and the blocks that the program has
    Client.store    the same as a store of blocks
    Holds.step      every legal call returns, and is a step of the store
-/

namespace Sqkio.Common.TlsfT

open Sqkio.Lib

inductive Op
  | malloc (size : Nat)
  | calloc (nelem elemSize : Nat)
  | realloc (ptr newSize : Nat)
  | free (ptr : Nat)
  | write (ptr i v : Nat)

/-- `live` is a ghost: the size that was asked for, of every block that the program has. -/
structure Client where
  pool : TlsfT
  live : Nat → Option Nat

/-- The largest request for which `MAPPING_SEARCH` gives a class of the tables, up to `2 ^ 32`.  From there on
`ms_bit` takes a part of the size only: `2 ^ 37 + 128` gets the class of a small block. -/
def maxRequest : Nat := 2 ^ 30 - 2 ^ 24

namespace Client

/-- A call has returned `ptr`, for `size` bytes. -/
def gets (live : Nat → Option Nat) (ptr size : Nat) : Nat → Option Nat :=
  if ptr = 0 then live else Function.update live ptr (some size)

/-- The calls go to the pool that `mp` points to. -/
def call (s : Client) : Op → Option (Nat × Client)
  | .malloc size => (s.pool.mallocEx size).map fun r => (r.1, ⟨r.2, gets s.live r.1 size⟩)
  | .calloc nelem elemSize =>
    (s.pool.callocEx nelem elemSize).map fun r => (r.1, ⟨r.2, gets s.live r.1 (nelem * elemSize % 2 ^ 64)⟩)
  | .realloc ptr newSize =>
    (s.pool.reallocEx ptr newSize).map fun r =>
      (r.1, ⟨r.2, if newSize = 0 ∨ r.1 ≠ 0 then gets (Function.update s.live ptr none) r.1 newSize else s.live⟩)
  | .free ptr => (s.pool.freeEx ptr).map fun h => (0, ⟨h, Function.update s.live ptr none⟩)
  | .write ptr i v => some (0, ⟨s.pool.setByte (ptr + i) v, s.live⟩)

def Legal (s : Client) : Op → Prop
  | .malloc size => size ≤ maxRequest
  | .calloc nelem elemSize => nelem * elemSize % 2 ^ 64 ≤ maxRequest
  | .realloc ptr newSize => (ptr = 0 ∨ (s.live ptr).isSome) ∧ newSize ≤ maxRequest
  | .free ptr => ptr = 0 ∨ (s.live ptr).isSome
  | .write ptr i v => i < (s.live ptr).getD 0 ∧ v < 256

instance (s : Client) : (op : Op) → Decidable (s.Legal op)
  | .malloc size => inferInstanceAs (Decidable (size ≤ maxRequest))
  | .calloc nelem elemSize => inferInstanceAs (Decidable (nelem * elemSize % 2 ^ 64 ≤ maxRequest))
  | .realloc ptr newSize => inferInstanceAs (Decidable ((ptr = 0 ∨ (s.live ptr).isSome) ∧ newSize ≤ maxRequest))
  | .free ptr => inferInstanceAs (Decidable (ptr = 0 ∨ (s.live ptr).isSome))
  | .write ptr i v => inferInstanceAs (Decidable (i < (s.live ptr).getD 0 ∧ v < 256))

/-- The `n` bytes at `p`. -/
def block (h : TlsfT) (p n : Nat) : Block Nat := ⟨n, fun i => if i < n then h.byte (p + i) else 0⟩

/-- What the program sees. -/
def store (s : Client) : BlockStore Nat Nat := fun p => (s.live p).map fun n => block s.pool p n

end Client

/-- What a call is for. -/
def Op.toStore : Op → BlockStore.Op Nat Nat
  | .malloc size => .alloc size
  | .calloc nelem elemSize => .allocZero (nelem * elemSize % 2 ^ 64)
  | .realloc ptr newSize => .resize ptr newSize
  | .free ptr => .release ptr
  | .write ptr i v => .put ptr i v

open Client

variable {s s' : Client} {h h' : TlsfT} {a b i m n p q r base lim : Nat} {c d : Chunk}
    {cs cs' : List Chunk} {op : Op}

/-- The blocks in use are those that the program has, and are large enough but not much larger. -/
structure Holds (base lim : Nat) (cs : List Chunk) (s : Client) : Prop where
  inv : Inv base lim cs s.pool
  mod : base % 8 = 0
  block : ∀ p n, s.live p = some n → ∃ b c, p = b + 16 ∧ InUse base cs b c ∧ n ≤ c.size ∧ c.size < need n + 32
  owned : ∀ b c, InUse base cs b c → ∃ n, s.live (b + 16) = some n

theorem Holds.live_of_not_inUse (hs : Holds base lim cs s) (hb : ∀ c, ¬InUse base cs b c) :
    s.live (b + 16) = none := by
  cases hlive : s.live (b + 16) with
  | none => rfl
  | some n =>
    obtain ⟨b', c, hp, hin, -⟩ := hs.block _ _ hlive
    obtain rfl : b = b' := by omega
    exact absurd hin (hb c)

theorem Holds.live_zero (hs : Holds base lim cs s) : s.live 0 = none := by
  cases hlive : s.live 0 with
  | none => rfl
  | some n =>
    obtain ⟨b, c, hp, -⟩ := hs.block _ _ hlive
    omega

theorem store_eq_none (hp : s.live p = none) : s.store p = none := by
  unfold Client.store
  rw [hp]
  rfl

theorem block_congr (hm : ∀ i, i < n → h'.byte (p + i) = h.byte (p + i)) :
    Client.block h' p n = Client.block h p n := by
  unfold Client.block
  congr 1
  funext i
  split
  next hi => exact hm i hi
  next => rfl

/-- Blocks whose bytes are still there look as before. -/
theorem store_congr (hlive : s'.live p = s.live p)
    (hm : ∀ n i, s.live p = some n → i < n → s'.pool.byte (p + i) = s.pool.byte (p + i)) :
    s'.store p = s.store p := by
  unfold Client.store
  rw [hlive]
  cases hp : s.live p with
  | none => rfl
  | some n => exact congrArg some (block_congr fun i hi => hm n i hp hi)

theorem store_update_self {live : Nat → Option Nat} :
    Client.store ⟨h, Function.update live p (some n)⟩ p = some (Client.block h p n) := by
  unfold Client.store
  dsimp only
  rw [Function.update_self, Option.map_some]

theorem Holds.live_of_inUse (hs : Holds base lim cs s) (hb : InUse base cs b c) :
    ∃ n, s.live (b + 16) = some n ∧ n ≤ c.size := by
  obtain ⟨n, hlive⟩ := hs.owned b c hb
  obtain ⟨y, d, hy, hin, hle, -⟩ := hs.block _ n hlive
  obtain rfl : b = y := by omega
  exact ⟨n, hlive, blocks_unique hb.1 hin.1 ▸ hle⟩

theorem Holds.foreign (hs : Holds base lim cs s) (hlive : s.live p = some n) (hi : i < n) :
    Foreign base cs (8 * ((p + i) / 8)) := by
  obtain ⟨b, c, rfl, hin, hn, -⟩ := hs.block p n hlive
  exact hin.foreign hs.mod (by omega) (by omega)

/-! ## Every call is a step of the store -/

/-- A block that is taken gets the pointer behind its header. -/
theorem Holds.take (hs : Holds base lim cs s) (ht : Takes base (need n) cs b cs') (hi : Inv base lim cs' h')
    (hn : n ≤ need n)
    (hkept : ∀ a, Foreign base cs a → h'.mem a = s.pool.mem a) :
    Holds base lim cs' ⟨h', gets s.live (b + 16) n⟩ ∧ s.store (b + 16) = none ∧
      Client.store ⟨h', gets s.live (b + 16) n⟩ = s.store.set (b + 16) (some (Client.block h' (b + 16) n)) := by
  obtain ⟨d, hd, hd', -, hfresh, hiff⟩ := ht.inUse
  have hnone := hs.live_of_not_inUse hfresh
  have hgets : gets s.live (b + 16) n = Function.update s.live (b + 16) (some n) := if_neg (by omega)
  rw [hgets]
  refine ⟨⟨hi, hs.mod, fun p m hp => ?_, fun y c hy => ?_⟩, store_eq_none hnone, ?_⟩
  · change Function.update s.live (b + 16) (some n) p = some m at hp
    by_cases hpb : p = b + 16
    · subst hpb
      rw [Function.update_self] at hp
      obtain rfl : n = m := Option.some.inj hp
      exact ⟨b, d, rfl, (hiff b d).mpr (.inr ⟨rfl, rfl⟩), by omega, hd'⟩
    · rw [Function.update_of_ne hpb] at hp
      obtain ⟨y, c, hpy, hin, hle⟩ := hs.block p m hp
      exact ⟨y, c, hpy, (hiff y c).mpr (.inl hin), hle⟩
  · rcases (hiff y c).mp hy with hold | ⟨rfl, -⟩
    · obtain ⟨m, hm⟩ := hs.owned y c hold
      have hne : y + 16 ≠ b + 16 := by
        intro heq
        obtain rfl : y = b := by omega
        exact hfresh c hold
      exact ⟨m, (Function.update_of_ne hne _ _).trans hm⟩
    · exact ⟨n, Function.update_self _ _ _⟩
  · funext p
    by_cases hpb : p = b + 16
    · subst hpb
      rw [BlockStore.set_self]
      exact store_update_self
    · rw [BlockStore.set_of_ne hpb]
      exact store_congr (Function.update_of_ne hpb _ _) fun m i hp hi => byte_congr (hkept _ (hs.foreign hp hi))

/-- A block that is given back is gone. -/
theorem Holds.give (hs : Holds base lim cs s) (hf : Frees base cs b cs') (hi : Inv base lim cs' h')
    (hkept : ∀ a, Foreign base cs' a → h'.mem a = s.pool.mem a) :
    Holds base lim cs' ⟨h', Function.update s.live (b + 16) none⟩ ∧
      Client.store ⟨h', Function.update s.live (b + 16) none⟩ = s.store.set (b + 16) none := by
  have hblock : ∀ p m, Function.update s.live (b + 16) none p = some m →
      p ≠ b + 16 ∧ ∃ y c, p = y + 16 ∧ InUse base cs' y c ∧ m ≤ c.size ∧ c.size < need m + 32 := by
    intro p m hp
    by_cases hpb : p = b + 16
    · subst hpb
      rw [Function.update_self] at hp
      cases hp
    · obtain ⟨y, c, rfl, hin, hle⟩ := hs.block p m ((Function.update_of_ne hpb _ _).symm.trans hp)
      exact ⟨hpb, y, c, rfl, (hf.inUse y c).mpr ⟨hin, by omega⟩, hle⟩
  have hs' : Holds base lim cs' ⟨h', Function.update s.live (b + 16) none⟩ := by
    refine ⟨hi, hs.mod, fun p m hp => (hblock p m hp).2, fun y c hy => ?_⟩
    obtain ⟨hold, hne⟩ := (hf.inUse y c).mp hy
    obtain ⟨m, hm⟩ := hs.owned y c hold
    exact ⟨m, (Function.update_of_ne (by omega) _ _).trans hm⟩
  refine ⟨hs', ?_⟩
  funext p
  by_cases hpb : p = b + 16
  · subst hpb
    rw [BlockStore.set_self]
    exact store_eq_none (Function.update_self _ _ _)
  · rw [BlockStore.set_of_ne hpb]
    refine store_congr (Function.update_of_ne hpb _ _) fun m i hp hi => byte_congr (hkept _ ?_)
    exact hs'.foreign (i := i) ((Function.update_of_ne hpb _ _).trans hp) hi

theorem Holds.copied (hs : Holds base lim cs s) (hb : InUse base cs b c) (hq : q % 8 = 0)
    (hcopy : ∀ i, i < c.size → i < n → h'.mem (q + 16 + i) = s.pool.mem (b + 16 + i)) :
    ∀ a, s.store (b + 16) = some a → ∀ i, i < a.size → i < n →
      (Client.block h' (q + 16) n).byte i = a.byte i := by
  intro a ha i hia hin
  obtain ⟨m, hlive, hle⟩ := hs.live_of_inUse hb
  have hstore : s.store (b + 16) = some (Client.block s.pool (b + 16) m) := by
    unfold Client.store
    rw [hlive]
    rfl
  obtain rfl := Option.some.inj (hstore.symm.trans ha)
  have hbmod := mem_blocks_mod hb.1
  have hbase := hs.mod
  change i < m at hia
  show (if i < n then h'.byte (q + 16 + i) else 0) = if i < m then s.pool.byte (b + 16 + i) else 0
  rw [if_pos hin, if_pos hia]
  exact byte_copy (by omega) (by omega) (hcopy _ (by omega) (by omega))

/-- A block that is moved keeps its bytes. -/
theorem Holds.move (hs : Holds base lim cs s) (hb : InUse base cs b c) (hm : Moved base b (blockSize n) cs q cs')
    (hi : Inv base lim cs' h') (hn : n ≤ maxRequest)
    (hcopy : ∀ i, i < c.size → i < blockSize n → h'.mem (q + 16 + i) = s.pool.mem (b + 16 + i))
    (hkept : ∀ a, Foreign base cs a → Foreign base cs' a → h'.mem a = s.pool.mem a) :
    Holds base lim cs' ⟨h', gets (Function.update s.live (b + 16) none) (q + 16) n⟩ ∧
      (q + 16 = b + 16 ∨ s.store (q + 16) = none) ∧
      Client.store ⟨h', gets (Function.update s.live (b + 16) none) (q + 16) n⟩ =
        (s.store.set (b + 16) none).set (q + 16) (some (Client.block h' (q + 16) n)) ∧
      ∀ a, s.store (b + 16) = some a → ∀ i, i < a.size → i < n →
        (Client.block h' (q + 16) n).byte i = a.byte i := by
  unfold maxRequest at hn
  obtain ⟨hmin, hmod, hround, hup⟩ := blockSize_bounds (n := n) (by omega)
  obtain ⟨d, hd, hd', hdin⟩ := hm.self
  have hneed : need (blockSize n) = need n := by
    unfold need
    rw [blockSize_self hmod hmin (by omega)]
  rw [hneed] at hd'
  have hgets : gets (Function.update s.live (b + 16) none) (q + 16) n =
      Function.update (Function.update s.live (b + 16) none) (q + 16) (some n) := if_neg (by omega)
  rw [hgets]
  -- a block other than the old and the new one
  have hother : ∀ p, p ≠ q + 16 → p ≠ b + 16 →
      Function.update (Function.update s.live (b + 16) none) (q + 16) (some n) p = s.live p := by
    intro p hpq hpb
    rw [Function.update_of_ne hpq, Function.update_of_ne hpb]
  have hblock : ∀ p m, Function.update (Function.update s.live (b + 16) none) (q + 16) (some n) p = some m →
      p ≠ q + 16 → p ≠ b + 16 ∧ s.live p = some m ∧
        ∃ y c, p = y + 16 ∧ InUse base cs' y c ∧ m ≤ c.size ∧ c.size < need m + 32 := by
    intro p m hp hpq
    by_cases hpb : p = b + 16
    · subst hpb
      rw [Function.update_of_ne hpq, Function.update_self] at hp
      cases hp
    · rw [hother p hpq hpb] at hp
      obtain ⟨y, c', rfl, hin, hle⟩ := hs.block p m hp
      exact ⟨hpb, hp, y, c', rfl, (hm.other y c' (by omega)).mpr ⟨hin, by omega⟩, hle⟩
  have hs' : Holds base lim cs'
      ⟨h', Function.update (Function.update s.live (b + 16) none) (q + 16) (some n)⟩ := by
    refine ⟨hi, hs.mod, fun p m hp => ?_, fun y c' hy => ?_⟩
    · by_cases hpq : p = q + 16
      · subst hpq
        change Function.update (Function.update s.live (b + 16) none) (q + 16) (some n) (q + 16) = some m at hp
        rw [Function.update_self] at hp
        obtain rfl : n = m := Option.some.inj hp
        exact ⟨q, d, rfl, hdin, by omega, hd'⟩
      · exact (hblock p m hp hpq).2.2
    · by_cases hyq : y = q
      · subst hyq
        exact ⟨n, Function.update_self _ _ _⟩
      · obtain ⟨hold, hne⟩ := (hm.other y c' hyq).mp hy
        obtain ⟨m, hlive⟩ := hs.owned y c' hold
        exact ⟨m, (hother (y + 16) (by omega) (by omega)).trans hlive⟩
  have hqmod := mem_blocks_mod hdin.1
  have hbase := hs.mod
  refine ⟨hs', ?_, ?_, hs.copied hb (by omega) fun i hi hin => hcopy i hi (by omega)⟩
  · rcases hm.fresh with rfl | hfresh
    · exact .inl rfl
    · exact .inr (store_eq_none (hs.live_of_not_inUse hfresh))
  · funext p
    by_cases hpq : p = q + 16
    · subst hpq
      rw [BlockStore.set_self]
      exact store_update_self
    · rw [BlockStore.set_of_ne hpq]
      by_cases hpb : p = b + 16
      · subst hpb
        rw [BlockStore.set_self]
        exact store_eq_none ((Function.update_of_ne hpq _ _).trans (Function.update_self _ _ _))
      · rw [BlockStore.set_of_ne hpb]
        refine store_congr (hother p hpq hpb) fun m i hp hi => byte_congr (hkept _ (hs.foreign hp hi) ?_)
        exact hs'.foreign (i := i) ((hother p hpq hpb).trans hp) hi

/-- The program writes a byte of one of its blocks. -/
theorem Holds.write (hs : Holds base lim cs s) (hlive : s.live p = some n) (hi : i < n) (hv : m < 256) :
    Holds base lim cs ⟨s.pool.setByte (p + i) m, s.live⟩ ∧
      Client.store ⟨s.pool.setByte (p + i) m, s.live⟩ = s.store.set p
        (some { Client.block s.pool p n with byte := Function.update (Client.block s.pool p n).byte i m }) := by
  obtain ⟨b, c, rfl, hin, hle, -⟩ := hs.block p n hlive
  have hinv : Inv base lim cs (s.pool.setByte (b + 16 + i) m) := by
    refine hs.inv.write (fun a ha => mem_store.trans (if_neg ?_)) rfl rfl rfl
    rintro rfl
    exact ha ⟨b, c, hin, hin.word hs.mod (by omega) (by omega)⟩
  refine ⟨⟨hinv, hs.mod, hs.block, hs.owned⟩, ?_⟩
  funext p
  by_cases hpb : p = b + 16
  · subst hpb
    rw [BlockStore.set_self]
    unfold Client.store
    dsimp only
    rw [hlive, Option.map_some]
    unfold Client.block
    congr 2
    funext j
    by_cases hj : j = i
    · subst hj
      rw [Function.update_self, if_pos hi, byte_setByte, Nat.mod_eq_of_lt hv]
    · rw [Function.update_of_ne hj, byte_setByte_of_ne (by omega)]
  · rw [BlockStore.set_of_ne hpb]
    refine store_congr rfl fun k j hp hj => byte_setByte_of_ne ?_
    obtain ⟨y, e, rfl, hy, hke, -⟩ := hs.block p k hp
    have := hin.apart hy (by omega)
    omega

/-! ## The calls -/

/-- The call returns, the program's view of it is a step of the store, and no word outside the area has changed. -/
def Returns (base lim : Nat) (s : Client) (op : Op) : Prop :=
  ∃ r s' cs', s.call op = some (r, s') ∧ Holds base lim cs' s' ∧ BlockStore.Step s.store op.toStore r s'.store ∧
    ∀ a, a < base ∨ lim + 16 ≤ a → s'.pool.mem a = s.pool.mem a

theorem Holds.outside (hs : Holds base lim cs s) (ha : a < base ∨ lim + 16 ≤ a) : Foreign base cs a := by
  have := hs.inv.stop
  right
  omega

theorem Holds.malloc (hs : Holds base lim cs s) (hn : n ≤ maxRequest) : Returns base lim s (.malloc n) := by
  unfold maxRequest at hn
  rcases mallocEx_eq hs.inv hn with ⟨hcall, -⟩ | ⟨b, cs', h', hcall, ht, -, hi, hkept⟩
  · refine ⟨0, s, cs, ?_, hs, .allocFail, fun _ _ => rfl⟩
    show (s.pool.mallocEx n).map _ = _
    rw [hcall]
    rfl
  · obtain ⟨hs', hnone, hstore⟩ := hs.take ht hi (need_bounds (n := n) (by omega)).2.2 hkept
    refine ⟨b + 16, _, cs', ?_, hs', ?_, fun a ha => hkept a (hs.outside ha)⟩
    · show (s.pool.mallocEx n).map _ = _
      rw [hcall]
      rfl
    · rw [hstore]
      exact .alloc (b := Client.block h' (b + 16) n) (Nat.succ_ne_zero _) hnone

theorem Holds.calloc (hs : Holds base lim cs s) (hn : m * n % 2 ^ 64 ≤ maxRequest) :
    Returns base lim s (.calloc m n) := by
  unfold maxRequest at hn
  have hnull : s.pool.callocEx m n = some (0, s.pool) → Returns base lim s (.calloc m n) := by
    intro hcall
    refine ⟨0, s, cs, ?_, hs, .allocZeroFail, fun _ _ => rfl⟩
    show (s.pool.callocEx m n).map _ = _
    rw [hcall]
    rfl
  by_cases hzero : m = 0 ∨ n = 0
  · apply hnull
    unfold callocEx
    rw [if_pos hzero]
    rfl
  · obtain ⟨hm0, hn0⟩ := not_or.mp hzero
    rcases callocEx_eq hs.inv hs.mod hm0 hn0 rfl hn with ⟨hcall, -⟩ | ⟨b, cs', h', hcall, ht, hi, hbytes, hkept⟩
    · exact hnull hcall
    · obtain ⟨hs', hnone, hstore⟩ := hs.take ht hi (need_bounds (n := m * n % 2 ^ 64) (by omega)).2.2 hkept
      refine ⟨b + 16, _, cs', ?_, hs', ?_, fun a ha => hkept a (hs.outside ha)⟩
      · show (s.pool.callocEx m n).map _ = _
        rw [hcall]
        rfl
      · rw [hstore]
        refine .allocZero (b := Client.block h' (b + 16) (m * n % 2 ^ 64)) (Nat.succ_ne_zero _) hnone
          fun i hi => ?_
        change i < m * n % 2 ^ 64 at hi
        show (if i < m * n % 2 ^ 64 then h'.byte (b + 16 + i) else 0) = 0
        rw [if_pos hi]
        exact hbytes _ (by omega) (by omega)

/-- A block that the program has, or a null pointer, is given back. -/
theorem Holds.freeEx (hs : Holds base lim cs s) (hp : p = 0 ∨ (s.live p).isSome) :
    ∃ h' cs', s.pool.freeEx p = some h' ∧ Holds base lim cs' ⟨h', Function.update s.live p none⟩ ∧
      Client.store ⟨h', Function.update s.live p none⟩ = s.store.set p none ∧
      ∀ a, a < base ∨ lim + 16 ≤ a → h'.mem a = s.pool.mem a := by
  by_cases hzero : p = 0
  · subst hzero
    have hlive : Function.update s.live 0 none = s.live := by
      rw [Function.update_eq_self_iff]
      exact hs.live_zero.symm
    have hstore : s.store.set 0 none = s.store := by
      unfold BlockStore.set
      rw [Function.update_eq_self_iff]
      exact (store_eq_none hs.live_zero).symm
    rw [hlive, hstore]
    exact ⟨s.pool, cs, rfl, hs, rfl, fun _ _ => rfl⟩
  · obtain ⟨n, hn⟩ := Option.isSome_iff_exists.mp (hp.resolve_left hzero)
    obtain ⟨b, c, rfl, hin, -⟩ := hs.block p n hn
    obtain ⟨cs', h', hcall, hf, hi, hkept⟩ := freeEx_eq hs.inv hin
    obtain ⟨hs', hstore⟩ := hs.give hf hi hkept
    refine ⟨h', cs', hcall, hs', hstore, fun a ha => hkept a (.inr ?_)⟩
    have := hi.stop
    omega

theorem Holds.free (hs : Holds base lim cs s) (hp : p = 0 ∨ (s.live p).isSome) : Returns base lim s (.free p) := by
  obtain ⟨h', cs', hcall, hs', hstore, hkept⟩ := hs.freeEx hp
  refine ⟨0, _, cs', ?_, hs', ?_, hkept⟩
  · show (s.pool.freeEx p).map _ = _
    rw [hcall]
    rfl
  · rw [hstore]
    exact .release

theorem Holds.realloc (hs : Holds base lim cs s) (hp : p = 0 ∨ (s.live p).isSome) (hn : n ≤ maxRequest) :
    Returns base lim s (.realloc p n) := by
  have hcall : s.call (.realloc p n) = (s.pool.reallocEx p n).map fun r =>
      (r.1, ⟨r.2, if n = 0 ∨ r.1 ≠ 0 then gets (Function.update s.live p none) r.1 n else s.live⟩) := rfl
  by_cases hn0 : n = 0
  · -- a size of 0 gives the block back
    subst hn0
    obtain ⟨h', cs', hfree, hs', hstore, hkept⟩ := hs.freeEx hp
    have hreturn : s.pool.reallocEx p 0 = some (0, h') := by
      unfold reallocEx
      by_cases hzero : p = 0
      · subst hzero
        exact congrArg (Option.map fun h => (0, h)) hfree
      · rw [if_neg hzero, if_pos rfl, hfree]
        rfl
    refine ⟨0, _, cs', ?_, hs', ?_, hkept⟩
    · rw [hcall, hreturn]
      rfl
    · rw [hstore]
      exact .resizeRelease
  · unfold maxRequest at hn
    have hfail : s.pool.reallocEx p n = some (0, s.pool) → Returns base lim s (.realloc p n) := by
      intro hnull
      refine ⟨0, s, cs, ?_, hs, .resizeFail, fun _ _ => rfl⟩
      rw [hcall, hnull, Option.map_some, if_neg (by omega)]
    by_cases hzero : p = 0
    · -- without a block it is `malloc_ex`
      subst hzero
      have hmalloc : s.pool.reallocEx 0 n = s.pool.mallocEx n := by
        unfold reallocEx
        rw [if_pos rfl, if_pos hn0]
      rcases mallocEx_eq hs.inv hn with ⟨hnull, -⟩ | ⟨b, cs', h', hnew, ht, -, hi, hkept⟩
      · exact hfail (hmalloc.trans hnull)
      · obtain ⟨hs', hnone, hstore⟩ := hs.take ht hi (need_bounds (n := n) (by omega)).2.2 hkept
        have hlive : Function.update s.live 0 none = s.live := by
          rw [Function.update_eq_self_iff]
          exact hs.live_zero.symm
        have hset : s.store.set 0 none = s.store := by
          unfold BlockStore.set
          rw [Function.update_eq_self_iff]
          exact (store_eq_none hs.live_zero).symm
        refine ⟨b + 16, _, cs', ?_, hs', ?_, fun a ha => hkept a (hs.outside ha)⟩
        · rw [hcall, hmalloc, hnew, Option.map_some, if_pos (by omega), hlive]
        · rw [hstore]
          conv => rhs; rw [← hset]
          refine .resize (b := Client.block h' (b + 16) n) hn0 (Nat.succ_ne_zero _) (.inr hnone) fun a ha => ?_
          rw [store_eq_none hs.live_zero] at ha
          cases ha
    · obtain ⟨m, hm⟩ := Option.isSome_iff_exists.mp (hp.resolve_left hzero)
      obtain ⟨b, c, rfl, hin, hle⟩ := hs.block p m hm
      rcases reallocEx_eq hs.inv hin hn0 hn with ⟨hnull, -⟩ | ⟨q, cs', h', hmove, hi, hmoved, hcopy, hkept⟩
      · exact hfail hnull
      · obtain ⟨hs', hfresh, hstore, hbytes⟩ :=
          hs.move hin hmoved hi (show n ≤ maxRequest from hn) hcopy hkept
        refine ⟨q + 16, _, cs', ?_, hs', ?_, fun a ha => hkept a (hs.outside ha) (hs'.outside ha)⟩
        · rw [hcall, hmove, Option.map_some, if_pos (by omega)]
        · rw [hstore]
          exact .resize (b := Client.block h' (q + 16) n) hn0 (Nat.succ_ne_zero _) hfresh hbytes

/-- **Every legal call returns** and does what the store says. -/
theorem Holds.step (hs : Holds base lim cs s) (hop : s.Legal op) : Returns base lim s op := by
  cases op with
  | malloc size => exact hs.malloc hop
  | calloc nelem elemSize => exact hs.calloc hop
  | realloc ptr newSize => exact hs.realloc hop.1 hop.2
  | free ptr => exact hs.free hop
  | write ptr i v =>
    obtain ⟨hi, hv⟩ := hop
    obtain ⟨n, hn⟩ : ∃ n, s.live ptr = some n := by
      cases hlive : s.live ptr with
      | none =>
        rw [hlive] at hi
        cases hi
      | some n => exact ⟨n, rfl⟩
    rw [hn, Option.getD_some] at hi
    obtain ⟨hs', hstore⟩ := hs.write hn hi hv
    refine ⟨0, _, cs, rfl, hs', ?_, fun a ha => mem_store.trans (if_neg ?_)⟩
    · rw [hstore]
      refine .put ?_ hi
      unfold Client.store
      rw [hn]
      rfl
    · obtain ⟨b, c, rfl, hin, hle, -⟩ := hs.block ptr n hn
      have := hin.word hs.mod (a := b + 16 + i) (by omega) (by omega)
      have := hin.bounds
      have := hs.inv.stop
      omega

end Sqkio.Common.TlsfT
