import Sqkio.Lib.Machine
import Sqkio.Tlsf.Client
import Sqkio.Tlsf.Walk

/-!
# Runs of a program on a new pool

`initialize_tlsf` sets up the pool, and then the program makes any number of legal calls.

    run_refines     the calls of a run return what a store of blocks may return
    write_read      a byte that is written can be read until it is written again or its block is gone
    realloc_keeps   what `tlsf_realloc` of a block returns and keeps
-/

namespace Sqkio.Common.TlsfT

open Sqkio.Lib

/-- The memory is aligned to a word, holds the headers and a block, is small enough for the tables, and does not
begin with the signature by chance. -/
structure Usable (pool size : Nat) (h : TlsfT) : Prop where
  pool_ne : pool ≠ 0
  aligned : pool % 8 = 0
  size_ge : 6392 ≤ size
  block_lt : poolBlock size < 2 ^ 30
  unsigned : h.tlsfSignature ≠ TLSF_SIGNATURE

/-- The calls so far with what they have returned, and the program. -/
abbrev History := List (Op × Nat) × Client

def start (pool size : Nat) (h : TlsfT) : Option History :=
  (initMemoryPool size pool h).map fun r => ([], ⟨r.2, fun _ => none⟩)

/-- There is no state any more when a call has left the tables. -/
def machine (pool size : Nat) (h : TlsfT) : Machine (Option History) Op where
  init t := t = start pool size h
  enabled t op := ∀ e ∈ t, e.2.Legal op
  next t op := t.bind fun e => (e.2.call op).map fun r => (e.1 ++ [(op, r.1)], r.2)

instance (pool size : Nat) (h : TlsfT) (t : Option History) (op : Op) :
    Decidable ((machine pool size h).enabled t op) :=
  inferInstanceAs (Decidable (∀ e ∈ t, e.2.Legal op))

/-- The first block. -/
def firstBlock (pool : Nat) : Nat := pool + 6304

/-- The last header. -/
def sentinel (pool size : Nat) : Nat := pool + 6320 + poolBlock size

variable {pool size a b i m n p q v : Nat} {h : TlsfT} {s s' t : Client} {c : Chunk}
    {cs cs' : List Chunk} {op : Op}
  {ops : List Op} {es fs : List (Op × Nat)}

theorem area_eq (hu : Usable pool size h) : sentinel pool size + 16 = pool + 6272 + areaSize size := by
  have hge := hu.size_ge
  unfold sentinel poolBlock areaSize
  omega

theorem start_holds (hu : Usable pool size h) : ∃ s c, start pool size h = some ([], s) ∧
    Holds (firstBlock pool) (sentinel pool size) [c] s ∧ c.size = poolBlock size ∧ c.free = true ∧
      s.store = BlockStore.empty ∧
      ∀ a, a < pool + 6272 ∨ pool + 6272 + areaSize size ≤ a → s.pool.mem a = h.mem a := by
  obtain ⟨c, h', hinit, hsize, hfree, hinv, hkept⟩ :=
    initMemoryPool_eq hu.pool_ne hu.aligned hu.size_ge hu.block_lt hu.unsigned
  have hmod := hu.aligned
  refine ⟨⟨h', fun _ => none⟩, c, ?_, ⟨hinv, ?_, ?_, fun b d hb => ?_⟩, hsize, hfree, rfl, hkept⟩
  · unfold start
    rw [hinit]
    rfl
  · unfold firstBlock
    omega
  · intro p n hp
    cases hp
  · rcases inUse_cons.mp hb with ⟨hused, -⟩ | hin
    · rw [hfree] at hused
      cases hused
    · cases hin.1

theorem runList_step (hcall : s.call op = some (p, s')) :
    (machine pool size h).next (some (es, s)) op = some (es ++ [(op, p)], s') := by
  show (s.call op).map _ = _
  rw [hcall]
  rfl

/-- **Run lemma.**  From wherever the invariant holds, the calls of a run are steps of the store. -/
theorem Holds.run {base lim : Nat} (hs : Holds base lim cs s)
    (he : (machine pool size h).AllEnabled (some (es, s)) ops) :
    ∃ fs s' cs', (machine pool size h).runList (some (es, s)) ops = some (es ++ fs, s') ∧ fs.map Prod.fst = ops ∧
      Holds base lim cs' s' ∧ BlockStore.Run s.store (fs.map fun e => (e.1.toStore, e.2)) s'.store ∧
      ∀ a, a < base ∨ lim + 16 ≤ a → s'.pool.mem a = s.pool.mem a := by
  induction ops generalizing es s cs with
  | nil => exact ⟨[], s, cs, by rw [List.append_nil]; rfl, rfl, hs, .nil, fun _ _ => rfl⟩
  | cons op ops ih =>
    obtain ⟨hop, hops⟩ := he
    obtain ⟨p, t, cs₁, hcall, ht, hstep, hkept⟩ := hs.step (hop _ rfl)
    have hnext : (machine pool size h).next (some (es, s)) op = some (es ++ [(op, p)], t) := runList_step hcall
    rw [hnext] at hops
    obtain ⟨fs, s', cs', hrun, hfst, hs', hsteps, hkept'⟩ := ih ht hops
    refine ⟨(op, p) :: fs, s', cs', ?_, congrArg _ hfst, hs', .cons hstep hsteps,
      fun a ha => (hkept' a ha).trans (hkept a ha)⟩
    rw [Machine.runList_cons, hnext, hrun, List.append_assoc]
    rfl

theorem reachable_holds (hu : Usable pool size h) {t : Option History} (hr : (machine pool size h).Reachable t) :
    ∃ es s cs, t = some (es, s) ∧ Holds (firstBlock pool) (sentinel pool size) cs s ∧
      ∀ a, a < pool + 6272 ∨ pool + 6272 + areaSize size ≤ a → s.pool.mem a = h.mem a := by
  refine @Machine.Reachable.inv _ _ _ (fun t => ∃ es s cs, t = some (es, s) ∧
    Holds (firstBlock pool) (sentinel pool size) cs s ∧
      ∀ a, a < pool + 6272 ∨ pool + 6272 + areaSize size ≤ a → s.pool.mem a = h.mem a) ?_ ?_ t hr
  · rintro _ rfl
    obtain ⟨s, c, hstart, hs, -, -, -, hkept⟩ := start_holds hu
    exact ⟨[], s, [c], hstart, hs, hkept⟩
  · rintro _ op - ⟨es, s, cs, rfl, hs, hkept⟩ hop
    obtain ⟨p, t, cs₁, hcall, ht, -, hkept'⟩ := hs.step (hop _ rfl)
    refine ⟨es ++ [(op, p)], t, cs₁, runList_step hcall, ht, fun a ha => ?_⟩
    rw [hkept' a, hkept a ha]
    have hend := area_eq hu
    unfold firstBlock
    omega

/-! ## A small pool -/

def blank : TlsfT := ⟨0, 0, 0, fun _ => 0, fun _ => 0, fun _ => 0⟩

/-- A run on 8 KB at `0x10000`. -/
def sample (ops : List Op) : History :=
  ((machine 65536 8192 blank).runList (start 65536 8192 blank) ops).getD ([], ⟨blank, fun _ => none⟩)

theorem sample_usable : Usable 65536 8192 blank := ⟨by decide, by decide, by decide, by decide, by decide⟩

theorem sample_reachable (he : (machine 65536 8192 blank).AllEnabled (start 65536 8192 blank) ops) :
    (machine 65536 8192 blank).Reachable (some ((sample ops).1, (sample ops).2)) := by
  have hr := (Machine.Reachable.init (M := machine 65536 8192 blank) rfl).runList he
  obtain ⟨es, s, cs, heq, -⟩ := reachable_holds sample_usable hr
  unfold sample
  rw [heq] at hr ⊢
  exact hr

/-- Two blocks. -/
def two : History := sample [.malloc 100, .malloc 24]

theorem two_reachable : (machine 65536 8192 blank).Reachable (some (two.1, two.2)) :=
    sample_reachable (by decide +kernel)

/-! ## The store -/

/-- **The pool is a store of blocks.**  Every run of legal calls gets a result for each of them, and the results
and the contents of the blocks are those of a run of the store. -/
theorem run_refines (hu : Usable pool size h) (he : (machine pool size h).AllEnabled (start pool size h) ops) :
    ∃ es s, (machine pool size h).runList (start pool size h) ops = some (es, s) ∧ es.map Prod.fst = ops ∧
      BlockStore.Run BlockStore.empty (es.map fun e => (e.1.toStore, e.2)) s.store := by
  obtain ⟨s, c, hstart, hs, -, -, hempty, -⟩ := start_holds hu
  rw [hstart] at he ⊢
  obtain ⟨fs, s', cs', hrun, hfst, -, hsteps, -⟩ := hs.run he
  rw [hempty] at hsteps
  exact ⟨fs, s', hrun, hfst, hsteps⟩

/-- Two blocks, of which one is resized and the other is given back. -/
theorem run_refines_sample : ∃ es s, (machine 65536 8192 blank).runList (start 65536 8192 blank)
      [.malloc 100, .calloc 3 8, .realloc 71856 300, .free 71984] = some (es, s) ∧
    es.map Prod.fst = [.malloc 100, .calloc 3 8, .realloc 71856 300, .free 71984] ∧
      BlockStore.Run BlockStore.empty (es.map fun e => (e.1.toStore, e.2)) s.store :=
  run_refines sample_usable (by decide +kernel)

theorem reads_iff : s.store.Reads p i v ↔ ∃ n, s.live p = some n ∧ i < n ∧ s.pool.byte (p + i) = v := by
  unfold BlockStore.Reads Client.store
  constructor
  · rintro ⟨b, hb, hi, hv⟩
    obtain ⟨n, hn, rfl⟩ := Option.map_eq_some_iff.mp hb
    exact ⟨n, hn, hi, (if_pos hi).symm.trans hv⟩
  · rintro ⟨n, hn, hi, hv⟩
    exact ⟨Client.block s.pool p n, Option.map_eq_some_iff.mpr ⟨n, hn, rfl⟩, hi, (if_pos hi).trans hv⟩

/-- **What is written can be read**, whatever calls are made in between for other blocks and bytes. -/
theorem write_read (hu : Usable pool size h) (hr : (machine pool size h).Reachable (some (es, s)))
    (he : (machine pool size h).AllEnabled (some (es, s)) (.write p i v :: ops))
    (hops : ∀ op ∈ ops, op.toStore.Spares p i) :
    ∃ fs t, (machine pool size h).runList (some (es, s)) (.write p i v :: ops) = some (fs, t) ∧
      t.pool.byte (p + i) = v := by
  obtain ⟨es', s', cs, heq, hs, -⟩ := reachable_holds hu hr
  obtain ⟨rfl, rfl⟩ := Prod.mk.inj (Option.some.inj heq)
  obtain ⟨hop, hrest⟩ := he
  obtain ⟨q, t, cs₁, hcall, ht, hstep, -⟩ := hs.step (hop _ rfl)
  have hnext : (machine pool size h).next (some (es, s)) (.write p i v) = some (es ++ [(.write p i v, q)], t) :=
    runList_step hcall
  rw [hnext] at hrest
  obtain ⟨fs, u, cs₂, hrun, hfst, -, hsteps, -⟩ := ht.run hrest
  have hreads : u.store.Reads p i v := by
    refine hsteps.reads (fun e he => ?_) hstep.put_reads
    obtain ⟨e, hmem, rfl⟩ := List.mem_map.mp he
    exact hops e.1 (hfst ▸ List.mem_map_of_mem hmem)
  obtain ⟨n, -, -, hv⟩ := reads_iff.mp hreads
  exact ⟨_, u, by rw [Machine.runList_cons, hnext, hrun], hv⟩

theorem write_read_two : ∃ fs t, (machine 65536 8192 blank).runList
      (some (two.1, two.2)) [.write 71856 7 0x5A, .free 71984, .write 71856 6 1, .calloc 10 10] = some (fs, t) ∧
    t.pool.byte (71856 + 7) = 0x5A :=
  write_read sample_usable two_reachable (by decide +kernel)
    (by simp [Op.toStore, BlockStore.Op.Spares])

/-- **`tlsf_realloc`** keeps the bytes that the block still has, or returns no block and changes nothing. -/
theorem realloc_keeps (hu : Usable pool size h) (hr : (machine pool size h).Reachable (some (es, s)))
    (hp : s.live p = some m) (hn0 : n ≠ 0) (hn : n ≤ maxRequest) :
    s.call (.realloc p n) = some (0, s) ∨ ∃ q s', s.call (.realloc p n) = some (q, s') ∧ s'.live q = some n ∧
      (q = p ∨ s.live q = none ∧ s'.live p = none) ∧ ∀ i, i < m → i < n →
      s'.pool.byte (q + i) = s.pool.byte (p + i) := by
  obtain ⟨es', s', cs, heq, hs, -⟩ := reachable_holds hu hr
  obtain ⟨rfl, rfl⟩ := Prod.mk.inj (Option.some.inj heq)
  have hcall : s.call (.realloc p n) = (s.pool.reallocEx p n).map fun r =>
      (r.1, ⟨r.2, if n = 0 ∨ r.1 ≠ 0 then Client.gets (Function.update s.live p none) r.1 n else s.live⟩) := rfl
  obtain ⟨b, c, rfl, hin, hle, -⟩ := hs.block p m hp
  rcases reallocEx_eq hs.inv hin hn0 hn with ⟨hnull, -⟩ | ⟨q, cs', h', hmove, hi, hmoved, hcopy, hkept⟩
  · left
    rw [hcall, hnull, Option.map_some, if_neg (by omega)]
  · right
    obtain ⟨hs', hfresh, -, hbytes⟩ := hs.move hin hmoved hi hn hcopy hkept
    have hgets : Client.gets (Function.update s.live (b + 16) none) (q + 16) n =
        Function.update (Function.update s.live (b + 16) none) (q + 16) (some n) := if_neg (by omega)
    refine ⟨q + 16, ⟨h', Client.gets (Function.update s.live (b + 16) none) (q + 16) n⟩, ?_, ?_, ?_,
      fun i him hin => ?_⟩
    · rw [hcall, hmove, Option.map_some, if_pos (by omega)]
    · dsimp only
      rw [hgets, Function.update_self]
    · by_cases hqb : q + 16 = b + 16
      · exact .inl hqb
      · right
        refine ⟨?_, ?_⟩
        · have hnone := hfresh.resolve_left hqb
          unfold Client.store at hnone
          exact Option.map_eq_none_iff.mp hnone
        · dsimp only
          rw [hgets, Function.update_of_ne (Ne.symm hqb), Function.update_self]
    · have hblock := hbytes (Client.block s.pool (b + 16) m) ?_ i him hin
      · exact (if_pos hin).symm.trans (hblock.trans (if_pos him))
      · unfold Client.store
        rw [hp]
        rfl

/-- The block cannot grow where it is, as there is one behind it. -/
theorem realloc_keeps_two : two.2.call (.realloc 71856 300) = some (0, two.2) ∨
    ∃ q s', two.2.call (.realloc 71856 300) = some (q, s') ∧ s'.live q = some 300 ∧
      (q = 71856 ∨ two.2.live q = none ∧ s'.live 71856 = none) ∧
      ∀ i, i < 100 → i < 300 → s'.pool.byte (q + i) = two.2.pool.byte (71856 + i) :=
  realloc_keeps sample_usable two_reachable (by decide +kernel) (by decide) (by decide)

end Sqkio.Common.TlsfT
