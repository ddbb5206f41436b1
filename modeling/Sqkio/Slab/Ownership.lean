import Sqkio.Lib.Partition
import Sqkio.Slab.Model

/-!
# Every block is in one place

A block is allocated, in one `tcache_` of the class in its header, given back to
`::operator delete`, or was in the `tcache_` of a thread that has ended.  The last kind is in no
list of the program any more: nothing returns such a block (`lost_block`).
-/

namespace Sqkio.Common.Slab

open Sqkio.Lib SlabPoolAllocator

variable {τ : Type}

/-- Where a block can be. -/
inductive Place (τ : Type) where
  | live
  | cached (t : τ) (c : Nat)
  | released
  | lost
  deriving DecidableEq

def holding (s : Slab τ) : Place τ → List Nat
  | .live => s.live
  | .cached t c => s.tcache t c
  | .released => s.released
  | .lost => s.lost

structure Inv (debug : Bool) (s : Slab τ) : Prop where
  held : Partition (· < s.created) s.holding
  cached : ∀ t c b, b ∈ s.tcache t c → c < 512 ∧ (s.block b).header.ind.toNat = c
  released : ∀ b ∈ s.released, (s.block b).header.ind.toNat = 512
  index : ∀ b, b < s.created →
    (s.block b).header.ind.toNat = min (size2ind (roundup (s.block b).size)).toNat 512
  bytes : ∀ b, b < s.created → (s.block b).bytes = roundup (s.block b).size + slabOverhead
  magic : debug = true → ∀ b, b < s.created → (s.block b).header.magic = slabMagic

theorem Init.inv {debug : Bool} {s : Slab τ} (h : s.Init) : s.Inv debug := by
  have hnone : ∀ b, ¬ b < s.created := by
    intro b
    rw [h.created]
    exact Nat.not_lt_zero b
  constructor
  case held =>
    refine .empty hnone fun p => ?_
    cases p with
    | live => exact h.live
    | cached t c => exact h.tcache t c
    | released => exact h.released
    | lost => exact h.lost
  case cached =>
    intro t c b hb
    rw [h.tcache] at hb
    cases hb
  case released =>
    rw [h.released]
    exact fun b hb => absurd hb List.not_mem_nil
  case index => exact fun b hb => absurd hb (hnone b)
  case bytes => exact fun b hb => absurd hb (hnone b)
  case magic => exact fun _ b hb => absurd hb (hnone b)

section

variable [DecidableEq τ] {debug : Bool} {s : Slab τ} {t : τ} {ptr : Nat} {size : UInt64}
  {junk : SlabHeader}

@[simp] theorem setCache_block (c : Nat) (stack : List Nat) :
    (s.setCache t c stack).block = s.block := rfl

@[simp] theorem setCache_created (c : Nat) (stack : List Nat) :
    (s.setCache t c stack).created = s.created := rfl

theorem setCache_self (c : Nat) (stack : List Nat) : (s.setCache t c stack).tcache t c = stack := by
  simp [setCache]

theorem setCache_of_ne {c d : Nat} {u : τ} (stack : List Nat) (h : ¬ (u = t ∧ d = c)) :
    (s.setCache t c stack).tcache u d = s.tcache u d := by
  unfold setCache
  by_cases hu : u = t
  · subst hu
    have hd : d ≠ c := fun hd => h ⟨rfl, hd⟩
    simp only [Function.update_self, Function.update_of_ne hd]
  · simp only [Function.update_of_ne hu]

omit [DecidableEq τ] in
/-- Every block but the new one stays as it was. -/
theorem create_block_of_lt {b : Nat} {x : Block} (hb : b < s.created) :
    (s.create x).block b = s.block b :=
  Function.update_of_ne (Nat.ne_of_lt hb) _ _

omit [DecidableEq τ] in
theorem create_block_self {x : Block} : (s.create x).block s.created = x := Function.update_self ..

omit [DecidableEq τ] in
/-- What holds of the blocks that there are and of the new one holds of all. -/
theorem create_forall {Q : Block → Prop} {x : Block} (h : ∀ b, b < s.created → Q (s.block b)) (hx : Q x)
    (b : Nat) (hb : b < s.created + 1) : Q ((s.create x).block b) := by
  rcases Nat.lt_succ_iff_lt_or_eq.mp hb with hlt | rfl
  · rw [create_block_of_lt hlt]
    exact h b hlt
  · rw [create_block_self]
    exact hx

/-- A call of `operator new` takes the top of a stack or makes a new block. -/
theorem new_cases (debug : Bool) (t : τ) (size : UInt64) (junk : SlabHeader) (s : Slab τ) :
    (∃ rest, (size2ind (roundup size)).toNat < 512 ∧
      s.tcache t (size2ind (roundup size)).toNat = (s.slabAlloc debug t size junk).2 :: rest ∧
      (s.slabAlloc debug t size junk).1 = s.setCache t (size2ind (roundup size)).toNat rest) ∨
    ((s.slabAlloc debug t size junk).2 = s.created ∧
      ((size2ind (roundup size)).toNat < 512 → s.tcache t (size2ind (roundup size)).toNat = []) ∧
      (s.slabAlloc debug t size junk).1 = s.create ⟨roundup size + slabOverhead,
        newHeader debug (size2ind (roundup size)) junk, size⟩) := by
  by_cases hind : (size2ind (roundup size)).toNat < 512
  · cases hc : s.tcache t (size2ind (roundup size)).toNat with
    | nil =>
      rw [slabAlloc_miss fun _ => hc]
      exact .inr ⟨rfl, fun _ => rfl, rfl⟩
    | cons ptr rest =>
      rw [slabAlloc_hit hind hc]
      exact .inl ⟨rest, hind, rfl, rfl⟩
  · rw [slabAlloc_miss fun h => absurd h hind]
    exact .inr ⟨rfl, fun h => absurd h hind, rfl⟩

/-- Nothing changes the blocks that there are. -/
theorem next_block (debug : Bool) (s : Slab τ) (a : Act τ) : s.created ≤ (s.next debug a).created ∧
    ∀ b, b < s.created → (s.next debug a).block b = s.block b := by
  cases a with
  | new t size junk =>
    simp only [next]
    rcases new_cases debug t size junk s with
      ⟨rest, -, -, hs⟩ | ⟨-, -, hs⟩
    · rw [hs]
      exact ⟨Nat.le_refl _, fun _ _ => rfl⟩
    · rw [hs]
      exact ⟨Nat.le_succ _, fun b hb => create_block_of_lt hb⟩
  | delete t ptr =>
    simp only [next]
    by_cases h : (s.block ptr).header.ind.toNat < 512
    · rw [slabDealloc_cached h]
      exact ⟨Nat.le_refl _, fun _ _ => rfl⟩
    · rw [slabDealloc_released h]
      exact ⟨Nat.le_refl _, fun _ _ => rfl⟩
  | exit t => exact ⟨Nat.le_refl _, fun _ _ => rfl⟩

theorem runList_block (debug : Bool) (s : Slab τ) (as : List (Act τ)) :
    s.created ≤ ((machine τ debug).runList s as).created ∧
    ∀ b, b < s.created → ((machine τ debug).runList s as).block b = s.block b := by
  induction as generalizing s with
  | nil => exact ⟨Nat.le_refl _, fun _ _ => rfl⟩
  | cons a as ih =>
    obtain ⟨hle, hb⟩ := next_block debug s a
    obtain ⟨hle', hb'⟩ := ih (s.next debug a)
    refine ⟨Nat.le_trans hle hle', fun b hlt => ?_⟩
    rw [Machine.runList_cons]
    exact (hb' b (Nat.lt_of_lt_of_le hlt hle)).trans (hb b hlt)

/-! ## Every call -/

namespace Inv

/-- The block on top of a stack becomes the caller's. -/
theorem hit (h : s.Inv debug) {c : Nat} {rest : List Nat} (hc : s.tcache t c = ptr :: rest)
    (returned : List (UInt64 × Nat)) :
    Inv debug { s.setCache t c rest with live := ptr :: s.live, returned } := by
  have hself : (s.setCache t c rest).tcache t c = rest := setCache_self c rest
  constructor
  case held =>
    refine h.held.move (p := .cached t c) (q := .live) (b := ptr) (by nofun) ?_ ?_ rfl ?_
    · show ptr ∈ s.tcache t c
      rw [hc]
      exact List.mem_cons_self
    · show (s.setCache t c rest).tcache t c = (s.tcache t c).erase ptr
      rw [hself, hc, List.erase_cons_head]
    · intro p hp hp'
      cases p with
      | live => exact absurd rfl hp'
      | released => rfl
      | lost => rfl
      | cached u d =>
        refine setCache_of_ne rest ?_
        rintro ⟨rfl, rfl⟩
        exact hp rfl
  case cached =>
    intro u d b hb
    by_cases hud : u = t ∧ d = c
    · obtain ⟨rfl, rfl⟩ := hud
      have hb' : b ∈ (s.setCache u d rest).tcache u d := hb
      rw [hself] at hb'
      exact h.cached u d b (hc ▸ List.mem_cons_of_mem _ hb')
    · have hb' : b ∈ (s.setCache t c rest).tcache u d := hb
      rw [setCache_of_ne rest hud] at hb'
      exact h.cached u d b hb'
  case released => exact h.released
  case index => exact h.index
  case bytes => exact h.bytes
  case magic => exact h.magic

theorem new (h : s.Inv debug) : (s.next debug (.new t size junk)).Inv debug := by
  simp only [next]
  rcases new_cases debug t size junk s with ⟨rest, -, hc, hs⟩ | ⟨hptr, -, hs⟩
  · rw [hs]
    exact h.hit hc _
  · rw [hs, hptr]
    have hcreated : ∀ b, b < s.created + 1 ↔ b < s.created ∨ b = s.created := fun b => by omega
    constructor
    case held =>
      refine h.held.fresh (p := .live) (b := s.created) (Nat.lt_irrefl _) hcreated rfl ?_
      intro p hp
      cases p with
      | live => exact absurd rfl hp
      | cached u d => rfl
      | released => rfl
      | lost => rfl
    case cached =>
      intro u d b hb
      have hlt := h.held.sound (p := .cached u d) hb
      show d < 512 ∧ ((s.create _).block b).header.ind.toNat = d
      rw [create_block_of_lt hlt]
      exact h.cached u d b hb
    case released =>
      intro b hb
      have hlt := h.held.sound (p := .released) hb
      show ((s.create _).block b).header.ind.toNat = 512
      rw [create_block_of_lt hlt]
      exact h.released b hb
    case index =>
      exact create_forall (Q := fun x => x.header.ind.toNat = min (size2ind (roundup x.size)).toNat 512)
        h.index (newHeader_ind debug _ junk)
    case bytes => exact create_forall (Q := fun x => x.bytes = roundup x.size + slabOverhead) h.bytes rfl
    case magic =>
      intro hd
      exact create_forall (Q := fun x => x.header.magic = slabMagic) (h.magic hd) (if_pos hd)

theorem delete (h : s.Inv debug) (hlive : ptr ∈ s.live) :
    (s.next debug (.delete t ptr)).Inv debug := by
  have hlt := h.held.sound (p := .live) hlive
  simp only [next]
  by_cases hind : (s.block ptr).header.ind.toNat < 512
  · rw [slabDealloc_cached hind]
    generalize hc : (s.block ptr).header.ind.toNat = c at hind ⊢
    have hself := setCache_self (s := s) (t := t) c (ptr :: s.tcache t c)
    constructor
    case held =>
      refine h.held.move (p := .live) (q := .cached t c) (b := ptr) (by nofun) hlive rfl hself ?_
      intro p hp hp'
      cases p with
      | live => exact absurd rfl hp
      | released => rfl
      | lost => rfl
      | cached u d =>
        refine setCache_of_ne _ ?_
        rintro ⟨rfl, rfl⟩
        exact hp' rfl
    case cached =>
      intro u d b hb
      have hb' : b ∈ (s.setCache t c (ptr :: s.tcache t c)).tcache u d := hb
      by_cases hud : u = t ∧ d = c
      · obtain ⟨rfl, rfl⟩ := hud
        rw [hself, List.mem_cons] at hb'
        rcases hb' with rfl | hb'
        · exact ⟨hind, hc⟩
        · exact h.cached u d b hb'
      · rw [setCache_of_ne _ hud] at hb'
        exact h.cached u d b hb'
    case released => exact h.released
    case index => exact h.index
    case bytes => exact h.bytes
    case magic => exact h.magic
  · rw [slabDealloc_released hind]
    constructor
    case held =>
      refine h.held.move (p := .live) (q := .released) (b := ptr) (by nofun) hlive rfl rfl ?_
      intro p hp hp'
      cases p with
      | live => exact absurd rfl hp
      | released => exact absurd rfl hp'
      | lost => rfl
      | cached u d => rfl
    case cached => exact h.cached
    case released =>
      intro b hb
      rcases List.mem_cons.mp hb with rfl | hb
      · have := h.index b hlt
        show (s.block b).header.ind.toNat = 512
        omega
      · exact h.released b hb
    case index => exact h.index
    case bytes => exact h.bytes
    case magic => exact h.magic

theorem exit (h : s.Inv debug) : (s.next debug (.exit t)).Inv debug := by
  have hgone : ∀ c, (s.exit t).tcache t c = [] := fun c => by simp [Slab.exit]
  have hkept : ∀ u c, u ≠ t → (s.exit t).tcache u c = s.tcache u c :=
    fun u c hu => by simp [Slab.exit, Function.update_of_ne hu]
  have hsrc : ((List.range 512).map (Place.cached t)).Nodup :=
    List.nodup_range.map fun c d hcd => by injection hcd
  constructor
  case held =>
    refine h.held.gather (l := (List.range 512).map (Place.cached t)) (q := .lost) hsrc (by simp) ?_ ?_ ?_
    · rw [List.flatMap_map]
      rfl
    · intro p hp
      obtain ⟨c, -, rfl⟩ := List.mem_map.mp hp
      exact hgone c
    · intro p hp hp'
      cases p with
      | live => rfl
      | released => rfl
      | lost => exact absurd rfl hp'
      | cached u c =>
        by_cases hu : u = t
        · subst hu
          have hc : s.tcache u c = [] := by
            refine List.eq_nil_iff_forall_not_mem.mpr fun b hb => hp ?_
            exact List.mem_map.mpr ⟨c, List.mem_range.mpr (h.cached u c b hb).1, rfl⟩
          exact (hgone c).trans hc.symm
        · exact hkept u c hu
  case cached =>
    intro u c b hb
    have hb' : b ∈ (s.exit t).tcache u c := hb
    by_cases hu : u = t
    · subst hu
      rw [hgone] at hb'
      cases hb'
    · rw [hkept u c hu] at hb'
      exact h.cached u c b hb'
  case released => exact h.released
  case index => exact h.index
  case bytes => exact h.bytes
  case magic => exact h.magic

theorem next {a : Act τ} (h : s.Inv debug) (he : s.Enabled a) : (s.next debug a).Inv debug := by
  cases a with
  | new t size junk => exact h.new
  | delete t ptr => exact h.delete he.2
  | exit t => exact h.exit

end Inv

theorem Reachable.inv (h : (machine τ debug).Reachable s) : s.Inv debug := by
  have hrule := @Machine.Reachable.inv _ _ (machine τ debug) (Inv debug) (fun _ hi => Init.inv hi)
    (fun _ _ _ hi he => Inv.next hi he)
  exact hrule h

end

/-! ## Ownership -/

section

variable [DecidableEq τ] {debug : Bool} {s : Slab τ}

/-- Every block is in one place, in a `tcache_` only in the class of its header; an allocation
gives a block that nobody has; and headers stay as they are. -/
structure Owned (debug : Bool) (s : Slab τ) : Prop where
  place : ∀ b, b < s.created → ∃! p, b ∈ s.holding p
  once : ∀ p, (s.holding p).Nodup
  cached : ∀ t c b, b ∈ s.tcache t c → c < 512 ∧ (s.block b).header.ind.toNat = c
  released : ∀ b ∈ s.released, (s.block b).header.ind.toNat = 512
  handed : ∀ t size junk, (s.slabAlloc debug t size junk).2 ∉ s.live ∧
    (s.slabAlloc debug t size junk).2 ∉ s.released ∧ (s.slabAlloc debug t size junk).2 ∉ s.lost
  header : ∀ as : List (Act τ), (machine τ debug).AllEnabled s as → ∀ b, b < s.created →
    (((machine τ debug).runList s as).block b).header = (s.block b).header

/-- In every run of any number of threads, which may end, the blocks are owned. -/
theorem blocks_owned (h : (machine τ debug).Reachable s) : s.Owned debug := by
  have hinv := Reachable.inv h
  constructor
  case place => exact fun b hb => hinv.held.existsUnique hb
  case once => exact hinv.held.nodup
  case cached => exact hinv.cached
  case released => exact hinv.released
  case handed =>
    intro t size junk
    rcases new_cases debug t size junk s with ⟨rest, -, hc, -⟩ | ⟨hptr, -, -⟩
    · -- what a stack holds is in no other place
      have hin : (s.slabAlloc debug t size junk).2 ∈
          s.holding (.cached t (size2ind (roundup size)).toNat) := by
        show _ ∈ s.tcache t _
        rw [hc]
        exact List.mem_cons_self
      refine ⟨fun hm => ?_, fun hm => ?_, fun hm => ?_⟩
      · cases hinv.held.unique (q := .live) hin hm
      · cases hinv.held.unique (q := .released) hin hm
      · cases hinv.held.unique (q := .lost) hin hm
    · rw [hptr]
      have hnew : ∀ p, s.created ∉ s.holding p := fun p hm => Nat.lt_irrefl _ (hinv.held.sound hm)
      exact ⟨hnew .live, hnew .released, hnew .lost⟩
  case header =>
    intro as _ b hb
    rw [(runList_block debug s as).2 b hb]

end

/-- One thread frees what another allocated, and allocates it again. -/
theorem blocks_owned_handedOver : ((machine Bool true).runList (start Bool)
    [.new false 24 ⟨0, 0⟩, .delete true 0, .new true 20 ⟨0, 0⟩]).Owned true :=
  blocks_owned (Machine.Reachable.runList (.init start_init) (by decide +kernel))

/-- A thread that frees a block and ends takes the block with it: it is not allocated, in no
`tcache_`, and was not given back. -/
theorem lost_block : ∃ s : Slab Bool, (machine Bool true).Reachable s ∧ ∃ b, b < s.created ∧
    b ∉ s.live ∧ (∀ t c, b ∉ s.tcache t c) ∧ b ∉ s.released := by
  refine ⟨(machine Bool true).runList (start Bool) [.new true 24 ⟨0, 0⟩, .delete true 0, .exit true],
    .runList (.init start_init) (by decide +kernel), 0, by decide +kernel, by decide +kernel,
    fun t c => ?_, by decide +kernel⟩
  cases t with
  | false => exact List.not_mem_nil
  | true => exact List.not_mem_nil

end Sqkio.Common.Slab
