import Mathlib.Data.List.Count
import Sqkio.Slab.Ownership

/-!
# Blocks are made for the peak of a class

In the calls of one thread the blocks of a class below 512 are the allocated ones and those
in its stack, and a block is made only when the stack is empty.
-/

namespace Sqkio.Common.Slab

open Sqkio.Lib SlabPoolAllocator

variable {τ : Type}

/-- A call of `slab_alloc` or `slab_dealloc` in thread `t`. -/
def CallOf (t : τ) (_ : Slab τ) : Act τ → Prop
  | .new u _ _ | .delete u _ => u = t
  | .exit _ => False

/-- The call is not of class `c`. -/
def NotClass (c : Nat) (s : Slab τ) : Act τ → Prop
  | .new _ size _ => (size2ind (roundup size)).toNat ≠ c
  | .delete _ ptr => (s.block ptr).header.ind.toNat ≠ c
  | .exit _ => True

instance [DecidableEq τ] (t : τ) : (s : Slab τ) → (a : Act τ) → Decidable (CallOf t s a)
  | _, .new u _ _ | _, .delete u _ => inferInstanceAs (Decidable (u = t))
  | _, .exit _ => isFalse id

instance (c : Nat) : (s : Slab τ) → (a : Act τ) → Decidable (NotClass c s a)
  | _, .new _ size _ => inferInstanceAs (Decidable ((size2ind (roundup size)).toNat ≠ c))
  | s, .delete _ ptr => inferInstanceAs (Decidable ((s.block ptr).header.ind.toNat ≠ c))
  | _, .exit _ => isTrue trivial

def ofClass (s : Slab τ) (c b : Nat) : Bool := (s.block b).header.ind.toNat == c

/-- How many blocks of class `c` were requested from `::operator new`. -/
def createdOf (c : Nat) (s : Slab τ) : Nat := (List.range s.created).countP (s.ofClass c)

/-- How many blocks of class `c` are allocated. -/
def liveOf (c : Nat) (s : Slab τ) : Nat := s.live.countP (s.ofClass c)

/-- The blocks of class `c` are allocated or in the stack of thread `t`. -/
def Conserved (t : τ) (c : Nat) (s : Slab τ) : Prop :=
  s.createdOf c = s.liveOf c + (s.tcache t c).length

section

variable [DecidableEq τ] {debug : Bool} {s : Slab τ} {t : τ} {size : UInt64} {junk : SlabHeader}
  {ptr c : Nat}

omit [DecidableEq τ] in
/-- A new block counts for its own class. -/
theorem createdOf_create {x : Block} : (s.create x).createdOf c =
    s.createdOf c + if x.header.ind.toNat = c then 1 else 0 := by
  have hold : (List.range s.created).countP ((s.create x).ofClass c) = s.createdOf c := by
    refine List.countP_congr fun b hb => ?_
    unfold ofClass
    rw [create_block_of_lt (List.mem_range.mp hb)]
  have hnew : (s.create x).ofClass c s.created = (x.header.ind.toNat == c) := by
    unfold ofClass
    rw [create_block_self]
  rw [createdOf, show (s.create x).created = s.created + 1 from rfl, List.range_succ,
    List.countP_append, hold, List.countP_singleton, hnew]
  simp

omit [DecidableEq τ] in
theorem Inv.liveOf_create (h : s.Inv debug) {x : Block} : (s.create x).liveOf c = s.liveOf c := by
  refine List.countP_congr fun b hb => ?_
  unfold ofClass
  rw [create_block_of_lt (h.held.sound (p := .live) hb)]

/-- What a call of `operator new` changes of class `c`. -/
theorem Inv.new_class (h : s.Inv debug) (hcons : s.Conserved t c) (hc : c < 512) :
    (s.next debug (.new t size junk)).Conserved t c ∧
      ((s.next debug (.new t size junk)).createdOf c = s.createdOf c ∨
        s.createdOf c ≤ (s.next debug (.new t size junk)).createdOf c ∧
          (s.next debug (.new t size junk)).createdOf c =
            (s.next debug (.new t size junk)).liveOf c) := by
  unfold Conserved at *
  rcases new_cases debug t size junk s with ⟨rest, hfast, hc', hs⟩ | ⟨hptr, hmiss, hs⟩
  · have hcreated : (s.next debug (.new t size junk)).createdOf c = s.createdOf c := by
      simp only [Slab.next, hs]
      rfl
    have hclass := (h.cached t _ (s.slabAlloc debug t size junk).2
      (by rw [hc']; exact List.mem_cons_self)).2
    have hlive : (s.next debug (.new t size junk)).liveOf c =
        s.liveOf c + if (size2ind (roundup size)).toNat = c then 1 else 0 := by
      simp only [Slab.next, hs]
      rw [← hclass]
      show (_ :: s.live).countP (s.ofClass c) = _
      rw [List.countP_cons, ofClass]
      simp [liveOf]
    have hstack : ((s.next debug (.new t size junk)).tcache t c).length +
        (if (size2ind (roundup size)).toNat = c then 1 else 0) = (s.tcache t c).length := by
      simp only [Slab.next, hs]
      by_cases heq : (size2ind (roundup size)).toNat = c
      · rw [heq] at hc' ⊢
        rw [setCache_self, hc', if_pos rfl, List.length_cons]
      · rw [setCache_of_ne rest (fun hd => heq hd.2.symm), if_neg heq, Nat.add_zero]
    refine ⟨by omega, .inl hcreated⟩
  · have hind := newHeader_ind debug (size2ind (roundup size)) junk
    have hclass : (newHeader debug (size2ind (roundup size)) junk).ind.toNat = c ↔
        (size2ind (roundup size)).toNat = c := by omega
    have hcreated : (s.next debug (.new t size junk)).createdOf c =
        s.createdOf c + if (size2ind (roundup size)).toNat = c then 1 else 0 := by
      rw [← if_congr hclass rfl rfl]
      simp only [Slab.next, hs]
      exact createdOf_create
    have hlive : (s.next debug (.new t size junk)).liveOf c =
        s.liveOf c + if (size2ind (roundup size)).toNat = c then 1 else 0 := by
      rw [← if_congr hclass rfl rfl, ← h.liveOf_create (c := c) (x := ⟨roundup size + slabOverhead,
        newHeader debug (size2ind (roundup size)) junk, size⟩)]
      simp only [Slab.next, hs, hptr]
      show (_ :: s.live).countP ((s.create _).ofClass c) = _
      rw [List.countP_cons, ofClass, create_block_self]
      simp [liveOf, create]
    have hstack : (s.next debug (.new t size junk)).tcache t c = s.tcache t c := by
      simp only [Slab.next, hs]
      rfl
    rw [hcreated, hlive, hstack]
    refine ⟨by omega, ?_⟩
    by_cases heq : (size2ind (roundup size)).toNat = c
    · -- a block is made when the stack of the class is empty
      have hempty := hmiss (by omega)
      rw [heq] at hempty
      rw [hempty, List.length_nil] at hcons
      exact .inr ⟨by omega, by omega⟩
    · exact .inl (by simp [heq])

/-- What a call of `operator delete` changes of class `c`. -/
theorem delete_class (debug : Bool) (hcons : s.Conserved t c) (hc : c < 512) (hptr : ptr ∈ s.live) :
    (s.next debug (.delete t ptr)).Conserved t c ∧
      (s.next debug (.delete t ptr)).createdOf c = s.createdOf c := by
  unfold Conserved at *
  have hle : (if (s.block ptr).header.ind.toNat = c then 1 else 0) ≤ s.liveOf c := by
    split
    next heq =>
      refine List.countP_pos_iff.mpr ⟨ptr, hptr, ?_⟩
      simpa [ofClass] using heq
    · exact Nat.zero_le _
  have herase : (s.live.erase ptr).countP (s.ofClass c) =
      s.liveOf c - if (s.block ptr).header.ind.toNat = c then 1 else 0 := by
    rw [List.countP_erase]
    simp [liveOf, ofClass, hptr]
  by_cases hind : (s.block ptr).header.ind.toNat < 512
  · have hs := slabDealloc_cached (t := t) hind
    have hcreated : (s.next debug (.delete t ptr)).createdOf c = s.createdOf c := by
      simp only [next, hs]
      rfl
    have hlive : (s.next debug (.delete t ptr)).liveOf c =
        s.liveOf c - if (s.block ptr).header.ind.toNat = c then 1 else 0 := by
      simp only [next, hs]
      exact herase
    have hstack : ((s.next debug (.delete t ptr)).tcache t c).length =
        (s.tcache t c).length + if (s.block ptr).header.ind.toNat = c then 1 else 0 := by
      simp only [next, hs]
      by_cases heq : (s.block ptr).header.ind.toNat = c
      · rw [heq, setCache_self, if_pos rfl, List.length_cons]
      · rw [setCache_of_ne _ (fun hd => heq hd.2.symm), if_neg heq, Nat.add_zero]
    exact ⟨by omega, hcreated⟩
  · have hs := slabDealloc_released (t := t) hind
    have hne : (s.block ptr).header.ind.toNat ≠ c := by omega
    rw [if_neg hne] at herase
    have hcreated : (s.next debug (.delete t ptr)).createdOf c = s.createdOf c := by
      simp only [next, hs]
      rfl
    have hlive : (s.next debug (.delete t ptr)).liveOf c = s.liveOf c - 0 := by
      simp only [next, hs]
      exact herase
    have hstack : (s.next debug (.delete t ptr)).tcache t c = s.tcache t c := by
      simp only [next, hs]
    rw [hcreated, hlive, hstack]
    exact ⟨hcons, rfl⟩

/-- A call that is not of class `c` leaves its stack alone. -/
theorem next_stack {a : Act τ} (ht : CallOf t s a) (hn : NotClass c s a) :
    (s.next debug a).tcache t c = s.tcache t c := by
  cases a with
  | new u size junk =>
    have hu : u = t := ht
    subst hu
    simp only [next]
    rcases new_cases debug u size junk s with ⟨rest, -, -, hs⟩ | ⟨-, -, hs⟩
    · rw [hs]
      exact setCache_of_ne rest fun hd => hn hd.2.symm
    · rw [hs]
      rfl
  | delete u ptr =>
    have hu : u = t := ht
    subst hu
    simp only [next]
    by_cases hind : (s.block ptr).header.ind.toNat < 512
    · rw [slabDealloc_cached hind]
      exact setCache_of_ne _ fun hd => hn hd.2.symm
    · rw [slabDealloc_released hind]
  | exit u => exact ht.elim

theorem runList_stack {as : List (Act τ)}
    (h : (((machine τ debug).restrict (CallOf t)).restrict (NotClass c)).AllEnabled s as) :
    ((machine τ debug).runList s as).tcache t c = s.tcache t c := by
  induction as generalizing s with
  | nil => rfl
  | cons a as ih =>
    rw [Machine.runList_cons]
    exact (ih h.2).trans (next_stack h.1.1.2 h.1.2)

/-! ## The law -/

/-- After class `c` gets a block back, its next allocation returns that block. -/
def Reuses (debug : Bool) (t : τ) (c : Nat) (s : Slab τ) : Prop :=
  ∀ b ∈ s.live, (s.block b).header.ind.toNat = c → ∀ mid size junk,
    (((machine τ debug).restrict (CallOf t)).restrict (NotClass c)).AllEnabled
      (s.next debug (.delete t b)) mid → (size2ind (roundup size)).toNat = c →
    (((machine τ debug).runList (s.next debug (.delete t b)) mid).slabAlloc debug t size junk).2 = b

/-- After every history of calls of one thread: the blocks of a class below 512 are as many as
were allocated at once at the peak, none was given back, and they are reused at once; blocks
of a larger index are given back when they are freed. -/
theorem conserves_class (h : s.Init) (t : τ) (hc : c < 512) {acts : List (Act τ)}
    (he : ((machine τ debug).restrict (CallOf t)).AllEnabled s acts) :
    IsGreatest (Set.range fun n => ((machine τ debug).runList s (acts.take n)).liveOf c)
        (((machine τ debug).runList s acts).createdOf c) ∧
      (∀ b ∈ ((machine τ debug).runList s acts).released,
        (((machine τ debug).runList s acts).block b).header.ind.toNat ≠ c) ∧
      ((machine τ debug).runList s acts).Reuses debug t c ∧
      ∀ b ∈ ((machine τ debug).runList s acts).live,
        512 ≤ (size2ind (roundup (((machine τ debug).runList s acts).block b).size)).toNat →
        b ∈ (((machine τ debug).runList s acts).next debug (.delete t b)).released := by
  have hreach : (machine τ debug).Reachable ((machine τ debug).runList s acts) := by
    refine (Machine.Reachable.init h).runList ?_
    clear hc h
    induction acts generalizing s with
    | nil => trivial
    | cons a as ih => exact ⟨he.1.1, ih he.2⟩
  have hinv := Reachable.inv hreach
  have hrule := @Machine.isGreatest_runList _ _ ((machine τ debug).restrict (CallOf t))
    (fun s => s.Inv debug ∧ s.Conserved t c) (liveOf c) (createdOf c)
  refine ⟨hrule ?_ ?_ ?_ ⟨h.inv, ?_⟩ ?_ he, ?_, ?_, ?_⟩
  · rintro s ⟨-, hcons⟩
    unfold Conserved at hcons
    omega
  · rintro s a ⟨hen, ht⟩ ⟨hi, hcons⟩
    refine ⟨hi.next hen, ?_⟩
    cases a with
    | new u size junk =>
      have hu : u = t := ht
      subst hu
      exact (hi.new_class hcons hc).1
    | delete u ptr =>
      have hu : u = t := ht
      subst hu
      exact (delete_class debug hcons hc hen.2).1
    | exit u => exact ht.elim
  · rintro s a ⟨hen, ht⟩ ⟨hi, hcons⟩
    cases a with
    | new u size junk =>
      have hu : u = t := ht
      subst hu
      exact (hi.new_class hcons hc).2
    | delete u ptr =>
      have hu : u = t := ht
      subst hu
      exact .inl (delete_class debug hcons hc hen.2).2
    | exit u => exact ht.elim
  · simp [Conserved, createdOf, liveOf, h.created, h.live, h.tcache]
  · simp [createdOf, liveOf, h.created, h.live]
  · intro b hb
    have := hinv.released b hb
    omega
  · intro b hb hclass mid size junk hmid hsize
    generalize (machine τ debug).runList s acts = r at hb hclass hmid ⊢
    have hstack := runList_stack hmid
    have htop : (r.next debug (.delete t b)).tcache t c = b :: r.tcache t c := by
      simp only [next]
      rw [slabDealloc_cached (by omega), hclass]
      exact setCache_self c _
    rw [htop] at hstack
    rw [slabAlloc_hit (by omega) (by rw [hsize]; exact hstack)]
  · intro b hb hindex
    have hhead := hinv.index b (hinv.held.sound (p := .live) hb)
    simp only [next]
    rw [slabDealloc_released (by omega)]
    exact List.mem_cons_self

end

/-- Two frames at once, one freed and allocated again. -/
theorem conserves_class_two : IsGreatest (Set.range fun n =>
      ((machine Unit true).runList (start Unit) ([.new () 24 ⟨0, 0⟩, .new () 20 ⟨0, 0⟩, .delete () 0,
        .new () 17 ⟨0, 0⟩].take n)).liveOf 3)
    (((machine Unit true).runList (start Unit) [.new () 24 ⟨0, 0⟩, .new () 20 ⟨0, 0⟩, .delete () 0,
      .new () 17 ⟨0, 0⟩]).createdOf 3) :=
  (@conserves_class Unit _ true (start Unit) 3 start_init () (by decide) _ (by decide +kernel)).1

end Sqkio.Common.Slab
