import Mathlib.Logic.Function.Basic

/-!
# What an allocator is for

A store gives every pointer a block of bytes or none.  Programs make blocks, resize and release them and write to
them; a failed call leaves the store as it is.

    alloc n       a new block of n bytes, with any contents
    allocZero n   a new block of n zero bytes
    resize p n    the block is at a new pointer or at its old one, with the bytes that both sizes have
    release p     the block is gone
    put p i v     byte i of the block is v now

What is read at a pointer is what was written there last, whatever is done to other blocks (`Run.reads`).
-/

namespace Sqkio.Lib

/-- `byte` counts below `size` only. -/
structure Block (β : Type*) where
  size : Nat
  byte : Nat → β

/-- The blocks that are in use, by their pointers. -/
abbrev BlockStore (π β : Type*) := π → Option (Block β)

namespace BlockStore

variable {π β : Type*} [DecidableEq π] [Zero π] [Zero β]

inductive Op (π β : Type*)
  | alloc (n : Nat)
  | allocZero (n : Nat)
  | resize (p : π) (n : Nat)
  | release (p : π)
  | put (p : π) (i : Nat) (v : β)

def empty : BlockStore π β := fun _ => none

def set (s : BlockStore π β) (p : π) (b : Option (Block β)) : BlockStore π β := Function.update s p b

/-- An operation, its result and the store afterwards.  The null pointer says that it failed, or that there is
nothing to return. -/
inductive Step : BlockStore π β → Op π β → π → BlockStore π β → Prop
  | allocFail {s : BlockStore π β} {n : Nat} : Step s (.alloc n) 0 s
  | alloc {s : BlockStore π β} {p : π} {b : Block β} : p ≠ 0 → s p = none → Step s (.alloc b.size) p (s.set p b)
  | allocZeroFail {s : BlockStore π β} {n : Nat} : Step s (.allocZero n) 0 s
  | allocZero {s : BlockStore π β} {p : π} {b : Block β} : p ≠ 0 → s p = none → (∀ i, i < b.size → b.byte i = 0) →
      Step s (.allocZero b.size) p (s.set p b)
  | resizeFail {s : BlockStore π β} {p : π} {n : Nat} : Step s (.resize p n) 0 s
  | resizeRelease {s : BlockStore π β} {p : π} : Step s (.resize p 0) 0 (s.set p none)
  | resize {s : BlockStore π β} {p q : π} {b : Block β} : b.size ≠ 0 → q ≠ 0 → (q = p ∨ s q = none) →
      (∀ a, s p = some a → ∀ i, i < a.size → i < b.size → b.byte i = a.byte i) →
      Step s (.resize p b.size) q ((s.set p none).set q b)
  | release {s : BlockStore π β} {p : π} : Step s (.release p) 0 (s.set p none)
  | put {s : BlockStore π β} {p : π} {b : Block β} {i : Nat} {v : β} : s p = some b → i < b.size →
      Step s (.put p i v) 0 (s.set p (some { b with byte := Function.update b.byte i v }))

/-- Operations with their results. -/
inductive Run : BlockStore π β → List (Op π β × π) → BlockStore π β → Prop
  | nil {s : BlockStore π β} : Run s [] s
  | cons {s t u : BlockStore π β} {es : List (Op π β × π)} {o : Op π β} {r : π} : Step s o r t → Run t es u →
      Run s ((o, r) :: es) u

variable {s t : BlockStore π β} {p q r : π} {o : Op π β} {b : Block β} {es : List (Op π β × π)} {i n : Nat} {v : β}

omit [Zero π] [Zero β] in
theorem set_self {x : Option (Block β)} : s.set p x p = x := by
  unfold set
  rw [Function.update_self]

omit [Zero π] [Zero β] in
theorem set_of_ne {x : Option (Block β)} (h : q ≠ p) : s.set p x q = s q := by
  unfold set
  rw [Function.update_of_ne h]

/-! ## What an operation leaves alone -/

/-- It is not about the block at `p`. -/
def Op.Avoids (p : π) : Op π β → Prop
  | .resize q _ | .release q | .put q _ _ => q ≠ p
  | _ => True

/-- It does not end the block at `p`, and does not write byte `i` of it. -/
def Op.Spares (p : π) (i : Nat) : Op π β → Prop
  | .resize q _ | .release q => q ≠ p
  | .put q j _ => q = p → j ≠ i
  | _ => True

theorem Step.avoids (h : Step s o r t) (ho : o.Avoids p) (hp : s p = some b) : t p = some b := by
  have hnew : ∀ {q : π}, s q = none → p ≠ q := by
    rintro q hq rfl
    rw [hp] at hq
    cases hq
  cases h with
  | allocFail => exact hp
  | alloc _ hfresh => exact (set_of_ne (hnew hfresh)).trans hp
  | allocZeroFail => exact hp
  | allocZero _ hfresh _ => exact (set_of_ne (hnew hfresh)).trans hp
  | resizeFail => exact hp
  | resizeRelease => exact (set_of_ne (Ne.symm ho)).trans hp
  | resize _ _ hfresh _ =>
    rcases hfresh with rfl | hfresh
    · exact (set_of_ne (Ne.symm ho)).trans ((set_of_ne (Ne.symm ho)).trans hp)
    · exact (set_of_ne (hnew hfresh)).trans ((set_of_ne (Ne.symm ho)).trans hp)
  | release => exact (set_of_ne (Ne.symm ho)).trans hp
  | put _ _ => exact (set_of_ne (Ne.symm ho)).trans hp

/-- Byte `i` of the block at `p` is `v`. -/
def Reads (s : BlockStore π β) (p : π) (i : Nat) (v : β) : Prop := ∃ b, s p = some b ∧ i < b.size ∧ b.byte i = v

theorem Step.reads (h : Step s o r t) (ho : o.Spares p i) (hv : s.Reads p i v) : t.Reads p i v := by
  by_cases havoid : o.Avoids p
  · obtain ⟨b, hb, hi, hbv⟩ := hv
    exact ⟨b, h.avoids havoid hb, hi, hbv⟩
  · cases h with
    | allocFail | allocZeroFail => exact hv
    | alloc _ _ => exact absurd trivial havoid
    | allocZero _ _ _ => exact absurd trivial havoid
    | resizeFail => exact hv
    | resizeRelease => exact absurd ho havoid
    | resize _ _ _ _ => exact absurd ho havoid
    | release => exact absurd ho havoid
    | @put q b j w hq hj =>
      obtain rfl : q = p := not_not.mp havoid
      obtain ⟨a, ha, hi, hav⟩ := hv
      obtain rfl : b = a := Option.some.inj (hq.symm.trans ha)
      exact ⟨_, set_self, hi, (Function.update_of_ne (Ne.symm (ho rfl)) w b.byte).trans hav⟩

/-- **Frame rule.**  A byte keeps its value until it is written or its block is resized or released. -/
theorem Run.reads (h : Run s es t) (ho : ∀ e ∈ es, e.1.Spares p i) (hv : s.Reads p i v) : t.Reads p i v := by
  induction h with
  | nil => exact hv
  | cons hstep _ ih =>
    obtain ⟨he, hes⟩ := List.forall_mem_cons.mp ho
    exact ih hes (hstep.reads he hv)

/-- A block that is not new was there before, or is where an operation has returned it. -/
theorem Step.returned (h : Step s o r t) (hp : (t p).isSome) : (s p).isSome ∨ p = r := by
  have hset : ∀ {q : π} {x : Option (Block β)}, (s.set q x p).isSome → p ≠ q → (s p).isSome := by
    intro q x hx hne
    rwa [set_of_ne hne] at hx
  have hnone : ∀ {q : π}, (s.set q none p).isSome → (s p).isSome := by
    intro q hx
    refine hset hx ?_
    rintro rfl
    rw [set_self] at hx
    cases hx
  cases h with
  | allocFail | allocZeroFail | resizeFail => exact .inl hp
  | alloc _ _ | allocZero _ _ _ => exact or_iff_not_imp_right.mpr (hset hp)
  | resizeRelease | release => exact .inl (hnone hp)
  | resize _ _ _ _ =>
    refine or_iff_not_imp_right.mpr fun hne => ?_
    rw [set_of_ne hne] at hp
    exact hnone hp
  | @put q b _ _ hq _ =>
    by_cases hne : p = q
    · subst hne
      rw [hq]
      exact .inl rfl
    · exact .inl (hset hp hne)

/-! ## What an operation does -/

theorem Step.put_reads (h : Step s (.put p i v) r t) : t.Reads p i v := by
  cases h with
  | put hp hi => exact ⟨_, set_self, hi, Function.update_self _ _ _⟩

theorem Step.allocZero_new (h : Step s (.allocZero n) p t) (hp : p ≠ 0) :
    s p = none ∧ ∃ b, t p = some b ∧ b.size = n ∧ ∀ i, i < n → b.byte i = 0 := by
  cases h with
  | allocZeroFail => exact absurd rfl hp
  | @allocZero _ b _ hfresh hzero => exact ⟨hfresh, b, set_self, rfl, hzero⟩

end BlockStore

end Sqkio.Lib
