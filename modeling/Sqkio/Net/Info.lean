import Sqkio.Lib.Machine
import Mathlib.Data.List.Nodup
import Mathlib.Logic.Function.Basic
import Mathlib.Tactic.Common

/-!
# `Info` and the `fi_info` it owns

An `Info` owns one `fi_info` or, after it was moved from, none.  Ownership goes from one to another
through the move constructor, the `with_*` builders, which return `std::move(*this)` by value, and
`operator=`, which is also what `Awaker<Info>::wake` does with its `ret_`.  `operator=` takes the other
pointer over without freeing its own one.

`balanced_iff`: nothing is leaked exactly when each assignment is onto an `Info` that owns nothing.
-/

namespace Sqkio.Net.Fab

open Sqkio.Lib

/-- The parts of an `fi_info` that the builders write; `A` is an attribute block. -/
structure FiInfo (A : Type) where
  caps : UInt64
  mode : UInt64
  addrFormat : UInt32
  epAttr : A
  rxAttr : A
  domainAttr : A
  fabricAttr : A
  deriving DecidableEq

/-- The call of a builder; `fn` is handed a block to write. -/
inductive Builder (A : Type) where
  | withCaps (caps : UInt64)
  | withAddrFormat (addrFormat : UInt32)
  | withEpAttr (fn : A → A)
  | withRxAttr (fn : A → A)
  | withDomainAttr (fn : A → A)
  | withMode (mode : UInt64)
  | withFabricAttr (fn : A → A)

variable {A : Type}

def Builder.write (b : Builder A) (info : FiInfo A) : FiInfo A :=
  match b with
  | withCaps caps => { info with caps := info.caps ||| caps }
  | withAddrFormat addrFormat => { info with addrFormat }
  | withEpAttr fn => { info with epAttr := fn info.epAttr }
  | withRxAttr fn => { info with rxAttr := fn info.rxAttr }
  | withDomainAttr fn => { info with domainAttr := fn info.domainAttr }
  | withMode mode => { info with mode := info.mode ||| mode }
  | withFabricAttr fn => { info with fabricAttr := fn info.fabricAttr }

/-- The `Info` objects by number: `info v` is `none` if there is no object `v`, and holds its `info_`
otherwise.  The `ret_` of an `Awaker<Info>` is one of them. -/
structure Infos (A : Type) where
  info : Nat → Option (Option Nat)
  /-- The `fi_info`s, by number. -/
  heap : Nat → FiInfo A
  made : Nat
  -- ghost: the arguments of `fi_freeinfo`
  freed : List Nat

namespace Infos

inductive Act (A : Type) where
  /-- `Info()`, with what `fi_allocinfo` returns: `none` for a null pointer. -/
  | construct (v : Nat) (info : Option (FiInfo A))
  /-- `from_raw` of an `fi_info` that the provider handed over. -/
  | fromRaw (v : Nat) (info : FiInfo A)
  /-- `get_info`; `none` when `fi_getinfo` fails. -/
  | getInfo (v : Nat) (info : Option (FiInfo A))
  | moveConstruct (v w : Nat)
  | moveAssign (v w : Nat)
  /-- `v` is made of the value that a builder called on `w` returns. -/
  | build (v w : Nat) (b : Builder A)
  /-- `wake(std::move(w))` of the awaker whose `ret_` is `v`. -/
  | wake (v w : Nat)
  /-- `v` is made of what `await_resume` of the awaker with `ret_` `w` returns. -/
  | awaitResume (v w : Nat)
  | destroy (v : Nat)

def setInfo (v : Nat) (x : Option (Option Nat)) (s : Infos A) : Infos A :=
  { s with info := Function.update s.info v x }

/-- An `Info` made of a pointer that the provider has just returned. -/
def own (v : Nat) (info : FiInfo A) (s : Infos A) : Infos A :=
  { s.setInfo v (some (some s.made)) with heap := Function.update s.heap s.made info, made := s.made + 1 }

/-- `Info()`; `std::bad_alloc` leaves no object. -/
def construct (v : Nat) (info : Option (FiInfo A)) (s : Infos A) : Infos A :=
  match info with
  | some info => s.own v info
  | none => s

def fromRaw (v : Nat) (info : FiInfo A) (s : Infos A) : Infos A := s.own v info

def getInfo (v : Nat) (info : Option (FiInfo A)) (s : Infos A) : Infos A :=
  match info with
  | some info => s.own v info
  | none => s

/-- `~Info()` -/
def destroy (v : Nat) (s : Infos A) : Infos A :=
  match s.info v with
  | some (some p) => { s.setInfo v none with freed := s.freed ++ [p] }
  | _ => s.setInfo v none

/-- `info_ = rhs.info_; rhs.info_ = nullptr;` -/
def take (v w : Nat) (s : Infos A) : Infos A := (s.setInfo v (s.info w)).setInfo w (some none)

/-- `Info(Info&& rhs)` -/
def moveConstruct (v w : Nat) (s : Infos A) : Infos A := if v = w then s else s.take v w

/-- `operator=(Info&& rhs)` -/
def moveAssign (v w : Nat) (s : Infos A) : Infos A := if v = w then s else s.take v w

/-- `info_->… = …; return std::move(*this);` -/
def build (v w : Nat) (b : Builder A) (s : Infos A) : Infos A :=
  match s.info w with
  | some (some p) => moveConstruct v w { s with heap := Function.update s.heap p (b.write (s.heap p)) }
  | _ => s

/-- `ret_ = std::move(ret)` -/
def wake (v w : Nat) (s : Infos A) : Infos A := s.moveAssign v w

/-- `return std::move(ret_)` -/
def awaitResume (v w : Nat) (s : Infos A) : Infos A := s.moveConstruct v w

def next (s : Infos A) : Act A → Infos A
  | .construct v info => s.construct v info
  | .fromRaw v info => s.fromRaw v info
  | .getInfo v info => s.getInfo v info
  | .moveConstruct v w => s.moveConstruct v w
  | .moveAssign v w => s.moveAssign v w
  | .build v w b => s.build v w b
  | .wake v w => s.wake v w
  | .awaitResume v w => s.awaitResume v w
  | .destroy v => s.destroy v

/-- A new object gets a number of its own, the others are there, and a builder is called on one that
owns something. -/
def Enabled (s : Infos A) : Act A → Prop
  | .construct v _ | .fromRaw v _ | .getInfo v _ => s.info v = none
  | .moveConstruct v w | .awaitResume v w => s.info v = none ∧ s.info w ≠ none
  | .moveAssign v w | .wake v w => s.info v ≠ none ∧ s.info w ≠ none
  | .build v w _ => s.info v = none ∧ ∃ p, s.info w = some (some p)
  | .destroy v => s.info v ≠ none

instance : (s : Infos A) → (a : Act A) → Decidable (s.Enabled a)
  | s, .construct v _ | s, .fromRaw v _ | s, .getInfo v _ => inferInstanceAs (Decidable (s.info v = none))
  | s, .moveConstruct v w | s, .awaitResume v w =>
    inferInstanceAs (Decidable (s.info v = none ∧ s.info w ≠ none))
  | s, .moveAssign v w | s, .wake v w => inferInstanceAs (Decidable (s.info v ≠ none ∧ s.info w ≠ none))
  | s, .build v w _ => decidable_of_iff (s.info v = none ∧ (s.info w).join.isSome = true) (by
      refine and_congr_right fun _ => ?_
      rw [Option.isSome_iff_exists]
      exact exists_congr fun p => Option.join_eq_some_iff)
  | s, .destroy v => inferInstanceAs (Decidable (s.info v ≠ none))

structure Init (s : Infos A) : Prop where
  info : ∀ v, s.info v = none
  made : s.made = 0
  freed : s.freed = []

def machine (A : Type) : Machine (Infos A) (Act A) where
  init := Init
  enabled := Enabled
  next := next

instance (s : Infos A) (a : Act A) : Decidable ((machine A).enabled s a) :=
  inferInstanceAs (Decidable (s.Enabled a))

/-- `fi_info` number `p` is owned by the object `v`. -/
def Owns (s : Infos A) (v p : Nat) : Prop := s.info v = some (some p)

/-- Each `fi_info` has one owner at most, is freed at most once and not while it is owned, and is freed
once it has no owner any more. -/
structure Balanced (s : Infos A) : Prop where
  owner : ∀ v w p, s.Owns v p → s.Owns w p → v = w
  once : s.freed.Nodup
  unfreed : ∀ v p, s.Owns v p → p ∉ s.freed
  released : ∀ p, p < s.made → p ∈ s.freed ∨ ∃ v, s.Owns v p

/-- An assignment is onto the object itself, or onto one that owns nothing. -/
def OntoEmpty (s : Infos A) : Act A → Prop
  | .moveAssign v w | .wake v w => v = w ∨ s.info v = some none
  | _ => True

instance : (s : Infos A) → (a : Act A) → Decidable (s.OntoEmpty a)
  | s, .moveAssign v w | s, .wake v w => inferInstanceAs (Decidable (v = w ∨ s.info v = some none))
  | _, .construct .. | _, .fromRaw .. | _, .getInfo .. | _, .moveConstruct .. | _, .build ..
  | _, .awaitResume .. | _, .destroy .. => isTrue trivial

/-! ## The invariant -/

/-- What holds whatever is leaked. -/
structure Inv (s : Infos A) : Prop where
  owner : ∀ v w p, s.Owns v p → s.Owns w p → v = w
  once : s.freed.Nodup
  unfreed : ∀ v p, s.Owns v p → p ∉ s.freed
  made : ∀ v p, s.Owns v p → p < s.made
  freed : ∀ p ∈ s.freed, p < s.made

/-- No `fi_info` is leaked. -/
def Released (s : Infos A) : Prop := ∀ p, p < s.made → p ∈ s.freed ∨ ∃ v, s.Owns v p

theorem Init.inv {s : Infos A} (h : s.Init) : s.Inv := by
  constructor <;> simp [Owns, h.info, h.freed]

theorem Inv.balanced_iff_released {s : Infos A} (h : s.Inv) : s.Balanced ↔ s.Released :=
  ⟨fun hb => hb.released, fun hr => ⟨h.owner, h.once, h.unfreed, hr⟩⟩

section

variable {s : Infos A}

theorem owns_own (v : Nat) (info : FiInfo A) (x p : Nat) :
    (s.own v info).Owns x p ↔ (x = v ∧ p = s.made) ∨ (x ≠ v ∧ s.Owns x p) := by
  simp only [Owns, own, setInfo, Function.update_apply]
  split
  next heq => simp [heq, eq_comm]
  next hne => simp [hne]

theorem owns_take {v w : Nat} (hvw : v ≠ w) (x p : Nat) :
    (s.take v w).Owns x p ↔ (x = v ∧ s.Owns w p) ∨ (x ≠ v ∧ x ≠ w ∧ s.Owns x p) := by
  simp only [Owns, take, setInfo, Function.update_apply]
  by_cases hw : x = w
  · simp [hw, hvw.symm]
  · by_cases hv : x = v
    · simp [hv, hvw]
    · simp [hw, hv]

theorem owns_destroy (v x p : Nat) : (s.destroy v).Owns x p ↔ x ≠ v ∧ s.Owns x p := by
  have hset : ((s.setInfo v none).Owns x p) ↔ x ≠ v ∧ s.Owns x p := by
    simp only [Owns, setInfo, Function.update_apply]
    split
    next heq => simp [heq]
    next hne => simp [hne]
  unfold destroy
  split
  · exact hset
  · exact hset

namespace Inv

/-- The contents do not matter. -/
theorem heap (h : s.Inv) (heap : Nat → FiInfo A) : Inv { s with heap } :=
  ⟨h.owner, h.once, h.unfreed, h.made, h.freed⟩

theorem own (h : s.Inv) (v : Nat) (info : FiInfo A) : (s.own v info).Inv := by
  have hnew : ∀ x, ¬ s.Owns x s.made := fun x hx => Nat.lt_irrefl _ (h.made x _ hx)
  constructor
  case owner =>
    intro x y p hx hy
    rw [owns_own] at hx hy
    rcases hx with ⟨rfl, rfl⟩ | ⟨-, hx⟩
    · rcases hy with ⟨rfl, -⟩ | ⟨-, hy⟩
      · rfl
      · exact absurd hy (hnew y)
    · rcases hy with ⟨rfl, rfl⟩ | ⟨-, hy⟩
      · exact absurd hx (hnew x)
      · exact h.owner x y p hx hy
  case once => exact h.once
  case unfreed =>
    intro x p hx
    rw [owns_own] at hx
    rcases hx with ⟨-, rfl⟩ | ⟨-, hx⟩
    · exact fun hmem => Nat.lt_irrefl _ (h.freed _ hmem)
    · exact h.unfreed x p hx
  case made =>
    intro x p hx
    rw [owns_own] at hx
    rcases hx with ⟨-, rfl⟩ | ⟨-, hx⟩
    · exact Nat.lt_succ_self _
    · exact Nat.lt_succ_of_lt (h.made x p hx)
  case freed => exact fun p hp => Nat.lt_succ_of_lt (h.freed p hp)

theorem take (h : s.Inv) {v w : Nat} (hvw : v ≠ w) : (s.take v w).Inv := by
  have hfrom : ∀ x p, (s.take v w).Owns x p → ∃ y, s.Owns y p := by
    intro x p hx
    rw [owns_take hvw] at hx
    rcases hx with ⟨-, hx⟩ | ⟨-, -, hx⟩
    · exact ⟨w, hx⟩
    · exact ⟨x, hx⟩
  constructor
  case owner =>
    intro x y p hx hy
    rw [owns_take hvw] at hx hy
    rcases hx with ⟨rfl, hx⟩ | ⟨-, hxw, hx⟩
    · rcases hy with ⟨rfl, -⟩ | ⟨-, hyw, hy⟩
      · rfl
      · exact absurd (h.owner y w p hy hx) hyw
    · rcases hy with ⟨rfl, hy⟩ | ⟨-, -, hy⟩
      · exact absurd (h.owner x w p hx hy) hxw
      · exact h.owner x y p hx hy
  case once => exact h.once
  case unfreed =>
    intro x p hx
    obtain ⟨y, hy⟩ := hfrom x p hx
    exact h.unfreed y p hy
  case made =>
    intro x p hx
    obtain ⟨y, hy⟩ := hfrom x p hx
    exact h.made y p hy
  case freed => exact h.freed

theorem destroy (h : s.Inv) (v : Nat) : (s.destroy v).Inv := by
  have hmade : (s.destroy v).made = s.made := by
    unfold Infos.destroy
    split <;> rfl
  have howns : ∀ x p, (s.destroy v).Owns x p → x ≠ v ∧ s.Owns x p := fun x p => (owns_destroy v x p).mp
  have hfreed : (s.destroy v).freed = s.freed ∨
      ∃ p, s.Owns v p ∧ (s.destroy v).freed = s.freed ++ [p] := by
    unfold Infos.destroy
    split
    next p hp => exact .inr ⟨p, hp, rfl⟩
    · exact .inl rfl
  constructor
  case owner => exact fun x y p hx hy => h.owner x y p (howns x p hx).2 (howns y p hy).2
  case once =>
    rcases hfreed with heq | ⟨p, hp, heq⟩
    · rw [heq]
      exact h.once
    · rw [heq, List.nodup_append]
      refine ⟨h.once, List.nodup_singleton p, fun a ha b hb hab => ?_⟩
      rw [List.mem_singleton] at hb
      exact h.unfreed v p hp (hb ▸ hab ▸ ha)
  case unfreed =>
    intro x p hx
    obtain ⟨hne, hx⟩ := howns x p hx
    rcases hfreed with heq | ⟨q, hq, heq⟩
    · rw [heq]
      exact h.unfreed x p hx
    · rw [heq, List.mem_append, List.mem_singleton]
      rintro (hp | rfl)
      · exact h.unfreed x p hx hp
      · exact hne (h.owner x v p hx hq)
  case made =>
    intro x p hx
    rw [hmade]
    exact h.made x p (howns x p hx).2
  case freed =>
    intro p hp
    rw [hmade]
    rcases hfreed with heq | ⟨q, hq, heq⟩
    · exact h.freed p (heq ▸ hp)
    · rw [heq, List.mem_append, List.mem_singleton] at hp
      rcases hp with hp | rfl
      · exact h.freed p hp
      · exact h.made v p hq

theorem next (h : s.Inv) {a : Act A} (he : s.Enabled a) : (s.next a).Inv := by
  have hmove : ∀ v w, Inv (if v = w then s else s.take v w) := by
    intro v w
    split
    · exact h
    next hne => exact h.take hne
  have hgiven : ∀ v (info : Option (FiInfo A)), (s.construct v info).Inv := by
    intro v info
    cases info with
    | none => exact h
    | some info => exact h.own v info
  cases a with
  | construct v info => exact hgiven v info
  | fromRaw v info => exact h.own v info
  | getInfo v info => exact hgiven v info
  | moveConstruct v w => exact hmove v w
  | moveAssign v w => exact hmove v w
  | build v w b =>
    obtain ⟨hv, p, hp⟩ := he
    have hne : v ≠ w := by
      rintro rfl
      rw [hp] at hv
      cases hv
    simp only [Infos.next, Infos.build, hp, moveConstruct, if_neg hne]
    exact (h.heap _).take hne
  | wake v w => exact hmove v w
  | awaitResume v w => exact hmove v w
  | destroy v => exact h.destroy v

end Inv

/-! ## The law -/

/-- A pointer taken over by an object that owned nothing. -/
theorem released_take {v w : Nat} (hvw : v ≠ w) (hv : ∀ p, ¬ s.Owns v p) :
    (s.take v w).Released ↔ s.Released := by
  refine forall₂_congr fun p _ => or_congr_right ?_
  constructor
  · rintro ⟨x, hx⟩
    rw [owns_take hvw] at hx
    rcases hx with ⟨-, hx⟩ | ⟨-, -, hx⟩
    · exact ⟨w, hx⟩
    · exact ⟨x, hx⟩
  · rintro ⟨x, hx⟩
    by_cases hxw : x = w
    · exact ⟨v, (owns_take hvw v p).mpr (.inl ⟨rfl, hxw ▸ hx⟩)⟩
    · refine ⟨x, (owns_take hvw x p).mpr (.inr ⟨?_, hxw, hx⟩)⟩
      rintro rfl
      exact hv p hx

/-- What an object owned before an assignment is lost. -/
theorem Inv.not_released_take (h : s.Inv) {v w p : Nat} (hvw : v ≠ w) (hv : s.Owns v p) :
    ¬ (s.take v w).Released := by
  intro hr
  rcases hr p (h.made v p hv) with hfreed | ⟨x, hx⟩
  · exact h.unfreed v p hv hfreed
  · rw [owns_take hvw] at hx
    rcases hx with ⟨-, hx⟩ | ⟨hxv, -, hx⟩
    · exact hvw (h.owner v w p hv hx)
    · exact hxv (h.owner x v p hx hv)

theorem released_own {v : Nat} (hv : s.info v = none) (info : FiInfo A) :
    (s.own v info).Released ↔ s.Released := by
  constructor
  · intro hr p hp
    rcases hr p (Nat.lt_succ_of_lt hp) with hfreed | ⟨x, hx⟩
    · exact .inl hfreed
    · rw [owns_own] at hx
      rcases hx with ⟨-, rfl⟩ | ⟨-, hx⟩
      · exact absurd hp (Nat.lt_irrefl _)
      · exact .inr ⟨x, hx⟩
  · intro hr p hp
    rcases Nat.lt_succ_iff_lt_or_eq.mp hp with hlt | rfl
    · rcases hr p hlt with hfreed | ⟨x, hx⟩
      · exact .inl hfreed
      · refine .inr ⟨x, (owns_own v info x p).mpr (.inr ⟨?_, hx⟩)⟩
        rintro rfl
        rw [Owns, hv] at hx
        cases hx
    · exact .inr ⟨v, (owns_own v info v s.made).mpr (.inl ⟨rfl, rfl⟩)⟩

theorem released_destroy (v : Nat) : (s.destroy v).Released ↔ s.Released := by
  have hmade : (s.destroy v).made = s.made := by
    unfold destroy
    split <;> rfl
  unfold Released
  rw [hmade]
  refine forall₂_congr fun p _ => ?_
  simp only [owns_destroy]
  have hfreed : p ∈ (s.destroy v).freed ↔ p ∈ s.freed ∨ s.Owns v p := by
    unfold destroy Owns
    split
    next q hq => simp [hq, eq_comm]
    next hq =>
      refine ⟨.inl, fun h => h.elim id fun hp => absurd hp (hq p)⟩
  rw [hfreed, or_assoc]
  refine or_congr_right ?_
  constructor
  · rintro (hv | ⟨x, -, hx⟩)
    · exact ⟨v, hv⟩
    · exact ⟨x, hx⟩
  · rintro ⟨x, hx⟩
    by_cases hxv : x = v
    · exact .inl (hxv ▸ hx)
    · exact .inr ⟨x, hxv, hx⟩

/-- An assignment keeps the law exactly when nothing was owned where it goes. -/
theorem Inv.assign_released (h : s.Inv) {v w : Nat} (hv : s.info v ≠ none) :
    (s.moveAssign v w).Released ↔ s.Released ∧ (v = w ∨ s.info v = some none) := by
  unfold moveAssign
  split
  next heq => exact (and_iff_left (.inl heq)).symm
  next hne =>
    obtain ⟨x, hx⟩ := Option.ne_none_iff_exists'.mp hv
    cases x with
    | none =>
      rw [released_take hne (by simp [Owns, hx])]
      exact (and_iff_left (.inr hx)).symm
    | some p =>
      refine iff_of_false (h.not_released_take hne hx) ?_
      rintro ⟨-, heq | hnull⟩
      · exact hne heq
      · rw [hx] at hnull
        cases hnull

/-- A new object made of another one loses nothing. -/
theorem move_released {v w : Nat} (hv : s.info v = none) :
    (s.moveConstruct v w).Released ↔ s.Released := by
  unfold moveConstruct
  split
  · exact Iff.rfl
  next hne => exact released_take hne (by simp [Owns, hv])

theorem Inv.next_released (h : s.Inv) {a : Act A} (he : s.Enabled a) :
    (s.next a).Released ↔ s.Released ∧ s.OntoEmpty a := by
  have hgiven : ∀ v (info : Option (FiInfo A)), s.info v = none →
      ((s.construct v info).Released ↔ s.Released) := by
    intro v info hv
    cases info with
    | none => exact Iff.rfl
    | some info => exact released_own hv info
  cases a with
  | construct v info => exact (hgiven v info he).trans (and_iff_left trivial).symm
  | fromRaw v info => exact (released_own he info).trans (and_iff_left trivial).symm
  | getInfo v info => exact (hgiven v info he).trans (and_iff_left trivial).symm
  | moveConstruct v w => exact (move_released he.1).trans (and_iff_left trivial).symm
  | moveAssign v w => exact h.assign_released he.1
  | build v w b =>
    obtain ⟨hv, p, hp⟩ := he
    refine Iff.trans ?_ (and_iff_left trivial).symm
    simp only [Infos.next, build, hp]
    exact move_released hv
  | wake v w => exact h.assign_released he.1
  | awaitResume v w => exact (move_released he.1).trans (and_iff_left trivial).symm
  | destroy v => exact (released_destroy v).trans (and_iff_left trivial).symm

/-- **Ownership.**  For every sequence of operations: each `fi_info` has at most one owner, is freed at
most once, and is freed when its last owner goes, exactly when every assignment, `wake` included, is
onto an `Info` that owns nothing or onto itself. -/
theorem balanced_iff (h : s.Init) {acts : List (Act A)} (he : (machine A).AllEnabled s acts) :
    ((machine A).runList s acts).Balanced ↔ ((machine A).restrict OntoEmpty).AllEnabled s acts := by
  have hrule := @Machine.law_iff_allEnabled _ _ (machine A) Inv Released OntoEmpty
    (fun _ _ hen hi => hi.next hen) (fun _ _ hen hi => hi.next_released hen)
  have hlaw : s.Released := by
    intro p hp
    rw [h.made] at hp
    cases hp
  have hend := @Machine.inv_runList _ _ (machine A) Inv (fun _ _ hen hi => hi.next hen) acts s h.inv he
  exact hend.balanced_iff_released.trans ((hrule h.inv he).trans (and_iff_right hlaw))

/-- Whatever is leaked, nothing is freed twice, and nothing is freed while it is owned. -/
theorem never_double_free (h : (machine A).Reachable s) :
    s.freed.Nodup ∧ (∀ v w p, s.Owns v p → s.Owns w p → v = w) ∧ ∀ v p, s.Owns v p → p ∉ s.freed := by
  have hrule := @Machine.Reachable.inv _ _ (machine A) Inv (fun _ hi => Init.inv hi)
    (fun _ _ _ hi he => hi.next he)
  have hinv := hrule h
  exact ⟨hinv.once, hinv.owner, hinv.unfreed⟩

end

/-! ## The first `wake` -/

/-- No object has been made. -/
def empty : Infos Unit where
  info _ := none
  heap _ := ⟨0, 0, 0, (), (), (), ()⟩
  made := 0
  freed := []

theorem empty_init : empty.Init := ⟨fun _ => rfl, rfl, rfl⟩

/-- A chain of builders: `Info().with_caps(1).with_mode(2)`, and the two temporaries destroyed. -/
theorem balanced_iff_chain :
    ((machine Unit).runList empty [.construct 0 (some ⟨0, 0, 0, (), (), (), ()⟩), .build 1 0 (.withCaps 1),
      .build 2 1 (.withMode 2), .destroy 1, .destroy 0]).Balanced ↔
    ((machine Unit).restrict OntoEmpty).AllEnabled empty
      [.construct 0 (some ⟨0, 0, 0, (), (), (), ()⟩), .build 1 0 (.withCaps 1), .build 2 1 (.withMode 2),
        .destroy 1, .destroy 0] :=
  balanced_iff empty_init (by decide)

/-- An `Awaker<Info>` with `ret_` 0 is woken with the `Info` of a connection request, the `Info` is taken
out, and everything is destroyed. -/
def oneRequest : List (Act Unit) :=
  [.construct 0 (some ⟨0, 0, 0, (), (), (), ()⟩), .fromRaw 1 ⟨7, 0, 0, (), (), (), ()⟩, .wake 0 1, .destroy 1,
    .awaitResume 2 0, .destroy 2, .destroy 0]

/-- The `fi_info` that a new `ret_` owns is never freed. -/
theorem wake_leaks : ∃ s : Infos Unit, s.Init ∧ (machine Unit).AllEnabled s oneRequest ∧
    ((machine Unit).runList s oneRequest).made = 2 ∧ ((machine Unit).runList s oneRequest).freed = [1] ∧
    ¬ ((machine Unit).runList s oneRequest).Balanced := by
  refine ⟨empty, empty_init, by decide, by decide, by decide, fun hb => ?_⟩
  have hrun : (machine Unit).runList empty oneRequest =
      ((((((empty.own 0 ⟨0, 0, 0, (), (), (), ()⟩).own 1 ⟨7, 0, 0, (), (), (), ()⟩).take 0 1).destroy 1).take 2
        0).destroy 2).destroy 0 := rfl
  rcases hb.released 0 (by decide) with hfreed | ⟨v, hv⟩
  · exact absurd hfreed (by decide)
  · -- each of the objects 0, 1 and 2 is gone
    rw [hrun, owns_destroy, owns_destroy, owns_take (by decide)] at hv
    obtain ⟨h0, h2, ⟨h2', -⟩ | ⟨-, -, hv⟩⟩ := hv
    · exact h2 h2'
    · simp only [owns_destroy, owns_take (show 0 ≠ 1 by decide), owns_own, h0, false_and, false_or] at hv
      obtain ⟨h1, -, -, ⟨h1', -⟩ | ⟨-, -, hnone⟩⟩ := hv
      · exact h1 h1'
      · exact absurd hnone nofun

end Infos

end Sqkio.Net.Fab
