import Mathlib.Order.Bounds.Basic

/-!
# Labelled machines: reachable states, runs and the invariant rule

A machine is a set of initial states, an enabling condition and a next-state
function for every action.  Interleavings are runs of one machine whose actions
name the thread that moves.

    (∀ s, M.init s → Inv s) → (step preserves Inv) → M.Reachable s → Inv s   (Reachable.inv)
-/

namespace Sqkio.Lib

/-- Initial states, and for every action when it may be taken and where it leads. -/
structure Machine (σ α : Type*) where
  init : σ → Prop
  enabled : σ → α → Prop
  next : σ → α → σ

namespace Machine

variable {σ α : Type*} {M : Machine σ α}

inductive Reachable (M : Machine σ α) : σ → Prop
  | init {s : σ} : M.init s → Reachable M s
  | step {s : σ} (a : α) : Reachable M s → M.enabled s a → Reachable M (M.next s a)

/-- **Invariant rule.**  The step may use that the state it leaves is reachable. -/
theorem Reachable.inv {Inv : σ → Prop} (h0 : ∀ s, M.init s → Inv s)
    (hs : ∀ s a, M.Reachable s → Inv s → M.enabled s a → Inv (M.next s a)) {s : σ}
    (h : M.Reachable s) : Inv s := by
  induction h with
  | init hi => exact h0 _ hi
  | step a hr he ih => exact hs _ a hr ih he

/-- The states `st 0, …, st N` of a run and the actions taken between them. -/
structure Run (M : Machine σ α) (N : Nat) (st : Nat → σ) (act : Nat → α) : Prop where
  init : M.init (st 0)
  enabled : ∀ i, i < N → M.enabled (st i) (act i)
  next : ∀ i, i < N → st (i + 1) = M.next (st i) (act i)

theorem Run.reachable {N : Nat} {st : Nat → σ} {act : Nat → α} (h : M.Run N st act) :
    ∀ i, i ≤ N → M.Reachable (st i) := by
  intro i
  induction i with
  | zero => intro _; exact .init h.init
  | succ i ih =>
    intro hi
    rw [h.next i hi]
    exact .step _ (ih (by omega)) (h.enabled i hi)

/-- The state after a list of actions. -/
def runList (M : Machine σ α) (s : σ) (as : List α) : σ := as.foldl M.next s

/-- Every action of the list is enabled when its turn comes. -/
def AllEnabled (M : Machine σ α) : σ → List α → Prop
  | _, [] => True
  | s, a :: as => M.enabled s a ∧ AllEnabled M (M.next s a) as

theorem Reachable.runList {s : σ} (h : M.Reachable s) {as : List α} (he : M.AllEnabled s as) :
    M.Reachable (M.runList s as) := by
  induction as generalizing s with
  | nil => exact h
  | cons a as ih => exact ih (.step a h he.1) he.2

/-- **Run rule.**  What every enabled step preserves holds at the end of a run. -/
theorem inv_runList {Inv : σ → Prop} (hs : ∀ s a, M.enabled s a → Inv s → Inv (M.next s a)) {as : List α}
    {s : σ} (hi : Inv s) (he : M.AllEnabled s as) : Inv (M.runList s as) := by
  induction as generalizing s with
  | nil => exact hi
  | cons a as ih => exact ih (hs s a he.1 hi) he.2

instance decidableAllEnabled [∀ s a, Decidable (M.enabled s a)] :
    (s : σ) → (as : List α) → Decidable (M.AllEnabled s as)
  | _, [] => isTrue trivial
  | s, a :: as =>
    have := decidableAllEnabled (M.next s a) as
    inferInstanceAs (Decidable (M.enabled s a ∧ M.AllEnabled (M.next s a) as))

@[simp] theorem runList_cons (s : σ) (a : α) (as : List α) :
    M.runList s (a :: as) = M.runList (M.next s a) as := rfl

theorem runList_append (s : σ) (as bs : List α) :
    M.runList s (as ++ bs) = M.runList (M.runList s as) bs := List.foldl_append ..

theorem allEnabled_append {s : σ} {as bs : List α} :
    M.AllEnabled s (as ++ bs) ↔ M.AllEnabled s as ∧ M.AllEnabled (M.runList s as) bs := by
  induction as generalizing s with
  | nil => exact (and_iff_right trivial).symm
  | cons a as ih =>
    show M.enabled s a ∧ M.AllEnabled _ (as ++ bs) ↔ _
    rw [ih, ← and_assoc]
    exact Iff.rfl

/-- The machine whose actions also have to satisfy `P`. -/
def restrict (M : Machine σ α) (P : σ → α → Prop) : Machine σ α :=
  { M with enabled := fun s a => M.enabled s a ∧ P s a }

instance [∀ s a, Decidable (M.enabled s a)] {P : σ → α → Prop} [∀ s a, Decidable (P s a)] (s : σ) (a : α) :
    Decidable ((M.restrict P).enabled s a) := inferInstanceAs (Decidable (M.enabled s a ∧ P s a))

@[simp] theorem restrict_next (P : σ → α → Prop) : (M.restrict P).next = M.next := rfl

@[simp] theorem restrict_runList (P : σ → α → Prop) : (M.restrict P).runList = M.runList := rfl

/-- A condition on the actions alone. -/
theorem restrict_allEnabled_iff {p : α → Prop} {as : List α} {s : σ} :
    (M.restrict fun _ a => p a).AllEnabled s as ↔ M.AllEnabled s as ∧ ∀ a ∈ as, p a := by
  induction as generalizing s with
  | nil => simp [AllEnabled]
  | cons a as ih =>
    show (M.enabled s a ∧ p a) ∧ (M.restrict fun _ a => p a).AllEnabled (M.next s a) as ↔ _
    rw [ih, List.forall_mem_cons]
    exact and_and_and_comm

/-- **Boundary rule.**  If a step keeps `Law` exactly when it satisfies `P`, a run ends in
`Law` exactly when all its steps satisfy `P`. -/
theorem law_iff_allEnabled {Inv Law : σ → Prop} {P : σ → α → Prop}
    (hinv : ∀ s a, M.enabled s a → Inv s → Inv (M.next s a))
    (hlaw : ∀ s a, M.enabled s a → Inv s → (Law (M.next s a) ↔ Law s ∧ P s a)) {as : List α} {s : σ}
    (hi : Inv s) (he : M.AllEnabled s as) :
    Law (M.runList s as) ↔ Law s ∧ (M.restrict P).AllEnabled s as := by
  induction as generalizing s with
  | nil => exact (and_iff_left trivial).symm
  | cons a as ih =>
    rw [runList_cons, ih (hinv s a he.1 hi) he.2, hlaw s a he.1 hi]
    constructor
    · rintro ⟨⟨hl, hp⟩, hrest⟩
      exact ⟨hl, ⟨he.1, hp⟩, hrest⟩
    · rintro ⟨hl, ⟨-, hp⟩, hrest⟩
      exact ⟨⟨hl, hp⟩, hrest⟩

/-- If steps that satisfy `P` keep an invariant of `Good` states, and the others lead out of
`Good`, then all states of a run are `Good` exactly when all its steps satisfy `P`. -/
theorem always_iff_allEnabled {Inv Good : σ → Prop} {P : σ → α → Prop} (hgood : ∀ s, Inv s → Good s)
    (hinv : ∀ s a, M.enabled s a → P s a → Inv s → Inv (M.next s a))
    (hbad : ∀ s a, M.enabled s a → Inv s → Good (M.next s a) → P s a) {as : List α} {s : σ}
    (hi : Inv s) (he : M.AllEnabled s as) :
    (∀ n, Good (M.runList s (as.take n))) ↔ (M.restrict P).AllEnabled s as := by
  induction as generalizing s with
  | nil => exact ⟨fun _ => trivial, fun _ n => by rw [List.take_nil]; exact hgood s hi⟩
  | cons a as ih =>
    constructor
    · intro hall
      have hp := hbad s a he.1 hi (hall 1)
      exact ⟨⟨he.1, hp⟩, (ih (hinv s a he.1 hp hi) he.2).mp fun n => hall (n + 1)⟩
    · rintro ⟨⟨-, hp⟩, hrest⟩ n
      cases n with
      | zero => exact hgood s hi
      | succ n => exact (ih (hinv s a he.1 hp hi) he.2).mpr hrest n

/-- **Peak rule.**  If `made` bounds `live` and grows only to where `live` then is, it ends at the
greatest value that `live` had. -/
theorem isGreatest_runList {Inv : σ → Prop} {live made : σ → Nat} (hle : ∀ s, Inv s → live s ≤ made s)
    (hinv : ∀ s a, M.enabled s a → Inv s → Inv (M.next s a))
    (hgrow : ∀ s a, M.enabled s a → Inv s → made (M.next s a) = made s ∨
      made s ≤ made (M.next s a) ∧ made (M.next s a) = live (M.next s a)) {as : List α} {s : σ}
    (hi : Inv s) (h0 : made s = live s) (he : M.AllEnabled s as) :
    IsGreatest (Set.range fun n => live (M.runList s (as.take n))) (made (M.runList s as)) := by
  have hpeak : ∀ (as : List α) (s : σ), Inv s → M.AllEnabled s as →
      made s ≤ made (M.runList s as) ∧ (∀ n, live (M.runList s (as.take n)) ≤ made (M.runList s as)) ∧
        (made (M.runList s as) = made s ∨
          ∃ n, live (M.runList s (as.take n)) = made (M.runList s as)) := by
    intro as
    induction as with
    | nil =>
      intro s hi _
      exact ⟨Nat.le_refl _, fun n => by rw [List.take_nil]; exact hle s hi, .inl rfl⟩
    | cons a as ih =>
      intro s hi he
      obtain ⟨hmono, hall, hat⟩ := ih _ (hinv s a he.1 hi) he.2
      have hstep : made s ≤ made (M.next s a) := by
        rcases hgrow s a he.1 hi with h | h
        · exact Nat.le_of_eq h.symm
        · exact h.1
      refine ⟨Nat.le_trans hstep hmono, fun n => ?_, ?_⟩
      · cases n with
        | zero => exact Nat.le_trans (hle s hi) (Nat.le_trans hstep hmono)
        | succ n => exact hall n
      · rcases hat with hat | ⟨n, hn⟩
        · rcases hgrow s a he.1 hi with h | h
          · exact .inl (hat.trans h)
          · exact .inr ⟨1, h.2.symm.trans hat.symm⟩
        · exact .inr ⟨n + 1, hn⟩
  obtain ⟨-, hall, hat⟩ := hpeak as s hi he
  refine ⟨?_, ?_⟩
  · rcases hat with hat | hat
    · exact ⟨0, h0.symm.trans hat.symm⟩
    · exact hat
  · rintro _ ⟨n, rfl⟩
    exact hall n

/-- The states passed through by a sequence of actions. -/
def stateAt (M : Machine σ α) (s : σ) (act : Nat → α) : Nat → σ
  | 0 => s
  | i + 1 => M.next (M.stateAt s act i) (act i)

theorem Run.of_enabled {N : Nat} {s : σ} {act : Nat → α} (h0 : M.init s)
    (he : ∀ i, i < N → M.enabled (M.stateAt s act i) (act i)) : M.Run N (M.stateAt s act) act :=
  ⟨h0, he, fun _ _ => rfl⟩

end Machine

end Sqkio.Lib
