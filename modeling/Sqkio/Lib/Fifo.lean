import Mathlib.Data.List.Forall2
import Mathlib.Tactic.TypeStar

/-!
# Bounded FIFO queues, and objects that behave like one

`Fifo.step cap` is the queue of capacity `cap` over a list, oldest entry first.
`runOps` runs an object through a list of operations; `runOps_simulates` carries a
one-step simulation between two objects to all runs.
-/

namespace Sqkio.Lib

/-- An object run through a list of operations: its last state and all replies. -/
def runOps {σ ι ρ : Type*} (f : σ → ι → σ × ρ) : σ → List ι → σ × List ρ
  | s, [] => (s, [])
  | s, i :: is =>
    let m := f s i
    let r := runOps f m.1 is
    (r.1, m.2 :: r.2)

theorem runOps_append {σ ι ρ : Type*} (f : σ → ι → σ × ρ) (s : σ) (is js : List ι) :
    runOps f s (is ++ js) = ((runOps f (runOps f s is).1 js).1,
      (runOps f s is).2 ++ (runOps f (runOps f s is).1 js).2) := by
  induction is generalizing s with
  | nil => rfl
  | cons i is ih => simp only [List.cons_append, runOps, ih]

/-- An invariant of the state kept by every operation holds at the end, and what every
operation's reply satisfies under it holds of all replies. -/
theorem runOps_invariant {σ ι ρ : Type*} {f : σ → ι → σ × ρ} {Inv : σ → Prop} {Q : ρ → Prop}
    (hstep : ∀ s i, Inv s → Inv (f s i).1 ∧ Q (f s i).2) :
    ∀ (is : List ι) (s : σ), Inv s → Inv (runOps f s is).1 ∧ ∀ x ∈ (runOps f s is).2, Q x := by
  intro is
  induction is with
  | nil =>
    intro s hs
    exact ⟨hs, nofun⟩
  | cons i is ih =>
    intro s hs
    obtain ⟨h1, h2⟩ := hstep s i hs
    obtain ⟨h3, h4⟩ := ih _ h1
    exact ⟨h3, List.forall_mem_cons.mpr ⟨h2, h4⟩⟩

/-- **Simulation rule.**  If `f` and `g` stay related and reply alike step by step, they do
over every run. -/
theorem runOps_simulates {σ σ' ι κ ρ ρ' : Type*} {f : σ → ι → σ × ρ} {g : σ' → κ → σ' × ρ'}
    (h : ι → κ) {R : σ → σ' → Prop} {Q : ρ → ρ' → Prop}
    (hstep : ∀ s t i, R s t → R (f s i).1 (g t (h i)).1 ∧ Q (f s i).2 (g t (h i)).2) :
    ∀ (is : List ι) (s : σ) (t : σ'), R s t → R (runOps f s is).1 (runOps g t (is.map h)).1 ∧
      List.Forall₂ Q (runOps f s is).2 (runOps g t (is.map h)).2 := by
  intro is
  induction is with
  | nil =>
    intro s t hst
    exact ⟨hst, .nil⟩
  | cons i is ih =>
    intro s t hst
    obtain ⟨h1, h2⟩ := hstep s t i hst
    obtain ⟨h3, h4⟩ := ih _ _ h1
    exact ⟨h3, .cons h2 h4⟩

/-- Two objects that do the same under an invariant of one of them do so over every run. -/
theorem runOps_congr {σ ι ρ : Type*} {f g : σ → ι → σ × ρ} {Inv : σ → Prop}
    (hstep : ∀ s i, Inv s → g s i = f s i ∧ Inv (f s i).1) :
    ∀ (is : List ι) (s : σ), Inv s → runOps g s is = runOps f s is := by
  intro is
  induction is with
  | nil => exact fun _ _ => rfl
  | cons i is ih =>
    intro s hs
    obtain ⟨heq, hinv⟩ := hstep s i hs
    simp only [runOps, heq, ih _ hinv]

/-- If two objects reply alike over every run, they do at its last operation. -/
theorem runOps_last {σ σ' ι κ ρ ρ' : Type*} {f : σ → ι → σ × ρ} {g : σ' → κ → σ' × ρ'} {h : ι → κ}
    {Q : ρ → ρ' → Prop} {s : σ} {t : σ'}
    (hall : ∀ is : List ι, List.Forall₂ Q (runOps f s is).2 (runOps g t (is.map h)).2) (is : List ι)
    (i : ι) : Q (f (runOps f s is).1 i).2 (g (runOps g t (is.map h)).1 (h i)).2 := by
  have hrun := List.rel_reverse (hall (is ++ [i]))
  rw [List.map_append, runOps_append, runOps_append, List.reverse_append, List.reverse_append] at hrun
  simp only [runOps, List.map_cons, List.map_nil, List.reverse_cons, List.reverse_nil,
    List.nil_append, List.cons_append] at hrun
  cases hrun with
  | cons hlast _ => exact hlast

namespace Fifo

variable {α : Type*}

inductive Op (α : Type*)
  | enqueue (x : α)
  | dequeue

inductive Reply (α : Type*)
  | refused
  | accepted
  | value (x : α)

/-- The queue of capacity `cap`: an `enqueue` is refused when it is full, a `dequeue` when
it is empty. -/
def step (cap : Nat) (xs : List α) : Op α → List α × Reply α
  | .enqueue x => if xs.length < cap then (xs ++ [x], .accepted) else (xs, .refused)
  | .dequeue =>
    match xs with
    | [] => ([], .refused)
    | x :: xs => (xs, .value x)

theorem runOps_enqueue (cap : Nat) (x : α) (n : Nat) (hn : n ≤ cap) :
    (runOps (step cap) [] (List.replicate n (.enqueue x))).1 = List.replicate n x := by
  induction n with
  | zero => rfl
  | succ n ih =>
    rw [List.replicate_succ', runOps_append, ih (by omega)]
    simp only [runOps, step, List.length_replicate]
    rw [if_pos (by omega), List.replicate_succ']

end Fifo

end Sqkio.Lib
