import Mathlib.Data.Option.Basic
import Sqkio.Lib.Machine

/-!
# Linearization points

A step of a machine has at most one effect on a sequential object.  If the object follows every step, the effects of
a run are a history of the object, in the order of the steps (`Run.legal`).  A call has had its effect once if it
keeps a record of it from then on (`effect_once`).
-/

namespace Sqkio.Lib

section

variable {κ ω : Type*} {step : κ → ω → κ → Prop} {q r q' : κ} {os os' : List ω}

/-- The operations `os`, one after the other, lead from `q` to `q'`. -/
inductive Legal (step : κ → ω → κ → Prop) : κ → List ω → κ → Prop
  | nil {q : κ} : Legal step q [] q
  | cons {q r q' : κ} {o : ω} {os : List ω} : step q o r → Legal step r os q' → Legal step q (o :: os) q'

theorem Legal.one {o : ω} (h : step q o r) : Legal step q [o] r := .cons h .nil

theorem Legal.append (h : Legal step q os r) (h' : Legal step r os' q') : Legal step q (os ++ os') q' := by
  induction h with
  | nil => exact h'
  | cons ho _ ih => exact .cons ho (ih h')

end

namespace Machine

variable {σ α κ ω : Type*} {M : Machine σ α} {step : κ → ω → κ → Prop}

/-- The effects of the first `j` steps. -/
def effects (effect : σ → α → Option ω) (st : Nat → σ) (act : Nat → α) : Nat → List ω
  | 0 => []
  | j + 1 => effects effect st act j ++ (effect (st j) (act j)).toList

/-- **Simulation rule.**  If each step is followed by its effect, a run is followed by its effects. -/
theorem Run.legal {effect : σ → α → Option ω} {abs : σ → κ}
    (hstep : ∀ s a, M.Reachable s → M.enabled s a → Legal step (abs s) (effect s a).toList (abs (M.next s a)))
    {N : Nat} {st : Nat → σ} {act : Nat → α} (hrun : M.Run N st act) :
    ∀ j, j ≤ N → Legal step (abs (st 0)) (effects effect st act j) (abs (st j)) := by
  intro j
  induction j with
  | zero => exact fun _ => .nil
  | succ j ih =>
    intro hj
    have hlast := hstep (st j) (act j) (hrun.reachable j (by omega)) (hrun.enabled j hj)
    rw [← hrun.next j hj] at hlast
    exact (ih (by omega)).append hlast

end Machine

/-- **Record rule.**  `e k` is the effect of step `k`, and `took k` what is recorded before it.  If a step records its
effect, and has none where one is recorded, then the record is that of one step and no other has an effect. -/
theorem effect_once {ω : Type*} {e took : Nat → Option ω} {i j : Nat} (hij : i ≤ j) (h0 : took i = none)
    (hstep : ∀ k, i ≤ k → k < j → took (k + 1) = (took k).or (e k) ∧ ((took k).isSome → e k = none)) :
    (took j = none → ∀ k, i ≤ k → k < j → e k = none) ∧
      ∀ o, took j = some o → ∃ m, i ≤ m ∧ m < j ∧ e m = some o ∧ ∀ k, i ≤ k → k < j → k ≠ m → e k = none := by
  induction j, hij using Nat.le_induction with
  | base => exact ⟨fun _ k hik hki => absurd hki (by omega), fun o ho => (Option.some_ne_none o (ho.symm.trans h0)).elim⟩
  | succ j hij ih =>
    obtain ⟨hnone, hsome⟩ := ih fun k hik hkj => hstep k hik (by omega)
    obtain ⟨hor, hquiet⟩ := hstep j hij (Nat.lt_succ_self j)
    cases htook : took j with
    | none =>
      rw [htook, Option.none_or] at hor
      have hbefore := hnone htook
      refine ⟨fun h k hik hkj => ?_, fun o ho => ⟨j, hij, Nat.lt_succ_self j, hor ▸ ho, fun k hik hkj hne => ?_⟩⟩
      · by_cases hk : k = j
        · rw [hk, ← hor, h]
        · exact hbefore k hik (by omega)
      · exact hbefore k hik (by omega)
    | some o =>
      rw [htook, Option.some_or] at hor
      obtain ⟨m, him, hmj, hm, hother⟩ := hsome o htook
      refine ⟨fun h => (Option.some_ne_none o (hor.symm.trans h)).elim, fun o' ho' => ?_⟩
      obtain rfl := Option.some.inj (hor.symm.trans ho')
      refine ⟨m, him, by omega, hm, fun k hik hkj hne => ?_⟩
      by_cases hk : k = j
      · rw [hk]
        exact hquiet (by rw [htook]; rfl)
      · exact hother k hik (by omega) hne

end Sqkio.Lib
