import Mathlib.Order.Interval.Finset.Nat
import Sqkio.Lib.Machine

/-!
# Rules for progress

    Machine.exists_run      a measure that some enabled actions lower leads to the goal
    card_add_le             what is paid for with a potential happens only as often as the potential allows
-/

namespace Sqkio.Lib

namespace Machine

variable {σ α : Type*} {M : Machine σ α} {Inv Goal : σ → Prop} {allowed : α → Prop}

/-- **Measure rule.**  If from every state that is not a goal yet some allowed actions lead to a state with a
smaller measure, then allowed actions lead to a goal. -/
theorem exists_run (μ : σ → Nat)
    (hstep : ∀ s, Inv s → ¬Goal s → ∃ as, (∀ a ∈ as, allowed a) ∧ M.AllEnabled s as ∧ Inv (M.runList s as) ∧
      μ (M.runList s as) < μ s) {s : σ} (hi : Inv s) :
    ∃ as, (∀ a ∈ as, allowed a) ∧ M.AllEnabled s as ∧ Inv (M.runList s as) ∧ Goal (M.runList s as) := by
  induction h : μ s using Nat.strong_induction_on generalizing s with
  | _ n ih =>
    by_cases hgoal : Goal s
    · exact ⟨[], List.forall_mem_nil _, trivial, hi, hgoal⟩
    · obtain ⟨as, hall, hen, hi', hlt⟩ := hstep s hi hgoal
      obtain ⟨bs, hall', hen', hi'', hgoal'⟩ := ih _ (h ▸ hlt) hi' rfl
      refine ⟨as ++ bs, List.forall_mem_append.mpr ⟨hall, hall'⟩, allEnabled_append.mpr ⟨hen, hen'⟩, ?_⟩
      rw [runList_append]
      exact ⟨hi'', hgoal'⟩

/-- The measure rule with one action at a time. -/
theorem exists_run_one (μ : σ → Nat)
    (hstep : ∀ s, Inv s → ¬Goal s → ∃ a, allowed a ∧ M.enabled s a ∧ Inv (M.next s a) ∧ μ (M.next s a) < μ s)
    {s : σ} (hi : Inv s) :
    ∃ as, (∀ a ∈ as, allowed a) ∧ M.AllEnabled s as ∧ Inv (M.runList s as) ∧ Goal (M.runList s as) := by
  refine exists_run μ (fun s hi hgoal => ?_) hi
  obtain ⟨a, ha, hen, hi', hlt⟩ := hstep s hi hgoal
  exact ⟨[a], List.forall_mem_singleton.mpr ha, ⟨hen, trivial⟩, hi', hlt⟩

end Machine

/-- **Potential rule.**  Steps that `p` holds of lower the potential, and only those that `q` holds of raise it, by
`g` at most. -/
theorem card_add_le {Φ : Nat → Nat} {p q : Nat → Prop} [DecidablePred p] [DecidablePred q] {g i j : Nat}
    (hij : i ≤ j) (hstep : ∀ k, i ≤ k → k < j → Φ (k + 1) + (if p k then 1 else 0) ≤ Φ k + if q k then g else 0) :
    Φ j + ((Finset.Ico i j).filter p).card ≤ Φ i + g * ((Finset.Ico i j).filter q).card := by
  induction j, hij using Nat.le_induction with
  | base =>
    rw [Finset.Ico_self, Finset.filter_empty, Finset.filter_empty]
    exact Nat.le_refl _
  | succ j hij ih =>
    have hprev := ih fun k hik hkj => hstep k hik (by omega)
    have hlast := hstep j hij (Nat.lt_succ_self j)
    have hcard : ∀ (r : Nat → Prop) [DecidablePred r], ((Finset.Ico i (j + 1)).filter r).card =
        ((Finset.Ico i j).filter r).card + if r j then 1 else 0 := by
      intro r _
      rw [Nat.Ico_succ_right_eq_insert_Ico hij, Finset.filter_insert]
      split
      · rw [Finset.card_insert_of_notMem]
        intro hmem
        exact absurd (Finset.mem_Ico.mp (Finset.mem_filter.mp hmem).1).2 (Nat.lt_irrefl j)
      · rfl
    rw [hcard p, hcard q, Nat.mul_add, mul_ite, Nat.mul_one, Nat.mul_zero]
    omega

end Sqkio.Lib
