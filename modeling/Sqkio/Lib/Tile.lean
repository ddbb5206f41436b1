import Mathlib.Logic.Function.Basic
import Mathlib.Logic.ExistsUnique
import Mathlib.Tactic.TypeStar

/-!
# Ranges held by agents that tile an interval

`R t = some (a, n)` says that agent `t` holds the positions `a, …, a + n - 1`.
`Tiles lo hi R`: the held ranges lie in `[lo, hi)`, cover it and do not overlap.
Ranges are taken at `hi` (`Tiles.take`) and given back at `lo` (`Tiles.give`).
-/

namespace Sqkio.Lib

variable {τ : Type*}

structure Tiles (lo hi : Nat) (R : τ → Option (Nat × Nat)) : Prop where
  le : lo ≤ hi
  bounds : ∀ t a n, R t = some (a, n) → lo ≤ a ∧ 0 < n ∧ a + n ≤ hi
  disjoint : ∀ t u a n b m, t ≠ u → R t = some (a, n) → R u = some (b, m) → a + n ≤ b ∨ b + m ≤ a
  cover : ∀ p, lo ≤ p → p < hi → ∃ t a n, R t = some (a, n) ∧ a ≤ p ∧ p < a + n

/-- Agent `t` holds position `p`. -/
def Holds (R : τ → Option (Nat × Nat)) (t : τ) (p : Nat) : Prop :=
  ∃ a n, R t = some (a, n) ∧ a ≤ p ∧ p < a + n

theorem Tiles.empty (lo : Nat) : Tiles lo lo (fun _ : τ => none) where
  le := Nat.le_refl lo
  bounds := by intro t a n h; cases h
  disjoint := by intro t u a n b m _ h; cases h
  cover := by intro p h1 h2; omega

/-- A position is in the interval exactly if one agent holds it, and then no other does. -/
theorem Tiles.existsUnique_iff {lo hi : Nat} {R : τ → Option (Nat × Nat)} (h : Tiles lo hi R)
    (p : Nat) : (lo ≤ p ∧ p < hi) ↔ ∃! t, Holds R t p := by
  constructor
  · rintro ⟨h1, h2⟩
    obtain ⟨t, a, n, hR, ha, hn⟩ := h.cover p h1 h2
    refine ⟨t, ⟨a, n, hR, ha, hn⟩, ?_⟩
    rintro u ⟨b, m, hRu, hb, hm⟩
    apply Classical.byContradiction
    intro hne
    have := h.disjoint u t b m a n hne hRu hR
    omega
  · rintro ⟨t, ⟨a, n, hR, ha, hn⟩, -⟩
    have := h.bounds t a n hR
    omega

/-- Two agents never hold one position. -/
theorem Tiles.holder_unique {lo hi : Nat} {R : τ → Option (Nat × Nat)} (h : Tiles lo hi R)
    {t u : τ} {p : Nat} (ht : Holds R t p) (hu : Holds R u p) : t = u := by
  obtain ⟨a, n, hR, ha, hn⟩ := ht
  obtain ⟨b, m, hRu, hb, hm⟩ := hu
  apply Classical.byContradiction
  intro hne
  have := h.disjoint t u a n b m hne hR hRu
  omega

/-- If one agent holds the whole interval, nobody else holds anything. -/
theorem Tiles.eq_of_whole {lo hi : Nat} {R : τ → Option (Nat × Nat)} (h : Tiles lo hi R)
    {t u : τ} {n b m : Nat} (ht : R t = some (lo, n)) (hn : lo + n = hi) (hu : R u = some (b, m)) :
    u = t := by
  have hb := h.bounds u b m hu
  exact h.holder_unique ⟨b, m, hu, Nat.le_refl b, by omega⟩ ⟨lo, n, ht, hb.1, by omega⟩

/-- In an empty interval nobody holds anything. -/
theorem Tiles.none_of_eq {lo hi : Nat} {R : τ → Option (Nat × Nat)} (h : Tiles lo hi R)
    (he : lo = hi) (t : τ) : R t = none := by
  cases hR : R t with
  | none => rfl
  | some r =>
    have := h.bounds t r.1 r.2 hR
    omega

variable [DecidableEq τ]

/-- An agent that holds nothing takes the next `n` positions at `hi`. -/
theorem Tiles.take {lo hi n : Nat} {R : τ → Option (Nat × Nat)} (h : Tiles lo hi R) (t : τ)
    (ht : R t = none) (hn : 0 < n) :
    Tiles lo (hi + n) (Function.update R t (some (hi, n))) where
  le := by have := h.le; omega
  bounds := by
    intro u a m hu
    by_cases hut : u = t
    · subst hut
      simp only [Function.update_self, Option.some.injEq, Prod.mk.injEq] at hu
      have := h.le
      omega
    · rw [Function.update_of_ne hut] at hu
      have := h.bounds u a m hu
      omega
  disjoint := by
    intro u v a m b k huv hu hv
    by_cases hut : u = t
    · subst hut
      rw [Function.update_self] at hu
      rw [Function.update_of_ne (Ne.symm huv)] at hv
      cases hu
      have := h.bounds v b k hv
      omega
    · rw [Function.update_of_ne hut] at hu
      by_cases hvt : v = t
      · subst hvt
        rw [Function.update_self] at hv
        cases hv
        have := h.bounds u a m hu
        omega
      · rw [Function.update_of_ne hvt] at hv
        exact h.disjoint u v a m b k huv hu hv
  cover := by
    intro p h1 h2
    by_cases hp : p < hi
    · obtain ⟨u, a, m, hu, ha, hm⟩ := h.cover p h1 hp
      have hut : u ≠ t := by
        rintro rfl
        rw [ht] at hu
        cases hu
      exact ⟨u, a, m, by rw [Function.update_of_ne hut]; exact hu, ha, hm⟩
    · exact ⟨t, hi, n, by rw [Function.update_self], by omega, h2⟩

/-- The agent whose range starts at `lo` gives it back. -/
theorem Tiles.give {lo hi n : Nat} {R : τ → Option (Nat × Nat)} (h : Tiles lo hi R) (t : τ)
    (ht : R t = some (lo, n)) : Tiles (lo + n) hi (Function.update R t none) where
  le := by have := h.bounds t lo n ht; omega
  bounds := by
    intro u a m hu
    by_cases hut : u = t
    · subst hut
      rw [Function.update_self] at hu
      cases hu
    · rw [Function.update_of_ne hut] at hu
      have := h.bounds u a m hu
      have := h.disjoint t u lo n a m (Ne.symm hut) ht hu
      omega
  disjoint := by
    intro u v a m b k huv hu hv
    by_cases hut : u = t
    · subst hut
      rw [Function.update_self] at hu
      cases hu
    · by_cases hvt : v = t
      · subst hvt
        rw [Function.update_self] at hv
        cases hv
      · rw [Function.update_of_ne hut] at hu
        rw [Function.update_of_ne hvt] at hv
        exact h.disjoint u v a m b k huv hu hv
  cover := by
    intro p h1 h2
    obtain ⟨u, a, m, hu, ha, hm⟩ := h.cover p (by omega) h2
    have hut : u ≠ t := by
      rintro rfl
      rw [ht] at hu
      cases hu
      omega
    exact ⟨u, a, m, by rw [Function.update_of_ne hut]; exact hu, ha, hm⟩

end Sqkio.Lib
