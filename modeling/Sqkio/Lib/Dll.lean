import Mathlib.Data.List.Nodup

/-!
# Doubly linked lists without a sentinel

The cells are linked by two functions, `next` and `prev`; `nil` ends the list in both directions.

    Dll nil next prev p a l      the cells from `a` on are `l`, and the cell before `a` is `p`

A list reads only the links of its own cells (`Dll.congr`).  The two edits are a new first cell (`Dll.cons`) and
taking a cell out, wherever it is (`Dll.remove`); both say which links have to change.
-/

namespace Sqkio.Lib

variable {α : Type*} {nil : α} {next prev next' prev' : α → α} {p a x : α} {l l₁ l₂ : List α}

/-- The cells from `a` on, after the cell `p`. -/
def Dll (nil : α) (next prev : α → α) : α → α → List α → Prop
  | _, a, [] => a = nil
  | p, a, x :: l => a = x ∧ x ≠ nil ∧ prev x = p ∧ Dll nil next prev x (next x) l

namespace Dll

theorem ne_nil (h : Dll nil next prev p a l) : ∀ y ∈ l, y ≠ nil := by
  induction l generalizing p a with
  | nil => simp
  | cons x l ih =>
    obtain ⟨-, hx, -, hl⟩ := h
    exact List.forall_mem_cons.mpr ⟨hx, ih hl⟩

theorem eq_nil_iff (h : Dll nil next prev p a l) : a = nil ↔ l = [] := by
  cases l with
  | nil => exact ⟨fun _ => rfl, fun _ => h⟩
  | cons x l =>
    obtain ⟨rfl, hx, -⟩ := h
    exact ⟨fun ha => absurd ha hx, fun hl => by simp at hl⟩

theorem mem_head (h : Dll nil next prev p a l) (ha : a ≠ nil) : a ∈ l := by
  cases l with
  | nil => exact absurd h ha
  | cons x l => exact h.1 ▸ List.mem_cons_self

/-- The first cell has `p` before it. -/
theorem prev_head (h : Dll nil next prev p a l) (ha : a ≠ nil) : prev a = p := by
  cases l with
  | nil => exact absurd h ha
  | cons x l =>
    obtain ⟨rfl, -, hp, -⟩ := h
    exact hp

theorem congr (h : Dll nil next prev p a l) (hn : ∀ y ∈ l, next' y = next y) (hp : ∀ y ∈ l, prev' y = prev y) :
    Dll nil next' prev' p a l := by
  induction l generalizing p a with
  | nil => exact h
  | cons x l ih =>
    obtain ⟨rfl, hx, hprev, hl⟩ := h
    rw [List.forall_mem_cons] at hn hp
    refine ⟨rfl, hx, hp.1.trans hprev, ?_⟩
    rw [hn.1]
    exact ih hl hn.2 hp.2

/-- The cell before the first one changes. -/
theorem change_prev (h : Dll nil next prev p a l) {q : α} (hq : a ≠ nil → prev' a = q)
    (hn : ∀ y ∈ l, next' y = next y) (hp : ∀ y ∈ l, y ≠ a → prev' y = prev y) (hnodup : l.Nodup) :
    Dll nil next' prev' q a l := by
  cases l with
  | nil => exact h
  | cons x l =>
    obtain ⟨rfl, hx, -, hl⟩ := h
    rw [List.nodup_cons] at hnodup
    rw [List.forall_mem_cons] at hn hp
    refine ⟨rfl, hx, hq hx, ?_⟩
    rw [hn.1]
    refine hl.congr hn.2 fun y hy => hp.2 y hy fun hya => ?_
    exact hnodup.1 (hya ▸ hy)

/-- A new first cell. -/
theorem cons (h : Dll nil next prev p a l) (hx : x ≠ nil) (hnodup : l.Nodup) (hnext : next' x = a)
    (hprev : prev' x = p)
    (hback : a ≠ nil → prev' a = x) (hn : ∀ y ∈ l, next' y = next y) (hp : ∀ y ∈ l, y ≠ a → prev' y = prev y) :
    Dll nil next' prev' p x (x :: l) := by
  refine ⟨rfl, hx, hprev, ?_⟩
  rw [hnext]
  exact h.change_prev hback hn hp hnodup

/-- The cells behind `x`. -/
theorem behind (h : Dll nil next prev p a (l₁ ++ x :: l₂)) : Dll nil next prev x (next x) l₂ := by
  induction l₁ generalizing p a with
  | nil => exact h.2.2.2
  | cons y l₁ ih => exact ih h.2.2.2

/-- The cell before `x`. -/
theorem prev_mem (h : Dll nil next prev p a (l₁ ++ x :: l₂)) : prev x ∈ p :: l₁ := by
  induction l₁ generalizing p a with
  | nil => exact h.2.2.1 ▸ List.mem_cons_self
  | cons y l₁ ih => exact List.mem_cons_of_mem _ (ih h.2.2.2)

/-- **Taking a cell out.**  Only the cells next to it change a link, and the list begins one cell later if it was
the first one. -/
theorem remove [DecidableEq α] (h : Dll nil next prev p a (l₁ ++ x :: l₂)) (hnodup : (l₁ ++ x :: l₂).Nodup)
    (hp : p ∉ l₁ ++ x :: l₂) (hfwd : prev x ≠ p → next' (prev x) = next x)
    (hback : next x ≠ nil → prev' (next x) = prev x) (hn : ∀ y ∈ l₁ ++ l₂, y ≠ prev x → next' y = next y)
    (hpv : ∀ y ∈ l₁ ++ l₂, y ≠ next x → prev' y = prev y) :
    Dll nil next' prev' p (if a = x then next x else a) (l₁ ++ l₂) := by
  induction l₁ generalizing p a with
  | nil =>
    obtain ⟨rfl, -, hprev, hl⟩ := h
    rw [if_pos rfl]
    rw [List.nil_append, List.nodup_cons] at hnodup
    rw [hprev] at hback hn
    refine hl.change_prev hback (fun y hy => hn y hy fun hyp => ?_) hpv hnodup.2
    exact hp (hyp ▸ List.mem_cons_of_mem _ hy)
  | cons y l₁ ih =>
    obtain ⟨rfl, hy, hprev, hl⟩ := h
    rw [List.cons_append, List.nodup_cons] at hnodup
    rw [List.cons_append, List.forall_mem_cons] at hn hpv
    rw [List.cons_append, List.mem_cons, not_or] at hp
    have hax : a ≠ x := fun hax => hnodup.1 (hax ▸ List.mem_append_right _ List.mem_cons_self)
    have hanext : a ≠ next x := by
      intro hanext
      have hmem : a ∈ l₂ := by
        rw [hanext] at hy ⊢
        exact hl.behind.mem_head hy
      exact hnodup.1 (List.mem_append_right _ (List.mem_cons_of_mem _ hmem))
    have hpx : prev x ≠ p := by
      intro hpx
      rcases List.mem_cons.mp hl.prev_mem with hz | hz
      · exact hp.1 (hpx.symm.trans hz)
      · exact hp.2 (hpx ▸ List.mem_append_left _ hz)
    rw [if_neg hax]
    refine ⟨rfl, hy, (hpv.1 hanext).trans hprev, ?_⟩
    have hrest := ih hl hnodup.2 hnodup.1 (fun _ => hfwd hpx) hn.2 hpv.2
    cases l₁ with
    | nil =>
      -- `x` is the next cell
      have hxa : prev x = a := List.mem_singleton.mp hl.prev_mem
      have hnx : next a = x := hl.1
      rw [if_pos hnx] at hrest
      rw [← hfwd hpx, hxa] at hrest
      exact hrest
    | cons z l₁ =>
      obtain ⟨hnz, -, -, hl'⟩ := hl
      have hzx : z ≠ x := by
        rintro rfl
        exact (List.nodup_cons.mp hnodup.2).1 (List.mem_append_right _ List.mem_cons_self)
      have hax' : a ≠ prev x := by
        intro hax'
        exact hnodup.1 (List.mem_append_left _ (hax' ▸ hl'.prev_mem))
      rw [hnz, if_neg hzx] at hrest
      rw [hn.1 hax', hnz]
      exact hrest

end Dll

end Sqkio.Lib
