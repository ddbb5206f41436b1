import Mathlib.Data.List.Nodup

/-!
# Objects held in one place each

`Partition made held`: every object that has been made is in exactly one of the lists `held p`,
once.  A step makes an object (`fresh`), moves one from place to place (`move`), or empties
places into another (`gather`).
-/

namespace Sqkio.Lib

variable {P α : Type*} {made made' : α → Prop} {held held' : P → List α}

structure Partition (made : α → Prop) (held : P → List α) : Prop where
  nodup : ∀ p, (held p).Nodup
  unique : ∀ {p q b}, b ∈ held p → b ∈ held q → p = q
  sound : ∀ {p b}, b ∈ held p → made b
  covers : ∀ {b}, made b → ∃ p, b ∈ held p

namespace Partition

theorem existsUnique (h : Partition made held) {b : α} (hb : made b) : ∃! p, b ∈ held p := by
  obtain ⟨p, hp⟩ := h.covers hb
  exact ⟨p, hp, fun _ hq => h.unique hq hp⟩

theorem empty (hmade : ∀ b, ¬ made b) (hheld : ∀ p, held p = []) : Partition made held where
  nodup p := by rw [hheld]; exact List.nodup_nil
  unique {p q b} hb := by rw [hheld] at hb; cases hb
  sound {p b} hb := by rw [hheld] at hb; cases hb
  covers {b} hb := absurd hb (hmade b)

/-- A new object is put at `p`. -/
theorem fresh (h : Partition made held) {p : P} {b : α} (hb : ¬ made b)
    (hmade : ∀ x, made' x ↔ made x ∨ x = b) (hp : held' p = b :: held p)
    (hother : ∀ q, q ≠ p → held' q = held q) : Partition made' held' := by
  have hmem : ∀ q x, x ∈ held' q ↔ x ∈ held q ∨ (q = p ∧ x = b) := by
    intro q x
    by_cases hq : q = p
    · subst hq
      rw [hp, List.mem_cons]
      tauto
    · rw [hother q hq]
      tauto
  have hout : ∀ q, b ∉ held q := fun q hq => hb (h.sound hq)
  constructor
  · intro q
    by_cases hq : q = p
    · subst hq
      rw [hp]
      exact List.nodup_cons.mpr ⟨hout q, h.nodup q⟩
    · rw [hother q hq]
      exact h.nodup q
  · intro q q' x hx hx'
    rw [hmem] at hx hx'
    rcases hx with hx | ⟨rfl, rfl⟩ <;> rcases hx' with hx' | ⟨rfl, hb'⟩
    · exact h.unique hx hx'
    · exact absurd (hb' ▸ hx) (hout q)
    · exact absurd hx' (hout q')
    · rfl
  · intro q x hx
    rw [hmade]
    rcases (hmem q x).mp hx with hx | ⟨-, rfl⟩
    · exact .inl (h.sound hx)
    · exact .inr rfl
  · intro x hx
    rcases (hmade x).mp hx with hx | rfl
    · obtain ⟨q, hq⟩ := h.covers hx
      exact ⟨q, (hmem q x).mpr (.inl hq)⟩
    · exact ⟨p, (hmem p x).mpr (.inr ⟨rfl, rfl⟩)⟩

/-- The object `b` at `p` is put at `q`. -/
theorem move [DecidableEq α] (h : Partition made held) {p q : P} {b : α} (hpq : p ≠ q)
    (hb : b ∈ held p) (hp : held' p = (held p).erase b) (hq : held' q = b :: held q)
    (hother : ∀ x, x ≠ p → x ≠ q → held' x = held x) : Partition made held' := by
  have hout : b ∉ held q := fun hbq => hpq (h.unique hb hbq)
  have hmem : ∀ r x, x ∈ held' r ↔ (x ≠ b ∧ x ∈ held r) ∨ (r = q ∧ x = b) := by
    intro r x
    by_cases hr : r = p
    · subst hr
      rw [hp, (h.nodup r).mem_erase_iff]
      exact ⟨.inl, fun hx => hx.resolve_right fun hy => hpq hy.1⟩
    · by_cases hr' : r = q
      · subst hr'
        rw [hq, List.mem_cons]
        by_cases hx : x = b
        · simp [hx]
        · simp [hx]
      · rw [hother r hr hr']
        constructor
        · intro hx
          refine .inl ⟨?_, hx⟩
          rintro rfl
          exact hr (h.unique hx hb)
        · rintro (hx | hx)
          · exact hx.2
          · exact absurd hx.1 hr'
  constructor
  · intro r
    by_cases hr : r = p
    · subst hr
      rw [hp]
      exact (h.nodup r).erase b
    · by_cases hr' : r = q
      · subst hr'
        rw [hq]
        exact List.nodup_cons.mpr ⟨hout, h.nodup r⟩
      · rw [hother r hr hr']
        exact h.nodup r
  · intro r r' x hx hx'
    rw [hmem] at hx hx'
    rcases hx with hx | ⟨rfl, rfl⟩ <;> rcases hx' with hx' | ⟨rfl, hb'⟩
    · exact h.unique hx.2 hx'.2
    · exact absurd hb' hx.1
    · exact absurd rfl hx'.1
    · rfl
  · intro r x hx
    rcases (hmem r x).mp hx with hx | ⟨-, rfl⟩
    · exact h.sound hx.2
    · exact h.sound hb
  · intro x hx
    by_cases hxb : x = b
    · exact ⟨q, (hmem q x).mpr (.inr ⟨rfl, hxb⟩)⟩
    · obtain ⟨r, hr⟩ := h.covers hx
      exact ⟨r, (hmem r x).mpr (.inl ⟨hxb, hr⟩)⟩

/-- The places in `l` are emptied into `q`. -/
theorem gather (h : Partition made held) {l : List P} {q : P} (hl : l.Nodup) (hq : q ∉ l)
    (hto : held' q = held q ++ l.flatMap held) (hfrom : ∀ p ∈ l, held' p = [])
    (hother : ∀ p, p ∉ l → p ≠ q → held' p = held p) : Partition made held' := by
  have hmem : ∀ r x, x ∈ held' r ↔ (r ∉ l ∧ x ∈ held r) ∨ (r = q ∧ ∃ p ∈ l, x ∈ held p) := by
    intro r x
    by_cases hr : r = q
    · subst hr
      rw [hto, List.mem_append, List.mem_flatMap]
      simp [hq]
    · by_cases hr' : r ∈ l
      · simp [hfrom r hr', hr, hr']
      · simp [hother r hr' hr, hr, hr']
  constructor
  · intro r
    by_cases hr : r = q
    · subst hr
      rw [hto]
      refine (h.nodup r).append ?_ ?_
      · refine List.nodup_flatMap.mpr ⟨fun p _ => h.nodup p, hl.imp ?_⟩
        intro p p' hne x hx hx'
        exact hne (h.unique hx hx')
      · intro x hx hx'
        obtain ⟨p, hp, hxp⟩ := List.mem_flatMap.mp hx'
        exact hq (h.unique hx hxp ▸ hp)
    · by_cases hr' : r ∈ l
      · rw [hfrom r hr']
        exact List.nodup_nil
      · rw [hother r hr' hr]
        exact h.nodup r
  · intro r r' x hx hx'
    rw [hmem] at hx hx'
    rcases hx with ⟨hr, hx⟩ | ⟨rfl, p, hp, hx⟩ <;> rcases hx' with ⟨hr', hx'⟩ | ⟨rfl, p', hp', hx'⟩
    · exact h.unique hx hx'
    · exact absurd (h.unique hx hx' ▸ hp') hr
    · exact absurd (h.unique hx' hx ▸ hp) hr'
    · rfl
  · intro r x hx
    rcases (hmem r x).mp hx with hx | ⟨-, p, -, hx⟩
    · exact h.sound hx.2
    · exact h.sound hx
  · intro x hx
    obtain ⟨r, hr⟩ := h.covers hx
    by_cases hrs : r ∈ l
    · exact ⟨q, (hmem q x).mpr (.inr ⟨rfl, r, hrs, hr⟩)⟩
    · exact ⟨r, (hmem r x).mpr (.inl ⟨hrs, hr⟩)⟩

end Partition

end Sqkio.Lib
