import Sqkio.Net.Transfer

/-!
# Operations that fail

`CompletionQueue::poll` copies an error entry over the message entry, sets `rc` to what
`fi_cq_readerr` returned, which is 1, and goes on to the branches for successful completions.  The
awakers have no way to pass an error, and nothing after the `co_await` of an operation throws: the
coroutine returns as if its request had been done, and a `recv` with the pointer `buf` of the error
entry for an address.

`honest_iff`: failures are reported as long as no error completion of a `send`, `recv` or `write` is
polled, and not otherwise.
-/

namespace Sqkio.Net.Fab

open Sqkio.Lib

/-- How the coroutine of an operation ends. -/
inductive Outcome where
  | returned (value : Option Address)
  | threw
  deriving DecidableEq

namespace Transfer

/-- The first resumption ends an operation, and there it returns. -/
def outcome (n : Nat) (s : Transfer) : Option Outcome :=
  (s.frames n).results.head?.map .returned

/-- A `send`, `recv` or `write` returns normally only if its own completion was a success, a `recv`
with the address of that completion; once the completion is polled, one that was an error has
thrown, or is still to be resumed. -/
structure Honest (s : Transfer) : Prop where
  success : ∀ n v, (s.frames n).op ≠ .read → s.outcome n = some (.returned v) →
    ∃ ent, s.completion n = some (.success ent) ∧ ((s.frames n).op = .recv → v = some ent.addr)
  failure : ∀ n ∈ s.polled, ∀ ent, (s.frames n).op ≠ .read → s.completion n = some (.error ent) →
    s.outcome n = some .threw ∨ Handle.op n ∈ s.sched.waiting

/-- The completion that `poll` takes is not an error, unless it is that of a `read`. -/
def NoError (s : Transfer) : Act → Prop
  | .poll => ∀ c ∈ s.cq.head?, (s.frames c.ent.opContext).op ≠ .read → ∃ ent, c = .success ent
  | _ => True

/-- Every completion that was polled was a success, reads apart. -/
def Clean (s : Transfer) : Prop :=
  ∀ n ∈ s.polled, (s.frames n).op ≠ .read → ∃ ent, s.completion n = some (.success ent)

section

variable {bits : Op → UInt64} {s : Transfer}

theorem outcome_ne_threw (n : Nat) : s.outcome n ≠ some .threw := by
  intro h
  obtain ⟨v, -, hv⟩ := Option.map_eq_some_iff.mp h
  cases hv

theorem Inv.honest_of_clean (h : s.Inv bits) (hc : s.Clean) : s.Honest := by
  constructor
  case success =>
    intro n v hop hout
    obtain ⟨w, hw, hv⟩ := Option.map_eq_some_iff.mp hout
    cases hv
    have hmem : v ∈ (s.frames n).results := List.mem_of_head? hw
    have hpolled : n ∈ s.polled := by
      by_contra hn
      rw [(h.only n hn).1] at hmem
      cases hmem
    obtain ⟨ent, hent⟩ := hc n hpolled hop
    refine ⟨ent, hent, fun hrecv => ?_⟩
    obtain ⟨c, hcomp, hval⟩ := h.address n hrecv v hmem
    rw [hent, Option.some.injEq] at hcomp
    rw [hval, ← hcomp]
    rfl
  case failure =>
    intro n hn ent hop herr
    obtain ⟨ent', hent⟩ := hc n hn hop
    rw [herr] at hent
    cases hent

/-- When no woken operation is left to run, an error completion that was polled has gone
unreported. -/
theorem Inv.clean_of_honest (h : s.Inv bits) (hdrained : ∀ n, Handle.op n ∉ s.sched.waiting)
    (hh : s.Honest) : s.Clean := by
  intro n hn hop
  obtain ⟨c, hc⟩ := Option.ne_none_iff_exists'.mp (h.polled n hn)
  cases c with
  | success ent => exact ⟨ent, hc⟩
  | error ent =>
    rcases hh.failure n hn ent hop hc with hthrew | hwaiting
    · exact absurd hthrew (outcome_ne_threw n)
    · exact absurd hwaiting (hdrained n)

/-! ## The boundary -/

theorem resume_op (handle : Handle) (n : Nat) : ((s.resume handle).frames n).op = (s.frames n).op := by
  unfold resume
  split
  · simp only [setFrame, Function.update_apply]
    split
    next heq => rw [heq]
    · rfl
  · rfl

theorem pass_op (n : Nat) : (s.pass.frames n).op = (s.frames n).op := by
  unfold pass
  dsimp only
  split
  · rfl
  · exact resume_op _ n

theorem Clean.congr {t : Transfer} (hpolled : t.polled = s.polled)
    (hop : ∀ n ∈ s.polled, (t.frames n).op = (s.frames n).op)
    (hcompletion : ∀ n ∈ s.polled, t.completion n = s.completion n) : t.Clean ↔ s.Clean := by
  unfold Clean
  rw [hpolled]
  refine forall₂_congr fun n hn => ?_
  rw [hop n hn, hcompletion n hn]

theorem Inv.poll_clean (h : s.Inv bits) : (s.poll bits).1.Clean ↔ s.Clean ∧ s.NoError .poll := by
  cases hcq : s.cq with
  | nil =>
    rw [show (s.poll bits).1 = s by rw [Transfer.poll, hcq]]
    exact (and_iff_left (by simp [NoError, hcq])).symm
  | cons c cq =>
    obtain ⟨w, hstep, -, -⟩ := h.poll_eq hcq
    obtain ⟨hcomp, -⟩ := h.entries c (by simp [hcq])
    have hop : ∀ n, ((s.poll bits).1.frames n).op = (s.frames n).op := by
      intro n
      rw [hstep]
      simp only [Function.update_apply]
      split
      next heq => rw [heq]
      · rfl
    have hpolled : (s.poll bits).1.polled = s.polled ++ [c.ent.opContext] := by rw [hstep]
    have hnoerror : s.NoError .poll ↔
        ((s.frames c.ent.opContext).op ≠ .read → ∃ ent, c = .success ent) := by
      simp [NoError, hcq]
    unfold Clean
    rw [hpolled, List.forall_mem_append, List.forall_mem_singleton, poll_completion, hnoerror, hcomp]
    simp only [hop, Option.some.injEq]

theorem Inv.next_clean (h : s.Inv bits) {a : Act} (he : Enabled bits s a) :
    (s.next bits a).Clean ↔ s.Clean ∧ s.NoError a := by
  cases a with
  | call op ret =>
    have hsame : (s.call op ret).Clean ↔ s.Clean := by
      refine Clean.congr rfl (fun n hn => ?_) fun _ _ => rfl
      have hne : n ≠ s.posted := by
        rintro rfl
        exact (h.fresh (Nat.le_refl _)).1 hn
      simp only [Transfer.call, setFrame, Function.update_of_ne hne]
    exact hsame.trans (and_iff_left trivial).symm
  | deliver c =>
    have hsame : (s.deliver c).Clean ↔ s.Clean := by
      refine Clean.congr rfl (fun _ _ => rfl) fun n hn => ?_
      have hne : n ≠ c.ent.opContext := by
        rintro rfl
        exact h.polled _ hn he.2.1
      exact Function.update_of_ne hne _ _
    exact hsame.trans (and_iff_left trivial).symm
  | poll => exact h.poll_clean
  | enqueue k => exact (and_iff_left trivial).symm
  | pass =>
    obtain ⟨hpolled, hcompletion⟩ := s.pass_ghosts
    have hsame : s.pass.Clean ↔ s.Clean :=
      Clean.congr hpolled (fun n _ => pass_op n) fun n _ => congrFun hcompletion n
    exact hsame.trans (and_iff_left trivial).symm

/-- **Failures.**  For every sequence of calls, completions, polls and passes: if no `poll` takes an
error completion of a `send`, `recv` or `write`, no failed operation is reported as done and every
failure is reported; if one does, this is wrong as soon as no woken operation is left to run. -/
theorem honest_iff (h : s.Init) {acts : List Act} (he : (machine bits).AllEnabled s acts) :
    (((machine bits).restrict NoError).AllEnabled s acts → ((machine bits).runList s acts).Honest) ∧
      ((∀ n, Handle.op n ∉ ((machine bits).runList s acts).sched.waiting) →
        ((machine bits).runList s acts).Honest →
          ((machine bits).restrict NoError).AllEnabled s acts) := by
  have hrule := @Machine.law_iff_allEnabled _ _ (machine bits) (Inv bits) Clean NoError
    (fun _ _ hen hi => hi.next hen) (fun _ _ hen hi => hi.next_clean hen)
  have hclean : s.Clean := by simp [Clean, h.polled]
  have hlaw := (hrule h.inv he).trans (and_iff_right hclean)
  have hend := @Machine.inv_runList _ _ (machine bits) (Inv bits) (fun _ _ hen hi => hi.next hen) acts s h.inv he
  constructor
  · exact fun hall => hend.honest_of_clean (hlaw.mpr hall)
  · exact fun hdrained hh => hlaw.mp (hend.clean_of_honest hdrained hh)

end

/-! ## One operation or two -/

/-- A `recv` and a `send` that succeed. -/
theorem honest_iff_success :
    (((machine fiBits).restrict NoError).AllEnabled idle [.call .recv 0, .call .send 0,
        .deliver (.success ⟨1, 0x802, 0⟩), .deliver (.success ⟨0, 0x402, 7⟩), .poll, .pass, .poll, .pass] →
      ((machine fiBits).runList idle [.call .recv 0, .call .send 0,
        .deliver (.success ⟨1, 0x802, 0⟩), .deliver (.success ⟨0, 0x402, 7⟩), .poll, .pass, .poll,
        .pass]).Honest) ∧
      ((∀ n, Handle.op n ∉ ((machine fiBits).runList idle [.call .recv 0, .call .send 0,
        .deliver (.success ⟨1, 0x802, 0⟩), .deliver (.success ⟨0, 0x402, 7⟩), .poll, .pass, .poll,
        .pass]).sched.waiting) →
        ((machine fiBits).runList idle [.call .recv 0, .call .send 0,
          .deliver (.success ⟨1, 0x802, 0⟩), .deliver (.success ⟨0, 0x402, 7⟩), .poll, .pass, .poll,
          .pass]).Honest →
        ((machine fiBits).restrict NoError).AllEnabled idle [.call .recv 0, .call .send 0,
          .deliver (.success ⟨1, 0x802, 0⟩), .deliver (.success ⟨0, 0x402, 7⟩), .poll, .pass, .poll, .pass]) :=
  honest_iff idle_init (by decide +kernel)

/-- A `recv` whose completion is an error returns with the address that `buf` holds. -/
theorem reports_failure : ∃ s : Transfer, s.Init ∧
    (machine fiBits).AllEnabled s [.call .recv 0, .deliver (.error ⟨0, 0x402, 0x7f00⟩), .poll, .pass] ∧
    ((machine fiBits).runList s [.call .recv 0, .deliver (.error ⟨0, 0x402, 0x7f00⟩), .poll,
      .pass]).outcome 0 = some (.returned (some 0x7f00)) ∧
    ¬ ((machine fiBits).runList s [.call .recv 0, .deliver (.error ⟨0, 0x402, 0x7f00⟩), .poll,
      .pass]).Honest := by
  have hout : ((machine fiBits).runList idle [.call .recv 0, .deliver (.error ⟨0, 0x402, 0x7f00⟩), .poll,
      .pass]).outcome 0 = some (.returned (some 0x7f00)) := by decide +kernel
  have herr : ((machine fiBits).runList idle [.call .recv 0, .deliver (.error ⟨0, 0x402, 0x7f00⟩), .poll,
      .pass]).completion 0 = some (.error ⟨0, 0x402, 0x7f00⟩) := by decide +kernel
  have hop : (((machine fiBits).runList idle [.call .recv 0, .deliver (.error ⟨0, 0x402, 0x7f00⟩), .poll,
      .pass]).frames 0).op ≠ .read := by decide +kernel
  refine ⟨idle, idle_init, by decide +kernel, hout, fun hh => ?_⟩
  obtain ⟨ent, hent, -⟩ := hh.success 0 _ hop hout
  rw [herr] at hent
  cases hent

end Transfer

end Sqkio.Net.Fab
