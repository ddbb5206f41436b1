import Sqkio.Net.Registry

/-!
# What the life of an endpoint leaves behind

A constructor opens a `fid`, binds it to the event queue, registers the object there and goes on with
calls that may throw; no destructor runs for an object that was not finished.  `Endpoint::close` passes
the `fid` to `fi_close`, and so does the destructor.

`closed_once_iff`: every life leaves `peps_` as it was and its `fid` closed once exactly when no constructor
fails after its first call and `close` is not called.
-/

namespace Sqkio.Net.Fab

open Sqkio.Lib

/-- A life that is over: whether it had opened a `fid`, how often that was passed to `fi_close`, and what
`peps_` had for it before the constructor and has now. -/
structure Ended where
  opened : Bool
  closes : Nat
  before : Option Nat
  after : Option Nat
  deriving DecidableEq

structure Ended.Balanced (e : Ended) : Prop where
  peps : e.after = e.before
  closed : e.opened = true → e.closes = 1

/-- The registered endpoints, with ghosts: for each object what `peps_` had for its `fid` before its
constructor and how often its `fid` was passed to `fi_close`, and the lives that are over. -/
structure Lifecycles (I H : Type) extends Registry I H where
  before : Nat → Option Nat
  closes : Nat → Nat
  ended : List Ended

namespace Lifecycles

variable {I H : Type}

inductive Act (I H : Type) where
  /-- A constructor, with the call that fails, if any. -/
  | construct (ep : Ep I H) (fail : Option CtorCall)
  | close (o : Nat)
  | destroy (o : Nat)

/-- `PassiveEndpoint()` and `Endpoint()`. -/
def construct (ep : Ep I H) (fail : Option CtorCall) (s : Lifecycles I H) : Lifecycles I H :=
  let t := s.toRegistry.construct ep fail
  match fail with
  | none =>
    { s with
      toRegistry := t
      before := Function.update s.before s.created (s.peps ep.fid)
      closes := Function.update s.closes s.created 0 }
  | some call =>
    { s with toRegistry := t, ended := s.ended ++ [⟨call != .openFid, 0, s.peps ep.fid, t.peps ep.fid⟩] }

/-- `Endpoint::close`; the address is the provider's again. -/
def close (o : Nat) (s : Lifecycles I H) : Lifecycles I H :=
  match s.eps o with
  | some ep =>
    { s with
      toRegistry := s.setOpened ep.fid false
      closes := Function.update s.closes o (s.closes o + 1) }
  | none => s

/-- `~PassiveEndpoint()` and `~Endpoint()`. -/
def destroy (o : Nat) (s : Lifecycles I H) : Lifecycles I H :=
  match s.eps o with
  | some ep =>
    let t := s.toRegistry.destroy o
    { s with toRegistry := t, ended := s.ended ++ [⟨true, s.closes o + 1, s.before o, t.peps ep.fid⟩] }
  | none => s

def next (s : Lifecycles I H) : Act I H → Lifecycles I H
  | .construct ep fail => s.construct ep fail
  | .close o => s.close o
  | .destroy o => s.destroy o

/-- The provider opens a `fid` at an address that is not in use; a `PassiveEndpoint` has no `close`. -/
def Enabled (s : Lifecycles I H) : Act I H → Prop
  | .construct ep fail => s.opened ep.fid = false ∧ Registry.Fails ep fail
  | .close o => (s.eps o).any Ep.isEndpoint = true
  | .destroy o => (s.eps o).isSome = true

instance : (s : Lifecycles I H) → (a : Act I H) → Decidable (s.Enabled a)
  | s, .construct ep fail => inferInstanceAs (Decidable (s.opened ep.fid = false ∧ Registry.Fails ep fail))
  | s, .close o => inferInstanceAs (Decidable ((s.eps o).any Ep.isEndpoint = true))
  | s, .destroy o => inferInstanceAs (Decidable ((s.eps o).isSome = true))

structure Init (s : Lifecycles I H) : Prop where
  registry : s.toRegistry.Init
  ended : s.ended = []

def machine (I H : Type) : Machine (Lifecycles I H) (Act I H) where
  init := Init
  enabled := Enabled
  next := next

instance (s : Lifecycles I H) (a : Act I H) : Decidable ((machine I H).enabled s a) :=
  inferInstanceAs (Decidable (s.Enabled a))

/-- Every life that is over left `peps_` as it was before, and its `fid`, if it had opened one, closed
once. -/
def Balanced (s : Lifecycles I H) : Prop := ∀ e ∈ s.ended, e.Balanced

/-- A constructor succeeds or fails at its first call, and `close` is not called. -/
def Proper (_ : Lifecycles I H) : Act I H → Prop
  | .construct _ fail => fail = none ∨ fail = some .openFid
  | .close _ => False
  | .destroy _ => True

instance : (s : Lifecycles I H) → (a : Act I H) → Decidable (s.Proper a)
  | _, .construct _ fail => inferInstanceAs (Decidable (fail = none ∨ fail = some .openFid))
  | _, .close _ => isFalse id
  | _, .destroy _ => isTrue trivial

/-! ## Proper lives -/

/-- The objects that are there have not been closed, and displaced no entry of `peps_`. -/
structure Inv (s : Lifecycles I H) : Prop where
  registry : s.toRegistry.Inv
  live : ∀ o ep, s.eps o = some ep → s.closes o = 0 ∧ s.before o = none
  ended : s.Balanced

theorem Init.inv {s : Lifecycles I H} (h : s.Init) : s.Inv := by
  constructor
  case registry => exact h.registry.inv
  case live => simp [h.registry.eps]
  case ended => simp [Balanced, h.ended]

section

variable {s : Lifecycles I H}

theorem Inv.construct (h : s.Inv) {ep : Ep I H} (he : s.opened ep.fid = false) :
    (s.construct ep none).Inv := by
  have hnone : s.peps ep.fid = none := by
    by_contra hne
    obtain ⟨o, ho⟩ := Option.ne_none_iff_exists'.mp hne
    exact absurd (h.registry.opened _ o ho).1 (by simp [he])
  constructor
  case registry =>
    have hregistry : (s.toRegistry.construct ep none).Inv := h.registry.construct he
    exact hregistry
  case live =>
    intro o ep' hep
    simp only [Lifecycles.construct, Function.update_apply]
    by_cases ho : o = s.created
    · simp only [if_pos ho]
      exact ⟨trivial, hnone⟩
    · simp only [if_neg ho]
      exact h.live o ep' ((Registry.eps_construct ho ep none).symm.trans hep)
  case ended => exact h.ended

theorem Inv.destroy (h : s.Inv) (o : Nat) : (s.destroy o).Inv := by
  unfold Lifecycles.destroy
  split
  next ep hep =>
    obtain ⟨hcloses, hbefore⟩ := h.live o ep hep
    refine ⟨h.registry.destroy, fun o' ep' hep' => ?_, ?_⟩
    · have heps : (s.toRegistry.destroy o).eps o' = if o' = o then none else s.eps o' := by
        rw [Registry.destroy_eq hep]
        exact Function.update_apply _ _ _ _
      rw [heps] at hep'
      split at hep'
      · cases hep'
      · exact h.live o' ep' hep'
    · refine List.forall_mem_append.mpr ⟨h.ended, List.forall_mem_singleton.mpr ⟨?_, fun _ => ?_⟩⟩
      · rw [hbefore, Registry.destroy_eq hep]
        exact Function.update_self _ _ _
      · simp only [hcloses]
  · exact h

theorem Inv.next (h : s.Inv) {a : Act I H} (he : s.Enabled a) (hp : s.Proper a) : (s.next a).Inv := by
  cases a with
  | construct ep fail =>
    rcases hp with rfl | rfl
    · exact h.construct he.1
    · refine ⟨h.registry, h.live, ?_⟩
      exact List.forall_mem_append.mpr ⟨h.ended, List.forall_mem_singleton.mpr ⟨rfl, nofun⟩⟩
  | close o => exact hp.elim
  | destroy o => exact h.destroy o

/-! ## Other lives -/

/-- The objects are numbered. -/
def Numbered (s : Lifecycles I H) : Prop := ∀ o ep, s.eps o = some ep → o < s.created

theorem Numbered.construct (h : s.Numbered) (ep : Ep I H) (fail : Option CtorCall) {o : Nat} {ep' : Ep I H}
    (hep : (s.toRegistry.construct ep fail).eps o = some ep') :
    o < (s.toRegistry.construct ep fail).created := by
  by_cases ho : o = s.created
  · subst ho
    unfold Registry.construct at hep ⊢
    split
    · exact h _ ep' hep
    · exact h _ ep' hep
    · exact Nat.lt_succ_self _
    · exact Nat.lt_succ_self _
  · rw [Registry.eps_construct ho] at hep
    exact Nat.lt_of_lt_of_le (h o ep' hep) (Registry.created_construct ep fail)

theorem Numbered.next (h : s.Numbered) (a : Act I H) : (s.next a).Numbered := by
  intro o ep hep
  cases a with
  | construct ep' fail =>
    cases fail with
    | none => exact h.construct ep' none hep
    | some call => exact h.construct ep' (some call) hep
  | close o' =>
    simp only [Lifecycles.next, close] at hep ⊢
    split at hep
    · exact h o ep hep
    · exact h o ep hep
  | destroy o' =>
    simp only [Lifecycles.next, destroy] at hep ⊢
    split at hep
    next ep' hep' =>
      simp only [Registry.destroy_eq hep'] at hep ⊢
      by_cases ho : o = o'
      · subst ho
        exact absurd hep (by simp [EventQueue.setEp])
      · exact h o ep ((Function.update_of_ne ho _ _).symm.trans hep)
    · exact h o ep hep

/-- What is recorded stays. -/
theorem ended_next (a : Act I H) : s.ended <+: (s.next a).ended := by
  cases a with
  | construct ep fail =>
    cases fail with
    | none => exact List.prefix_rfl
    | some call => exact List.prefix_append _ _
  | close o =>
    simp only [next, close]
    split <;> exact List.prefix_rfl
  | destroy o =>
    simp only [next, destroy]
    split
    · exact List.prefix_append _ _
    · exact List.prefix_rfl

theorem ended_runList (acts : List (Act I H)) : s.ended <+: ((machine I H).runList s acts).ended := by
  induction acts generalizing s with
  | nil => exact List.prefix_rfl
  | cons a acts ih => exact (ended_next a).trans ih

/-- An object that was closed and is still there stays so, until its destructor closes it again. -/
theorem close_next {o : Nat} {ep : Ep I H} (hep : s.eps o = some ep) (hclosed : 1 ≤ s.closes o)
    (hlt : o < s.created) {a : Act I H} (ha : a ≠ .destroy o) :
    (s.next a).eps o = some ep ∧ 1 ≤ (s.next a).closes o ∧ o < (s.next a).created := by
  cases a with
  | construct ep' fail =>
    have hne : o ≠ s.created := Nat.ne_of_lt hlt
    have heps := (Registry.eps_construct hne ep' fail).trans hep
    have hlt' := Nat.lt_of_lt_of_le hlt (Registry.created_construct ep' fail)
    cases fail with
    | none =>
      have hcloses : (s.next (.construct ep' none)).closes o = s.closes o :=
        Function.update_of_ne hne _ _
      exact ⟨heps, hcloses ▸ hclosed, hlt'⟩
    | some call => exact ⟨heps, hclosed, hlt'⟩
  | close o' =>
    simp only [next, close]
    split
    · refine ⟨hep, ?_, hlt⟩
      simp only [Function.update_apply]
      split
      · exact Nat.le_add_left _ _
      · exact hclosed
    · exact ⟨hep, hclosed, hlt⟩
  | destroy o' =>
    have hne : o ≠ o' := fun h => ha (congrArg Act.destroy h.symm)
    simp only [next, destroy]
    split
    next ep' hep' =>
      simp only [Registry.destroy_eq hep']
      exact ⟨(Function.update_of_ne hne _ _).trans hep, hclosed, hlt⟩
    · exact ⟨hep, hclosed, hlt⟩

/-- Once it is gone, an object that was closed has had its `fid` closed twice. -/
theorem unbalanced_of_closed {o : Nat} {ep : Ep I H} (hep : s.eps o = some ep) (hclosed : 1 ≤ s.closes o)
    (hlt : o < s.created) (acts : List (Act I H)) (hgone : ((machine I H).runList s acts).eps o = none) :
    ¬((machine I H).runList s acts).Balanced := by
  induction acts generalizing s with
  | nil =>
    have hsome : s.eps o = none := hgone
    rw [hep] at hsome
    cases hsome
  | cons a acts ih =>
    by_cases ha : a = .destroy o
    · intro hb
      subst ha
      have hlast : ⟨true, s.closes o + 1, s.before o, (s.toRegistry.destroy o).peps ep.fid⟩ ∈
          (s.next (.destroy o)).ended := by
        simp only [next, destroy, hep]
        exact List.mem_append_right _ (List.mem_singleton_self _)
      have htwice := (hb _ ((ended_runList acts).subset hlast)).closed rfl
      simp only at htwice
      omega
    · obtain ⟨hep', hclosed', hlt'⟩ := close_next hep hclosed hlt ha
      exact ih hep' hclosed' hlt' hgone

/-- A constructor that fails later leaves its `fid` open. -/
theorem unbalanced_of_fail (ep : Ep I H) {call : CtorCall} (hcall : call ≠ .openFid) (acts : List (Act I H)) :
    ¬((machine I H).runList (s.next (.construct ep (some call))) acts).Balanced := by
  intro hb
  have hlast : ⟨call != .openFid, 0, s.peps ep.fid, (s.toRegistry.construct ep (some call)).peps ep.fid⟩ ∈
      (s.next (.construct ep (some call))).ended :=
    List.mem_append_right _ (List.mem_singleton_self _)
  have hnever := (hb _ ((ended_runList acts).subset hlast)).closed (bne_iff_ne.mpr hcall)
  cases hnever

/-- A step that is not proper unbalances the runs at whose end no object is left. -/
theorem unbalanced_of_not_proper (h : s.Numbered) {a : Act I H} (he : s.Enabled a) (hp : ¬s.Proper a)
    (acts : List (Act I H)) (hgone : ∀ o, ((machine I H).runList (s.next a) acts).eps o = none) :
    ¬((machine I H).runList (s.next a) acts).Balanced := by
  cases a with
  | construct ep fail =>
    cases fail with
    | none => exact absurd (.inl rfl) hp
    | some call => exact unbalanced_of_fail ep (fun hcall => hp (.inr (congrArg some hcall))) acts
  | close o =>
    obtain ⟨ep, hep, -⟩ := (Option.any_eq_true _ _).mp he
    refine @unbalanced_of_closed _ _ (s.next (.close o)) o ep ?_ ?_ ?_ acts (hgone o)
    · simp only [next, close, hep]
      exact hep
    · simp only [next, close, hep, Function.update_self]
      exact Nat.le_add_left _ _
    · simp only [next, close, hep]
      exact h o ep hep
  | destroy o => exact absurd trivial hp

theorem proper_of_balanced (h : s.Numbered) {acts : List (Act I H)} (he : (machine I H).AllEnabled s acts)
    (hgone : ∀ o, ((machine I H).runList s acts).eps o = none)
    (hb : ((machine I H).runList s acts).Balanced) : ((machine I H).restrict Proper).AllEnabled s acts := by
  induction acts generalizing s with
  | nil => trivial
  | cons a acts ih =>
    have hp : s.Proper a := by
      by_contra hp
      exact unbalanced_of_not_proper h he.1 hp acts hgone hb
    exact ⟨⟨he.1, hp⟩, ih (h.next a) he.2 hgone hb⟩

/-- **Lives of endpoints.**  While no constructor fails after its first call and `close` is not called,
every life that is over left `peps_` as it was and its `fid` closed once; and this is so of a run at
whose end no object is left only if it did neither. -/
theorem closed_once_iff (h : s.Init) {acts : List (Act I H)} (he : (machine I H).AllEnabled s acts) :
    (((machine I H).restrict Proper).AllEnabled s acts → ((machine I H).runList s acts).Balanced) ∧
    ((∀ o, ((machine I H).runList s acts).eps o = none) → ((machine I H).runList s acts).Balanced →
      ((machine I H).restrict Proper).AllEnabled s acts) := by
  have hnumbered : s.Numbered := by simp [Numbered, h.registry.eps]
  constructor
  · intro hproper
    have hend := @Machine.inv_runList _ _ ((machine I H).restrict Proper) Inv
      (fun _ _ hen hi => hi.next hen.1 hen.2) acts s h.inv hproper
    exact hend.ended
  · exact proper_of_balanced hnumbered he

end

/-! ## One endpoint -/

/-- Nothing is registered, and no life is over. -/
def empty : Lifecycles Nat Nat where
  toRegistry := .empty
  before _ := none
  closes _ := 0
  ended := []

theorem empty_init : empty.Init := ⟨Registry.empty_init, rfl⟩

/-- A `PassiveEndpoint`, and an `Endpoint` whose `fi_endpoint` fails. -/
def twoLives : List (Act Nat Nat) :=
  [.construct (.passiveEndpoint 5 ⟨none, none⟩) none, .construct (.endpoint 6 ⟨none, ()⟩) (some .openFid),
    .destroy 0]

theorem closed_once_iff_two :
    (((machine Nat Nat).restrict Proper).AllEnabled empty twoLives →
      ((machine Nat Nat).runList empty twoLives).Balanced) ∧
    ((∀ o, ((machine Nat Nat).runList empty twoLives).eps o = none) →
      ((machine Nat Nat).runList empty twoLives).Balanced →
      ((machine Nat Nat).restrict Proper).AllEnabled empty twoLives) :=
  closed_once_iff empty_init (by decide +kernel)

/-- The `bind` of an `Endpoint` to the completion queue fails; another one is closed and destroyed. -/
def unbalancedLives : List (Act Nat Nat) :=
  [.construct (.endpoint 5 ⟨none, ()⟩) (some .bindCq), .construct (.endpoint 6 ⟨none, ()⟩) none, .close 1,
    .destroy 1]

/-- The first `fid` is never closed and `peps_` keeps the object that is not there; `fi_close` gets the
second one twice. -/
theorem lives_unbalanced : ∃ s : Lifecycles Nat Nat, s.Init ∧ (machine Nat Nat).AllEnabled s unbalancedLives ∧
    ((machine Nat Nat).runList s unbalancedLives).ended = [⟨true, 0, none, some 0⟩, ⟨true, 2, none, none⟩] ∧
    ¬((machine Nat Nat).runList s unbalancedLives).Balanced := by
  refine ⟨empty, empty_init, by decide +kernel, by decide +kernel, fun hb => ?_⟩
  have hnever := (hb ⟨true, 0, none, some 0⟩ (by decide +kernel)).closed rfl
  cases hnever

end Lifecycles

end Sqkio.Net.Fab
