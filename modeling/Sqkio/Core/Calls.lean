import Sqkio.Core.Coroutine

/-!
# The activations and the callers

`Calls` says how the stack of activations, the suspension points and the `caller_`
fields fit together.  On top are the bodies and `await_transform`s of tasks that have not
suspended yet, each called by the one below; under them the tasks that are in
`final_suspend`, each resumed by the one below.

Each theorem is one way in which a step changes the four.
-/

namespace Sqkio.Runtime

variable {X V E : Type}

/-- What is under an activation of the body of `c`: the `await_transform` that called it
first, or only tasks that are finishing. -/
def Inner (r : Runtime X V E) (c : Nat) : List Activation → Prop
  | .transform _ d :: _ => d = c ∧ (r.frames c).caller = .null
  | rest => (r.frames c).caller ≠ .null ∧ ∀ a ∈ rest, ∃ d, a = .finishing d

def Nested (r : Runtime X V E) : List Activation → Prop
  | [] => True
  | .body c :: rest => r.Inner c rest ∧ Nested r rest
  | .transform c _ :: rest => r.Inner c rest ∧ Nested r rest
  | .finishing c :: rest =>
    (r.frames c).caller ≠ .null ∧ (∀ a ∈ rest, ∃ d, a = .finishing d) ∧ Nested r rest

structure Calls (r : Runtime X V E) : Prop where
  nodup : (r.stack.map Activation.frame).Nodup
  running : ∀ c, c ∈ r.stack.map Activation.frame ↔ r.Live c ∧ (r.frames c).point = .running
  nested : r.Nested r.stack
  caller : ∀ c p, r.Live c → (r.frames c).caller = .frame p → .finishing c ∉ r.stack →
    r.Live p ∧ (r.frames p).point = .child c
  child : ∀ p c, r.Live p → (r.frames p).point = .child c →
    r.Live c ∧ (r.frames c).caller = .frame p ∧ .finishing c ∉ r.stack
  final : ∀ c, r.Live c → (r.frames c).point = .final → ∃ p rest, r.stack = .transform p c :: rest
  null : ∀ c, r.Live c → (r.frames c).caller = .null → ∃ p, .transform p c ∈ r.stack
  transform : ∀ p c, .transform p c ∈ r.stack → r.Live c ∧ (r.frames c).caller = .null
  top : ∀ p c rest, r.stack = .transform p c :: rest → (r.frames c).point ≠ .running

/-- `c` resumes `p` at its end, and has not come to it. -/
def Calling (r : Runtime X V E) (p c : Nat) : Prop :=
  r.Live c ∧ (r.frames c).caller = .frame p ∧ .finishing c ∉ r.stack

def Awaiting (r : Runtime X V E) (p c : Nat) : Prop :=
  r.Live p ∧ (r.frames p).point = .child c

/-- The fields `caller` and `child` of `Calls`. -/
def Linked (r : Runtime X V E) : Prop := ∀ p c, r.Calling p c ↔ r.Awaiting p c

section

variable {r r' : Runtime X V E}

theorem Inner.of_caller {c : Nat} {rest : List Activation}
    (hc : (r'.frames c).caller = (r.frames c).caller) (h : r.Inner c rest) : r'.Inner c rest := by
  unfold Inner at *
  split at h <;> simp_all

theorem Nested.of_caller {stack : List Activation}
    (hc : ∀ c ∈ stack.map Activation.frame, (r'.frames c).caller = (r.frames c).caller)
    (h : r.Nested stack) : r'.Nested stack := by
  induction stack with
  | nil => trivial
  | cons a rest ih =>
    rw [List.map_cons, List.forall_mem_cons] at hc
    cases a with
    | body c => exact ⟨h.1.of_caller hc.1, ih hc.2 h.2⟩
    | transform c d => exact ⟨h.1.of_caller hc.1, ih hc.2 h.2⟩
    | finishing c =>
      have hne : (r'.frames c).caller ≠ .null := by
        rw [show (r'.frames c).caller = (r.frames c).caller from hc.1]
        exact h.1
      exact ⟨hne, h.2.1, ih hc.2 h.2.2⟩

theorem Nested.tail {a : Activation} {rest : List Activation} (h : r.Nested (a :: rest)) :
    r.Nested rest := by
  cases a with
  | body c => exact h.2
  | transform c d => exact h.2
  | finishing c => exact h.2.2

/-- Right under the body of `c` is the `await_transform` that called it. -/
theorem Inner.of_null {c : Nat} {rest : List Activation} (h : r.Inner c rest)
    (hc : (r.frames c).caller = .null) : ∃ p rest', rest = .transform p c :: rest' := by
  unfold Inner at h
  split at h
  · obtain ⟨rfl, -⟩ := h
    exact ⟨_, _, rfl⟩
  · exact absurd hc h.1

theorem Inner.of_ne_null {c : Nat} {rest : List Activation} (h : r.Inner c rest)
    (hc : (r.frames c).caller ≠ .null) : ∀ a ∈ rest, ∃ d, a = .finishing d := by
  unfold Inner at h
  split at h
  · exact absurd h.2 hc
  · exact h.2

theorem Inner.head {p c d : Nat} {rest : List Activation} (h : r.Inner c (.transform p d :: rest)) :
    d = c := h.1

/-- Only the innermost activation is of a body that runs. -/
theorem Nested.not_body {a : Activation} {p : Nat} {rest : List Activation} :
    ¬ r.Nested (a :: .body p :: rest) := by
  intro h
  have hfin : ∃ d, Activation.body p = .finishing d := by
    cases a with
    | body c => exact h.1.2 _ List.mem_cons_self
    | transform c d => exact h.1.2 _ List.mem_cons_self
    | finishing c => exact h.2.1 _ List.mem_cons_self
  obtain ⟨d, hd⟩ := hfin
  cases hd

/-- A task called by an `await_transform` that is not on top has an activation itself. -/
theorem Nested.called {a : Activation} {rest : List Activation} (h : r.Nested (a :: rest)) {p c : Nat}
    (hm : .transform p c ∈ rest) : c ∈ (a :: rest).map Activation.frame := by
  induction rest generalizing a with
  | nil => cases hm
  | cons b rest ih =>
    rcases List.mem_cons.mp hm with heq | hm'
    · subst heq
      cases a with
      | body d =>
        rw [h.1.head]
        exact List.mem_cons_self
      | transform d e =>
        rw [h.1.head]
        exact List.mem_cons_self
      | finishing d =>
        obtain ⟨e, he⟩ := h.2.1 _ List.mem_cons_self
        cases he
    · exact List.mem_cons_of_mem _ (ih h.tail hm')

theorem mem_frames {a : Activation} {stack : List Activation} (h : a ∈ stack) :
    a.frame ∈ stack.map Activation.frame := List.mem_map_of_mem h

theorem mem_top_of_ne {a : Activation} {rest : List Activation} {d : Nat} (hne : d ≠ a.frame) :
    d ∈ (a :: rest).map Activation.frame ↔ d ∈ rest.map Activation.frame := by
  rw [List.map_cons, List.mem_cons, or_iff_right hne]

theorem mem_under {a b : Activation} {rest : List Activation} (hne : a ≠ b) : b ∈ a :: rest ↔ b ∈ rest := by
  rw [List.mem_cons, or_iff_right hne.symm]

/-! ## Who waits for whom -/

theorem calling_congr {d : Nat} (hlive : r'.Live d ↔ r.Live d)
    (hcaller : (r'.frames d).caller = (r.frames d).caller)
    (hfin : .finishing d ∈ r'.stack ↔ .finishing d ∈ r.stack) (p : Nat) :
    r'.Calling p d ↔ r.Calling p d := by
  unfold Calling
  rw [hlive, hcaller, hfin]

theorem awaiting_congr {p : Nat} (hlive : r'.Live p ↔ r.Live p)
    (hpoint : (r'.frames p).point = (r.frames p).point) (d : Nat) :
    r'.Awaiting p d ↔ r.Awaiting p d := by
  unfold Awaiting
  rw [hlive, hpoint]

/-- `c` is the only task that the step changes, and it awaits nobody before or after. -/
theorem awaiting_except {c : Nat} (hlive : ∀ p, p ≠ c → (r'.Live p ↔ r.Live p))
    (hpoint : ∀ p, p ≠ c → (r'.frames p).point = (r.frames p).point)
    (hbefore : ∀ d, ¬ r.Awaiting c d) (hafter : ∀ d, ¬ r'.Awaiting c d) (p d : Nat) :
    r'.Awaiting p d ↔ r.Awaiting p d := by
  rcases eq_or_ne p c with rfl | hne
  · exact iff_of_false (hafter d) (hbefore d)
  · exact awaiting_congr (hlive p hne) (hpoint p hne) d

/-- `c` is the only task that the step changes, and it calls nobody before or after. -/
theorem calling_except {c : Nat} (hlive : ∀ d, d ≠ c → (r'.Live d ↔ r.Live d))
    (hcaller : ∀ d, d ≠ c → (r'.frames d).caller = (r.frames d).caller)
    (hfin : ∀ d, d ≠ c → (.finishing d ∈ r'.stack ↔ .finishing d ∈ r.stack))
    (hbefore : ∀ p, ¬ r.Calling p c) (hafter : ∀ p, ¬ r'.Calling p c) (p d : Nat) :
    r'.Calling p d ↔ r.Calling p d := by
  rcases eq_or_ne d c with rfl | hne
  · exact iff_of_false (hafter p) (hbefore p)
  · exact calling_congr (hlive d hne) (hcaller d hne) (hfin d hne) p

theorem not_awaiting {p : Nat} (hp : ∀ d, (r.frames p).point ≠ .child d) (d : Nat) :
    ¬ r.Awaiting p d :=
  fun h => hp d h.2

theorem not_calling {c : Nat} (hc : ∀ p, (r.frames c).caller ≠ .frame p) (p : Nat) :
    ¬ r.Calling p c :=
  fun h => hc p h.2.1

theorem Linked.of_congr (h : r.Linked) (hcalling : ∀ p c, r'.Calling p c ↔ r.Calling p c)
    (hawaiting : ∀ p c, r'.Awaiting p c ↔ r.Awaiting p c) : r'.Linked := by
  intro p c
  rw [hcalling, hawaiting]
  exact h p c

theorem Linked.caller (h : r.Linked) (c p : Nat) (hc : r.Live c) (hp : (r.frames c).caller = .frame p)
    (hfin : .finishing c ∉ r.stack) : r.Live p ∧ (r.frames p).point = .child c :=
  (h p c).mp ⟨hc, hp, hfin⟩

theorem Linked.child (h : r.Linked) (p c : Nat) (hp : r.Live p) (hc : (r.frames p).point = .child c) :
    r.Live c ∧ (r.frames c).caller = .frame p ∧ .finishing c ∉ r.stack :=
  (h p c).mpr ⟨hp, hc⟩

namespace Calls

theorem linked (h : r.Calls) : r.Linked := fun p c =>
  ⟨fun ⟨hc, hp, hfin⟩ => h.caller c p hc hp hfin, fun ⟨hp, hc⟩ => h.child p c hp hc⟩

/-- `c` is the only task that the step changes. -/
theorem running_except (h : r.Calls) {c : Nat}
    (hmem : ∀ d, d ≠ c → (d ∈ r'.stack.map Activation.frame ↔ d ∈ r.stack.map Activation.frame))
    (hlive : ∀ d, d ≠ c → (r'.Live d ↔ r.Live d))
    (hpoint : ∀ d, d ≠ c → (r'.frames d).point = (r.frames d).point)
    (hc : c ∈ r'.stack.map Activation.frame ↔ r'.Live c ∧ (r'.frames c).point = .running) (d : Nat) :
    d ∈ r'.stack.map Activation.frame ↔ r'.Live d ∧ (r'.frames d).point = .running := by
  rcases eq_or_ne d c with rfl | hne
  · exact hc
  · rw [hmem d hne, hlive d hne, hpoint d hne]
    exact h.running d

/-- A task is at its end only under the `await_transform` that called it. -/
theorem not_final (h : r.Calls) (hs : ∀ p c rest, r.stack ≠ .transform p c :: rest) {d : Nat}
    (hd : r.Live d) : (r.frames d).point ≠ .final := by
  intro hfinal
  obtain ⟨p, rest, hst⟩ := h.final d hd hfinal
  exact hs p d rest hst

/-- Only the task that the step changes can have come to its end. -/
theorem final_except (h : r.Calls) (hs : ∀ p c rest, r.stack ≠ .transform p c :: rest) {c d : Nat}
    (hlive : ∀ d, d ≠ c → (r'.Live d ↔ r.Live d))
    (hpoint : ∀ d, d ≠ c → (r'.frames d).point = (r.frames d).point)
    (hd : r'.Live d) (hfinal : (r'.frames d).point = .final) : d = c := by
  by_contra hne
  rw [hpoint d hne] at hfinal
  exact h.not_final hs ((hlive d hne).mp hd) hfinal

theorem nodup_rest (h : r.Calls) {a : Activation} {rest : List Activation} (hs : r.stack = a :: rest) :
    (rest.map Activation.frame).Nodup := by
  have hn := h.nodup
  rw [hs, List.map_cons, List.nodup_cons] at hn
  exact hn.2

theorem not_mem_rest (h : r.Calls) {a : Activation} {rest : List Activation} (hs : r.stack = a :: rest) :
    a.frame ∉ rest.map Activation.frame := by
  have hn := h.nodup
  rw [hs, List.map_cons, List.nodup_cons] at hn
  exact hn.1

theorem nested_top (h : r.Calls) {a : Activation} {rest : List Activation} (hs : r.stack = a :: rest) :
    r.Nested (a :: rest) := by
  have hn := h.nested
  rw [hs] at hn
  exact hn

theorem null_rest (h : r.Calls) {a : Activation} {rest : List Activation} (hs : r.stack = a :: rest)
    {d : Nat} (ha : ∀ p, a ≠ .transform p d) (hd : r.Live d) (hnull : (r.frames d).caller = .null) :
    ∃ p, .transform p d ∈ rest := by
  obtain ⟨p, hp⟩ := h.null d hd hnull
  rw [hs] at hp
  exact ⟨p, (mem_under (ha p)).mp hp⟩

theorem transform_rest (h : r.Calls) {a : Activation} {rest : List Activation} (hs : r.stack = a :: rest)
    {p d : Nat} (hm : .transform p d ∈ rest) : r.Live d ∧ (r.frames d).caller = .null :=
  h.transform p d (by rw [hs]; exact List.mem_cons_of_mem _ hm)

/-! ## Steps that change nothing here -/

theorem congr (h : r.Calls) (hs : r'.stack = r.stack) (hlive : ∀ d, r'.Live d ↔ r.Live d)
    (hcaller : ∀ d, (r'.frames d).caller = (r.frames d).caller)
    (hpoint : ∀ d, (r'.frames d).point = (r.frames d).point) : r'.Calls where
  nodup := by rw [hs]; exact h.nodup
  running c := by rw [hs, hlive, hpoint]; exact h.running c
  nested := by rw [hs]; exact h.nested.of_caller fun c _ => hcaller c
  caller c p := by rw [hs, hlive, hcaller, hlive, hpoint]; exact h.caller c p
  child p c := by rw [hs, hlive, hcaller, hlive, hpoint]; exact h.child p c
  final c := by rw [hs, hlive, hpoint]; exact h.final c
  null c := by rw [hs, hlive, hcaller]; exact h.null c
  transform p c := by rw [hs, hlive, hcaller]; exact h.transform p c
  top p c rest := by rw [hs, hpoint]; exact h.top p c rest

/-! ## A task is destroyed -/

/-- The task on top is destroyed, and nobody is to return to it. -/
theorem destroy (h : r.Calls) {a : Activation} {rest : List Activation} (hs : r.stack = a :: rest)
    (hs' : r'.stack = rest) (ha : ∀ p c, a ≠ .transform p c) (hrest : ∀ b ∈ rest, ∃ d, b = .finishing d)
    (hlive : ∀ d, r'.Live d ↔ r.Live d ∧ d ≠ a.frame)
    (hcaller : ∀ d, (r'.frames d).caller = (r.frames d).caller)
    (hpoint : ∀ d, (r'.frames d).point = (r.frames d).point)
    (hne : (r.frames a.frame).caller ≠ .null) (hcall : ∀ p, ¬ r.Calling p a.frame) : r'.Calls := by
  obtain ⟨hc, hcrun⟩ := (h.running a.frame).mp (by rw [hs]; exact List.mem_cons_self)
  have hother : ∀ d, d ≠ a.frame → (r'.Live d ↔ r.Live d) := by
    intro d hd
    rw [hlive, and_iff_left hd]
  have hgone : ¬ r'.Live a.frame := fun hc' => ((hlive a.frame).mp hc').2 rfl
  have hlinked : r'.Linked := by
    refine h.linked.of_congr ?_ ?_
    · refine calling_except hother (fun d _ => hcaller d) ?_ hcall fun p hp => hgone hp.1
      intro d hd
      rw [hs, hs']
      refine (mem_under ?_).symm
      rintro rfl
      exact hd rfl
    · exact awaiting_except hother (fun p _ => hpoint p) (not_awaiting (by simp [hcrun]))
        (not_awaiting (by simp [hpoint, hcrun]))
  constructor
  case nodup =>
    rw [hs']
    exact h.nodup_rest hs
  case running =>
    refine h.running_except ?_ hother (fun d _ => hpoint d) ?_
    · intro d hd
      rw [hs, hs']
      exact (mem_top_of_ne hd).symm
    · rw [hs']
      exact iff_of_false (h.not_mem_rest hs) fun hr => hgone hr.1
  case nested =>
    rw [hs']
    exact (h.nested_top hs).tail.of_caller fun d _ => hcaller d
  case caller => exact hlinked.caller
  case child => exact hlinked.child
  case final =>
    intro d hd hend
    have heq := h.final_except (fun p c rest' => by rw [hs]; simp [ha]) hother (fun d _ => hpoint d) hd hend
    subst heq
    exact absurd hd hgone
  case null =>
    intro d hd hnull
    rw [hlive] at hd
    rw [hcaller] at hnull
    rw [hs']
    exact h.null_rest hs (fun p => ha p d) hd.1 hnull
  case transform =>
    intro p d hm
    rw [hs'] at hm
    obtain ⟨hd, hnull⟩ := h.transform_rest hs hm
    rw [hlive, hcaller]
    refine ⟨⟨hd, ?_⟩, hnull⟩
    rintro rfl
    exact hne hnull
  case top =>
    intro p d rest' hrest'
    rw [← hs', hrest'] at hrest
    obtain ⟨e, he⟩ := hrest _ List.mem_cons_self
    cases he

/-! ## The body on top stops running -/

section

variable {c : Nat} {rest : List Activation}

theorem body_running (h : r.Calls) (hs : r.stack = .body c :: rest) :
    r.Live c ∧ (r.frames c).point = .running :=
  (h.running c).mp (by rw [hs]; exact List.mem_cons_self)

/-- The task that awaits it is suspended at that `co_await`. -/
theorem not_finishing (h : r.Calls) (hs : r.stack = .body c :: rest) : .finishing c ∉ r.stack := by
  rw [hs]
  intro hm
  exact h.not_mem_rest hs (mem_frames (a := .finishing c) (by simpa using hm))

theorem body_caller {p : Nat} (h : r.Calls) (hs : r.stack = .body c :: rest)
    (hp : (r.frames c).caller = .frame p) :
    r.Live p ∧ (r.frames p).point = .child c ∧ p ≠ c := by
  obtain ⟨hc, hrun⟩ := h.body_running hs
  obtain ⟨hl, hpt⟩ := h.caller c p hc hp (h.not_finishing hs)
  refine ⟨hl, hpt, ?_⟩
  rintro rfl
  rw [hrun] at hpt
  cases hpt

/-- A task that awaits a task has a caller itself. -/
theorem caller_of_child {p : Nat} (h : r.Calls) (hp : r.Live p) (hpt : (r.frames p).point = .child c)
    (htop : ∀ q rest, r.stack ≠ .transform q p :: rest) : (r.frames p).caller ≠ .null := by
  intro hnull
  obtain ⟨q, hq⟩ := h.null p hp hnull
  cases hs : r.stack with
  | nil =>
    rw [hs] at hq
    cases hq
  | cons a rest =>
    rw [hs] at hq
    rcases List.mem_cons.mp hq with rfl | hq'
    · exact htop q rest hs
    · have hnest := h.nested
      rw [hs] at hnest
      have hrun := (h.running p).mp (by rw [hs]; exact hnest.called hq')
      rw [hrun.2] at hpt
      cases hpt

/-- It stops running and is not destroyed. -/
theorem leave (h : r.Calls) (hs : r.stack = .body c :: rest) (hs' : r'.stack = rest)
    (hlive : ∀ d, r'.Live d ↔ r.Live d) (hcaller : ∀ d, (r'.frames d).caller = (r.frames d).caller)
    (hpoint : ∀ d, d ≠ c → (r'.frames d).point = (r.frames d).point)
    (hrun : (r'.frames c).point ≠ .running) (hchild : ∀ d, (r'.frames c).point ≠ .child d)
    (hfinal : (r'.frames c).point = .final → (r.frames c).caller = .null) : r'.Calls := by
  obtain ⟨hc, hcrun⟩ := h.body_running hs
  have hnest := h.nested_top hs
  have hlinked : r'.Linked := by
    refine h.linked.of_congr ?_ ?_
    · intro p d
      refine calling_congr (hlive d) (hcaller d) ?_ p
      rw [hs, hs']
      exact (mem_under (by simp)).symm
    · exact awaiting_except (fun p _ => hlive p) hpoint (not_awaiting (by simp [hcrun])) (not_awaiting hchild)
  constructor
  case nodup =>
    rw [hs']
    exact h.nodup_rest hs
  case running =>
    refine h.running_except ?_ (fun d _ => hlive d) hpoint ?_
    · intro d hne
      rw [hs, hs']
      exact (mem_top_of_ne hne).symm
    · rw [hs']
      exact iff_of_false (h.not_mem_rest hs) fun hr => hrun hr.2
  case nested =>
    rw [hs']
    exact hnest.tail.of_caller fun d _ => hcaller d
  case caller => exact hlinked.caller
  case child => exact hlinked.child
  case final =>
    intro d hd hend
    have heq := h.final_except (by simp [hs]) (fun d _ => hlive d) hpoint hd hend
    subst heq
    rw [hs']
    exact hnest.1.of_null (hfinal hend)
  case null =>
    intro d hd hnull
    rw [hlive] at hd
    rw [hcaller] at hnull
    rw [hs']
    exact h.null_rest hs (by simp) hd hnull
  case transform =>
    intro p d hm
    rw [hs'] at hm
    rw [hlive, hcaller]
    exact h.transform_rest hs hm
  case top =>
    intro p d rest' hrest
    rw [← hs', hrest] at hnest
    rw [hnest.1.head]
    exact hrun

/-- It suspends at a point of its own. -/
theorem suspend (h : r.Calls) (hs : r.stack = .body c :: rest) (hs' : r'.stack = rest)
    (hlive : ∀ d, r'.Live d ↔ r.Live d) (hcaller : ∀ d, (r'.frames d).caller = (r.frames d).caller)
    (hpoint : ∀ d, d ≠ c → (r'.frames d).point = (r.frames d).point)
    (hrun : (r'.frames c).point ≠ .running) (hfinal : (r'.frames c).point ≠ .final)
    (hchild : ∀ d, (r'.frames c).point ≠ .child d) : r'.Calls :=
  h.leave hs hs' hlive hcaller hpoint hrun hchild fun hend => absurd hend hfinal

/-- It reaches its end, and nobody is to be resumed. -/
theorem finish_null (h : r.Calls) (hs : r.stack = .body c :: rest) (hs' : r'.stack = rest)
    (hlive : ∀ d, r'.Live d ↔ r.Live d) (hcaller : ∀ d, (r'.frames d).caller = (r.frames d).caller)
    (hpoint : ∀ d, d ≠ c → (r'.frames d).point = (r.frames d).point)
    (hnull : (r.frames c).caller = .null) (hfinal : (r'.frames c).point = .final) : r'.Calls :=
  h.leave hs hs' hlive hcaller hpoint (by simp [hfinal]) (by simp [hfinal]) fun _ => hnull

/-- A top-level task reaches its end and is gone. -/
theorem finish_noop (h : r.Calls) (hs : r.stack = .body c :: rest) (hs' : r'.stack = rest)
    (hlive : ∀ d, r'.Live d ↔ r.Live d ∧ d ≠ c)
    (hcaller : ∀ d, (r'.frames d).caller = (r.frames d).caller)
    (hpoint : ∀ d, (r'.frames d).point = (r.frames d).point)
    (hnoop : (r.frames c).caller = .noop) : r'.Calls := by
  have hne : (r.frames c).caller ≠ .null := by simp [hnoop]
  have hrest := (h.nested_top hs).1.of_ne_null hne
  have hcall : ∀ p, ¬ r.Calling p c := not_calling (by simp [hnoop])
  exact h.destroy (a := .body c) hs hs' (by simp) hrest hlive hcaller hpoint hne hcall

/-- It reaches its end and resumes the task that waits for it. -/
theorem finish_frame {p : Nat} (h : r.Calls) (hs : r.stack = .body c :: rest)
    (hs' : r'.stack = .body p :: .finishing c :: rest) (hlive : ∀ d, r'.Live d ↔ r.Live d)
    (hcaller : ∀ d, (r'.frames d).caller = (r.frames d).caller)
    (hpoint : ∀ d, d ≠ p → (r'.frames d).point = (r.frames d).point)
    (hframe : (r.frames c).caller = .frame p) (hrun : (r'.frames p).point = .running) : r'.Calls := by
  obtain ⟨hc, hcrun⟩ := h.body_running hs
  obtain ⟨hp, hpc, hpne⟩ := h.body_caller hs hframe
  have hpcaller : (r.frames p).caller ≠ .null := h.caller_of_child hp hpc (by simp [hs])
  have hne : (r.frames c).caller ≠ .null := by simp [hframe]
  have hnest := h.nested_top hs
  have hrest := hnest.1.of_ne_null hne
  have hpout : p ∉ (Activation.body c :: rest).map Activation.frame := by
    intro hm
    have hprun := ((h.running p).mp (by rw [hs]; exact hm)).2
    rw [hpc] at hprun
    cases hprun
  have hlinked : r'.Linked := by
    intro q d
    -- `p` stops waiting for `c` as `c` comes to its end, and they wait for nobody else
    have hcalling : r'.Calling q d ↔ r.Calling q d ∧ d ≠ c := by
      rcases eq_or_ne d c with rfl | hdc
      · refine iff_of_false (fun hd => hd.2.2 ?_) fun hd => hd.2 rfl
        rw [hs']
        exact List.mem_cons_of_mem _ List.mem_cons_self
      · rw [and_iff_left hdc]
        refine calling_congr (hlive d) (hcaller d) ?_ q
        rw [hs, hs', mem_under (by simp), mem_under (by simpa using hdc.symm)]
        exact (mem_under (by simp)).symm
    have hawaiting : r'.Awaiting q d ↔ r.Awaiting q d ∧ q ≠ p := by
      rcases eq_or_ne q p with rfl | hqp
      · exact iff_of_false (not_awaiting (by simp [hrun]) d) fun hr => hr.2 rfl
      · rw [awaiting_congr (hlive q) (hpoint q hqp), and_iff_left hqp]
    rw [hcalling, hawaiting, h.linked q d]
    refine and_congr_right fun hqd => not_congr ⟨?_, ?_⟩
    · rintro rfl
      have hq := ((h.linked q d).mpr hqd).2.1
      rw [hframe] at hq
      cases hq
      rfl
    · rintro rfl
      have hd := hqd.2
      rw [hpc] at hd
      cases hd
      rfl
  constructor
  case nodup =>
    have hn := h.nodup
    rw [hs] at hn
    rw [hs']
    exact List.nodup_cons.mpr ⟨hpout, hn⟩
  case running =>
    refine h.running_except ?_ (fun d _ => hlive d) hpoint ?_
    · intro d hd
      rw [hs, hs']
      exact mem_top_of_ne hd
    · rw [hs']
      exact iff_of_true List.mem_cons_self ⟨(hlive p).mpr hp, hrun⟩
  case nested =>
    rw [hs']
    refine ⟨⟨by rw [hcaller]; exact hpcaller, ?_⟩, by rw [hcaller]; exact hne, hrest,
      hnest.tail.of_caller fun d _ => hcaller d⟩
    exact List.forall_mem_cons.mpr ⟨⟨c, rfl⟩, hrest⟩
  case caller => exact hlinked.caller
  case child => exact hlinked.child
  case final =>
    intro d hd hend
    have heq := h.final_except (by simp [hs]) (fun d _ => hlive d) hpoint hd hend
    subst heq
    rw [hrun] at hend
    cases hend
  case null =>
    intro d hd hnull
    rw [hlive] at hd
    rw [hcaller] at hnull
    obtain ⟨q, hq⟩ := h.null_rest hs (by simp) hd hnull
    rw [hs']
    exact ⟨q, List.mem_cons_of_mem _ (List.mem_cons_of_mem _ hq)⟩
  case transform =>
    intro q d hm
    rw [hs', mem_under (by simp), mem_under (by simp)] at hm
    rw [hlive, hcaller]
    exact h.transform_rest hs hm
  case top =>
    intro q d rest' hrest'
    rw [hs'] at hrest'
    cases hrest'

end

/-! ## Returns from `resume()` -/

section

variable {p c : Nat} {rest : List Activation}

/-- The task called by `await_transform` is at its end and is destroyed. -/
theorem back_final (h : r.Calls) (hs : r.stack = .transform p c :: rest)
    (hs' : r'.stack = .body p :: rest) (hlive : ∀ d, r'.Live d ↔ r.Live d ∧ d ≠ c)
    (hcaller : ∀ d, (r'.frames d).caller = (r.frames d).caller)
    (hpoint : ∀ d, (r'.frames d).point = (r.frames d).point)
    (hfinal : (r.frames c).point = .final) : r'.Calls := by
  obtain ⟨hc, hnull⟩ := h.transform p c (by rw [hs]; exact List.mem_cons_self)
  have hnest := h.nested_top hs
  have hother : ∀ d, d ≠ c → (r'.Live d ↔ r.Live d) := by
    intro d hne
    rw [hlive, and_iff_left hne]
  have hgone : ¬ r'.Live c := fun hc' => ((hlive c).mp hc').2 rfl
  have hout : c ∉ (Activation.transform p c :: rest).map Activation.frame := by
    intro hm
    have hrun := ((h.running c).mp (by rw [hs]; exact hm)).2
    rw [hfinal] at hrun
    cases hrun
  have hlinked : r'.Linked := by
    refine h.linked.of_congr ?_ ?_
    · refine calling_except hother (fun d _ => hcaller d) ?_ (not_calling (by simp [hnull]))
        (not_calling (by simp [hcaller, hnull]))
      intro d _
      rw [hs, hs', mem_under (a := .body p) (by simp)]
      exact (mem_under (by simp)).symm
    · exact awaiting_except hother (fun q _ => hpoint q) (not_awaiting (by simp [hfinal]))
        (not_awaiting (by simp [hpoint, hfinal]))
  constructor
  case nodup =>
    have hn := h.nodup
    rw [hs] at hn
    rw [hs']
    exact hn
  case running =>
    refine h.running_except ?_ hother (fun d _ => hpoint d) ?_
    · intro d _
      rw [hs, hs']
      rfl
    · rw [hs']
      exact iff_of_false hout fun hr => hgone hr.1
  case nested =>
    rw [hs']
    exact ⟨hnest.1.of_caller (hcaller p), hnest.tail.of_caller fun d _ => hcaller d⟩
  case caller => exact hlinked.caller
  case child => exact hlinked.child
  case final =>
    intro d hd hend
    rw [hlive] at hd
    rw [hpoint] at hend
    obtain ⟨q, rest', hst⟩ := h.final d hd.1 hend
    rw [hs] at hst
    cases hst
    exact absurd rfl hd.2
  case null =>
    intro d hd hnull'
    rw [hlive] at hd
    rw [hcaller] at hnull'
    have ha : ∀ q, Activation.transform p c ≠ .transform q d := by
      rintro q ⟨⟩
      exact hd.2 rfl
    obtain ⟨q, hq⟩ := h.null_rest hs ha hd.1 hnull'
    rw [hs']
    exact ⟨q, List.mem_cons_of_mem _ hq⟩
  case transform =>
    intro q d hm
    rw [hs', mem_under (by simp)] at hm
    obtain ⟨hd, hnull'⟩ := h.transform_rest hs hm
    rw [hlive, hcaller]
    refine ⟨⟨hd, ?_⟩, hnull'⟩
    rintro rfl
    exact hout (hnest.called hm)
  case top =>
    intro q d rest' hrest'
    rw [hs'] at hrest'
    cases hrest'

/-- The task called by `await_transform` has suspended: so does the one that awaits it. -/
theorem back_suspended (h : r.Calls) (hs : r.stack = .transform p c :: rest) (hs' : r'.stack = rest)
    (hlive : ∀ d, r'.Live d ↔ r.Live d)
    (hcaller : ∀ d, d ≠ c → (r'.frames d).caller = (r.frames d).caller)
    (hpoint : ∀ d, d ≠ p → (r'.frames d).point = (r.frames d).point)
    (hframe : (r'.frames c).caller = .frame p) (hchild : (r'.frames p).point = .child c)
    (hfinal : (r.frames c).point ≠ .final) : r'.Calls := by
  obtain ⟨hc, hnull⟩ := h.transform p c (by rw [hs]; exact List.mem_cons_self)
  obtain ⟨hp, hprun⟩ := (h.running p).mp (by rw [hs]; exact List.mem_cons_self)
  have hcrun := h.top p c rest hs
  have hnest := h.nested_top hs
  have hout : c ∉ (Activation.transform p c :: rest).map Activation.frame := by
    intro hm
    exact hcrun ((h.running c).mp (by rw [hs]; exact hm)).2
  have hrestout : c ∉ rest.map Activation.frame := fun hm => hout (List.mem_cons_of_mem _ hm)
  have hlinked : r'.Linked := by
    intro q d
    -- neither was linked before, and now they are linked with each other
    rcases eq_or_ne d c with rfl | hdc
    · rcases eq_or_ne q p with rfl | hqp
      · refine iff_of_true ⟨(hlive d).mpr hc, hframe, ?_⟩ ⟨(hlive q).mpr hp, hchild⟩
        rw [hs']
        exact fun hm => hrestout (mem_frames hm)
      · rw [awaiting_congr (hlive q) (hpoint q hqp), ← h.linked q d]
        refine iff_of_false (fun hqd => hqp ?_) (not_calling (by simp [hnull]) q)
        have hcl := hqd.2.1
        rw [hframe] at hcl
        cases hcl
        rfl
    · have hcalling : r'.Calling q d ↔ r.Calling q d := by
        refine calling_congr (hlive d) (hcaller d hdc) ?_ q
        rw [hs, hs']
        exact (mem_under (by simp)).symm
      rw [hcalling, h.linked q d]
      rcases eq_or_ne q p with rfl | hqp
      · refine iff_of_false (not_awaiting (by simp [hprun]) d) fun hqd => ?_
        have hd := hqd.2
        rw [hchild] at hd
        cases hd
        exact hdc rfl
      · exact (awaiting_congr (hlive q) (hpoint q hqp) d).symm
  constructor
  case nodup =>
    rw [hs']
    exact h.nodup_rest hs
  case running =>
    refine h.running_except ?_ (fun d _ => hlive d) hpoint ?_
    · intro d hne
      rw [hs, hs']
      exact (mem_top_of_ne hne).symm
    · rw [hs']
      exact iff_of_false (h.not_mem_rest hs) (by simp [hchild])
  case nested =>
    rw [hs']
    exact hnest.tail.of_caller fun d hd => hcaller d (by rintro rfl; exact hrestout hd)
  case caller => exact hlinked.caller
  case child => exact hlinked.child
  case final =>
    intro d hd hend
    rcases eq_or_ne d p with rfl | hdp
    · rw [hchild] at hend
      cases hend
    · rw [hlive] at hd
      rw [hpoint d hdp] at hend
      obtain ⟨q, rest', hst⟩ := h.final d hd hend
      rw [hs] at hst
      cases hst
      exact absurd hend hfinal
  case null =>
    intro d hd hnull'
    have hdc : d ≠ c := by
      rintro rfl
      rw [hframe] at hnull'
      cases hnull'
    rw [hlive] at hd
    rw [hcaller d hdc] at hnull'
    have ha : ∀ q, Activation.transform p c ≠ .transform q d := by
      rintro q ⟨⟩
      exact hdc rfl
    rw [hs']
    exact h.null_rest hs ha hd hnull'
  case transform =>
    intro q d hm
    rw [hs'] at hm
    obtain ⟨hd, hnull'⟩ := h.transform_rest hs hm
    have hdc : d ≠ c := by
      rintro rfl
      exact hout (hnest.called hm)
    rw [hlive, hcaller d hdc]
    exact ⟨hd, hnull'⟩
  case top =>
    intro q d rest' hrest
    rw [← hs', hrest] at hnest
    rw [hnest.1.head, hchild]
    simp

/-- The task that was awaited has resumed the other one and is gone. -/
theorem back_finishing (h : r.Calls) (hs : r.stack = .finishing c :: rest) (hs' : r'.stack = rest)
    (hlive : ∀ d, r'.Live d ↔ r.Live d ∧ d ≠ c)
    (hcaller : ∀ d, (r'.frames d).caller = (r.frames d).caller)
    (hpoint : ∀ d, (r'.frames d).point = (r.frames d).point) : r'.Calls := by
  obtain ⟨hne, hrest, -⟩ := h.nested_top hs
  have hcall : ∀ p, ¬ r.Calling p c := by
    intro p hp
    exact hp.2.2 (by rw [hs]; exact List.mem_cons_self)
  exact h.destroy (a := .finishing c) hs hs' (by simp) hrest hlive hcaller hpoint hne hcall

end

/-! ## Tasks that start or go on -/

section

variable {c : Nat}

/-- A suspended task goes on when nobody runs. -/
theorem start (h : r.Calls) (hs : r.stack = []) (hs' : r'.stack = [.body c])
    (hlive : ∀ d, r'.Live d ↔ r.Live d) (hcaller : ∀ d, (r'.frames d).caller = (r.frames d).caller)
    (hpoint : ∀ d, d ≠ c → (r'.frames d).point = (r.frames d).point) (hc : r.Live c)
    (hrun : (r'.frames c).point = .running) (hchild : ∀ d, (r.frames c).point ≠ .child d) :
    r'.Calls := by
  have hlinked : r'.Linked := by
    refine h.linked.of_congr ?_ ?_
    · intro p d
      refine calling_congr (hlive d) (hcaller d) ?_ p
      rw [hs, hs']
      exact mem_under (by simp)
    · exact awaiting_except (fun p _ => hlive p) hpoint (not_awaiting hchild) (not_awaiting (by simp [hrun]))
  constructor
  case nodup =>
    rw [hs']
    exact List.nodup_singleton _
  case running =>
    refine h.running_except ?_ (fun d _ => hlive d) hpoint ?_
    · intro d hne
      rw [hs, hs']
      exact mem_top_of_ne hne
    · rw [hs']
      exact iff_of_true List.mem_cons_self ⟨(hlive c).mpr hc, hrun⟩
  case nested =>
    rw [hs']
    refine ⟨⟨?_, by simp⟩, trivial⟩
    rw [hcaller]
    intro hnull
    obtain ⟨p, hp⟩ := h.null c hc hnull
    rw [hs] at hp
    cases hp
  case caller => exact hlinked.caller
  case child => exact hlinked.child
  case final =>
    intro d hd hend
    have heq := h.final_except (by simp [hs]) (fun d _ => hlive d) hpoint hd hend
    subst heq
    rw [hrun] at hend
    cases hend
  case null =>
    intro d hd hnull
    rw [hlive] at hd
    rw [hcaller] at hnull
    obtain ⟨p, hp⟩ := h.null d hd hnull
    rw [hs] at hp
    cases hp
  case transform =>
    intro p d hm
    rw [hs', mem_under (by simp)] at hm
    cases hm
  case top =>
    intro p d rest' hrest'
    rw [hs'] at hrest'
    cases hrest'

/-- A new top-level task. -/
theorem spawn (h : r.Calls) (hs' : r'.stack = r.stack) (hnew : ¬ r.Live c)
    (hlive : ∀ d, r'.Live d ↔ r.Live d ∨ d = c)
    (hcaller : ∀ d, d ≠ c → (r'.frames d).caller = (r.frames d).caller)
    (hpoint : ∀ d, d ≠ c → (r'.frames d).point = (r.frames d).point)
    (hnoop : (r'.frames c).caller = .noop) (hinit : (r'.frames c).point = .initial) : r'.Calls := by
  have hout : c ∉ r.stack.map Activation.frame := fun hm => hnew ((h.running c).mp hm).1
  have hother : ∀ d, d ≠ c → (r'.Live d ↔ r.Live d) := by
    intro d hne
    rw [hlive, or_iff_left hne]
  have hlinked : r'.Linked := by
    refine h.linked.of_congr ?_ ?_
    · exact calling_except hother hcaller (by simp [hs']) (fun p hp => hnew hp.1) (not_calling (by simp [hnoop]))
    · exact awaiting_except hother hpoint (fun d hd => hnew hd.1) (not_awaiting (by simp [hinit]))
  constructor
  case nodup =>
    rw [hs']
    exact h.nodup
  case running =>
    refine h.running_except (by simp [hs']) hother hpoint ?_
    rw [hs']
    exact iff_of_false hout (by simp [hinit])
  case nested =>
    rw [hs']
    exact h.nested.of_caller fun d hd => hcaller d (by rintro rfl; exact hout hd)
  case caller => exact hlinked.caller
  case child => exact hlinked.child
  case final =>
    intro d hd hend
    have hne : d ≠ c := by
      rintro rfl
      rw [hinit] at hend
      cases hend
    rw [hs']
    exact h.final d ((hother d hne).mp hd) ((hpoint d hne).symm.trans hend)
  case null =>
    intro d hd hnull
    have hne : d ≠ c := by
      rintro rfl
      rw [hnoop] at hnull
      cases hnull
    rw [hs']
    exact h.null d ((hother d hne).mp hd) ((hcaller d hne).symm.trans hnull)
  case transform =>
    intro p d hm
    rw [hs'] at hm
    obtain ⟨hd, hnull⟩ := h.transform p d hm
    have hne : d ≠ c := by
      rintro rfl
      exact hnew hd
    exact ⟨(hother d hne).mpr hd, (hcaller d hne).trans hnull⟩
  case top =>
    intro p d rest hst
    rw [hs'] at hst
    have hd := (h.transform p d (by rw [hst]; exact List.mem_cons_self)).1
    have hne : d ≠ c := by
      rintro rfl
      exact hnew hd
    rw [hpoint d hne]
    exact h.top p d rest hst

/-- The body on top awaits a new task, whose body starts. -/
theorem call {p : Nat} {rest : List Activation} (h : r.Calls) (hs : r.stack = .body p :: rest)
    (hs' : r'.stack = .body c :: .transform p c :: rest) (hnew : ¬ r.Live c)
    (hlive : ∀ d, r'.Live d ↔ r.Live d ∨ d = c)
    (hcaller : ∀ d, d ≠ c → (r'.frames d).caller = (r.frames d).caller)
    (hpoint : ∀ d, d ≠ c → (r'.frames d).point = (r.frames d).point)
    (hnull : (r'.frames c).caller = .null) (hrun : (r'.frames c).point = .running) : r'.Calls := by
  obtain ⟨hp, hprun⟩ := h.body_running hs
  have hout : c ∉ (Activation.body p :: rest).map Activation.frame := by
    rw [← hs]
    exact fun hm => hnew ((h.running c).mp hm).1
  have hne : p ≠ c := by
    rintro rfl
    exact hnew hp
  have hnest := h.nested_top hs
  have hother : ∀ d, d ≠ c → (r'.Live d ↔ r.Live d) := by
    intro d hd
    rw [hlive, or_iff_left hd]
  have hlinked : r'.Linked := by
    refine h.linked.of_congr ?_ ?_
    · refine calling_except hother hcaller ?_ (fun q hq => hnew hq.1) (not_calling (by simp [hnull]))
      intro d _
      rw [hs, hs', mem_under (by simp), mem_under (by simp)]
      exact (mem_under (by simp)).symm
    · exact awaiting_except hother hpoint (fun d hd => hnew hd.1) (not_awaiting (by simp [hrun]))
  constructor
  case nodup =>
    have hn := h.nodup
    rw [hs] at hn
    rw [hs']
    exact List.nodup_cons.mpr ⟨hout, hn⟩
  case running =>
    refine h.running_except ?_ hother hpoint ?_
    · intro d hd
      rw [hs, hs']
      exact mem_top_of_ne hd
    · rw [hs']
      exact iff_of_true List.mem_cons_self ⟨(hlive c).mpr (.inr rfl), hrun⟩
  case nested =>
    rw [hs']
    refine ⟨⟨rfl, hnull⟩, hnest.1.of_caller (hcaller p hne), hnest.tail.of_caller fun d hd => ?_⟩
    refine hcaller d ?_
    rintro rfl
    exact hout (List.mem_cons_of_mem _ hd)
  case caller => exact hlinked.caller
  case child => exact hlinked.child
  case final =>
    intro d hd hend
    have heq := h.final_except (by simp [hs]) hother hpoint hd hend
    subst heq
    rw [hrun] at hend
    cases hend
  case null =>
    intro d hd hnull'
    rw [hs']
    rcases eq_or_ne d c with rfl | hdc
    · exact ⟨p, List.mem_cons_of_mem _ List.mem_cons_self⟩
    · rw [hother d hdc] at hd
      rw [hcaller d hdc] at hnull'
      obtain ⟨q, hq⟩ := h.null_rest hs (by simp) hd hnull'
      exact ⟨q, List.mem_cons_of_mem _ (List.mem_cons_of_mem _ hq)⟩
  case transform =>
    intro q d hm
    rw [hs', mem_under (by simp)] at hm
    rcases List.mem_cons.mp hm with heq | hm'
    · cases heq
      exact ⟨(hlive c).mpr (.inr rfl), hnull⟩
    · obtain ⟨hd, hnull'⟩ := h.transform_rest hs hm'
      have hdc : d ≠ c := by
        rintro rfl
        exact hnew hd
      exact ⟨(hother d hdc).mpr hd, (hcaller d hdc).trans hnull'⟩
  case top =>
    intro q d rest' hrest'
    rw [hs'] at hrest'
    cases hrest'

end

end Calls

end

end Sqkio.Runtime
