import Sqkio.Core.Inv

/-!
# Promises and destroyed frames

`Promises` says what the promises hold, whom the running body refers to, and who destroys
which frame: `await_resume` exactly the tasks that end without having suspended,
`final_suspend` all others.

`Kept` is what it says of one frame.  An act changes one frame or two (`change`), so each act
comes down to one rule of `Kept` for each of them.
-/

namespace Sqkio.Runtime

open Sqkio.Lib

variable {X V E : Type}

structure Promises (r : Runtime X V E) : Prop where
  /-- At its end a task has stored what its body ended with. -/
  ended : ∀ c, r.Live c → (r.frames c).point = .final ∨ .finishing c ∈ r.stack →
    (r.frames c).returned = some (r.frames c).result
  /-- A task that has not reached its end has stored nothing. -/
  unended : ∀ c, r.Live c → (r.frames c).point ≠ .final → .finishing c ∉ r.stack →
    (r.frames c).returned = none
  /-- The task referred to returned a value; its frame is gone if it never suspended, and else
  it waits under the running body, which it has resumed. -/
  reference : ∀ p c rest, r.stack = .body p :: rest → (r.frames p).received = .reference c →
    (∃ v, (r.frames c).returned = some (.ok v) ∧ (r.frames c).result = .ok v) ∧
      (((r.frames c).caller = .null ∧ c < r.allocated ∧ ¬ r.Live c) ∨
        ((∃ q, (r.frames c).caller = .frame q) ∧ (r.frames p).caller ≠ .null ∧ .finishing c ∈ rest))
  /-- A coroutine that stands at a suspension point has suspended. -/
  suspended : ∀ c, r.Live c → (r.frames c).suspensions = 0 →
    (r.frames c).point = .initial ∨ (r.frames c).point = .running ∨ (r.frames c).point = .final
  /-- `task.resume()` in `await_transform` has started the task. -/
  called : ∀ p c rest, r.stack = .transform p c :: rest → (r.frames c).point ≠ .initial
  /-- A task is given a caller after it has suspended. -/
  caller : ∀ c p, c < r.allocated → (r.frames c).caller = .frame p → (r.frames c).suspensions ≠ 0
  /-- A running task without a caller has not suspended. -/
  sync : ∀ c, c < r.allocated → (r.frames c).caller = .null →
    (r.frames c).point = .running ∨ (r.frames c).point = .final → (r.frames c).suspensions = 0
  gone : ∀ c, c < r.allocated → (r.frames c).destroyed ≠ [] → (r.frames c).returned ≠ none
  destroyed : ∀ c, c < r.allocated → (r.frames c).destroyed = [] ∨
    ((r.frames c).destroyed = [.awaitResume] ∧ (r.frames c).caller = .null ∧
      (r.frames c).point = .final) ∨
    ((r.frames c).destroyed = [.pastFinal] ∧ (r.frames c).caller ≠ .null)

variable {r : Runtime X V E} {c p : Nat} {rest : List Activation} {o : Except E V}

theorem live_def : r.Live c ↔ c < r.allocated ∧ (r.frames c).destroyed = [] := Iff.rfl

/-! ## One frame -/

/-- What `Promises` says of one frame; `ending` stands for the task being in `final_suspend`. -/
structure Kept (f : Frame X V E) (ending : Prop) : Prop where
  ended : f.destroyed = [] → f.point = .final ∨ ending → f.returned = some f.result
  unended : f.destroyed = [] → f.point ≠ .final → ¬ ending → f.returned = none
  suspended : f.destroyed = [] → f.suspensions = 0 →
    f.point = .initial ∨ f.point = .running ∨ f.point = .final
  caller : ∀ p, f.caller = .frame p → f.suspensions ≠ 0
  sync : f.caller = .null → f.point = .running ∨ f.point = .final → f.suspensions = 0
  gone : f.destroyed ≠ [] → f.returned ≠ none
  destroyed : f.destroyed = [] ∨
    (f.destroyed = [.awaitResume] ∧ f.caller = .null ∧ f.point = .final) ∨
    (f.destroyed = [.pastFinal] ∧ f.caller ≠ .null)

namespace Kept

variable {f : Frame X V E} {ending ending' : Prop}

/-- A new frame. -/
theorem new (hret : f.returned = none) (hdes : f.destroyed = []) (hsus : f.suspensions = 0)
    (hcaller : ∀ p, f.caller ≠ .frame p) (hpt : f.point = .initial ∨ f.point = .running)
    (hout : ¬ ending) : Kept f ending where
  ended _ hend := by
    rcases hend with hfinal | hend
    · rcases hpt with hpt | hpt <;> rw [hpt] at hfinal <;> cases hfinal
    · exact absurd hend hout
  unended _ _ _ := hret
  suspended _ _ := hpt.imp_right .inl
  caller p hp := absurd hp (hcaller p)
  sync _ _ := hsus
  gone hd := absurd hdes hd
  destroyed := .inl hdes

theorem receive {received : Received V E} (h : Kept f ending) : Kept { f with received } ending :=
  ⟨h.ended, h.unended, h.suspended, h.caller, h.sync, h.gone, h.destroyed⟩

theorem congr (h : Kept f ending) (hout : ending' ↔ ending) : Kept f ending' := by
  rw [hout]
  exact h

/-- A running task suspends. -/
theorem suspend {p : Point X} (h : Kept f ending) (hdes : f.destroyed = []) (hrun : f.point = .running)
    (hout : ¬ ending) (hp : p ≠ .running) (hp' : p ≠ .final) :
    Kept { f with point := p, suspensions := f.suspensions + 1 } ending where
  ended _ hend := absurd hend (not_or.mpr ⟨hp', hout⟩)
  unended _ _ _ := h.unended hdes (by rw [hrun]; nofun) hout
  suspended _ hsus := absurd hsus (Nat.succ_ne_zero _)
  caller _ _ := Nat.succ_ne_zero _
  sync _ hpt := absurd hpt (not_or.mpr ⟨hp, hp'⟩)
  gone hd := absurd hdes hd
  destroyed := .inl hdes

/-- A suspended task that has a caller goes on. -/
theorem goOn {received : Received V E} (h : Kept f ending) (hdes : f.destroyed = [])
    (hcaller : f.caller ≠ .null) (hpt : f.point ≠ .final) :
    Kept ({ f with point := .running, received } : Frame X V E) ending where
  ended _ hend := h.ended hdes (hend.imp_left (by nofun))
  unended _ _ := h.unended hdes hpt
  suspended _ _ := .inr (.inl rfl)
  caller := h.caller
  sync hnull _ := absurd hnull hcaller
  gone := h.gone
  destroyed := .inl hdes

/-- The body ends, and the task was called by `await_transform`. -/
theorem leave_null (h : Kept f ending) (hdes : f.destroyed = []) (hrun : f.point = .running)
    (hnull : f.caller = .null) :
    Kept ({ f with result := o, returned := some o, point := .final } : Frame X V E) ending where
  ended _ _ := rfl
  unended _ hpt _ := absurd rfl hpt
  suspended _ _ := .inr (.inr rfl)
  caller := h.caller
  sync _ _ := h.sync hnull (.inl hrun)
  gone _ := nofun
  destroyed := .inl hdes

/-- The body ends, and no task awaits it. -/
theorem leave_noop (h : Kept f ending) (hnoop : f.caller = .noop) :
    Kept { f with result := o, returned := some o, destroyed := [.pastFinal] } ending where
  ended hd _ := by cases hd
  unended hd _ _ := by cases hd
  suspended hd _ := by cases hd
  caller := h.caller
  sync hnull _ := by
    have hnull : f.caller = .null := hnull
    rw [hnoop] at hnull
    cases hnull
  gone _ := nofun
  destroyed := .inr (.inr ⟨rfl, by show f.caller ≠ .null; rw [hnoop]; nofun⟩)

/-- The body ends, and a task awaits it. -/
theorem leave_frame (h : Kept f ending) (hdes : f.destroyed = []) (hend : ending') :
    Kept { f with result := o, returned := some o } ending' where
  ended _ _ := rfl
  unended _ _ hout := absurd hend hout
  suspended := h.suspended
  caller := h.caller
  sync := h.sync
  gone _ := nofun
  destroyed := .inl hdes

/-- `await_resume` destroys the frame. -/
theorem awaitResume (h : Kept f ending) (hdes : f.destroyed = []) (hnull : f.caller = .null)
    (hfinal : f.point = .final) : Kept { f with destroyed := [.awaitResume] } ending where
  ended hd _ := by cases hd
  unended hd _ _ := by cases hd
  suspended hd _ := by cases hd
  caller := h.caller
  sync := h.sync
  gone _ := by
    show f.returned ≠ none
    rw [h.ended hdes (.inl hfinal)]
    nofun
  destroyed := .inr (.inl ⟨rfl, hnull, hfinal⟩)

/-- The task runs past `final_suspend`. -/
theorem pastFinal (h : Kept f ending) (hdes : f.destroyed = []) (hend : ending)
    (hcaller : f.caller ≠ .null) : Kept { f with destroyed := [.pastFinal] } ending' where
  ended hd _ := by cases hd
  unended hd _ _ := by cases hd
  suspended hd _ := by cases hd
  caller := h.caller
  sync := h.sync
  gone _ := by
    show f.returned ≠ none
    rw [h.ended hdes (.inr hend)]
    nofun
  destroyed := .inr (.inr ⟨rfl, hcaller⟩)

/-- A task that suspended in its first `resume()` is given its caller. -/
theorem called (h : Kept f ending) (hdes : f.destroyed = []) (hinit : f.point ≠ .initial)
    (hrun : f.point ≠ .running) (hfinal : f.point ≠ .final) :
    Kept { f with caller := .frame p } ending where
  ended := h.ended
  unended := h.unended
  suspended := h.suspended
  caller _ _ := fun hsus => by
    rcases h.suspended hdes hsus with hpt | hpt | hpt
    · exact hinit hpt
    · exact hrun hpt
    · exact hfinal hpt
  sync hnull := by cases hnull
  gone := h.gone
  destroyed := .inl hdes

end Kept

namespace Promises

variable {r' : Runtime X V E}

theorem kept (h : r.Promises) (hc : c < r.allocated) : Kept (r.frames c) (.finishing c ∈ r.stack) where
  ended hd := h.ended c ⟨hc, hd⟩
  unended hd := h.unended c ⟨hc, hd⟩
  suspended hd := h.suspended c ⟨hc, hd⟩
  caller p := h.caller c p hc
  sync := h.sync c hc
  gone := h.gone c hc
  destroyed := h.destroyed c hc

/-- The task referred to has been made. -/
theorem referred_lt (h : r.Promises) (hi : r.Inv) (hs : r.stack = .body p :: rest)
    (hr : (r.frames p).received = .reference c) : c < r.allocated := by
  rcases (h.reference p c rest hs hr).2 with ⟨-, hlt, -⟩ | ⟨-, -, hfin⟩
  · exact hlt
  · exact ((hi.calls.running c).mp (by rw [hs]; exact List.mem_cons_of_mem _ (mem_frames hfin))).1.1

/-- At most the frames `a` and `b` change, and what the running body refers to. -/
theorem change (h : r.Promises) (a b : Nat)
    (hold : ∀ d, d ≠ a → d ≠ b → d < r'.allocated → d < r.allocated)
    (hf : ∀ d, d ≠ a → d ≠ b → r'.frames d = r.frames d)
    (hfin : ∀ d, d ≠ a → d ≠ b → (.finishing d ∈ r'.stack ↔ .finishing d ∈ r.stack))
    (ha : Kept (r'.frames a) (.finishing a ∈ r'.stack))
    (hb : Kept (r'.frames b) (.finishing b ∈ r'.stack))
    (href : ∀ p c rest, r'.stack = .body p :: rest → (r'.frames p).received = .reference c →
      (∃ v, (r'.frames c).returned = some (.ok v) ∧ (r'.frames c).result = .ok v) ∧
        (((r'.frames c).caller = .null ∧ c < r'.allocated ∧ ¬ r'.Live c) ∨
          ((∃ q, (r'.frames c).caller = .frame q) ∧ (r'.frames p).caller ≠ .null ∧ .finishing c ∈ rest)))
    (hcalled : ∀ p c rest, r'.stack = .transform p c :: rest → (r'.frames c).point ≠ .initial) :
    r'.Promises := by
  have hkept : ∀ d, d < r'.allocated → Kept (r'.frames d) (.finishing d ∈ r'.stack) := by
    intro d hd
    by_cases hda : d = a
    · exact hda ▸ ha
    · by_cases hdb : d = b
      · exact hdb ▸ hb
      · rw [hf d hda hdb]
        exact (h.kept (hold d hda hdb hd)).congr (hfin d hda hdb)
  constructor
  case ended => exact fun d hd => (hkept d hd.1).ended hd.2
  case unended => exact fun d hd => (hkept d hd.1).unended hd.2
  case reference => exact href
  case suspended => exact fun d hd => (hkept d hd.1).suspended hd.2
  case called => exact hcalled
  case caller => exact fun d p hd => (hkept d hd).caller p
  case sync => exact fun d hd => (hkept d hd).sync
  case gone => exact fun d hd => (hkept d hd).gone
  case destroyed => exact fun d hd => (hkept d hd).destroyed

/-- The innermost activation ends; besides its task at most `c` changes. -/
theorem stop {a : Activation} (h : r.Promises) (hi : r.Inv) (c : Nat) (hs : r.stack = a :: rest)
    (hs' : r'.stack = rest) (halloc : r'.allocated = r.allocated)
    (hf : ∀ d, d ≠ c → d ≠ a.frame → r'.frames d = r.frames d)
    (hc : Kept (r'.frames c) (.finishing c ∈ rest))
    (ha : Kept (r'.frames a.frame) (.finishing a.frame ∈ rest))
    (hinit : (r'.frames a.frame).point ≠ .initial) : r'.Promises := by
  have hnest := hi.calls.nested
  rw [hs] at hnest
  refine h.change c a.frame (fun d _ _ hd => halloc ▸ hd) hf (fun d _ hd => ?_) (hs' ▸ hc) (hs' ▸ ha)
    (fun p d rest' hst => ?_) fun p d rest' hst => ?_
  · rw [hs', hs, List.mem_cons]
    refine (or_iff_right ?_).symm
    rintro rfl
    exact hd rfl
  · rw [hs'] at hst
    rw [hst] at hnest
    exact absurd hnest Nested.not_body
  · rw [hs'] at hst
    rw [hst] at hnest
    cases a with
    | body e =>
      obtain rfl := hnest.1.head
      exact hinit
    | transform e e' =>
      obtain rfl := hnest.1.head
      exact hinit
    | finishing e =>
      obtain ⟨e', he⟩ := hnest.2.1 _ List.mem_cons_self
      cases he

theorem suspend (h : r.Promises) (hi : r.Inv) (hs : r.stack = .body c :: rest) {p : Point X}
    (hp : p.Parked) (hne : p ≠ .initial) (hs' : r'.stack = rest)
    (halloc : r'.allocated = r.allocated)
    (hf : ∀ d, r'.frames d = if d = c then
      { r.frames c with point := p, suspensions := (r.frames c).suspensions + 1 } else r.frames d) :
    r'.Promises := by
  obtain ⟨hc, hrun⟩ := hi.calls.body_running hs
  have hout : .finishing c ∉ r.stack := hi.calls.not_finishing hs
  have hself : Kept (r'.frames c) (.finishing c ∈ rest) := by
    rw [hf, if_pos rfl]
    refine ((h.kept hc.1).suspend hc.2 hrun hout ?_ ?_).congr (by simp [hs])
    · rintro rfl
      exact hp
    · rintro rfl
      exact hp
  refine h.stop hi c hs hs' halloc (fun d hd _ => ?_) hself hself ?_
  · rw [hf, if_neg hd]
  · show (r'.frames c).point ≠ .initial
    rw [hf, if_pos rfl]
    exact hne

/-- The running body gets something else than a reference. -/
theorem receive (h : r.Promises) {received : Received V E} (hs' : r'.stack = r.stack)
    (hrec : ∀ d, received ≠ .reference d) (hs : r.stack = .body c :: rest) (hc : c < r.allocated)
    (halloc : r'.allocated = r.allocated)
    (hf : ∀ d, r'.frames d = if d = c then { r.frames c with received } else r.frames d) :
    r'.Promises := by
  have hself : Kept (r'.frames c) (.finishing c ∈ r'.stack) := by
    rw [hf, if_pos rfl, hs']
    exact (h.kept hc).receive
  refine h.change c c (fun d _ _ hd => halloc ▸ hd) (fun d hd _ => by rw [hf, if_neg hd])
    (fun d _ _ => by rw [hs']) hself hself (fun p d rest' hst hr => ?_) fun p d rest' hst => ?_
  · rw [hs', hs] at hst
    cases hst
    rw [hf, if_pos rfl] at hr
    exact absurd hr (hrec d)
  · rw [hs', hs] at hst
    cases hst

theorem congr (h : r.Promises) (hs' : r'.stack = r.stack) (halloc : r'.allocated = r.allocated)
    (hf : r'.frames = r.frames) : r'.Promises := by
  obtain ⟨hen, hun, href, hsu, hca, hcl, hsy, hgo, hde⟩ := h
  simp only [live_def] at *
  constructor <;> simp only [live_def, hs', halloc, hf] <;> assumption

/-! ## Ends of bodies -/

theorem leave_null (h : r.Promises) (hi : r.Inv) (hs : r.stack = .body c :: rest)
    (hnull : (r.frames c).caller = .null) (hs' : r'.stack = rest) (halloc : r'.allocated = r.allocated)
    (hf : ∀ d, r'.frames d = if d = c then
      { r.frames c with result := o, returned := some o, point := .final } else r.frames d) :
    r'.Promises := by
  obtain ⟨hc, hrun⟩ := hi.calls.body_running hs
  have hself : Kept (r'.frames c) (.finishing c ∈ rest) := by
    rw [hf, if_pos rfl]
    exact ((h.kept hc.1).leave_null hc.2 hrun hnull).congr (by simp [hs])
  refine h.stop hi c hs hs' halloc (fun d hd _ => ?_) hself hself ?_
  · rw [hf, if_neg hd]
  · show (r'.frames c).point ≠ .initial
    rw [hf, if_pos rfl]
    nofun

theorem leave_noop (h : r.Promises) (hi : r.Inv) (hs : r.stack = .body c :: rest)
    (hnoop : (r.frames c).caller = .noop) (hs' : r'.stack = rest) (halloc : r'.allocated = r.allocated)
    (hf : ∀ d, r'.frames d = if d = c then
      { r.frames c with result := o, returned := some o, destroyed := [.pastFinal] } else r.frames d) :
    r'.Promises := by
  obtain ⟨hc, hrun⟩ := hi.calls.body_running hs
  have hself : Kept (r'.frames c) (.finishing c ∈ rest) := by
    rw [hf, if_pos rfl]
    exact ((h.kept hc.1).leave_noop hnoop).congr (by simp [hs])
  refine h.stop hi c hs hs' halloc (fun d hd _ => ?_) hself hself ?_
  · rw [hf, if_neg hd]
  · show (r'.frames c).point ≠ .initial
    rw [hf, if_pos rfl]
    show (r.frames c).point ≠ .initial
    rw [hrun]
    nofun

theorem leave_frame (h : r.Promises) (hi : r.Inv) (hs : r.stack = .body c :: rest)
    (hframe : (r.frames c).caller = .frame p) (hs' : r'.stack = .body p :: .finishing c :: rest)
    (halloc : r'.allocated = r.allocated)
    (hf : ∀ d, r'.frames d = if d = p then { r.frames p with point := .running, received := .of c o }
      else if d = c then { r.frames c with result := o, returned := some o } else r.frames d) :
    r'.Promises := by
  obtain ⟨hc, hrun⟩ := hi.calls.body_running hs
  obtain ⟨hp, hpt, hne⟩ := hi.calls.body_caller hs hframe
  have hpn : (r.frames p).caller ≠ .null := hi.calls.caller_of_child hp hpt (by rw [hs]; nofun)
  have hself : r'.frames c = { r.frames c with result := o, returned := some o } := by
    rw [hf, if_neg hne.symm, if_pos rfl]
  refine h.change p c (fun d _ _ hd => halloc ▸ hd) (fun d hdp hdc => ?_) (fun d hdp hdc => ?_) ?_ ?_
    (fun q d rest' hst hr => ?_) fun q d rest' hst => ?_
  · rw [hf, if_neg hdp, if_neg hdc]
  · simp [hs', hs, hdc]
  · rw [hf, if_pos rfl]
    exact ((h.kept hp.1).goOn hp.2 hpn (by rw [hpt]; nofun)).congr (by simp [hs', hs, hne])
  · rw [hself]
    exact (h.kept hc.1).leave_frame hc.2 (by simp [hs'])
  · rw [hs'] at hst
    cases hst
    rw [hf, if_pos rfl] at hr
    -- only a value is given as a reference, to the task that ends now
    cases o with
    | error e => cases hr
    | ok v =>
      cases hr
      rw [hself, hf, if_pos rfl]
      exact ⟨⟨v, rfl, rfl⟩, .inr ⟨⟨_, hframe⟩, hpn, List.mem_cons_self⟩⟩
  · rw [hs'] at hst
    cases hst

/-! ## Returns from `resume()` -/

theorem back_final (h : r.Promises) (hi : r.Inv) (hs : r.stack = .transform p c :: rest)
    (hfinal : (r.frames c).point = .final) (hs' : r'.stack = .body p :: rest)
    (halloc : r'.allocated = r.allocated)
    (hf : ∀ d, r'.frames d = if d = p then { r.frames p with received := .of c (r.frames c).result }
      else if d = c then { r.frames c with destroyed := [.awaitResume] } else r.frames d) :
    r'.Promises := by
  obtain ⟨hc, hnull⟩ := hi.calls.transform p c (by rw [hs]; exact List.mem_cons_self)
  obtain ⟨hp, hrun⟩ := (hi.calls.running p).mp (by rw [hs]; exact List.mem_cons_self)
  have hne : c ≠ p := by
    rintro rfl
    rw [hrun] at hfinal
    cases hfinal
  have hself : r'.frames c = { r.frames c with destroyed := [.awaitResume] } := by
    rw [hf, if_neg hne, if_pos rfl]
  refine h.change p c (fun d _ _ hd => halloc ▸ hd) (fun d hdp hdc => ?_) (fun d hdp hdc => ?_) ?_ ?_
    (fun q d rest' hst hr => ?_) fun q d rest' hst => ?_
  · rw [hf, if_neg hdp, if_neg hdc]
  · simp [hs', hs]
  · rw [hf, if_pos rfl]
    exact (h.kept hp.1).receive.congr (by simp [hs', hs])
  · rw [hself]
    exact ((h.kept hc.1).awaitResume hc.2 hnull hfinal).congr (by simp [hs', hs])
  · rw [hs'] at hst
    cases hst
    rw [hf, if_pos rfl] at hr
    have hret := h.ended c hc (.inl hfinal)
    cases hres : (r.frames c).result with
    | error e =>
      rw [hres] at hr
      cases hr
    | ok v =>
      rw [hres] at hr hret
      cases hr
      rw [live_def, hself]
      exact ⟨⟨v, hret, hres⟩, .inl ⟨hnull, halloc ▸ hc.1, by nofun⟩⟩
  · rw [hs'] at hst
    cases hst

theorem back_suspended (h : r.Promises) (hi : r.Inv) (hs : r.stack = .transform p c :: rest)
    (hpt : (r.frames c).point ≠ .final) (hs' : r'.stack = rest) (halloc : r'.allocated = r.allocated)
    (hf : ∀ d, r'.frames d = if d = p then
        { r.frames p with point := .child c, suspensions := (r.frames p).suspensions + 1 }
      else if d = c then { r.frames c with caller := .frame p } else r.frames d) : r'.Promises := by
  obtain ⟨hc, -⟩ := hi.calls.transform p c (by rw [hs]; exact List.mem_cons_self)
  obtain ⟨hp, hrun⟩ := (hi.calls.running p).mp (by rw [hs]; exact List.mem_cons_self)
  have hcrun := hi.calls.top p c rest hs
  have hne : c ≠ p := by
    rintro rfl
    exact hcrun hrun
  have hout : .finishing p ∉ r.stack := by
    rw [hs, List.mem_cons, not_or]
    exact ⟨by nofun, fun hm => hi.calls.not_mem_rest hs (mem_frames (a := .finishing p) hm)⟩
  refine h.stop hi c hs hs' halloc (fun d hdc hdp => ?_) ?_ ?_ ?_
  · rw [hf, if_neg (show d ≠ p from hdp), if_neg hdc]
  · rw [hf, if_neg hne, if_pos rfl]
    exact ((h.kept hc.1).called hc.2 (h.called p c rest hs) hcrun hpt).congr (by simp [hs])
  · show Kept (r'.frames p) (.finishing p ∈ rest)
    rw [hf, if_pos rfl]
    exact ((h.kept hp.1).suspend hp.2 hrun hout (by nofun) (by nofun)).congr (by simp [hs])
  · show (r'.frames p).point ≠ .initial
    rw [hf, if_pos rfl]
    nofun

theorem back_finishing (h : r.Promises) (hi : r.Inv) (hs : r.stack = .finishing c :: rest)
    (hs' : r'.stack = rest) (halloc : r'.allocated = r.allocated)
    (hf : ∀ d, r'.frames d = if d = c then { r.frames c with destroyed := [.pastFinal] }
      else r.frames d) : r'.Promises := by
  obtain ⟨hc, hrun⟩ := (hi.calls.running c).mp (by rw [hs]; exact List.mem_cons_self)
  have hnest := hi.calls.nested
  rw [hs] at hnest
  have hself : Kept (r'.frames c) (.finishing c ∈ rest) := by
    rw [hf, if_pos rfl]
    exact (h.kept hc.1).pastFinal hc.2 (by rw [hs]; exact List.mem_cons_self) hnest.1
  refine h.stop hi c hs hs' halloc (fun d hd _ => ?_) hself hself ?_
  · rw [hf, if_neg hd]
  · show (r'.frames c).point ≠ .initial
    rw [hf, if_pos rfl]
    show (r.frames c).point ≠ .initial
    rw [hrun]
    nofun

/-! ## Tasks that start or go on -/

theorem go_on (h : r.Promises) (hi : r.Inv) (hs : r.stack = []) (hc : r.Live c)
    {received : Received V E} (hrec : ∀ d, received ≠ .reference d) (hs' : r'.stack = [.body c])
    (halloc : r'.allocated = r.allocated)
    (hf : ∀ d, r'.frames d = if d = c then { r.frames c with point := .running, received }
      else r.frames d) : r'.Promises := by
  have hne : (r.frames c).caller ≠ .null := by
    intro hnull
    obtain ⟨p, hp⟩ := hi.calls.null c hc hnull
    rw [hs] at hp
    cases hp
  have hpt : (r.frames c).point ≠ .final := by
    intro hfinal
    obtain ⟨p, rest, hst⟩ := hi.calls.final c hc hfinal
    rw [hs] at hst
    cases hst
  have hself : Kept (r'.frames c) (.finishing c ∈ r'.stack) := by
    rw [hf, if_pos rfl]
    exact ((h.kept hc.1).goOn hc.2 hne hpt).congr (by simp [hs', hs])
  refine h.change c c (fun d _ _ hd => halloc ▸ hd) (fun d hd _ => by rw [hf, if_neg hd])
    (fun d _ _ => by simp [hs', hs]) hself hself (fun q d rest' hst hr => ?_) fun q d rest' hst => ?_
  · rw [hs'] at hst
    cases hst
    rw [hf, if_pos rfl] at hr
    exact absurd hr (hrec d)
  · rw [hs'] at hst
    cases hst

/-- No activation is of a task that is still to be made. -/
theorem not_finishing_new (hi : r.Inv) : .finishing r.allocated ∉ r.stack := fun hm =>
  not_live_allocated ((hi.calls.running _).mp (mem_frames hm)).1

theorem spawn (h : r.Promises) (hi : r.Inv) (hc : c = r.allocated) (hs' : r'.stack = r.stack)
    (halloc : r'.allocated = r.allocated + 1) {f : Frame X V E} (hcaller : f.caller = .noop)
    (hpoint : f.point = .initial) (hsus : f.suspensions = 0) (hret : f.returned = none)
    (hdes : f.destroyed = []) (hf : ∀ d, r'.frames d = if d = c then f else r.frames d) :
    r'.Promises := by
  subst hc
  have hself : Kept (r'.frames r.allocated) (.finishing r.allocated ∈ r'.stack) := by
    rw [hf, if_pos rfl, hs']
    exact .new hret hdes hsus (by rw [hcaller]; nofun) (.inl hpoint) (not_finishing_new hi)
  refine h.change r.allocated r.allocated (fun d hd _ hlt => by omega) (fun d hd _ => by rw [hf, if_neg hd])
    (fun d _ _ => by rw [hs']) hself hself (fun p d rest hst hr => ?_) fun p d rest hst => ?_
  · rw [hs'] at hst
    have hp := Nat.ne_of_lt (hi.calls.body_running hst).1.1
    rw [hf, if_neg hp] at hr
    obtain ⟨hval, hcase⟩ := h.reference p d rest hst hr
    have hd : d < r.allocated := h.referred_lt hi hst hr
    rw [live_def, hf, if_neg (Nat.ne_of_lt hd), hf, if_neg hp]
    refine ⟨hval, hcase.imp_left fun ⟨hnull, hlt, hdead⟩ => ⟨hnull, by omega, fun hl => hdead ⟨hlt, hl.2⟩⟩⟩
  · rw [hs'] at hst
    have hd := Nat.ne_of_lt (hi.calls.transform p d (by rw [hst]; exact List.mem_cons_self)).1.1
    rw [hf, if_neg hd]
    exact h.called p d rest hst

theorem call (h : r.Promises) (hi : r.Inv) (hs : r.stack = .body p :: rest) (hc : c = r.allocated)
    (hs' : r'.stack = .body c :: .transform p c :: rest) (halloc : r'.allocated = r.allocated + 1)
    {w : Received V E} {f : Frame X V E} (hcaller : f.caller = .null)
    (hpoint : f.point = .running) (hsus : f.suspensions = 0) (hdes : f.destroyed = [])
    (hrec : f.received = .nothing) (hret : f.returned = none)
    (hf : ∀ d, r'.frames d = if d = c then f else if d = p then { r.frames p with received := w }
      else r.frames d) : r'.Promises := by
  subst hc
  have hp := (hi.calls.body_running hs).1
  have hfin : ∀ d, .finishing d ∈ r'.stack ↔ .finishing d ∈ r.stack := by simp [hs', hs]
  refine h.change r.allocated p (fun d hd _ hlt => by omega) (fun d hdc hdp => ?_) (fun d _ _ => hfin d)
    ?_ ?_ (fun q d rest' hst hr => ?_) fun q d rest' hst => ?_
  · rw [hf, if_neg hdc, if_neg hdp]
  · rw [hf, if_pos rfl, hfin]
    exact .new hret hdes hsus (by rw [hcaller]; nofun) (.inr hpoint) (not_finishing_new hi)
  · rw [hf, if_neg (Nat.ne_of_lt hp.1), if_pos rfl, hfin]
    exact (h.kept hp.1).receive
  · rw [hs'] at hst
    cases hst
    rw [hf, if_pos rfl, hrec] at hr
    cases hr
  · rw [hs'] at hst
    cases hst

/-! ## Every act -/

theorem of_init (h : r.Init) : r.Promises := by
  have hnone : ∀ c, ¬ c < r.allocated := by
    intro c
    rw [h.allocated]
    exact Nat.not_lt_zero c
  constructor
  case ended => exact fun c hc => absurd hc.1 (hnone c)
  case unended => exact fun c hc => absurd hc.1 (hnone c)
  case reference =>
    intro p c rest hs
    rw [h.stack] at hs
    cases hs
  case suspended => exact fun c hc => absurd hc.1 (hnone c)
  case called =>
    intro p c rest hs
    rw [h.stack] at hs
    cases hs
  case caller => exact fun c p hc => absurd hc (hnone c)
  case sync => exact fun c hc => absurd hc (hnone c)
  case gone => exact fun c hc => absurd hc (hnone c)
  case destroyed => exact fun c hc => absurd hc (hnone c)

section

variable [DecidableEq X]

theorem leave (h : r.Promises) (hi : r.Inv) (hs : r.stack = .body c :: rest) :
    (r.leave o).Promises := by
  have hc := (hi.calls.body_running hs).1
  cases hcl : (r.frames c).caller with
  | null =>
    rw [Runtime.leave_null hs hcl]
    refine h.leave_null (o := o) hi hs hcl rfl rfl fun d => ?_
    simp only [setStack_frames, modify_apply]
    split <;> rfl
  | noop =>
    rw [Runtime.leave_noop hs hcl]
    refine h.leave_noop (o := o) hi hs hcl rfl rfl fun d => ?_
    simp only [setStack_frames, modify_apply, if_true, hc.2, List.nil_append]
    split <;> rfl
  | frame p =>
    obtain ⟨hp, hpt, hne⟩ := hi.calls.body_caller hs hcl
    have heq : r.leave o = _ := Runtime.leave_frame hs hcl hne hp hpt
    exact h.leave_frame hi hs hcl (by simp [heq]) (by simp [heq]) (leave_frame_frames hs hcl hne hp hpt)

theorem back (h : r.Promises) (hi : r.Inv) (hs : r.stack ≠ []) (hb : ¬ r.InBody) :
    r.back.Promises := by
  cases hst : r.stack with
  | nil => exact absurd hst hs
  | cons a rest =>
    cases a with
    | body c => exact absurd ⟨c, rest, hst⟩ hb
    | transform p c =>
      obtain ⟨hc, hnull⟩ := hi.calls.transform p c (by rw [hst]; exact List.mem_cons_self)
      have hrun := (hi.calls.running p).mp (by rw [hst]; exact List.mem_cons_self)
      have hne : p ≠ c := by
        rintro rfl
        exact hi.calls.top p p rest hst hrun.2
      by_cases hpt : (r.frames c).point = .final
      · have heq := Runtime.back_final hst hpt hnull
        exact h.back_final hi hst hpt (by simp [heq]) (by simp [heq])
          (back_final_frames hst hpt hnull hne hc)
      · rw [Runtime.back_suspended hst hpt]
        refine h.back_suspended hi hst hpt rfl rfl fun d => ?_
        simp only [setStack_frames, modify_apply, read_frames, if_neg hne]
    | finishing c =>
      have hc := (hi.calls.running c).mp (by rw [hst]; exact List.mem_cons_self)
      rw [Runtime.back_finishing hst]
      refine h.back_finishing hi hst rfl rfl fun d => ?_
      simp only [setStack_frames, modify_apply, hc.1.2, List.nil_append]

theorem coAwait {x : X} (h : r.Promises) (hi : r.Inv) (hs : r.stack = .body c :: rest) :
    (r.coAwait x).Promises := by
  cases hx : (r.awakers x).awaitReady with
  | true =>
    rw [coAwait_ready hs hx]
    exact h.receive (c := c) rfl (by nofun) hs (hi.calls.body_running hs).1.1 rfl fun d => modify_apply
  | false =>
    rw [coAwait_suspended hs hx]
    exact h.suspend hi hs (p := .awaker x) trivial (by nofun) rfl rfl
      fun d => (modify_apply : (r.suspend c (.awaker x)).frames d = _)

omit [DecidableEq X] in
theorem coYield (h : r.Promises) (hi : r.Inv) (hs : r.stack = .body c :: rest) :
    r.coYield.Promises := by
  rw [coYield_eq hs]
  exact h.suspend hi hs (p := .yield) trivial (by nofun) rfl rfl
    fun d => (modify_apply : (r.suspend c .yield).frames d = _)

omit [DecidableEq X] in
theorem enqueueTask [Inhabited V] (h : r.Promises) (hi : r.Inv) : r.enqueueTask.Promises := by
  exact h.spawn hi rfl rfl rfl rfl rfl rfl rfl rfl enqueueTask_frames

theorem coAwaitTask [Inhabited V] (h : r.Promises) (hi : r.Inv) (hs : r.stack = .body p :: rest) :
    r.coAwaitTask.Promises := by
  have hp := (hi.calls.body_running hs).1
  have heq := coAwaitTask_eq hs hp.1
  exact h.call hi hs rfl (by simp [heq]) (by simp [heq]) rfl rfl rfl rfl rfl rfl
    (coAwaitTask_frames hs hp.1)

theorem wake {x : X} {ret : V} (h : r.Promises) : (r.wake x ret).Promises := by
  cases hx : (r.awakers x).handle with
  | none =>
    rw [wake_none hx]
    exact h.congr rfl rfl rfl
  | some c =>
    rw [wake_some hx]
    exact h.congr rfl rfl rfl

theorem pass (h : r.Promises) (hi : r.Inv) (hs : r.stack = []) : r.pass.Promises := by
  cases hq : r.queued with
  | nil =>
    rw [(pass_idle hi.waits hq).1]
    exact h.congr rfl rfl rfl
  | cons q qs =>
    obtain ⟨c, cause⟩ := q
    obtain ⟨hc, he⟩ := hi.waits.ends (c, cause) (by rw [hq]; exact List.mem_cons_self)
    obtain ⟨a, received, hres, hrec, -⟩ := resume_parked (r := r.taken c cause qs) hc he.parked
    rw [(pass_resume hi.waits hq).1, hres]
    refine h.go_on hi hs hc hrec (congrArg (_ :: ·) hs) rfl fun d => ?_
    simp only [modify_apply, start_frames, if_true]
    split <;> rfl

omit [DecidableEq X] in
theorem move {v : V} (h : r.Promises) (hi : r.Inv) : (r.move v).Promises := by
  unfold Runtime.move
  split
  next p rest hs =>
    split
    · have hrec : ∀ w, (r.receive p (.value w)).Promises :=
        fun w => h.receive rfl (by nofun) hs (hi.calls.body_running hs).1.1 rfl fun d => modify_apply
      exact (hrec _).congr rfl rfl rfl
    · exact h
  · exact h

theorem next [Inhabited V] (h : r.Promises) (hi : r.Inv) {a : Act X V E} (he : r.Enabled a) :
    (r.next a).Promises := by
  cases a with
  | enqueueTask => exact h.enqueueTask hi
  | wake x ret => exact h.wake
  | pass => exact h.pass hi he
  | coAwaitTask =>
    obtain ⟨c, rest, hs⟩ := he
    exact h.coAwaitTask hi hs
  | coAwait x =>
    obtain ⟨c, rest, hs⟩ := he
    exact h.coAwait hi hs
  | coYield =>
    obtain ⟨c, rest, hs⟩ := he
    exact h.coYield hi hs
  | move freed => exact h.move hi
  | coReturn v =>
    obtain ⟨c, rest, hs⟩ := he
    exact h.leave hi hs
  | throws e =>
    obtain ⟨c, rest, hs⟩ := he
    exact h.leave hi hs
  | back => exact h.back hi he.1 he.2

end

end Promises

end Sqkio.Runtime
