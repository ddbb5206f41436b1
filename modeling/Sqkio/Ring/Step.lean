import Sqkio.Ring.Model

/-!
# What one step of a call can do

The four head-moving functions differ in text and in the number of loads, not in
what a step achieves: an attempt loads its head, judges the other side's tail, and
moves the head only over the value it loaded.  `step_spec` is the one case split
on program counters; everything proved about runs goes through `StepSpec`.
-/

namespace Sqkio.Common.Ring

open Sqkio.Lib

variable {W τ : Type}

/-! ## The registers of a call -/

/-- The head an attempt has loaded and not yet judged. -/
def Pc.attempt : Pc → Option UInt32
  | .loadTail oldHead => some oldHead
  | .htsLoadTail op => some op.head
  | _ => none

/-- Old head and burst of an attempt about to move the head. -/
def Pc.moving : Pc → Option (UInt32 × UInt32)
  | .moveHead oldHead n => some (oldHead, n)
  | .htsMoveHead op n => some (op.head, n)
  | _ => none

/-- Old head and burst of a call that has moved the head and not stored the tail. -/
def Pc.reserved : Pc → Option (UInt32 × UInt32)
  | .copy oldHead n _ | .waitTail oldHead n | .storeTail oldHead n => some (oldHead, n)
  | _ => none

/-- The pair an HTS attempt works on. -/
def Pc.htsOp : Pc → Option HeadTail
  | .htsLoadTail op | .htsMoveHead op _ => some op
  | _ => none

/-- `free_entries` or `entries`. -/
def entries (r : Ring W) (d : Side) (oldHead : UInt32) : UInt32 :=
  match d with
  | .prod => r.capacity + r.cons.tail - oldHead
  | .cons => r.prod.tail - oldHead

/-! ## What one step can do -/

/-- The outcomes of `Local.step`, both sides and all modes at once. -/
inductive StepSpec (cfg : Config) (r : Ring W) (l : Local W) : Ring W × Local W × Event → Prop
  | noop : StepSpec cfg r l (r, l, .tau)
  | load (pc' : Pc) : l.pc.reserved = none → l.pc.isIdle = false →
      pc'.reserved = none → pc'.moving = none → pc'.isIdle = false →
      (∀ old, pc'.attempt = some old → old = (r.ht l.call.side).head) →
      (∀ op, pc'.htsOp = some op → op.head = op.tail) →
      StepSpec cfg r l (r, { l with pc := pc' }, .load)
  | fail (old : UInt32) : l.pc.attempt = some old →
      clip (cfg.transactional l.call.side) l.call.n (r.entries l.call.side old) = 0 →
      StepSpec cfg r l (r, { l with pc := .done 0 }, .tau)
  | decide (old n : UInt32) (pc' : Pc) : l.pc.attempt = some old →
      n = clip (cfg.transactional l.call.side) l.call.n (r.entries l.call.side old) → n ≠ 0 →
      pc'.moving = some (old, n) → pc'.attempt = none → pc'.reserved = none → pc'.isIdle = false →
      pc'.htsOp = l.pc.htsOp →
      StepSpec cfg r l (r, { l with pc := pc' }, .tau)
  | reserve (old n : UInt32) : l.pc.moving = some (old, n) →
      (cfg.sync l.call.side = .st ∨ (r.ht l.call.side).head = old) →
      (cfg.sync l.call.side = .mtHts → ∃ op, l.pc.htsOp = some op ∧ r.ht l.call.side = op) →
      StepSpec cfg r l (r.setHt l.call.side { r.ht l.call.side with head := old + n },
        { l with pc := .copy old n (enqueueElements cfg.T r.size r.mask old n) }, .reserve n)
  | startTail (old n : UInt32) : l.pc = .copy old n [] →
      StepSpec cfg r l (r, { l with pc := updateTailStart (cfg.sync l.call.side) old n }, .tau)
  | copyWord (old n : UInt32) (cp : Copy) (todo : List Copy) : l.pc = .copy old n (cp :: todo) →
      StepSpec cfg r l ((Local.copyWord r l.call cp).1,
        { call := (Local.copyWord r l.call cp).2, pc := .copy old n todo }, .tau)
  | wait (old n : UInt32) : l.pc = .waitTail old n → (r.ht l.call.side).tail = old →
      StepSpec cfg r l (r, { l with pc := .storeTail old n }, .tau)
  | publish (old n : UInt32) : l.pc = .storeTail old n →
      StepSpec cfg r l (r.setHt l.call.side { r.ht l.call.side with tail := old + n },
        { l with pc := .done n }, .publish n)

/-- A head-moving function acting on the registers of a call. -/
def Moves (cfg : Config) (r : Ring W) (l : Local W) (m : Ring W × Pc × Event) : Prop :=
  StepSpec cfg r l (m.1, { l with pc := m.2.1 }, m.2.2)

theorem moveProdHead_spec (cfg : Config) (r : Ring W) (l : Local W) (hd : l.call.side = .prod)
    (hs : cfg.sync .prod = .mt ∨ cfg.sync .prod = .st) :
    Moves cfg r l (moveProdHead cfg r l.call.n l.pc) := by
  obtain ⟨⟨d, m, obj⟩, pc⟩ := l
  obtain rfl : d = .prod := hd
  cases pc with
  | loadHead =>
    exact .load _ rfl rfl rfl rfl rfl (fun _ h => by cases h; rfl) (fun _ h => by cases h)
  | loadTail old =>
    simp only [moveProdHead]
    split
    · next h => exact .fail old rfl h
    · next h => exact .decide old _ _ rfl rfl h rfl rfl rfl rfl rfl
  | moveHead old n =>
    have hne : cfg.sync .prod = .mtHts → ∃ op, (none : Option HeadTail) = some op ∧ r.prod = op := by
      intro h
      rcases hs with hs | hs <;> rw [hs] at h <;> cases h
    simp only [moveProdHead]
    split
    · split
      · next h => exact .reserve old n rfl (Or.inr h) hne
      · exact .load _ rfl rfl rfl rfl rfl (fun _ h => by cases h; rfl) (fun _ h => by cases h)
    · next h =>
      exact .reserve old n rfl (Or.inl (hs.resolve_left h)) hne
  | _ => exact .noop

theorem moveConsHead_spec (cfg : Config) (r : Ring W) (l : Local W) (hd : l.call.side = .cons)
    (hs : cfg.sync .cons ≠ .mtHts) : Moves cfg r l (moveConsHead cfg r l.call.n l.pc) := by
  obtain ⟨⟨d, m, obj⟩, pc⟩ := l
  obtain rfl : d = .cons := hd
  cases pc with
  | loadHead =>
    exact .load _ rfl rfl rfl rfl rfl (fun _ h => by cases h) (fun _ h => by cases h)
  | reloadHead =>
    exact .load _ rfl rfl rfl rfl rfl (fun _ h => by cases h; rfl) (fun _ h => by cases h)
  | loadTail old =>
    simp only [moveConsHead]
    split
    · next h => exact .fail old rfl h
    · next h => exact .decide old _ _ rfl rfl h rfl rfl rfl rfl rfl
  | moveHead old n =>
    simp only [moveConsHead]
    split
    · next h => exact .reserve old n rfl (Or.inl h) (fun h' => absurd h' hs)
    · split
      · next h => exact .reserve old n rfl (Or.inr h) (fun h' => absurd h' hs)
      · exact .load _ rfl rfl rfl rfl rfl (fun _ h => by cases h) (fun _ h => by cases h)
  | _ => exact .noop

/-- The load of an HTS pair, with the test of `hts_head_wait` on it. -/
theorem StepSpec.htsLoad {cfg : Config} {r : Ring W} {l : Local W} {op : HeadTail}
    (hop : r.ht l.call.side = op) (hres : l.pc.reserved = none) (hidle : l.pc.isIdle = false) :
    StepSpec cfg r l
      (r, { l with pc := if op.head ≠ op.tail then .htsWait else .htsLoadTail op }, .load) := by
  split
  · exact .load _ hres hidle rfl rfl rfl (fun _ h => by cases h) (fun _ h => by cases h)
  · next h =>
    exact .load _ hres hidle rfl rfl rfl (fun _ h => by cases h; rw [hop])
      (fun _ h' => by cases h'; exact Classical.not_not.mp h)

theorem moveProdHeadHts_spec (cfg : Config) (r : Ring W) (l : Local W) (hd : l.call.side = .prod) :
    Moves cfg r l (moveProdHeadHts cfg r l.call.n l.pc) := by
  obtain ⟨⟨d, m, obj⟩, pc⟩ := l
  obtain rfl : d = .prod := hd
  cases pc with
  | htsLoad | htsWait => exact .htsLoad rfl rfl rfl
  | htsLoadTail op =>
    simp only [moveProdHeadHts]
    split
    · next h => exact .fail op.head rfl h
    · next h => exact .decide op.head _ _ rfl rfl h rfl rfl rfl rfl rfl
  | htsMoveHead op n =>
    simp only [moveProdHeadHts]
    split
    · next h => subst h; exact .reserve _ n rfl (Or.inr rfl) fun _ => ⟨_, rfl, rfl⟩
    · exact .htsLoad rfl rfl rfl
  | _ => exact .noop

theorem moveConsHeadHts_spec (cfg : Config) (r : Ring W) (l : Local W) (hd : l.call.side = .cons) :
    Moves cfg r l (moveConsHeadHts cfg r l.call.n l.pc) := by
  obtain ⟨⟨d, m, obj⟩, pc⟩ := l
  obtain rfl : d = .cons := hd
  cases pc with
  | htsLoad | htsWait => exact .htsLoad rfl rfl rfl
  | htsLoadTail op =>
    simp only [moveConsHeadHts]
    split
    · next h => exact .fail op.head rfl h
    · next h => exact .decide op.head _ _ rfl rfl h rfl rfl rfl rfl rfl
  | htsMoveHead op n =>
    simp only [moveConsHeadHts]
    split
    · next h => subst h; exact .reserve _ n rfl (Or.inr rfl) fun _ => ⟨_, rfl, rfl⟩
    · exact .htsLoad rfl rfl rfl
  | _ => exact .noop

theorem moveHeadOf_spec (cfg : Config) (r : Ring W) (l : Local W) (hrts : cfg.sync l.call.side ≠ .mtRts) :
    Moves cfg r l (moveHeadOf cfg r l.call.side l.call.n l.pc) := by
  unfold moveHeadOf
  split
  · next hd _ => exact moveProdHeadHts_spec cfg r l hd
  · next hd hs =>
    refine moveProdHead_spec cfg r l hd ?_
    rw [hd] at hrts
    cases h : cfg.sync .prod <;> simp_all
  · next hd _ => exact moveConsHeadHts_spec cfg r l hd
  · next hd hs => exact moveConsHead_spec cfg r l hd (by rwa [← hd])

/-- Every step of a call on a side without RTS is one of the outcomes of `StepSpec`. -/
theorem step_spec_side (cfg : Config) (r : Ring W) (l : Local W) (hrts : cfg.sync l.call.side ≠ .mtRts) :
    StepSpec cfg r l (l.step cfg r) := by
  have hmove := moveHeadOf_spec cfg r l hrts
  cases hpc : l.pc with
  | copy old n todo =>
    cases todo with
    | nil => rw [Local.step, hpc]; exact .startTail old n hpc
    | cons cp todo => rw [Local.step, hpc]; exact .copyWord old n cp todo hpc
  | waitTail old n =>
    rw [Local.step, hpc]
    simp only [updateTail]
    split
    · next h => exact .wait old n hpc h
    · rw [← hpc]; exact .noop
  | storeTail old n => rw [Local.step, hpc]; exact .publish old n hpc
  | _ => rw [Local.step, hpc]; rw [hpc] at hmove; exact hmove

/-- **Step lemma.** -/
theorem step_spec (cfg : Config) (hrts : ∀ d, cfg.sync d ≠ .mtRts) (r : Ring W) (l : Local W) :
    StepSpec cfg r l (l.step cfg r) := step_spec_side cfg r l (hrts l.call.side)

end Sqkio.Common.Ring
