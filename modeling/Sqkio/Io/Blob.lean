import Sqkio.Lib.Machine
import Sqkio.Core.Awaker

/-!
# The operations on a blob and SPDK's callbacks

An operation declares an `Awaker`, submits a request to SPDK with its address, and suspends at it; the
callback of the request wakes it.  `make_blob` does so twice.  SPDK calls back while the request is being
submitted or during a later poll.

A plain `Awaker` is never ready, so a callback that comes while the request is submitted finds no handle
and is not noticed afterwards.  `BlobEnv::setup` has a `CheckableAwaker` instead.

`finishes_iff`: an operation finishes, with the value of its own callback, exactly when no callback comes
before its submitting call returns and the scheduler has room at each.
-/

namespace Sqkio.Io.Blob

open Sqkio.Lib

/-- An `int`, an id or a pointer. -/
abbrev Word := Int

/-- `Blob` -/
structure BlobHandle where
  channel : Word
  blob : Word
  deriving DecidableEq

/-- What the scheduler resumes: the coroutine of an operation, or another one. -/
inductive Handle where
  | op (n : Nat)
  | other (k : Nat)
  deriving DecidableEq

/-- A call of SPDK, with the arguments besides the callback. -/
inductive Request where
  | blobResize (blob : Word) (size : Nat)
  | blobSyncMd (blob : Word)
  | blobIoWrite (blob channel buf : Word) (offset length : Nat)
  | blobIoRead (blob channel buf : Word) (offset length : Nat)
  | bsCreateBlob (bs : Word)
  | bsOpenBlob (bs blobId : Word)
  | bsInit (dev : Word)
  deriving DecidableEq

/-- A call of an operation, with its `this`. -/
inductive Op where
  | resize (self : BlobHandle) (size : Nat)
  | syncMetaData (self : BlobHandle)
  | write (self : BlobHandle) (buf : Word) (offset length : Nat)
  | read (self : BlobHandle) (buf : Word) (offset length : Nat)
  | makeBlob (bs : Word)
  | initBlobstore (dev : Word)
  deriving DecidableEq

/-- What the coroutine returns. -/
inductive Result where
  | rc (bserrno : Word)
  | blob (b : BlobHandle)
  | blobStore (bs : Word)
  deriving DecidableEq

namespace Op

/-- The request that the operation begins with. -/
def request : Op → Request
  | resize self size => .blobResize self.blob size
  | syncMetaData self => .blobSyncMd self.blob
  | write self buf offset length => .blobIoWrite self.blob self.channel buf offset length
  | read self buf offset length => .blobIoRead self.blob self.channel buf offset length
  | makeBlob bs => .bsCreateBlob bs
  | initBlobstore dev => .bsInit dev

/-- The store of a `make_blob`, which goes on with a second request. -/
def store : Op → Option Word
  | makeBlob bs => some bs
  | _ => none

/-- `co_return`, of what the last callback passed. -/
def result (channel value : Word) : Op → Result
  | resize .. | syncMetaData .. | write .. | read .. => .rc value
  | makeBlob _ => .blob ⟨channel, value⟩
  | initBlobstore _ => .blobStore value

end Op

/-- The frame of an operation's coroutine with the awaker that it waits at, and ghosts: the requests it
has submitted and what their callbacks passed. -/
structure Frame where
  op : Op
  awaker : Awaker Word Handle
  -- `auto blob_id = co_await awaker;`
  blobId : Option Word
  result : Option Result
  requests : List Request
  answers : List Word
  deriving DecidableEq

/-- A `make_blob` that has not submitted its second request. -/
def Frame.opens (f : Frame) : Bool := f.op.store.isSome && f.blobId.isNone

/-- The scheduler with `run`'s variable `handle`, and the operations begun so far. -/
structure BlobOps where
  sched : SQKScheduler Handle
  handle : Handle
  frames : Nat → Frame
  begun : Nat

namespace BlobOps

inductive Act where
  /-- A coroutine calls an operation; `ret_` of its awaker is not initialised, and SPDK may call back with
  `early` before the submitting call returns. -/
  | call (op : Op) (ret : Word) (early : Option Word)
  /-- SPDK calls back in `spdk_thread_poll`. -/
  | callback (n : Nat) (value : Word)
  /-- Another coroutine is passed to the scheduler. -/
  | enqueue (k : Nat)
  /-- One pass of the loop in `run`; a `make_blob` that is resumed submits its second request, with `ret`
  and `early` as above, or allocates its channel. -/
  | pass (ret : Word) (early : Option Word) (channel : Word)

def setFrame (n : Nat) (f : Frame) (s : BlobOps) : BlobOps :=
  { s with frames := Function.update s.frames n f }

/-- `common_cb` and the other callbacks: `wake` of the awaker whose address was submitted. -/
def callback (n : Nat) (value : Word) (s : BlobOps) : BlobOps :=
  let f := s.frames n
  let r := f.awaker.wake SQKScheduler.push value s.sched
  { s.setFrame n { f with awaker := r.1, answers := f.answers ++ [value] } with sched := r.2 }

/-- `Awaker<T> awaker; spdk_...(..., &awaker); co_await awaker;`: `await_ready` is false. -/
def submit (n : Nat) (f : Frame) (request : Request) (ret : Word) (early : Option Word) (s : BlobOps) :
    BlobOps :=
  let s := s.setFrame n { f with awaker := ⟨none, ret⟩, requests := f.requests ++ [request] }
  let s := early.elim s (s.callback n)
  s.setFrame n { s.frames n with awaker := (s.frames n).awaker.awaitSuspend (.op n) }

def call (op : Op) (ret : Word) (early : Option Word) (s : BlobOps) : BlobOps :=
  submit s.begun ⟨op, ⟨none, ret⟩, none, none, [], []⟩ op.request ret early { s with begun := s.begun + 1 }

/-- `handle.resume()`.  Nothing is modelled for a coroutine that has returned. -/
def resume (handle : Handle) (ret : Word) (early : Option Word) (channel : Word) (s : BlobOps) : BlobOps :=
  match handle with
  | .op n =>
    let f := s.frames n
    if f.result.isSome then s
    else
      let r := f.awaker.awaitResume
      match f.op.store, f.blobId with
      | some bs, none =>
        s.submit n { f with awaker := r.1, blobId := some r.2 } (.bsOpenBlob bs r.2) ret early
      | _, _ => s.setFrame n { f with awaker := r.1, result := some (f.op.result channel r.2) }
  | .other _ => s

/-- One pass of the loop in `run`. -/
def pass (ret : Word) (early : Option Word) (channel : Word) (s : BlobOps) : BlobOps :=
  let r := s.sched.dequeue s.handle
  let s := { s with sched := r.1, handle := r.2.2 }
  if r.2.1 = 0 then s else s.resume s.handle ret early channel

def next (s : BlobOps) : Act → BlobOps
  | .call op ret early => s.call op ret early
  | .callback n value => s.callback n value
  | .enqueue k => { s with sched := s.sched.push (.other k) }
  | .pass ret early channel => s.pass ret early channel

/-- SPDK calls back once for each request. -/
def Enabled (s : BlobOps) : Act → Prop
  | .callback n _ => n < s.begun ∧ (s.frames n).answers.length < (s.frames n).requests.length
  | _ => True

instance : (s : BlobOps) → (a : Act) → Decidable (s.Enabled a)
  | s, .callback n _ =>
    inferInstanceAs (Decidable (n < s.begun ∧ (s.frames n).answers.length < (s.frames n).requests.length))
  | _, .call .. | _, .enqueue _ | _, .pass .. => isTrue trivial

structure Init (s : BlobOps) : Prop where
  sched : s.sched.Fresh
  begun : s.begun = 0

def machine : Machine BlobOps Act where
  init := Init
  enabled := Enabled
  next := next

instance (s : BlobOps) (a : Act) : Decidable (machine.enabled s a) :=
  inferInstanceAs (Decidable (s.Enabled a))

/-- An operation whose requests have all been called back has returned what its last callback passed,
unless its handle is still in the queue. -/
def Finishes (s : BlobOps) : Prop :=
  ∀ n, n < s.begun → (s.frames n).answers.length = (s.frames n).requests.length →
    Handle.op n ∉ s.sched.waiting →
    ∃ value channel, (s.frames n).answers.getLast? = some value ∧
      (s.frames n).result = some ((s.frames n).op.result channel value)

/-- The handle that `run` takes next is that of a `make_blob` that submits its second request. -/
def opens (s : BlobOps) : Bool :=
  match s.sched.waiting.head? with
  | some (.op n) => (s.frames n).opens
  | _ => false

/-- A callback comes after its submitting call has returned, and the scheduler has room for the handle. -/
def Deferred (s : BlobOps) : Act → Prop
  | .call _ _ early => early = none
  | .callback .. => s.sched.waiting.length < 1023
  | .pass _ early _ => s.opens = true → early = none
  | .enqueue _ => True

instance : (s : BlobOps) → (a : Act) → Decidable (s.Deferred a)
  | _, .call _ _ early => inferInstanceAs (Decidable (early = none))
  | s, .callback .. => inferInstanceAs (Decidable (s.sched.waiting.length < 1023))
  | s, .pass _ early _ => inferInstanceAs (Decidable (s.opens = true → early = none))
  | _, .enqueue _ => isTrue trivial

end BlobOps

/-! ## Where an operation is -/

namespace Frame

/-- It waits for a callback. -/
structure Pending (f : Frame) (n : Nat) : Prop where
  result : f.result = none
  handle : f.awaker.handle = some (.op n)
  length : f.answers.length + 1 = f.requests.length

/-- It is suspended, with the value of the last callback in its awaker. -/
structure Answered (f : Frame) (n : Nat) : Prop where
  result : f.result = none
  handle : f.awaker.handle = some (.op n)
  length : f.answers.length = f.requests.length
  value : f.answers.getLast? = some f.awaker.ret

/-- It has returned what the last callback passed. -/
structure Returned (f : Frame) : Prop where
  length : f.answers.length = f.requests.length
  result : ∃ value channel, f.answers.getLast? = some value ∧ f.result = some (f.op.result channel value)

def Sound (f : Frame) (n : Nat) : Prop := f.Pending n ∨ f.Answered n ∨ f.Returned

variable {f : Frame} {n : Nat}

theorem Pending.not_answered (h : f.Pending n) : ¬f.Answered n := by
  intro ha
  have hlength := h.length
  rw [ha.length] at hlength
  omega

theorem Returned.not_answered (h : f.Returned) : ¬f.Answered n := by
  intro ha
  obtain ⟨value, channel, -, hresult⟩ := h.result
  rw [ha.result] at hresult
  cases hresult

/-- A frame that submits a request: what `submit` leaves of it. -/
def submitted (f : Frame) (n : Nat) (request : Request) (ret : Word) (early : Option Word) : Frame :=
  { f with
    awaker := ⟨some (.op n), early.getD ret⟩
    requests := f.requests ++ [request]
    answers := f.answers ++ early.toList }

theorem submitted_sound (hresult : f.result = none) (hlength : f.answers.length = f.requests.length)
    (request : Request) (ret : Word) (early : Option Word) : (f.submitted n request ret early).Sound n := by
  cases early with
  | none => exact .inl ⟨hresult, rfl, by simp [submitted, hlength]⟩
  | some value => exact .inr (.inl ⟨hresult, rfl, by simp [submitted, hlength], by simp [submitted]⟩)

theorem submitted_answered (hresult : f.result = none) (hlength : f.answers.length = f.requests.length)
    (request : Request) (ret : Word) (early : Option Word) :
    (f.submitted n request ret early).Answered n ↔ ¬early = none := by
  cases early with
  | none =>
    refine iff_of_false (fun ha => ?_) fun h => h rfl
    have hlength' := ha.length
    simp [submitted, hlength] at hlength'
  | some value =>
    exact iff_of_true ⟨hresult, rfl, by simp [submitted, hlength], by simp [submitted]⟩ nofun

end Frame

namespace BlobOps

variable {s t : BlobOps} {n : Nat}

/-- A callback that comes before the operation suspends passes nothing to the scheduler. -/
theorem submit_eq (f : Frame) (request : Request) (ret : Word) (early : Option Word) :
    s.submit n f request ret early = s.setFrame n (f.submitted n request ret early) := by
  cases early with
  | none => simp [submit, setFrame, Frame.submitted, Awaker.awaitSuspend]
  | some value => simp [submit, setFrame, callback, Frame.submitted, Awaker.awaitSuspend, Awaker.wake]

/-! ## The invariant -/

/-- A handle in the queue is there once, and its operation has been called back. -/
structure Inv (s : BlobOps) : Prop where
  ready : s.sched.Ready s.sched.waiting
  once : ∀ n, s.sched.waiting.count (.op n) ≤ 1
  woken : ∀ n, Handle.op n ∈ s.sched.waiting → n < s.begun ∧ (s.frames n).Answered n
  sound : ∀ n, n < s.begun → (s.frames n).Sound n

theorem Init.inv (h : s.Init) : s.Inv := by
  have hready := h.sched.ready
  constructor
  case ready => exact hready.waiting
  case once => simp [hready.waiting_eq]
  case woken => simp [hready.waiting_eq]
  case sound => simp [h.begun]

namespace Inv

/-- An operation that is not in the queue moves on. -/
theorem setFrame (h : s.Inv) {f : Frame} (hsched : t.sched = s.sched)
    (hframes : t.frames = Function.update s.frames n f) (hbegun : ∀ m, m < t.begun ↔ m = n ∨ m < s.begun)
    (hn : Handle.op n ∉ s.sched.waiting) (hf : f.Sound n) : t.Inv := by
  constructor
  case ready =>
    rw [hsched]
    exact h.ready
  case once =>
    rw [hsched]
    exact h.once
  case woken =>
    intro m hm
    rw [hsched] at hm
    have hne : m ≠ n := by
      rintro rfl
      exact hn hm
    rw [hframes, Function.update_of_ne hne]
    obtain ⟨hlt, hanswered⟩ := h.woken m hm
    exact ⟨(hbegun m).mpr (.inr hlt), hanswered⟩
  case sound =>
    intro m hm
    rw [hframes]
    rcases eq_or_ne m n with rfl | hne
    · rw [Function.update_self]
      exact hf
    · rw [Function.update_of_ne hne]
      exact h.sound m (((hbegun m).mp hm).resolve_left hne)

theorem call (h : s.Inv) (op : Op) (ret : Word) (early : Option Word) : (s.call op ret early).Inv := by
  have hn : Handle.op s.begun ∉ s.sched.waiting := fun hm => Nat.lt_irrefl _ (h.woken _ hm).1
  rw [BlobOps.call, submit_eq]
  refine h.setFrame rfl rfl (fun m => ?_) hn (Frame.submitted_sound rfl rfl _ _ _)
  show m < s.begun + 1 ↔ _
  omega

/-- The request that is called back is the one that the operation waits for. -/
theorem pending (h : s.Inv) {value : Word} (he : s.Enabled (.callback n value)) : (s.frames n).Pending n := by
  obtain ⟨hlt, hlength⟩ := he
  rcases h.sound n hlt with hp | ha | hr
  · exact hp
  · exact absurd ha.length (Nat.ne_of_lt hlength)
  · exact absurd hr.length (Nat.ne_of_lt hlength)

theorem callback_eq (h : s.Inv) {value : Word} (he : s.Enabled (.callback n value)) :
    s.callback n value = { s with
      sched := s.sched.push (.op n)
      frames := Function.update s.frames n { s.frames n with
        awaker := ⟨some (.op n), value⟩, answers := (s.frames n).answers ++ [value] } } := by
  have hhandle := (h.pending he).handle
  simp only [BlobOps.callback, Awaker.wake, hhandle]
  rfl

theorem answered_callback (h : s.Inv) {value : Word} (he : s.Enabled (.callback n value)) :
    ((s.callback n value).frames n).Answered n := by
  have hp := h.pending he
  rw [h.callback_eq he]
  simp only [Function.update_self]
  exact ⟨hp.result, rfl, by rw [List.length_append, ← hp.length, List.length_singleton], List.getLast?_concat⟩

theorem callback (h : s.Inv) {value : Word} (he : s.Enabled (.callback n value)) : (s.callback n value).Inv := by
  have hanswered := h.answered_callback he
  have hnot : Handle.op n ∉ s.sched.waiting := fun hm => (h.pending he).not_answered (h.woken n hm).2
  have hframes : ∀ m, m ≠ n → (s.callback n value).frames m = s.frames m :=
    fun m hm => Function.update_of_ne hm _ _
  have hwaiting := h.ready.enqueue_waiting (.op n)
  have hsched : (s.callback n value).sched = s.sched.push (.op n) := by rw [h.callback_eq he]
  constructor
  case ready =>
    rw [hsched]
    exact h.ready.push _
  case once =>
    intro m
    rw [hsched, SQKScheduler.push, hwaiting]
    split
    · have hm := h.once m
      have hn := List.count_eq_zero.mpr hnot
      rw [List.count_append]
      rcases eq_or_ne m n with rfl | hne
      · rw [hn, List.count_singleton_self]
      · have hzero : [Handle.op n].count (.op m) = 0 :=
          List.count_eq_zero.mpr fun hmem => hne (Handle.op.inj (List.mem_singleton.mp hmem))
        rw [hzero]
        exact hm
    · exact h.once m
  case woken =>
    intro m hm
    rw [hsched] at hm
    rcases eq_or_ne m n with rfl | hne
    · exact ⟨he.1, hanswered⟩
    · rw [hframes m hne]
      rcases h.ready.mem_push hm with hm | heq
      · exact h.woken m hm
      · exact absurd (Handle.op.inj heq) hne
  case sound =>
    intro m hm
    rcases eq_or_ne m n with rfl | hne
    · exact .inr (.inl hanswered)
    · rw [hframes m hne]
      exact h.sound m hm

theorem enqueue (h : s.Inv) (k : Nat) : (s.next (.enqueue k)).Inv := by
  obtain ⟨hready, honce, hwoken, hsound⟩ := h
  refine ⟨hready.push _, fun n => ?_, fun n hn => ?_, hsound⟩
  · show (s.sched.push (.other k)).waiting.count (.op n) ≤ 1
    rw [SQKScheduler.push, hready.enqueue_waiting]
    split
    · rw [List.count_append]
      exact honce n
    · exact honce n
  · rcases hready.mem_push hn with hn | hn
    · exact hwoken n hn
    · cases hn

end Inv

/-- After `queue_->dequeue(handle)`. -/
def dequeued (s : BlobOps) : BlobOps :=
  { s with sched := (s.sched.dequeue s.handle).1, handle := (s.sched.dequeue s.handle).2.2 }

theorem Inv.pass_eq (h : s.Inv) (ret : Word) (early : Option Word) (channel : Word) :
    (s.sched.waiting = [] ∧ s.dequeued.sched.waiting = [] ∧ s.pass ret early channel = s.dequeued) ∨
    ∃ w, s.sched.waiting = w :: s.dequeued.sched.waiting ∧
      s.pass ret early channel = s.dequeued.resume w ret early channel := by
  obtain ⟨-, ⟨hnil, hnil', hzero⟩ | ⟨w, hcons, hone⟩⟩ := h.ready.dequeue_cases s.handle
  · exact .inl ⟨hnil, hnil', if_pos hzero⟩
  · refine .inr ⟨w, hcons, ?_⟩
    have hw : s.dequeued.handle = w := by rw [dequeued, hone]
    have hnonzero : ¬(s.sched.dequeue s.handle).2.1 = 0 := by
      rw [hone]
      exact show ¬(1 : UInt32) = 0 by decide
    rw [← hw]
    exact if_neg hnonzero

theorem Inv.dequeued (h : s.Inv) : s.dequeued.Inv := by
  obtain ⟨hready, hcases⟩ := h.ready.dequeue_cases s.handle
  have hsub : s.dequeued.sched.waiting.Sublist s.sched.waiting := by
    rcases hcases with ⟨hnil, hnil', -⟩ | ⟨w, hcons, -⟩
    · rw [BlobOps.dequeued, hnil', hnil]
    · rw [hcons]
      exact List.sublist_cons_self _ _
  exact ⟨hready, fun n => Nat.le_trans (hsub.count_le _) (h.once n), fun n hn => h.woken n (hsub.subset hn), h.sound⟩

/-- An operation that is resumed submits its second request or returns. -/
theorem resume_eq (hresult : (s.frames n).result = none) (ret : Word) (early : Option Word) (channel : Word) :
    ((s.frames n).opens = true ∧ ∃ request, s.resume (.op n) ret early channel = s.setFrame n
      (({ s.frames n with
        awaker := (s.frames n).awaker.awaitResume.1
        blobId := some (s.frames n).awaker.ret } : Frame).submitted n request ret early)) ∨
    ((s.frames n).opens = false ∧ s.resume (.op n) ret early channel = s.setFrame n { s.frames n with
      awaker := (s.frames n).awaker.awaitResume.1
      result := some ((s.frames n).op.result channel (s.frames n).awaker.ret) }) := by
  have hrun : ¬(s.frames n).result.isSome = true := by simp [hresult]
  simp only [resume, if_neg hrun]
  split
  next bs hstore hblobId => exact .inl ⟨by simp [Frame.opens, hstore, hblobId], .bsOpenBlob bs _, submit_eq ..⟩
  next hnot =>
    refine .inr ⟨?_, rfl⟩
    cases hstore : (s.frames n).op.store with
    | none => simp [Frame.opens, hstore]
    | some bs =>
      cases hblobId : (s.frames n).blobId with
      | none => exact absurd hblobId (hnot bs hstore)
      | some id => simp [Frame.opens, hblobId]

theorem Inv.not_mem_dequeued (h : s.Inv) (hcons : s.sched.waiting = .op n :: s.dequeued.sched.waiting) :
    Handle.op n ∉ s.dequeued.sched.waiting := by
  have honce := h.once n
  rw [hcons, List.count_cons_self] at honce
  exact List.count_eq_zero.mp (by omega)

theorem Inv.pass (h : s.Inv) (ret : Word) (early : Option Word) (channel : Word) :
    (s.pass ret early channel).Inv := by
  rcases h.pass_eq ret early channel with ⟨-, -, heq⟩ | ⟨w, hcons, heq⟩
  · rw [heq]
    exact h.dequeued
  · rw [heq]
    cases w with
    | other k => exact h.dequeued
    | op n =>
      obtain ⟨hlt, ha⟩ := h.woken n (by simp [hcons])
      have hbegun : ∀ m, m < s.dequeued.begun ↔ m = n ∨ m < s.dequeued.begun := fun m =>
        ⟨.inr, fun hm => hm.elim (fun heq => heq ▸ hlt) id⟩
      rcases resume_eq (s := s.dequeued) ha.result ret early channel with ⟨-, request, hres⟩ | ⟨-, hres⟩
      · rw [hres]
        refine h.dequeued.setFrame rfl rfl hbegun (h.not_mem_dequeued hcons) ?_
        apply Frame.submitted_sound
        · exact ha.result
        · exact ha.length
      · rw [hres]
        exact h.dequeued.setFrame rfl rfl hbegun (h.not_mem_dequeued hcons)
          (.inr (.inr ⟨ha.length, _, _, ha.value, rfl⟩))

theorem Inv.next (h : s.Inv) {a : Act} (he : s.Enabled a) : (s.next a).Inv := by
  cases a with
  | call op ret early => exact h.call op ret early
  | callback n value => exact h.callback he
  | enqueue k => exact h.enqueue k
  | pass ret early channel => exact h.pass ret early channel

/-! ## The law -/

/-- The operation has been called back, and nothing will resume it. -/
def Lost (n : Nat) (s : BlobOps) : Prop :=
  n < s.begun ∧ (s.frames n).Answered n ∧ Handle.op n ∉ s.sched.waiting

/-- No operation is lost. -/
def Kept (s : BlobOps) : Prop := ∀ n, ¬s.Lost n

theorem Inv.finishes_iff_kept (h : s.Inv) : s.Finishes ↔ s.Kept := by
  constructor
  · rintro hf n ⟨hlt, ha, hnot⟩
    obtain ⟨value, channel, -, hresult⟩ := hf n hlt ha.length hnot
    rw [ha.result] at hresult
    cases hresult
  · intro hk n hlt hlength hnot
    rcases h.sound n hlt with hp | ha | hr
    · have hlength' := hp.length
      omega
    · exact absurd ⟨hlt, ha, hnot⟩ (hk n)
    · exact hr.result

theorem Kept.congr (h : ∀ n, t.Lost n ↔ s.Lost n) : t.Kept ↔ s.Kept :=
  forall_congr' fun n => not_congr (h n)

/-- A step that concerns one operation, which was not lost before. -/
theorem kept_iff {p : Prop} (hothers : ∀ m, m ≠ n → (t.Lost m ↔ s.Lost m)) (hbefore : ¬s.Lost n)
    (hafter : t.Lost n ↔ ¬p) : t.Kept ↔ s.Kept ∧ p := by
  constructor
  · intro hk
    refine ⟨fun m hm => ?_, not_not.mp (hafter.not.mp (hk n))⟩
    rcases eq_or_ne m n with rfl | hne
    · exact hbefore hm
    · exact hk m ((hothers m hne).mpr hm)
  · rintro ⟨hk, hp⟩ m hm
    rcases eq_or_ne m n with rfl | hne
    · exact hafter.mp hm hp
    · exact hk m ((hothers m hne).mp hm)

namespace Inv

theorem call_kept (h : s.Inv) (op : Op) (ret : Word) (early : Option Word) :
    (s.call op ret early).Kept ↔ s.Kept ∧ early = none := by
  have hnot : Handle.op s.begun ∉ s.sched.waiting := fun hm => Nat.lt_irrefl _ (h.woken _ hm).1
  rw [BlobOps.call, submit_eq]
  refine kept_iff (fun m hm => ?_) (fun hl => Nat.lt_irrefl _ hl.1) ?_
  · have hlt : m < s.begun + 1 ↔ m < s.begun := by omega
    show m < s.begun + 1 ∧ (Function.update s.frames s.begun _ m).Answered m ∧ _ ↔ _
    rw [hlt, Function.update_of_ne hm]
    exact Iff.rfl
  · show s.begun < s.begun + 1 ∧ (Function.update s.frames s.begun _ s.begun).Answered s.begun ∧ _ ↔ _
    rw [Function.update_self, Frame.submitted_answered rfl rfl]
    exact ⟨fun hl => hl.2.1, fun he => ⟨Nat.lt_succ_self _, he, hnot⟩⟩

theorem callback_kept (h : s.Inv) {value : Word} (he : s.Enabled (.callback n value)) :
    (s.callback n value).Kept ↔ s.Kept ∧ s.sched.waiting.length < 1023 := by
  have hp := h.pending he
  have hnot : Handle.op n ∉ s.sched.waiting := fun hm => hp.not_answered (h.woken n hm).2
  have hanswered := h.answered_callback he
  have hwaiting := h.ready.enqueue_waiting (.op n)
  have hsched : (s.callback n value).sched = s.sched.push (.op n) := by rw [h.callback_eq he]
  refine kept_iff (fun m hm => ?_) (fun hl => hp.not_answered hl.2.1) ?_
  · have hmem : Handle.op m ∈ (s.callback n value).sched.waiting ↔ Handle.op m ∈ s.sched.waiting := by
      rw [hsched, SQKScheduler.push, hwaiting]
      split
      · rw [List.mem_append, List.mem_singleton]
        exact or_iff_left fun heq => hm (Handle.op.inj heq)
      · exact Iff.rfl
    show m < s.begun ∧ (Function.update s.frames n _ m).Answered m ∧ Handle.op m ∉ _ ↔ _
    rw [hmem, Function.update_of_ne hm]
    exact Iff.rfl
  · have hmem : Handle.op n ∈ (s.callback n value).sched.waiting ↔ s.sched.waiting.length < 1023 := by
      rw [hsched, SQKScheduler.push, hwaiting]
      split
      next hroom => exact iff_of_true (List.mem_append_right _ (List.mem_singleton_self _)) hroom
      next hfull => exact iff_of_false hnot hfull
    rw [← hmem]
    exact ⟨fun hl => hl.2.2, fun hn => ⟨he.1, hanswered, hn⟩⟩

theorem pass_kept (h : s.Inv) (ret : Word) (early : Option Word) (channel : Word) :
    (s.pass ret early channel).Kept ↔ s.Kept ∧ (s.opens = true → early = none) := by
  rcases h.pass_eq ret early channel with ⟨hnil, hnil', heq⟩ | ⟨w, hcons, heq⟩
  · have hlost : ∀ m, s.dequeued.Lost m ↔ s.Lost m := by
      intro m
      simp only [Lost, hnil, hnil']
      exact Iff.rfl
    rw [heq, Kept.congr hlost]
    exact (and_iff_left (by simp [opens, hnil])).symm
  · have hothers : ∀ m, w ≠ .op m → (s.dequeued.Lost m ↔ s.Lost m) := by
      intro m hm
      have hmem : Handle.op m ∈ s.sched.waiting ↔ Handle.op m ∈ s.dequeued.sched.waiting := by
        rw [hcons, List.mem_cons]
        exact or_iff_right fun heq => hm heq.symm
      simp only [Lost, hmem]
      exact Iff.rfl
    rw [heq]
    cases w with
    | other k =>
      refine (Kept.congr fun m => hothers m nofun).trans ?_
      exact (and_iff_left (by simp [opens, hcons])).symm
    | op n =>
      obtain ⟨hlt, ha⟩ := h.woken n (by simp [hcons])
      have hnot := h.not_mem_dequeued hcons
      have hbefore : ¬s.Lost n := fun hl => hl.2.2 (by simp [hcons])
      have hopens : s.opens = (s.frames n).opens := by simp [opens, hcons]
      have hframe : ∀ f : Frame, ∀ m, m ≠ n → ((s.dequeued.setFrame n f).Lost m ↔ s.Lost m) := by
        intro f m hm
        have hupdate : (s.dequeued.setFrame n f).frames m = s.dequeued.frames m := Function.update_of_ne hm _ _
        rw [← hothers m fun heq => hm (Handle.op.inj heq).symm]
        simp only [Lost, hupdate]
        exact Iff.rfl
      have hself : ∀ f : Frame, (s.dequeued.setFrame n f).Lost n ↔ f.Answered n := by
        intro f
        show n < s.begun ∧ (Function.update s.frames n f n).Answered n ∧ _ ↔ _
        rw [Function.update_self]
        exact ⟨fun hl => hl.2.1, fun hf => ⟨hlt, hf, hnot⟩⟩
      rw [hopens]
      rcases resume_eq (s := s.dequeued) ha.result ret early channel with ⟨ho, request, hres⟩ | ⟨ho, hres⟩
      · have hopens' : (s.frames n).opens = true := ho
        rw [hres, hopens']
        refine kept_iff (hframe _) hbefore ((hself _).trans ?_)
        refine (Frame.submitted_answered ?_ ?_ request ret early).trans (by simp)
        · exact ha.result
        · exact ha.length
      · have hopens' : (s.frames n).opens = false := ho
        rw [hres, hopens']
        refine kept_iff (hframe _) hbefore ((hself _).trans ?_)
        exact iff_of_false (fun hf => by cases hf.result) fun hn => hn nofun

theorem next_kept (h : s.Inv) {a : Act} (he : s.Enabled a) : (s.next a).Kept ↔ s.Kept ∧ s.Deferred a := by
  cases a with
  | call op ret early => exact h.call_kept op ret early
  | callback n value => exact h.callback_kept he
  | enqueue k =>
    have hlost : ∀ m, (s.next (.enqueue k)).Lost m ↔ s.Lost m := by
      intro m
      have hmem : Handle.op m ∈ (s.sched.push (.other k)).waiting ↔ Handle.op m ∈ s.sched.waiting := by
        rw [SQKScheduler.push, h.ready.enqueue_waiting]
        split
        · simp
        · exact Iff.rfl
      show m < s.begun ∧ (s.frames m).Answered m ∧ Handle.op m ∉ (s.sched.push (.other k)).waiting ↔ _
      rw [hmem]
      exact Iff.rfl
    exact (Kept.congr hlost).trans (and_iff_left trivial).symm
  | pass ret early channel => exact h.pass_kept ret early channel

end Inv

/-- **Callbacks.**  For all operations, arguments and orders of callbacks and passes of the run loop: an
operation whose callback has run returns what it passed once the queue is drained, exactly when each
callback comes after its submitting call has returned and finds room in the queue. -/
theorem finishes_iff (h : s.Init) {acts : List Act} (he : machine.AllEnabled s acts) :
    (machine.runList s acts).Finishes ↔ (machine.restrict Deferred).AllEnabled s acts := by
  have hrule := @Machine.law_iff_allEnabled _ _ machine Inv Kept Deferred
    (fun _ _ hen hi => hi.next hen) (fun _ _ hen hi => hi.next_kept hen) acts s h.inv he
  have hend := @Machine.inv_runList _ _ machine Inv (fun _ _ hen hi => hi.next hen) acts s h.inv he
  have hkept : s.Kept := by
    rintro n ⟨hlt, -⟩
    rw [h.begun] at hlt
    exact Nat.not_lt_zero n hlt
  rw [hend.finishes_iff_kept, hrule]
  exact and_iff_right hkept

/-! ## A `make_blob` or a `read` -/

/-- No operation has begun. -/
def idle : BlobOps where
  sched := .init fun _ => .other 0
  handle := .other 0
  frames _ := ⟨.initBlobstore 0, ⟨none, 0⟩, none, none, [], []⟩
  begun := 0

theorem idle_init : idle.Init := ⟨SQKScheduler.init_fresh _, rfl⟩

/-- Both callbacks of a `make_blob` come during a poll. -/
def made : List Act :=
  [.call (.makeBlob 3) 0 none, .callback 0 41, .pass 0 none 0, .callback 0 42, .pass 0 none 7]

theorem finishes_iff_made :
    (machine.runList idle made).Finishes ↔ (machine.restrict Deferred).AllEnabled idle made :=
  finishes_iff idle_init (by decide +kernel)

example : ((machine.runList idle made).frames 0).result = some (.blob ⟨7, 42⟩) := by decide +kernel

/-- SPDK calls back before `spdk_blob_io_read` returns. -/
def readAtOnce : List Act := [.call (.read ⟨7, 42⟩ 5 0 1) 0 (some 0), .pass 0 none 0]

/-- The `read` has been called back and does not return, and no handle is left to resume it. -/
theorem read_lost : ∃ s : BlobOps, s.Init ∧ machine.AllEnabled s readAtOnce ∧
    ((machine.runList s readAtOnce).frames 0).answers = [0] ∧
    (machine.runList s readAtOnce).sched.waiting = [] ∧ ¬(machine.runList s readAtOnce).Finishes := by
  have hresult : ((machine.runList idle readAtOnce).frames 0).result = none := by decide +kernel
  refine ⟨idle, idle_init, by decide +kernel, by decide +kernel, by decide +kernel, fun hf => ?_⟩
  obtain ⟨value, channel, -, hreturned⟩ := hf 0 (by decide +kernel) (by decide +kernel) (by decide +kernel)
  rw [hresult] at hreturned
  cases hreturned

end BlobOps

end Sqkio.Io.Blob
