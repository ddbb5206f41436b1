import Sqkio.Net.EventQueue
import Sqkio.Net.Send

/-!
# Submission of an operation and its error check

`accept`, `send`, `recv`, `write` and `read` each call libfabric, look at what the call returned, and
suspend on an awaker of their own.  The check is a loop in `send`, the macro `MAYBE_THROW` in `accept`,
`recv` and `write`, and missing in `read`.  `send` passes its peer address through an `int`.

    the code is looked at and the error carries it   → a nonzero code ends the coroutine
    it is not                                        → the coroutine waits for a completion that never comes

`meets_iff` says for each operation which codes and which state make it do what the others are meant to.
-/

namespace Sqkio.Net.Fab

open Sqkio.Lib

structure MemoryBuffer where
  buf : UInt64
  deriving DecidableEq

structure MemoryRegion where
  /-- `fi_mr_desc(mr_)` -/
  desc : UInt64
  deriving DecidableEq

inductive ErrorCategory where
  | generic
  | system
  deriving DecidableEq

/-- `std::system_error(value, category)` -/
structure SystemError where
  value : Int32
  category : ErrorCategory
  deriving DecidableEq

/-- A call of a member function of `Endpoint`. -/
inductive Operation where
  | accept
  | send (buf : MemoryBuffer) (size : UInt64) (mr : MemoryRegion) (dst : Option Address)
  | recv (buf : MemoryBuffer) (size : UInt64) (mr : MemoryRegion)
  | write (buf : MemoryBuffer) (size : UInt64) (mr : MemoryRegion) (addr key : UInt64) (dst : Address)
  | read (buf : MemoryBuffer) (size : UInt64) (mr : MemoryRegion) (addr key : UInt64) (src : Address)
  deriving DecidableEq

/-- A libfabric call with its arguments in their order; a context is the number of an awaker. -/
inductive Request where
  | fiAccept (ep param paramlen : UInt64)
  | fiSend (ep buf len desc : UInt64) (destAddr : Address) (context : Nat)
  | fiRecv (ep buf len desc : UInt64) (srcAddr : Address) (context : Nat)
  | fiWrite (ep buf len desc : UInt64) (destAddr : Address) (addr key : UInt64) (context : Nat)
  | fiRead (ep buf len desc : UInt64) (srcAddr : Address) (addr key : UInt64) (context : Nat)
  deriving DecidableEq

def Request.context : Request → Option Nat
  | fiAccept .. => none
  | fiSend _ _ _ _ _ context | fiRecv _ _ _ _ _ context => some context
  | fiWrite _ _ _ _ _ _ _ context | fiRead _ _ _ _ _ _ _ context => some context

/-- Where the coroutine of an operation is. -/
inductive Progress where
  /-- In the libfabric call. -/
  | calling
  | suspended
  | returned (addr : Option Address)
  | threw (e : SystemError)
  deriving DecidableEq

/-- The coroutine of one operation, with the event queue's `map_`. -/
structure Submission where
  op : Operation
  ep : UInt64
  fid : Fid
  /-- `awaker` of `accept`, `waker` of the others. -/
  awaker : Nat
  map : Fid → Option Nat
  progress : Progress
  -- ghosts: the calls made and what they returned, the awakers it suspended on, and the one that the
  -- completion of the request wakes
  requests : List Request
  codes : List Int64
  suspensions : List Nat
  posted : Option Nat

namespace Submission

inductive Act where
  /-- The libfabric call returns; `errno` is as the call leaves it. -/
  | ret (code : Int64) (errno : Int32)
  /-- The awaker has been woken, with an address if there is one. -/
  | resume (addr : Address)
  /-- Another `accept` on this event queue, and an event that takes an entry out of `map_`. -/
  | emplace (fid : Fid) (n : Nat)
  | erase (fid : Fid)

/-- `dst ? dst.value() : 0`: an `Address` becomes a `fi_addr_t` but no `int` becomes an `Address`, so both branches
are made `int`s, and what was chosen a `fi_addr_t` again. -/
def destAddr (dst : Option Address) : Address :=
  (dst.elim 0 fun addr => addr.toUInt32.toInt32).toInt64.toUInt64

/-- The arguments of each operation's call. -/
def request (s : Submission) : Request :=
  match s.op with
  | .accept => .fiAccept s.ep 0 0
  | .send buf size mr dst => .fiSend s.ep buf.buf size mr.desc (destAddr dst) s.awaker
  | .recv buf size mr => .fiRecv s.ep buf.buf size mr.desc 0 s.awaker
  | .write buf size mr addr key dst => .fiWrite s.ep buf.buf size mr.desc dst addr key s.awaker
  | .read buf size mr addr key _ => .fiRead s.ep buf.buf size mr.desc addr addr key s.awaker

/-- The call is made and has returned `code`. -/
def record (code : Int64) (s : Submission) : Submission :=
  { s with requests := s.requests ++ [s.request], codes := s.codes ++ [code] }

def throwing (e : SystemError) (s : Submission) : Submission := { s with progress := .threw e }

/-- `co_await waker` -/
def await (posted : Option Nat) (s : Submission) : Submission :=
  { s with progress := .suspended, suspensions := s.suspensions ++ [s.awaker], posted }

/-- What follows `MAYBE_THROW(fn, ...)` is `k`. -/
def maybeThrow (rc errno : Int32) (k : Submission → Submission) (s : Submission) : Submission :=
  if rc ≠ 0 then s.throwing ⟨errno, .generic⟩ else k s

def emplace (fid : Fid) (n : Nat) (s : Submission) : Submission :=
  { s with map := if s.map fid = none then Function.update s.map fid (some n) else s.map }

def erase (fid : Fid) (s : Submission) : Submission :=
  { s with map := Function.update s.map fid none }

/-- `eq_.map_.emplace(get_fid(), &awaker); co_await awaker;` -/
def accept (rc errno : Int32) (s : Submission) : Submission :=
  s.maybeThrow rc errno fun s =>
    let s := s.emplace s.fid s.awaker
    s.await (s.map s.fid)

def send (rc : Int32) (s : Submission) : Submission :=
  -- `if (rc != -EAGAIN) break;`
  if rc.toInt = -eagain then s
  else if rc ≠ 0 then s.throwing ⟨-rc, .system⟩
  else s.await s.request.context

def recv (rc errno : Int32) (s : Submission) : Submission :=
  s.maybeThrow rc errno fun s => s.await s.request.context

def write (rc errno : Int32) (s : Submission) : Submission :=
  s.maybeThrow rc errno fun s => s.await s.request.context

/-- What `fi_read` returned is not looked at. -/
def read (s : Submission) : Submission := s.await s.request.context

/-- An `ssize_t` becomes the `int` `rc`. -/
def ret (code : Int64) (errno : Int32) (s : Submission) : Submission :=
  let rc := code.toInt32
  let t := s.record code
  match s.op with
  | .accept => t.accept rc errno
  | .send .. => t.send rc
  | .recv .. => t.recv rc errno
  | .write .. => t.write rc errno
  | .read .. => t.read

/-- The coroutine goes on after its `co_await`; `recv` returns the address. -/
def resume (addr : Address) (s : Submission) : Submission :=
  let result := match s.op with
    | .recv .. => some addr
    | .accept | .send .. | .write .. | .read .. => none
  { s with progress := .returned result }

def next (s : Submission) : Act → Submission
  | .ret code errno => s.ret code errno
  | .resume addr => s.resume addr
  | .emplace fid n => s.emplace fid n
  | .erase fid => s.erase fid

/-- Other coroutines run when this one does not; their awakers are others. -/
def Enabled (s : Submission) : Act → Prop
  | .ret .. => s.progress = .calling
  | .resume _ => s.progress = .suspended
  | .emplace _ n => s.progress ≠ .calling ∧ n ≠ s.awaker
  | .erase _ => s.progress ≠ .calling

instance : (s : Submission) → (a : Act) → Decidable (s.Enabled a)
  | s, .ret .. => inferInstanceAs (Decidable (s.progress = .calling))
  | s, .resume _ => inferInstanceAs (Decidable (s.progress = .suspended))
  | s, .emplace _ n => inferInstanceAs (Decidable (s.progress ≠ .calling ∧ n ≠ s.awaker))
  | s, .erase _ => inferInstanceAs (Decidable (s.progress ≠ .calling))

/-- The operation begins; no one knows its awaker. -/
structure Init (s : Submission) : Prop where
  progress : s.progress = .calling
  map : ∀ fid, s.map fid ≠ some s.awaker
  requests : s.requests = []
  codes : s.codes = []
  suspensions : s.suspensions = []

def machine : Machine Submission Act where
  init := Init
  enabled := Enabled
  next := next

instance (s : Submission) (a : Act) : Decidable (machine.enabled s a) :=
  inferInstanceAs (Decidable (s.Enabled a))

/-! ## What the operations are meant to do -/

/-- `send` repeats its call on `-EAGAIN`. -/
def Again (s : Submission) (code : Int64) : Prop :=
  match s.op with
  | .send .. => code.toInt = -eagain
  | .accept | .recv .. | .write .. | .read .. => False

instance : (s : Submission) → (code : Int64) → Decidable (s.Again code)
  | { op := .send .., .. }, code => inferInstanceAs (Decidable (code.toInt = -eagain))
  | { op := .accept, .. }, _ | { op := .recv .., .. }, _ => isFalse id
  | { op := .write .., .. }, _ | { op := .read .., .. }, _ => isFalse id

/-- A request names what the caller passed, each in the position that libfabric has for it. -/
def Names (s : Submission) (r : Request) : Prop :=
  match s.op, r with
  | .accept, .fiAccept ep _ _ => ep = s.ep
  | .send buf size mr dst, .fiSend ep b len desc destAddr _ =>
    ep = s.ep ∧ b = buf.buf ∧ len = size ∧ desc = mr.desc ∧ ∀ peer, dst = some peer → destAddr = peer
  | .recv buf size mr, .fiRecv ep b len desc _ _ => ep = s.ep ∧ b = buf.buf ∧ len = size ∧ desc = mr.desc
  | .write buf size mr addr key dst, .fiWrite ep b len desc destAddr a k _ =>
    ep = s.ep ∧ b = buf.buf ∧ len = size ∧ desc = mr.desc ∧ destAddr = dst ∧ a = addr ∧ k = key
  | .read buf size mr addr key src, .fiRead ep b len desc srcAddr a k _ =>
    ep = s.ep ∧ b = buf.buf ∧ len = size ∧ desc = mr.desc ∧ srcAddr = src ∧ a = addr ∧ k = key
  | _, _ => False

/-- After the last code: a nonzero one has ended the coroutine with an error that carries it, without a
suspension and without an entry in `map_`; after zero the coroutine has suspended once, on the awaker that it
posted. -/
def Outcome (s : Submission) (code : Int64) : Prop :=
  if s.Again code then s.progress = .calling
  else if code ≠ 0 then
    (∃ e, s.progress = .threw e ∧ e.value.toInt = -code.toInt) ∧ s.suspensions = [] ∧
      ∀ fid, s.map fid ≠ some s.awaker
  else ∃ n, s.suspensions = [n] ∧ s.posted = some n

structure Meets (s : Submission) : Prop where
  names : ∀ r ∈ s.requests, s.Names r
  repeats : ∀ code ∈ s.codes.dropLast, s.Again code
  outcome : ∀ code, s.codes.getLast? = some code → s.Outcome code

/-- A code whose negation is an `int`. -/
def Fits (code : Int64) : Prop := -2 ^ 31 < code.toInt ∧ code.toInt ≤ 2 ^ 31

instance (code : Int64) : Decidable (Fits code) :=
  inferInstanceAs (Decidable (-2 ^ 31 < code.toInt ∧ code.toInt ≤ 2 ^ 31))

/-- A peer address that an `int` keeps. -/
def Narrow (peer : Address) : Prop := peer.toNat < 2 ^ 31 ∨ 2 ^ 64 - 2 ^ 31 ≤ peer.toNat

instance (peer : Address) : Decidable (Narrow peer) :=
  inferInstanceAs (Decidable (peer.toNat < 2 ^ 31 ∨ 2 ^ 64 - 2 ^ 31 ≤ peer.toNat))

/-- `send` gets a code whose negation an `int` can hold, and a peer address that one can hold.  The operations with `MAYBE_THROW` find a failing code in
`errno`, and `accept` finds no entry for its `fid`.  `read` gets no failing code, and reads from the
address that is also the peer's. -/
def Checked (s : Submission) : Act → Prop
  | .ret code errno =>
    match s.op with
    | .accept => (code ≠ 0 → errno.toInt = -code.toInt) ∧ (code = 0 → s.map s.fid = none)
    | .send _ _ _ dst => Fits code ∧ ∀ peer ∈ dst, Narrow peer
    | .recv .. | .write .. => code ≠ 0 → errno.toInt = -code.toInt
    | .read _ _ _ addr _ src => code = 0 ∧ addr = src
  | .resume _ | .emplace .. | .erase _ => True

instance : (s : Submission) → (a : Act) → Decidable (s.Checked a)
  | { op := .accept, map, fid, .. }, .ret code errno =>
    inferInstanceAs (Decidable ((code ≠ 0 → errno.toInt = -code.toInt) ∧ (code = 0 → map fid = none)))
  | { op := .send _ _ _ dst, .. }, .ret code _ =>
    inferInstanceAs (Decidable (Fits code ∧ ∀ peer ∈ dst, Narrow peer))
  | { op := .recv .., .. }, .ret code errno | { op := .write .., .. }, .ret code errno =>
    inferInstanceAs (Decidable (code ≠ 0 → errno.toInt = -code.toInt))
  | { op := .read _ _ _ addr _ src, .. }, .ret code _ => inferInstanceAs (Decidable (code = 0 ∧ addr = src))
  | _, .resume _ | _, .emplace .. | _, .erase _ => isTrue trivial

/-! ## Codes -/

section

variable {code : Int64} {errno : Int32}

/-- The error of `send` carries the code if there is such an `int`. -/
theorem toInt_neg_toInt32_iff : (-code.toInt32).toInt = -code.toInt ↔ Fits code := by
  constructor
  · intro heq
    have hlo := (-code.toInt32).le_toInt
    have hhi := (-code.toInt32).toInt_lt
    rw [heq] at hlo hhi
    exact ⟨by omega, by omega⟩
  · rintro ⟨hlo, hhi⟩
    rw [Int32.toInt_neg, Int64.toInt_toInt32, Int.bmod_neg_bmod]
    exact Int.bmod_eq_of_le (by omega) (by omega)

theorem Fits.toInt32_eq (h : Fits code) {rc : Int32} (hrc : code.toInt32 = rc) (hneg : -2 ^ 31 < rc.toInt) :
    code.toInt = rc.toInt := by
  have heq := toInt_neg_toInt32_iff.mpr h
  rw [hrc, Int32.toInt_neg, Int.bmod_eq_of_le] at heq
  · omega
  · have := rc.toInt_lt
    omega
  · omega

theorem toInt32_ne_zero_of_errno (h : errno.toInt = -code.toInt) (hcode : code ≠ 0) : code.toInt32 ≠ 0 := by
  intro hrc
  have hfits : Fits code := ⟨by have := errno.toInt_lt; omega, by have := errno.le_toInt; omega⟩
  exact hcode (Int64.toInt_inj.mp (hfits.toInt32_eq hrc (by decide)))

end

/-- The conditional of `send` keeps an address exactly if it is narrow. -/
theorem destAddr_eq_iff (peer : Address) : destAddr (some peer) = peer ↔ Narrow peer := by
  have hbits : (destAddr (some peer)).toBitVec = (peer.toBitVec.setWidth 32).signExtend 64 := rfl
  have hint : (destAddr (some peer)).toBitVec.toInt = Int.bmod peer.toNat (2 ^ 32) := by
    rw [hbits, BitVec.toInt_signExtend_of_le (by decide), BitVec.toInt_setWidth]
    rfl
  have hself : peer.toBitVec.toInt = Int.bmod peer.toNat (2 ^ 64) := BitVec.toInt_eq_toNat_bmod _
  have hlt := peer.toNat_lt
  rw [← UInt64.toBitVec_inj, ← BitVec.toInt_inj, hint, hself]
  unfold Narrow
  rw [Int.bmod_def, Int.bmod_def]
  omega

/-! ## The invariant -/

/-- Before the operation suspends nothing refers to its awaker. -/
structure Inv (s : Submission) : Prop where
  suspensions : s.progress = .calling → s.suspensions = []
  map : s.progress ≠ .suspended → (∀ addr, s.progress ≠ .returned addr) →
    ∀ fid, s.map fid ≠ some s.awaker

section

variable {s : Submission} {code : Int64} {errno : Int32}

theorem Init.inv (h : s.Init) : s.Inv := ⟨fun _ => h.suspensions, fun _ _ => h.map⟩

/-- Nothing has been made of the code yet. -/
structure Fresh (s : Submission) : Prop where
  progress : s.progress = .calling
  suspensions : s.suspensions = []
  map : ∀ fid, s.map fid ≠ some s.awaker

theorem Inv.fresh (h : s.Inv) (hcalling : s.progress = .calling) : s.Fresh := by
  refine ⟨hcalling, h.suspensions hcalling, h.map ?_ ?_⟩
  · simp [hcalling]
  · simp [hcalling]

theorem Fresh.record (h : s.Fresh) (code : Int64) : (s.record code).Fresh := ⟨h.progress, h.suspensions, h.map⟩

/-! ## What becomes of a code -/

theorem outcome_calling (h : s.Fresh) : s.Outcome code ↔ s.Again code := by
  unfold Outcome
  split
  next ha => exact iff_of_true h.progress ha
  next ha =>
    refine iff_of_false ?_ ha
    split
    · rintro ⟨⟨e, he, -⟩, -⟩
      rw [h.progress] at he
      cases he
    · rintro ⟨n, hn, -⟩
      rw [h.suspensions] at hn
      cases hn

theorem outcome_throwing (h : s.Fresh) (ha : ¬s.Again code) (hc : code ≠ 0) (e : SystemError) :
    (s.throwing e).Outcome code ↔ e.value.toInt = -code.toInt := by
  unfold Outcome
  rw [if_neg (show ¬(s.throwing e).Again code from ha), if_pos hc]
  constructor
  · rintro ⟨⟨e', he', hvalue⟩, -⟩
    cases he'
    exact hvalue
  · intro hvalue
    exact ⟨⟨e, rfl, hvalue⟩, h.suspensions, h.map⟩

theorem outcome_await (h : s.suspensions = []) (ha : ¬s.Again code) (posted : Option Nat) :
    (s.await posted).Outcome code ↔ code = 0 ∧ posted = some s.awaker := by
  unfold Outcome
  rw [if_neg (show ¬(s.await posted).Again code from ha)]
  have hone : (s.await posted).suspensions = [s.awaker] := by
    show s.suspensions ++ [s.awaker] = _
    rw [h]
    rfl
  split
  next hc =>
    constructor
    · rintro ⟨⟨e, he, -⟩, -⟩
      cases he
    · rintro ⟨hz, -⟩
      exact absurd hz hc
  next hc =>
    rw [not_not] at hc
    constructor
    · rintro ⟨n, hn, hposted⟩
      rw [hone] at hn
      cases hn
      exact ⟨hc, hposted⟩
    · rintro ⟨-, hposted⟩
      exact ⟨s.awaker, hone, hposted⟩

/-- `MAYBE_THROW`: a failing code has to be in `errno`. -/
theorem outcome_maybeThrow (h : s.Fresh) (ha : ¬s.Again code) (errno : Int32) {k : Submission → Submission}
    {p : Prop} (hk : (k s).Outcome code ↔ code = 0 ∧ p) :
    (s.maybeThrow code.toInt32 errno k).Outcome code ↔
      (code ≠ 0 → errno.toInt = -code.toInt) ∧ (code = 0 → p) := by
  unfold maybeThrow
  split
  next hrc =>
    have hc : code ≠ 0 := by
      rintro rfl
      exact hrc rfl
    rw [outcome_throwing h ha hc]
    exact ⟨fun hvalue => ⟨fun _ => hvalue, fun hz => absurd hz hc⟩, fun hall => hall.1 hc⟩
  next hrc =>
    rw [not_not] at hrc
    rw [hk]
    constructor
    · rintro ⟨hz, hp⟩
      exact ⟨fun hc => absurd hz hc, fun _ => hp⟩
    · rintro ⟨herrno, hp⟩
      have hz : code = 0 := by
        by_contra hc
        exact toInt32_ne_zero_of_errno (herrno hc) hc hrc
      exact ⟨hz, hp hz⟩

theorem not_again (h : ∀ buf size mr dst, s.op ≠ .send buf size mr dst) (code : Int64) : ¬s.Again code := by
  intro ha
  unfold Again at ha
  split at ha
  next buf size mr dst hop => exact h buf size mr dst hop
  all_goals exact ha

theorem request_context (h : s.op ≠ .accept) : s.request.context = some s.awaker := by
  unfold request
  split
  next hop => exact absurd hop h
  all_goals rfl

/-- What `recv` and `write` do with a code. -/
theorem outcome_checked (h : s.Fresh) (ha : ¬s.Again code) (hop : s.op ≠ .accept) (errno : Int32) :
    (s.maybeThrow code.toInt32 errno fun s => s.await s.request.context).Outcome code ↔
      (code ≠ 0 → errno.toInt = -code.toInt) := by
  refine (outcome_maybeThrow h ha errno (outcome_await h.suspensions ha s.request.context)).trans ?_
  exact and_iff_left fun _ => request_context hop

theorem outcome_read (h : s.Fresh) (ha : ¬s.Again code) (hop : s.op ≠ .accept) :
    s.read.Outcome code ↔ code = 0 := by
  unfold read
  rw [outcome_await h.suspensions ha]
  exact and_iff_left (request_context hop)

theorem outcome_accept (h : s.Fresh) (hop : s.op = .accept) :
    (s.accept code.toInt32 errno).Outcome code ↔
      (code ≠ 0 → errno.toInt = -code.toInt) ∧ (code = 0 → s.map s.fid = none) := by
  have ha : ¬s.Again code := not_again (by simp [hop]) code
  apply outcome_maybeThrow h ha errno
  refine (outcome_await (s := s.emplace s.fid s.awaker) h.suspensions ha _).trans (and_congr_right fun _ => ?_)
  show (if s.map s.fid = none then Function.update s.map s.fid (some s.awaker) else s.map) s.fid = some s.awaker ↔ _
  split
  next hnone => simp [hnone]
  next hsome => exact ⟨fun heq => absurd heq (h.map s.fid), fun hnone => absurd hnone hsome⟩

theorem outcome_send (h : s.Fresh) {buf : MemoryBuffer} {size : UInt64} {mr : MemoryRegion} {dst : Option Address}
    (hop : s.op = .send buf size mr dst) : (s.send code.toInt32).Outcome code ↔ Fits code := by
  have hagain : s.Again code ↔ code.toInt = -eagain := by
    unfold Again
    rw [hop]
  unfold send
  split
  next hrc =>
    -- the loop goes on, whatever the code was that became `-EAGAIN` as an `int`
    rw [outcome_calling h, hagain]
    constructor
    · intro hcode
      unfold Fits
      rw [hcode]
      decide
    · intro hfits
      rw [hfits.toInt32_eq rfl (by rw [hrc]; decide), hrc]
  next hrc =>
    have ha : ¬s.Again code := by
      rw [hagain]
      intro hcode
      rw [Int64.toInt_toInt32, hcode] at hrc
      exact hrc (by decide)
    split
    next hnz =>
      have hc : code ≠ 0 := by
        rintro rfl
        exact hnz rfl
      rw [outcome_throwing h ha hc]
      exact toInt_neg_toInt32_iff
    next hz =>
      rw [not_not] at hz
      rw [outcome_await h.suspensions ha, and_iff_left (request_context (by simp [hop]))]
      constructor
      · rintro rfl
        exact ⟨by decide, by decide⟩
      · intro hfits
        exact Int64.toInt_inj.mp (hfits.toInt32_eq hz (by decide))

/-- The request that is posted and what becomes of its code are as they should be exactly when the code and
the state allow it. -/
theorem outcome_ret (h : s.Fresh) :
    s.Names s.request ∧ (s.ret code errno).Outcome code ↔ s.Checked (.ret code errno) := by
  have hfresh := h.record code
  unfold Names request ret Checked
  dsimp only
  cases hop : s.op with
  | accept =>
    dsimp only
    rw [outcome_accept hfresh hop]
    exact and_iff_right rfl
  | send buf size mr dst =>
    dsimp only
    rw [outcome_send hfresh hop]
    have hdest : (∀ peer, dst = some peer → destAddr dst = peer) ↔ ∀ peer ∈ dst, Narrow peer := by
      refine forall_congr' fun peer => forall_congr' fun hdst => ?_
      rw [hdst]
      exact destAddr_eq_iff peer
    rw [hdest]
    constructor
    · rintro ⟨⟨-, -, -, -, hnarrow⟩, hfits⟩
      exact ⟨hfits, hnarrow⟩
    · rintro ⟨hfits, hnarrow⟩
      exact ⟨⟨rfl, rfl, rfl, rfl, hnarrow⟩, hfits⟩
  | recv buf size mr =>
    have ha := not_again (s := s.record code) (by simp [record, hop]) code
    refine (and_iff_right ⟨rfl, rfl, rfl, rfl⟩).trans ?_
    exact outcome_checked hfresh ha (by simp [record, hop]) errno
  | write buf size mr addr key dst =>
    have ha := not_again (s := s.record code) (by simp [record, hop]) code
    refine (and_iff_right ⟨rfl, rfl, rfl, rfl, rfl, rfl, rfl⟩).trans ?_
    exact outcome_checked hfresh ha (by simp [record, hop]) errno
  | read buf size mr addr key src =>
    dsimp only
    rw [outcome_read hfresh (not_again (by simp [record, hop]) code) (by simp [record, hop])]
    constructor
    · rintro ⟨⟨-, -, -, -, hsrc, -⟩, hz⟩
      exact ⟨hz, hsrc⟩
    · rintro ⟨hz, hsrc⟩
      exact ⟨⟨rfl, rfl, rfl, rfl, hsrc, rfl, rfl⟩, hz⟩

/-! ## Runs -/

/-- What a step of the call can do: the loop goes on, an error, or a suspension. -/
theorem ret_cases (code : Int64) (errno : Int32) (s : Submission) :
    s.ret code errno = s.record code ∨ (∃ e, s.ret code errno = (s.record code).throwing e) ∨
    ∃ map posted, s.ret code errno = { (s.record code).await posted with map } := by
  have hcheck : ∀ k : Submission → Submission,
      (∃ map posted, k (s.record code) = { (s.record code).await posted with map }) →
      (∃ e, (s.record code).maybeThrow code.toInt32 errno k = (s.record code).throwing e) ∨
      ∃ map posted, (s.record code).maybeThrow code.toInt32 errno k = { (s.record code).await posted with map } := by
    intro k hk
    unfold maybeThrow
    split
    · exact .inl ⟨_, rfl⟩
    · exact .inr hk
  unfold ret
  dsimp only
  cases s.op with
  | accept => exact .inr (hcheck _ ⟨_, _, rfl⟩)
  | send buf size mr dst =>
    dsimp only [send]
    split
    · exact .inl rfl
    · split
      · exact .inr (.inl ⟨_, rfl⟩)
      · exact .inr (.inr ⟨_, _, rfl⟩)
  | recv buf size mr => exact .inr (hcheck _ ⟨_, _, rfl⟩)
  | write buf size mr addr key dst => exact .inr (hcheck _ ⟨_, _, rfl⟩)
  | read buf size mr addr key src => exact .inr (.inr ⟨_, _, rfl⟩)

theorem Inv.ret (h : s.Inv) (hcalling : s.progress = .calling) : (s.ret code errno).Inv := by
  have hfresh := h.fresh hcalling
  rcases ret_cases code errno s with heq | ⟨e, heq⟩ | ⟨map, posted, heq⟩
  · rw [heq]
    exact ⟨fun _ => hfresh.suspensions, fun _ _ => hfresh.map⟩
  · rw [heq]
    exact ⟨fun hc => (by cases hc), fun _ _ => hfresh.map⟩
  · rw [heq]
    exact ⟨fun hc => (by cases hc), fun hs => absurd rfl hs⟩

theorem Inv.next (h : s.Inv) {a : Act} (he : s.Enabled a) : (s.next a).Inv := by
  cases a with
  | ret code errno => exact h.ret he
  | resume addr => exact ⟨fun hc => (by cases hc), fun _ hr => absurd rfl (hr _)⟩
  | emplace fid n =>
    refine ⟨h.suspensions, fun hs hr fid' => ?_⟩
    show (if s.map fid = none then Function.update s.map fid (some n) else s.map) fid' ≠ some s.awaker
    split
    · rcases eq_or_ne fid' fid with rfl | hne
      · rw [Function.update_self]
        exact fun heq => he.2 (Option.some.inj heq)
      · rw [Function.update_of_ne hne]
        exact h.map hs hr fid'
    · exact h.map hs hr fid'
  | erase fid =>
    refine ⟨h.suspensions, fun hs hr fid' => ?_⟩
    show Function.update s.map fid none fid' ≠ some s.awaker
    rcases eq_or_ne fid' fid with rfl | hne
    · rw [Function.update_self]
      exact fun heq => by cases heq
    · rw [Function.update_of_ne hne]
      exact h.map hs hr fid'

/-- Before it suspends an operation has posted what it should and has repeated its call on `-EAGAIN` alone. -/
theorem Fresh.meets_calling (h : s.Fresh) :
    s.Meets ↔ (∀ r ∈ s.requests, s.Names r) ∧ ∀ code ∈ s.codes, s.Again code := by
  constructor
  · rintro ⟨hnames, hrepeats, hlast⟩
    refine ⟨hnames, fun code hmem => ?_⟩
    rcases List.eq_nil_or_concat' s.codes with hnil | ⟨cs, c, hcs⟩
    · rw [hnil] at hmem
      cases hmem
    · rw [hcs, List.dropLast_concat] at hrepeats
      rw [hcs, List.getLast?_concat] at hlast
      rw [hcs, List.mem_append, List.mem_singleton] at hmem
      rcases hmem with hmem | rfl
      · exact hrepeats code hmem
      · exact (outcome_calling h).mp (hlast code rfl)
  · rintro ⟨hnames, hagain⟩
    refine ⟨hnames, fun code hmem => hagain code (List.mem_of_mem_dropLast hmem), fun code hcode => ?_⟩
    exact (outcome_calling h).mpr (hagain code (List.mem_of_getLast? hcode))

/-- After the call has returned: what held before, the new request and what became of the code. -/
theorem meets_ret (h : s.Fresh) :
    (s.ret code errno).Meets ↔ s.Meets ∧ s.Names s.request ∧ (s.ret code errno).Outcome code := by
  have hsame : (s.ret code errno).requests = s.requests ++ [s.request] ∧
      (s.ret code errno).codes = s.codes ++ [code] ∧
      (∀ r, (s.ret code errno).Names r ↔ s.Names r) ∧ ∀ c, (s.ret code errno).Again c ↔ s.Again c := by
    rcases ret_cases code errno s with heq | ⟨e, heq⟩ | ⟨map, posted, heq⟩
    all_goals
      rw [heq]
      exact ⟨rfl, rfl, fun _ => Iff.rfl, fun _ => Iff.rfl⟩
  obtain ⟨hrequests, hcodes, hnames, hagain⟩ := hsame
  rw [h.meets_calling]
  constructor
  · rintro ⟨hn, hrepeats, hlast⟩
    rw [hrequests] at hn
    rw [hcodes, List.dropLast_concat] at hrepeats
    rw [hcodes, List.getLast?_concat] at hlast
    refine ⟨⟨fun r hr => ?_, fun c hc => ?_⟩, ?_, hlast code rfl⟩
    · exact (hnames r).mp (hn r (List.mem_append_left _ hr))
    · exact (hagain c).mp (hrepeats c hc)
    · exact (hnames _).mp (hn _ List.mem_concat_self)
  · rintro ⟨⟨hn, ha⟩, hrequest, houtcome⟩
    refine ⟨fun r hr => ?_, fun c hc => ?_, fun c hc => ?_⟩
    · rw [hrequests, List.mem_append, List.mem_singleton] at hr
      rw [hnames]
      rcases hr with hr | rfl
      · exact hn r hr
      · exact hrequest
    · rw [hcodes, List.dropLast_concat] at hc
      exact (hagain c).mpr (ha c hc)
    · rw [hcodes, List.getLast?_concat] at hc
      cases hc
      exact houtcome

theorem Inv.absent (h : s.Inv) {e : SystemError} (he : s.progress = .threw e) : ∀ fid, s.map fid ≠ some s.awaker := by
  apply h.map
  · simp [he]
  · simp [he]

/-- Once the operation has suspended or thrown, nothing but its end and the entries of others changes. -/
theorem meets_frame (h : s.Inv) {map : Fid → Option Nat} {progress : Progress}
    (ht : Inv { s with map, progress }) (hs : s.progress ≠ .calling) (hp : progress ≠ .calling)
    (hthrew : ∀ e, progress = .threw e ↔ s.progress = .threw e) :
    Meets { s with map, progress } ↔ s.Meets := by
  have houtcome : ∀ code, Outcome { s with map, progress } code ↔ s.Outcome code := by
    intro code
    unfold Outcome
    by_cases ha : s.Again code
    · rw [if_pos ha, if_pos (show Again { s with map, progress } code from ha)]
      exact iff_of_false hp hs
    · rw [if_neg ha, if_neg (show ¬Again { s with map, progress } code from ha)]
      split
      · constructor
        · rintro ⟨⟨e, he, hvalue⟩, hnone, -⟩
          have he' := (hthrew e).mp he
          exact ⟨⟨e, he', hvalue⟩, hnone, h.absent he'⟩
        · rintro ⟨⟨e, he, hvalue⟩, hnone, -⟩
          have he' := (hthrew e).mpr he
          exact ⟨⟨e, he', hvalue⟩, hnone, ht.absent he'⟩
      · exact Iff.rfl
  constructor
  · rintro ⟨hnames, hrepeats, hlast⟩
    exact ⟨hnames, hrepeats, fun code hcode => (houtcome code).mp (hlast code hcode)⟩
  · rintro ⟨hnames, hrepeats, hlast⟩
    exact ⟨hnames, hrepeats, fun code hcode => (houtcome code).mpr (hlast code hcode)⟩

theorem meets_next (h : s.Inv) {a : Act} (he : s.Enabled a) : (s.next a).Meets ↔ s.Meets ∧ s.Checked a := by
  have hinv := h.next he
  cases a with
  | ret code errno =>
    have hfresh := h.fresh he
    rw [← outcome_ret hfresh]
    exact meets_ret hfresh
  | resume addr =>
    have hsuspended : s.progress = .suspended := he
    refine (meets_frame h hinv ?_ ?_ fun e => ?_).trans (and_iff_left trivial).symm
    · simp [hsuspended]
    · simp
    · simp [hsuspended]
  | emplace fid n => exact (meets_frame h hinv he.1 he.1 fun _ => Iff.rfl).trans (and_iff_left trivial).symm
  | erase fid => exact (meets_frame h hinv he he fun _ => Iff.rfl).trans (and_iff_left trivial).symm

theorem Init.meets (h : s.Init) : s.Meets := by
  refine ⟨?_, ?_, ?_⟩
  · simp [h.requests]
  · simp [h.codes]
  · simp [h.codes]

/-- **The five operations.**  For all arguments and every sequence of codes: at the end of a run an operation has
done what its last code asks for, with requests that name its arguments, exactly when each step is `Checked`. -/
theorem meets_iff (h : s.Init) {acts : List Act} (he : machine.AllEnabled s acts) :
    (machine.runList s acts).Meets ↔ (machine.restrict Checked).AllEnabled s acts := by
  have hrun := @Machine.law_iff_allEnabled _ _ machine Inv Meets Checked
    (fun _ _ hen hi => hi.next hen) (fun _ _ hen hi => meets_next hi hen) acts s h.inv he
  exact hrun.trans (and_iff_right h.meets)

end

/-! ## A `send` and a `read` -/

def buffer : MemoryBuffer := ⟨0x7000⟩

def region : MemoryRegion := ⟨0x9000⟩

/-- An operation begins with nothing in `map_`. -/
def begun (op : Operation) : Submission where
  op
  ep := 0x5000
  fid := 1
  awaker := 0
  map _ := none
  progress := .calling
  requests := []
  codes := []
  suspensions := []
  posted := none

theorem begun_init (op : Operation) : (begun op).Init := ⟨rfl, fun _ h => (by cases h), rfl, rfl, rfl⟩

/-- `fi_send` to peer 3 is busy twice, and then its endpoint is not connected. -/
theorem meets_iff_send :
    (machine.runList (begun (.send buffer 64 region (some 3))) [.ret (-11) 0, .ret (-11) 0, .ret (-107) 0]).Meets ↔
    (machine.restrict Checked).AllEnabled (begun (.send buffer 64 region (some 3)))
      [.ret (-11) 0, .ret (-11) 0, .ret (-107) 0] :=
  meets_iff (begun_init _) (by decide)

/-- `fi_read` fails, and the coroutine of `read` waits as if it had not. -/
theorem read_suspends : ∃ s : Submission, s.Init ∧ machine.AllEnabled s [.ret (-22) 22] ∧
    (machine.runList s [.ret (-22) 22]).codes = [-22] ∧
    (machine.runList s [.ret (-22) 22]).progress = .suspended ∧
    ¬(machine.runList s [.ret (-22) 22]).Meets := by
  refine ⟨begun (.read buffer 64 region 3 7 3), begun_init _, by decide, rfl, rfl, fun hmeets => ?_⟩
  obtain ⟨⟨e, he, -⟩, -⟩ := hmeets.outcome (-22) rfl
  cases he

end Submission

end Sqkio.Net.Fab
