import Mathlib.Logic.Function.Basic
import Sqkio.Tlsf.Mapping

/-!
# The pool functions of `tlsf.c`

A pool is a `tlsf_t` and the memory behind it, a word of 8 bytes at each address that is a multiple of 8 from the
start of the pool.

    b            prev_hdr           the block before, while it is free
    b + 8        size               | FREE_BLOCK | PREV_FREE
    b + 16       buffer, and in a free block free_ptr.prev
    b + 24                                   free_ptr.next
    b + 16 + size                   the next block

There is no check in C that an index is inside `matrix`; a function of which this is not so has no result.
-/

namespace Sqkio.Common

/-- Addresses are numbers, and `0` is the null pointer. -/
structure TlsfT where
  tlsfSignature : Nat
  areaHead : Nat
  flBitmap : BitVec 32
  slBitmap : Nat → BitVec 32
  matrix : TlsfT.Idx → Nat
  mem : Nat → Nat

namespace TlsfT

def MIN_BLOCK_SIZE : Nat := 16

def BHDR_OVERHEAD : Nat := 16

/-- `sizeof(bhdr_t)` -/
def sizeofBhdr : Nat := 32

/-- `sizeof(area_info_t)` -/
def sizeofAreaInfo : Nat := 16

/-- `sizeof(tlsf_t)` -/
def sizeofTlsfT : Nat := 6264

def TLSF_SIGNATURE : Nat := 0x2A59FA59

def PTR_MASK : Nat := 7

def BLOCK_SIZE : Nat := 0xFFFFFFFF - PTR_MASK

def MEM_ALIGN : Nat := 15

def PREV_STATE : Nat := 0x2

def FREE_BLOCK : Nat := 0x1

def USED_BLOCK : Nat := 0x0

def PREV_FREE : Nat := 0x2

def PREV_USED : Nat := 0x0

/-- `~x` -/
def inv (x : Nat) : Nat := 2 ^ 64 - 1 - x

/-- `x + y` of a `size_t` -/
def add (x y : Nat) : Nat := (x + y) % 2 ^ 64

/-- `x - y` of a `size_t` -/
def sub (x y : Nat) : Nat := (x + (2 ^ 64 - y)) % 2 ^ 64

def roundupSize (r : Nat) : Nat := add r MEM_ALIGN &&& inv MEM_ALIGN

def rounddownSize (r : Nat) : Nat := r &&& inv MEM_ALIGN

def getNextBlock (addr r : Nat) : Nat := addr + r

def setBit (nr : Nat) (x : BitVec 32) : BitVec 32 := x ||| 1#32 <<< (nr &&& 0x1f)

def clearBit (nr : Nat) (x : BitVec 32) : BitVec 32 := x &&& ~~~(1#32 <<< (nr &&& 0x1f))

/-! ## Blocks -/

def buffer (b : Nat) : Nat := b + 16

def prevHdr (h : TlsfT) (b : Nat) : Nat := h.mem b

def size (h : TlsfT) (b : Nat) : Nat := h.mem (b + 8)

def prev (h : TlsfT) (b : Nat) : Nat := h.mem (b + 16)

def next (h : TlsfT) (b : Nat) : Nat := h.mem (b + 24)

def store (h : TlsfT) (a : Nat) (v : Nat) : TlsfT := { h with mem := Function.update h.mem a v }

def setPrevHdr (h : TlsfT) (b : Nat) (v : Nat) : TlsfT := h.store b v

def setSize (h : TlsfT) (b : Nat) (v : Nat) : TlsfT := h.store (b + 8) v

def setPrev (h : TlsfT) (b : Nat) (v : Nat) : TlsfT := h.store (b + 16) v

def setNext (h : TlsfT) (b : Nat) (v : Nat) : TlsfT := h.store (b + 24) v

/-- The byte at an address. -/
def byte (h : TlsfT) (a : Nat) : Nat := Lib.Bits.getByte (h.mem (8 * (a / 8))) (a % 8)

def setByte (h : TlsfT) (a : Nat) (v : Nat) : TlsfT :=
  h.store (8 * (a / 8)) (Lib.Bits.setByte (h.mem (8 * (a / 8))) (a % 8) v)

def setMatrix (h : TlsfT) (c : Idx) (b : Nat) : TlsfT := { h with matrix := Function.update h.matrix c b }

/-! ## The free lists -/

/-- The block, or a null pointer, and its class.  If there is none, the class is of no use. -/
def findSuitableBlock (h : TlsfT) (c : Idx) : Option (Nat × Idx) :=
  let tmp := h.slBitmap c.fl &&& BitVec.allOnes 32 <<< c.sl
  if tmp ≠ 0 then (idx? c.fl (lsBit tmp)).map fun c => (h.matrix c, c)
  else
    let fl := lsBit (h.flBitmap &&& BitVec.allOnes 32 <<< (c.fl + 1))
    if 0 < fl then (idx? fl (lsBit (h.slBitmap fl.toNat))).map fun c => (h.matrix c, c)
    else some (0, c)

/-- The list of the class is empty now. -/
def clearBits (h : TlsfT) (c : Idx) : TlsfT :=
  let h := { h with slBitmap := Function.update h.slBitmap c.fl (clearBit c.sl (h.slBitmap c.fl)) }
  if h.slBitmap c.fl = 0 then { h with flBitmap := clearBit c.fl h.flBitmap } else h

def extractBlockHdr (b : Nat) (c : Idx) (h : TlsfT) : TlsfT :=
  let h := h.setMatrix c (h.next b)
  let h := if h.matrix c ≠ 0 then h.setPrev (h.matrix c) 0 else h.clearBits c
  let h := h.setPrev b 0
  h.setNext b 0

/-- The blocks before and behind `b` in its list get linked to each other. -/
def unlink (b : Nat) (h : TlsfT) : TlsfT :=
  let h := if h.next b ≠ 0 then h.setPrev (h.next b) (h.prev b) else h
  if h.prev b ≠ 0 then h.setNext (h.prev b) (h.next b) else h

def extractBlock (b : Nat) (c : Idx) (h : TlsfT) : TlsfT :=
  let h := h.unlink b
  let h :=
    if h.matrix c = b then
      let h := h.setMatrix c (h.next b)
      if h.matrix c = 0 then h.clearBits c else h
    else h
  let h := h.setPrev b 0
  h.setNext b 0

def insertBlock (b : Nat) (c : Idx) (h : TlsfT) : TlsfT :=
  let h := h.setPrev b 0
  let h := h.setNext b (h.matrix c)
  let h := if h.matrix c ≠ 0 then h.setPrev (h.matrix c) b else h
  let h := h.setMatrix c b
  { h with
    slBitmap := Function.update h.slBitmap c.fl (setBit c.sl (h.slBitmap c.fl))
    flBitmap := setBit c.fl h.flBitmap }

/-! ## Allocation -/

/-- What `malloc_ex` and `realloc_ex` make of a requested size. -/
def blockSize (size : Nat) : Nat := if size < MIN_BLOCK_SIZE then MIN_BLOCK_SIZE else roundupSize size

/-- `found:` of `malloc_ex`, where the block `b` is in no list any more. -/
def found (b size : Nat) (h : TlsfT) : Option (Nat × TlsfT) := do
  let nextB := getNextBlock (buffer b) (h.size b &&& BLOCK_SIZE)
  let tmpSize := sub (h.size b &&& BLOCK_SIZE) size
  if sizeofBhdr ≤ tmpSize then
    let tmpSize := sub tmpSize BHDR_OVERHEAD
    let b2 := getNextBlock (buffer b) size
    let h := h.setSize b2 (tmpSize ||| FREE_BLOCK ||| PREV_USED)
    let h := h.setPrevHdr nextB b2
    let c ← mappingInsert tmpSize
    let h := h.insertBlock b2 c
    let h := h.setSize b (size ||| (h.size b &&& PREV_STATE))
    return (buffer b, h)
  else
    let h := h.setSize nextB (h.size nextB &&& inv PREV_FREE)
    let h := h.setSize b (h.size b &&& inv FREE_BLOCK)
    return (buffer b, h)

def mallocEx (size : Nat) (h : TlsfT) : Option (Nat × TlsfT) := do
  let size := blockSize size
  let (size, c) ← mappingSearch size
  let (b, c) ← h.findSuitableBlock c
  if b = 0 then return (0, h)
  (h.extractBlockHdr b c).found b size

/-- `MAPPING_INSERT` of the size of the free block `b`, and `EXTRACT_BLOCK`. -/
def takeOut (b : Nat) (h : TlsfT) : Option TlsfT :=
  (mappingInsert (h.size b &&& BLOCK_SIZE)).map fun c => h.extractBlock b c

/-- `MAPPING_INSERT` of the size, and `INSERT_BLOCK`. -/
def putIn (b : Nat) (size : Nat) (h : TlsfT) : Option TlsfT :=
  (mappingInsert size).map fun c => h.insertBlock b c

/-- The block `b` takes in the next one, if that is free. -/
def mergeNext (b : Nat) (h : TlsfT) : Option TlsfT :=
  let tmpB := getNextBlock (buffer b) (h.size b &&& BLOCK_SIZE)
  if h.size tmpB &&& FREE_BLOCK ≠ 0 then
    (h.takeOut tmpB).map fun h => h.setSize b (add (h.size b) (add (h.size tmpB &&& BLOCK_SIZE) BHDR_OVERHEAD))
  else some h

/-- The block before takes in the block `b`, if that is free; the result is the block to go on with. -/
def mergePrev (b : Nat) (h : TlsfT) : Option (Nat × TlsfT) :=
  if h.size b &&& PREV_FREE ≠ 0 then
    let tmpB := h.prevHdr b
    (h.takeOut tmpB).map fun h =>
      (tmpB, h.setSize tmpB (add (h.size tmpB) (add (h.size b &&& BLOCK_SIZE) BHDR_OVERHEAD)))
  else some (b, h)

def freeEx (ptr : Nat) (h : TlsfT) : Option TlsfT := do
  if ptr = 0 then return h
  let b := ptr - BHDR_OVERHEAD
  let h := h.setSize b (h.size b ||| FREE_BLOCK)
  let h := h.setPrev b 0
  let h := h.setNext b 0
  let h ← h.mergeNext b
  let (b, h) ← h.mergePrev b
  let h ← h.putIn b (h.size b &&& BLOCK_SIZE)
  let tmpB := getNextBlock (buffer b) (h.size b &&& BLOCK_SIZE)
  let h := h.setSize tmpB (h.size tmpB ||| PREV_FREE)
  return h.setPrevHdr tmpB b

/-- `memcpy` of a number of bytes that is a multiple of 8. -/
def memcpy (dst src : Nat) (n : Nat) (h : TlsfT) : TlsfT :=
  { h with mem := fun a => if dst ≤ a ∧ a < dst + n then h.mem (src + (a - dst)) else h.mem a }

/-- `memset(dst, 0, n)`; of the last word only the low bytes may be in the range. -/
def memset0 (dst : Nat) (n : Nat) (h : TlsfT) : TlsfT :=
  { h with
    mem := fun a =>
      if dst ≤ a ∧ a + 8 ≤ dst + n then 0
      else if dst ≤ a ∧ a < dst + n then Lib.Bits.clearBytes (h.mem a) (dst + n - a)
      else h.mem a }

/-- What `realloc_ex` does with the `tmp_size` bytes that the block `b` has too much; `next_b` is behind them. -/
def splitBlock (b nextB : Nat) (newSize tmpSize : Nat) (h : TlsfT) : Option TlsfT :=
  if sizeofBhdr ≤ tmpSize then
    let tmpSize := sub tmpSize BHDR_OVERHEAD
    let tmpB := getNextBlock (buffer b) newSize
    let h := h.setSize tmpB (tmpSize ||| FREE_BLOCK ||| PREV_USED)
    let h := h.setPrevHdr nextB tmpB
    let h := h.setSize nextB (h.size nextB ||| PREV_FREE)
    (h.putIn tmpB tmpSize).map fun h => h.setSize b (newSize ||| (h.size b &&& PREV_STATE))
  else some h

/-- `new_size <= tmp_size`: the block stays where it is, and what is free behind it is taken in first. -/
def reallocShrink (b : Nat) (newSize : Nat) (h : TlsfT) : Option (Nat × TlsfT) := do
  let nextB := getNextBlock (buffer b) (h.size b &&& BLOCK_SIZE)
  let tmpSize := h.size b &&& BLOCK_SIZE
  let (nextB, tmpSize, h) ←
    if h.size nextB &&& FREE_BLOCK ≠ 0 then
      (h.takeOut nextB).map fun h =>
        (getNextBlock (buffer nextB) (h.size nextB &&& BLOCK_SIZE),
          add tmpSize (add (h.size nextB &&& BLOCK_SIZE) BHDR_OVERHEAD), h)
    else some (nextB, tmpSize, h)
  let h ← h.splitBlock b nextB newSize (sub tmpSize newSize)
  return (buffer b, h)

/-- The next block is free and large enough. -/
def reallocGrow (b : Nat) (newSize : Nat) (h : TlsfT) : Option (Nat × TlsfT) := do
  let nextB := getNextBlock (buffer b) (h.size b &&& BLOCK_SIZE)
  let h ← h.takeOut nextB
  let h := h.setSize b (add (h.size b) (add (h.size nextB &&& BLOCK_SIZE) BHDR_OVERHEAD))
  let nextB := getNextBlock (buffer b) (h.size b &&& BLOCK_SIZE)
  let h := h.setPrevHdr nextB b
  let h := h.setSize nextB (h.size nextB &&& inv PREV_FREE)
  let h ← h.splitBlock b nextB newSize (sub (h.size b &&& BLOCK_SIZE) newSize)
  return (buffer b, h)

/-- A new block gets the contents of the old one. -/
def reallocMove (ptr : Nat) (newSize : Nat) (h : TlsfT) : Option (Nat × TlsfT) := do
  let b := ptr - BHDR_OVERHEAD
  let (ptrAux, h) ← h.mallocEx newSize
  if ptrAux = 0 then return (0, h)
  let cpsize := if newSize < h.size b &&& BLOCK_SIZE then newSize else h.size b &&& BLOCK_SIZE
  let h := h.memcpy ptrAux ptr (cpsize % 2 ^ 32)
  let h ← h.freeEx ptr
  return (ptrAux, h)

def reallocEx (ptr : Nat) (newSize : Nat) (h : TlsfT) : Option (Nat × TlsfT) := do
  if ptr = 0 then
    if newSize ≠ 0 then h.mallocEx newSize else return (0, h)
  else if newSize = 0 then
    let h ← h.freeEx ptr
    return (0, h)
  else
    let b := ptr - BHDR_OVERHEAD
    let nextB := getNextBlock (buffer b) (h.size b &&& BLOCK_SIZE)
    let newSize := blockSize newSize
    let tmpSize := h.size b &&& BLOCK_SIZE
    if newSize ≤ tmpSize then h.reallocShrink b newSize
    else if h.size nextB &&& FREE_BLOCK ≠ 0 ∧ newSize ≤ add tmpSize (h.size nextB &&& BLOCK_SIZE) then
      h.reallocGrow b newSize
    else h.reallocMove ptr newSize

def callocEx (nelem elemSize : Nat) (h : TlsfT) : Option (Nat × TlsfT) := do
  if nelem = 0 ∨ elemSize = 0 then return (0, h)
  let (ptr, h) ← h.mallocEx (nelem * elemSize % 2 ^ 64)
  if ptr = 0 then return (0, h)
  return (ptr, h.memset0 ptr (nelem * elemSize % 2 ^ 64))

/-! ## A new pool -/

/-- The blocks of a new area: one for the `area_info_t`, one for the rest, and the sentinel. -/
def processArea (area size : Nat) (h : TlsfT) : Nat × TlsfT :=
  let ib := area
  let h := h.setSize ib
    (if sizeofAreaInfo < MIN_BLOCK_SIZE then MIN_BLOCK_SIZE else roundupSize
    sizeofAreaInfo ||| USED_BLOCK ||| PREV_USED)
  let b := getNextBlock (buffer ib) (h.size ib &&& BLOCK_SIZE)
  let h := h.setSize b
    (rounddownSize (sub (sub size (3 * BHDR_OVERHEAD)) (h.size ib &&& BLOCK_SIZE)) ||| USED_BLOCK ||| PREV_USED)
  let h := h.setNext b 0
  let h := h.setPrev b 0
  let lb := getNextBlock (buffer b) (h.size b &&& BLOCK_SIZE)
  let h := h.setPrevHdr lb b
  let h := h.setSize lb (0 ||| USED_BLOCK ||| PREV_FREE)
  let ai := buffer ib
  let h := h.store (ai + 8) 0
  (ib, h.store ai lb)

/-- The first result is what is returned; `(size_t)-1` if the pool is refused. -/
def initMemoryPool (memPoolSize : Nat) (memPool : Nat) (h : TlsfT) : Option (Nat × TlsfT) := do
  if memPool = 0 ∨ memPoolSize = 0 ∨ memPoolSize < sizeofTlsfT + BHDR_OVERHEAD * 8 then return (2 ^ 64 - 1, h)
  if memPool &&& PTR_MASK ≠ 0 then return (2 ^ 64 - 1, h)
  if h.tlsfSignature = TLSF_SIGNATURE then
    let b := getNextBlock memPool (roundupSize sizeofTlsfT)
    return (h.size b &&& BLOCK_SIZE, h)
  let h : TlsfT :=
    { h with
      tlsfSignature := TLSF_SIGNATURE, areaHead := 0, flBitmap := 0, slBitmap := fun _ => 0, matrix := fun _ => 0 }
  let (ib, h) := h.processArea (getNextBlock memPool (roundupSize sizeofTlsfT))
    (rounddownSize (sub memPoolSize sizeofTlsfT))
  let b := getNextBlock (buffer ib) (h.size ib &&& BLOCK_SIZE)
  let h ← h.freeEx (buffer b)
  let h := { h with areaHead := buffer ib }
  return (h.size b &&& BLOCK_SIZE, h)

def destroyMemoryPool (h : TlsfT) : TlsfT := { h with tlsfSignature := 0 }

end TlsfT

end Sqkio.Common
