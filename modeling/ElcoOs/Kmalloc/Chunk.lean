import ElcoOs.Lib.Memory

/-!
# Chunks, bins and the allocator state

`kmalloc.h` and the inline functions of `kmalloc_util.h`. A chunk is known by
its address; its fields are words at fixed offsets, and the first of them
overlaps the payload of the chunk before it. `World` is what the allocator
works on: `kmstate`, memory, the state of whoever implements the callbacks,
and a trace of what the code asked for.
-/

namespace ElcoOs.Kmalloc

open Word32

-- ---------------------------------------------------------------------------
-- Constants
-- ---------------------------------------------------------------------------

def pinuse : Nat := 0x1
def cinuse : Nat := 0x2
def flagMask : Nat := 0x7
def chunkOverhead : Nat := 4
def minChunkSize : Nat := 16
def dummySize : Nat := 8
def nsbins : Nat := 32
def ntbins : Nat := 32
def sbinShift : Nat := 3
def tbinShift : Nat := 8
def minLargeSize : Nat := 1 <<< tbinShift
def kmallocStateMagic : Nat := 0xC0FEFE
def heapShrinkTreshold : Nat := 4096
def heapSizeAlign : Nat := 4096
def halfMaxSizeT : Nat := 0xFFFFFFFF / 2

-- ---------------------------------------------------------------------------
-- Chunk fields
-- ---------------------------------------------------------------------------

def prevFoot (m : Memory) (chunk : Nat) : Nat := m.load32 chunk
def header (m : Memory) (chunk : Nat) : Nat := m.load32 (chunk + 4)
def next (m : Memory) (chunk : Nat) : Nat := m.load32 (chunk + 8)
def prev (m : Memory) (chunk : Nat) : Nat := m.load32 (chunk + 12)
def left (m : Memory) (chunk : Nat) : Nat := m.load32 (chunk + 16)
def right (m : Memory) (chunk : Nat) : Nat := m.load32 (chunk + 20)
def parent (m : Memory) (chunk : Nat) : Nat := m.load32 (chunk + 24)
def index (m : Memory) (chunk : Nat) : Nat := m.load32 (chunk + 28)

def setPrevFoot (m : Memory) (chunk v : Nat) : Memory := m.store32 chunk v
def setHeader (m : Memory) (chunk v : Nat) : Memory := m.store32 (chunk + 4) v
def setNext (m : Memory) (chunk v : Nat) : Memory := m.store32 (chunk + 8) v
def setPrev (m : Memory) (chunk v : Nat) : Memory := m.store32 (chunk + 12) v
def setLeft (m : Memory) (chunk v : Nat) : Memory := m.store32 (chunk + 16) v
def setRight (m : Memory) (chunk v : Nat) : Memory := m.store32 (chunk + 20) v
def setParent (m : Memory) (chunk v : Nat) : Memory := m.store32 (chunk + 24) v
def setIndex (m : Memory) (chunk v : Nat) : Memory := m.store32 (chunk + 28) v

-- ---------------------------------------------------------------------------
-- Chunk macros
-- ---------------------------------------------------------------------------

def isInuse (m : Memory) (chunk : Nat) : Prop := header m chunk &&& cinuse ≠ 0
def prevInuse (m : Memory) (chunk : Nat) : Prop := header m chunk &&& pinuse ≠ 0

instance : Decidable (isInuse m chunk) := inferInstanceAs (Decidable (_ ≠ _))
instance : Decidable (prevInuse m chunk) := inferInstanceAs (Decidable (_ ≠ _))

def getChunkSize (m : Memory) (chunk : Nat) : Nat := header m chunk &&& not32 flagMask
def chunkPayload (chunk : Nat) : Nat := add chunk 8
def chunkPayloadSize (m : Memory) (chunk : Nat) : Nat := sub (getChunkSize m chunk) chunkOverhead
def payloadChunk (ptr : Nat) : Nat := sub ptr 8
def chunkAlign (x : Nat) : Nat := add x 7 &&& not32 7
def chunkSizeAlign (x : Nat) : Nat := add x 7 &&& not32 7
def chunkFloor (x : Nat) : Nat := x &&& not32 7

def request2Size (req : Nat) : Nat :=
  if add req chunkOverhead < minChunkSize then minChunkSize
  else chunkSizeAlign (add req chunkOverhead)

def requestOverflow (req : Nat) : Prop := request2Size req < req

instance : Decidable (requestOverflow req) := inferInstanceAs (Decidable (_ < _))

def nextChunk (m : Memory) (ptr : Nat) : Nat := add ptr (getChunkSize m ptr)
def prevChunk (m : Memory) (ptr : Nat) : Nat := sub ptr (prevFoot m ptr)
def chunkOffset (ptr off : Nat) : Nat := add ptr off

-- ---------------------------------------------------------------------------
-- Bin macros
-- ---------------------------------------------------------------------------

def smallIndex (s : Nat) : Nat := s >>> sbinShift

def tbinDepth (index : Nat) : Nat := (index >>> 1) + tbinShift - 1

def calcTbin (size : Nat) : Nat :=
  if size < 1 <<< tbinShift then 0
  else if size > 0xFFFF <<< tbinShift then 31
  else
    let msb := 31 - clz size
    ((msb - tbinShift) <<< 1) ||| ((size >>> (msb - 1)) &&& 1)

def calcLeftbin (index map : Nat) : Nat := ctz (map &&& sub 0 (1 <<< index))

/-- A right shift of a bitmap. C leaves a count of 32 or more undefined; the
i386 `shr` takes the count modulo 32. -/
def shr (map count : Nat) : Nat := map >>> (count % 32)

-- ---------------------------------------------------------------------------
-- State
-- ---------------------------------------------------------------------------

structure KmallocState where
  heapStart : Nat
  heapSize : Nat
  initialHeapSize : Nat
  sbinmap : Nat
  tbinmap : Nat
  sbin : Nat → Nat
  tbin : Nat → Nat
  dVictim : Nat
  dVictimSize : Nat
  topChunk : Nat
  topChunkSize : Nat
  magic : Nat

def KmallocState.isInit (st : KmallocState) : Prop := st.heapStart ≠ 0 ∧
    st.magic = kmallocStateMagic

instance (st : KmallocState) : Decidable st.isInit := inferInstanceAs (Decidable (_ ∧ _))

def addressOk (chunk : Nat) (st : KmallocState) : Prop :=
  st.heapStart ≤ chunk ∧ chunk < add st.heapStart st.heapSize

instance : Decidable (addressOk chunk st) := inferInstanceAs (Decidable (_ ∧ _))

/-- What the code hands to its environment, and the operands of its operators
that have a precondition. Events only record; nothing reads them. -/
inductive Event where
  /-- `ACTION_SBRK (increment)` -/
  | sbrk (increment : Int)
  /-- `ACTION_ABORT ()` -/
  | abort
  /-- `sbinmap` or `tbinmap` shifted right by `count` -/
  | shift (count : Nat)
  /-- `calc_leftbin (0, map)`, which selects the bin with this head -/
  | leftbin (map head : Nat)
  /-- a chunk of `size` bytes about to serve a request of `wanted` bytes -/
  | carve (size wanted : Nat)
  deriving DecidableEq, Repr

/-- The functions behind `ACTION_SBRK` and `ACTION_ABORT`. The first answers
whether it succeeded; it may map and unmap memory. -/
structure Callbacks (ε : Type) where
  sbrk : Int → ε → Memory → Bool × ε × Memory
  abort : ε → ε

structure World (ε : Type) where
  kmstate : KmallocState
  mem : Memory
  env : ε
  /-- latest first -/
  trace : List Event

namespace World

variable {ε : Type}

def emit (w : World ε) (e : Event) : World ε := { w with trace := e :: w.trace }

def setHeader (w : World ε) (chunk v : Nat) : World ε :=
  { w with mem := Kmalloc.setHeader w.mem chunk v }

def setPrevFoot (w : World ε) (chunk v : Nat) : World ε :=
  { w with mem := Kmalloc.setPrevFoot w.mem chunk v }

def setDVictim (w : World ε) (chunk size : Nat) : World ε :=
  { w with kmstate := { w.kmstate with dVictim := chunk, dVictimSize := size } }

def setTopChunk (w : World ε) (chunk size : Nat) : World ε :=
  { w with kmstate := { w.kmstate with topChunk := chunk, topChunkSize := size } }

def setSbin (w : World ε) (i head : Nat) : World ε :=
  { w with kmstate := { w.kmstate with sbin := Function.update w.kmstate.sbin i head } }

def setTbin (w : World ε) (i root : Nat) : World ε :=
  { w with kmstate := { w.kmstate with tbin := Function.update w.kmstate.tbin i root } }

def setSbinmap (w : World ε) (map : Nat) : World ε :=
  { w with kmstate := { w.kmstate with sbinmap := map } }

def setTbinmap (w : World ε) (map : Nat) : World ε :=
  { w with kmstate := { w.kmstate with tbinmap := map } }

def setMem (w : World ε) (m : Memory) : World ε := { w with mem := m }

end World

def actionSbrk (cb : Callbacks ε) (w : World ε) (increment : Int) : Bool × World ε :=
  let r := cb.sbrk increment w.env w.mem
  (r.1, { w.emit (.sbrk increment) with env := r.2.1, mem := r.2.2 })

def actionAbort (cb : Callbacks ε) (w : World ε) : World ε :=
  { w.emit .abort with env := cb.abort w.env }

end ElcoOs.Kmalloc
