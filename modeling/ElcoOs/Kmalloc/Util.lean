import ElcoOs.Kmalloc.Tree
import Mathlib.Logic.Function.Basic

/-!
# Allocation primitives

`kmalloc_util.c` and `kmalloc_init`. Each function takes the world and returns
it with its result; a result that the source tests against null or zero is the
word itself. `none` is an index outside `sbin` or `tbin`, or a tree loop that
did not end.
-/

namespace ElcoOs.Kmalloc

open Word32

variable {ε : Type}

-- ---------------------------------------------------------------------------
-- Initialisation
-- ---------------------------------------------------------------------------

def kmallocInit (w : World ε) (heapAddr heapSize : Nat) : World ε :=
  if heapAddr = 0 then w
  else
    let topChunk := chunkAlign heapAddr
    let offset := sub topChunk heapAddr
    if add (add offset minChunkSize) dummySize > heapSize then w
    else
      let topSize := chunkFloor (sub (sub heapSize offset) dummySize)
      let m := setHeader w.mem topChunk (topSize ||| pinuse)
      let m := setPrev m topChunk topChunk
      let m := setNext m topChunk topChunk
      let m := setPrevFoot m (nextChunk m topChunk) topSize
      let m := setHeader m (nextChunk m topChunk) 0
      { w with
        mem := m
        kmstate :=
          { heapStart := topChunk
            heapSize := sub heapSize offset
            initialHeapSize := sub heapSize offset
            sbinmap := 0
            tbinmap := 0
            sbin := fun _ => 0
            tbin := fun _ => 0
            dVictim := 0
            dVictimSize := 0
            topChunk := topChunk
            topChunkSize := topSize
            magic := kmallocStateMagic } }

-- ---------------------------------------------------------------------------
-- Bins
-- ---------------------------------------------------------------------------

def binChunk (w : World ε) (chunk : Nat) : Option (World ε) := do
  let size := getChunkSize w.mem chunk
  if size < minLargeSize then
    let index := smallIndex size
    guard (index < nsbins)
    let r := kmallocDllistAdd w.mem chunk (w.kmstate.sbin index)
    let w := (w.setMem r.1).setSbin index r.2
    return w.setSbinmap (w.kmstate.sbinmap ||| 1 <<< index)
  else
    let index := calcTbin size
    guard (index < ntbins)
    let w := w.setMem (setIndex w.mem chunk index)
    let r := kmallocTreeInsert w.mem chunk (w.kmstate.tbin index) (tbinDepth index)
    let w := (w.setMem r.1).setTbin index r.2
    return w.setTbinmap (w.kmstate.tbinmap ||| 1 <<< index)

/-- `sbinmap` with the bit of an emptied bin cleared. -/
def clearSbin (w : World ε) (index : Nat) : World ε :=
  if w.kmstate.sbin index = 0 then w.setSbinmap (w.kmstate.sbinmap &&& not32 (1 <<< index)) else w

/-- `tbinmap` with the bit of an emptied bin cleared. -/
def clearTbin (w : World ε) (index : Nat) : World ε :=
  if w.kmstate.tbin index = 0 then w.setTbinmap (w.kmstate.tbinmap &&& not32 (1 <<< index)) else w

/-- `kmalloc_tree_remove (chunk, &kmstate.tbin[index])` -/
def removeTchunk (w : World ε) (chunk index : Nat) : Option (World ε) := do
  guard (index < ntbins)
  let r ← kmallocTreeRemove w.mem chunk (w.kmstate.tbin index)
  return (w.setMem r.1).setTbin index r.2

def unbinChunk (w : World ε) (chunk : Nat) : Option (World ε) := do
  let size := getChunkSize w.mem chunk
  if size < minLargeSize then
    let index := smallIndex size
    guard (index < nsbins)
    let r := kmallocDllistRemoveIntern w.mem chunk (w.kmstate.sbin index)
    return clearSbin ((w.setMem r.2.1).setSbin index r.2.2) index
  else
    let index := Kmalloc.index w.mem chunk
    let w ← removeTchunk w chunk index
    return clearTbin w index

-- ---------------------------------------------------------------------------
-- Top chunk
-- ---------------------------------------------------------------------------

def shrinkTop (cb : Callbacks ε) (w : World ε) : World ε :=
  let st := w.kmstate
  if st.topChunkSize > heapShrinkTreshold ∧ st.heapSize ≥ st.initialHeapSize then
    let decrease := sub st.topChunkSize heapShrinkTreshold
    let newsize := sub st.heapSize decrease
    let newsize := if newsize < st.initialHeapSize then st.initialHeapSize else newsize
    let newsize := add newsize (heapSizeAlign - 1) &&& not32 (heapSizeAlign - 1)
    let decrease := sub st.heapSize newsize
    if decrease > 0 then
      let decrease :=
        if decrease > halfMaxSizeT then halfMaxSizeT &&& not32 (heapSizeAlign - 1) else decrease
      let r := actionSbrk cb w (toInt (sub 0 decrease))
      let w := r.2
      if r.1 then
        let st := w.kmstate
        let topChunkSize := sub st.topChunkSize decrease
        let w :=
          { w with
            kmstate :=
              { st with heapSize := sub st.heapSize decrease, topChunkSize := topChunkSize } }
        if topChunkSize ≠ 0 then
          let w := w.setHeader st.topChunk (topChunkSize ||| pinuse)
          let dummy := nextChunk w.mem st.topChunk
          (w.setPrevFoot dummy topChunkSize).setHeader dummy 0
        else w.setHeader st.topChunk 0
      else w
    else w
  else w

def growTop (cb : Callbacks ε) (w : World ε) (increment : Nat) : Bool × World ε :=
  let increment := add increment (heapSizeAlign - 1) &&& not32 (heapSizeAlign - 1)
  if increment > halfMaxSizeT then (false, w)
  else
    let r := actionSbrk cb w (toInt increment)
    let w := r.2
    if r.1 then
      let st := w.kmstate
      let topChunkSize := add st.topChunkSize increment
      let w :=
        { w with
          kmstate :=
            { st with heapSize := add st.heapSize increment, topChunkSize := topChunkSize } }
      let w := w.setHeader st.topChunk (topChunkSize ||| pinuse)
      let dummy := nextChunk w.mem st.topChunk
      (true, (w.setPrevFoot dummy topChunkSize).setHeader dummy 0)
    else (false, w)

/-- The part of `split_top` after the heap has grown. -/
def carveTop (w : World ε) (chunksize : Nat) : Nat × World ε :=
  let st := w.kmstate
  let chunk := st.topChunk
  let w := w.emit (.carve (getChunkSize w.mem chunk) chunksize)
  if sub st.topChunkSize chunksize < minChunkSize then
    let w := w.setHeader chunk (chunksize ||| pinuse ||| cinuse)
    let top := nextChunk w.mem chunk
    (chunkPayload chunk, (w.setTopChunk top 0).setHeader top 0)
  else
    let splitSize := sub st.topChunkSize chunksize
    let w := w.setHeader chunk (chunksize ||| pinuse ||| cinuse)
    let top := chunkOffset chunk chunksize
    let w := (w.setTopChunk top splitSize).setHeader top (splitSize ||| pinuse)
    (chunkPayload chunk, w.setPrevFoot (nextChunk w.mem top) splitSize)

def splitTop (cb : Callbacks ε) (w : World ε) (chunksize : Nat)
    (allowExpand : Bool) : Nat × World ε :=
  let st := w.kmstate
  if st.topChunkSize < chunksize then
    if allowExpand then
      let r := growTop cb w (sub chunksize st.topChunkSize)
      if r.1 then carveTop r.2 chunksize else (0, r.2)
    else (0, w)
  else carveTop w chunksize

-- ---------------------------------------------------------------------------
-- Designated victim
-- ---------------------------------------------------------------------------

def allocateDv (w : World ε) (chunksize : Nat) : Nat × World ε :=
  let st := w.kmstate
  if st.dVictim = 0 ∨ st.dVictimSize < chunksize then (0, w)
  else
    let chunk := st.dVictim
    let w := w.emit (.carve (getChunkSize w.mem chunk) chunksize)
    if sub st.dVictimSize chunksize < minChunkSize then
      let w := w.setHeader chunk (header w.mem chunk ||| cinuse)
      let nxt := nextChunk w.mem chunk
      let w := w.setHeader nxt (header w.mem nxt ||| pinuse)
      (chunkPayload chunk, w.setDVictim 0 0)
    else
      let splitSize := sub st.dVictimSize chunksize
      let w := w.setHeader chunk (chunksize ||| pinuse ||| cinuse)
      let dv := chunkOffset chunk chunksize
      let w := (w.setDVictim dv splitSize).setHeader dv (splitSize ||| pinuse)
      (chunkPayload chunk, w.setPrevFoot (nextChunk w.mem dv) splitSize)

def replaceDv (w : World ε) (new : Nat) : Option (World ε) := do
  let w ← if w.kmstate.dVictim ≠ 0 then binChunk w w.kmstate.dVictim else some w
  return w.setDVictim new (getChunkSize w.mem new)

-- ---------------------------------------------------------------------------
-- Allocation from the bins
-- ---------------------------------------------------------------------------

/-- `kmalloc_dllist_remove (&kmstate.sbin[index])` and the update of `sbinmap`. -/
def removeSchunk (w : World ε) (index : Nat) : Nat × World ε :=
  let r := kmallocDllistRemove w.mem (w.kmstate.sbin index)
  (r.1, clearSbin ((w.setMem r.2.1).setSbin index r.2.2) index)

def splitSbin (w : World ε) (index chunksize : Nat) : Option (Nat × World ε) := do
  guard (index < nsbins)
  let r := removeSchunk w index
  let chunk := r.1
  let w := r.2
  if chunk = 0 then return (0, w)
  else
    let w := w.emit (.carve (getChunkSize w.mem chunk) chunksize)
    let splitSize := sub (getChunkSize w.mem chunk) chunksize
    let w := w.setHeader chunk (chunksize ||| pinuse ||| cinuse)
    let new := chunkOffset chunk chunksize
    let w := w.setHeader new (splitSize ||| pinuse)
    let w := w.setPrevFoot (nextChunk w.mem new) splitSize
    let w ← replaceDv w new
    return (chunkPayload chunk, w)

/-- `chunksize` is only recorded: the function takes whatever the bin holds. -/
def allocateSbin (w : World ε) (index chunksize : Nat) : Option (Nat × World ε) := do
  guard (index < nsbins)
  let r := removeSchunk w index
  let chunk := r.1
  let w := r.2
  if chunk = 0 then return (0, w)
  else
    let w := w.emit (.carve (getChunkSize w.mem chunk) chunksize)
    let w := w.setHeader chunk (header w.mem chunk ||| cinuse)
    let nxt := nextChunk w.mem chunk
    return (chunkPayload chunk, w.setHeader nxt (header w.mem nxt ||| pinuse))

def allocateTchunk (w : World ε) (chunk wantedSize : Nat) : Option (Nat × World ε) := do
  if chunk = 0 then return (0, w)
  else
    let w := w.emit (.carve (getChunkSize w.mem chunk) wantedSize)
    let w ← removeTchunk w chunk (index w.mem chunk)
    let w := clearTbin w (index w.mem chunk)
    let splitsize := sub (getChunkSize w.mem chunk) wantedSize
    if splitsize > minChunkSize then
      let new := chunkOffset chunk wantedSize
      let w := w.setHeader chunk (wantedSize ||| cinuse ||| pinuse)
      let w := w.setHeader new (splitsize ||| pinuse)
      let w := w.setPrevFoot (nextChunk w.mem new) splitsize
      let w ← replaceDv w new
      return (chunkPayload chunk, w)
    else
      let w := w.setHeader chunk (header w.mem chunk ||| cinuse)
      let nxt := nextChunk w.mem chunk
      return (chunkPayload chunk, w.setHeader nxt (header w.mem nxt ||| pinuse))

def allocateSmallestTbin (w : World ε) (wantedSize : Nat) : Option (Nat × World ε) := do
  let tbin := calcLeftbin 0 w.kmstate.tbinmap
  guard (tbin < ntbins)
  let w := w.emit (.leftbin w.kmstate.tbinmap (w.kmstate.tbin tbin))
  let chunk ← kmallocTreeGetSmallest w.mem (w.kmstate.tbin tbin)
  allocateTchunk w chunk wantedSize

-- ---------------------------------------------------------------------------
-- Coalescing and growing in place
-- ---------------------------------------------------------------------------

def mergeFreeChunks (cb : Callbacks ε) (w : World ε) (first firstSize next : Nat) :
    Option (World ε) :=
  if ¬ isInuse w.mem next then
    let nextSize := getChunkSize w.mem next
    let newSize := add firstSize nextSize
    let w := w.setHeader first (newSize ||| pinuse)
    let w := w.setPrevFoot (chunkOffset first newSize) newSize
    if next = w.kmstate.topChunk then
      let w := if first = w.kmstate.dVictim then w.setDVictim 0 0 else w
      let w := w.setTopChunk first newSize
      let w := w.setPrevFoot (nextChunk w.mem first) newSize
      some (shrinkTop cb w)
    else if next = w.kmstate.dVictim then some (w.setDVictim first newSize)
    else do
      let w ← unbinChunk w next
      if first = w.kmstate.dVictim then return w.setDVictim first newSize else binChunk w first
  else
    let w := w.setHeader first (firstSize ||| pinuse)
    let w := w.setPrevFoot next firstSize
    let w := w.setHeader next (header w.mem next &&& not32 pinuse)
    if first = w.kmstate.dVictim then some (w.setDVictim first firstSize) else binChunk w first

def tryExpandChunk (w : World ε) (chunk newSize : Nat) : Option (Bool × World ε) :=
  if ¬ isInuse w.mem chunk ∨ newSize < getChunkSize w.mem chunk then some (false, w)
  else
    let diff := sub newSize (getChunkSize w.mem chunk)
    let next := nextChunk w.mem chunk
    if ¬ isInuse w.mem next ∧ getChunkSize w.mem next ≥ diff then
      let freeSize := sub (getChunkSize w.mem next) diff
      if freeSize > minChunkSize then do
        let w := w.setHeader chunk (newSize ||| cinuse ||| (header w.mem chunk &&& pinuse))
        let new := chunkOffset next diff
        let w := w.setHeader new (freeSize ||| pinuse)
        let w := w.setPrevFoot (chunkOffset new freeSize) freeSize
        if next = w.kmstate.topChunk then return (true, w.setTopChunk new freeSize)
        else if next = w.kmstate.dVictim then return (true, w.setDVictim new freeSize)
        else
          let w ← unbinChunk w next
          let w ← binChunk w new
          return (true, w)
      else do
        let newSize := if freeSize > 0 then add newSize freeSize else newSize
        let w := w.setHeader chunk (newSize ||| cinuse ||| (header w.mem chunk &&& pinuse))
        let w ←
          if next = w.kmstate.topChunk then some (w.setTopChunk (nextChunk w.mem chunk) 0)
          else if next = w.kmstate.dVictim then some (w.setDVictim 0 0)
          else unbinChunk w next
        let next := nextChunk w.mem chunk
        if header w.mem next ≠ 0 then
          return (true, w.setHeader next (header w.mem next ||| pinuse))
        else return (true, w)
    else some (false, w)

end ElcoOs.Kmalloc
