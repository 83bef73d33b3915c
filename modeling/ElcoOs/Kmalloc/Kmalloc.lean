import ElcoOs.Kmalloc.Util

/-!
# `kmalloc`, `kfree` and `krealloc`

The entry points. The bitmap shifts of `kmalloc_intern` and the maps it hands
to `calc_leftbin` are recorded in the trace.
-/

namespace ElcoOs.Kmalloc

open Word32

variable {ε : Type}

-- ---------------------------------------------------------------------------
-- kmalloc
-- ---------------------------------------------------------------------------

/-- The branch of `kmalloc_intern` for sizes below `MIN_LARGE_SIZE`. -/
def internSmall (w : World ε) (chunksize : Nat) : Option (Nat × World ε) := do
  let st := w.kmstate
  let index := smallIndex chunksize
  let w := w.emit (.shift index)
  let bits := shr st.sbinmap index
  if bits &&& 0x3 ≠ 0 then
    -- the next bin when the one that fits exactly is empty
    allocateSbin w (index + (not32 bits &&& 1)) chunksize
  else if chunksize > st.dVictimSize then
    let index := index + 2
    let bits := shr bits 2
    if bits ≠ 0 then
      let index := index + calcLeftbin 0 bits
      guard (index < nsbins)
      splitSbin (w.emit (.leftbin bits (st.sbin index))) index chunksize
    else if st.tbinmap ≠ 0 then allocateSmallestTbin w chunksize
    else return (0, w)
  else return (0, w)

/-- The branch of `kmalloc_intern` for sizes from `MIN_LARGE_SIZE` on. -/
def internLarge (w : World ε) (chunksize : Nat) : Option (Nat × World ε) := do
  let st := w.kmstate
  let index := calcTbin chunksize
  guard (index < ntbins)
  let chunk ← kmallocTreeGetBestFit w.mem chunksize (st.tbin index) (tbinDepth index)
  if chunk ≠ 0 then
    if chunksize > st.dVictimSize ∨ getChunkSize w.mem chunk ≤ st.dVictimSize then
      allocateTchunk w chunk chunksize
    else return (0, w)
  else
    let index := index + 1
    let w := w.emit (.shift index)
    let bits := shr st.tbinmap index
    if bits ≠ 0 then
      let index := index + calcLeftbin 0 bits
      let w := w.emit (.leftbin bits (st.tbin index))
      let dvindex := calcTbin st.dVictimSize
      if dvindex ≥ index ∨ chunksize > st.dVictimSize then
        -- the first access to the bin
        guard (index < ntbins)
        let chunk ← kmallocTreeGetSmallest w.mem (st.tbin index)
        if chunksize > st.dVictimSize ∨ getChunkSize w.mem chunk < st.dVictimSize then
          allocateTchunk w chunk chunksize
        else return (0, w)
      else return (0, w)
    else return (0, w)

def kmallocIntern (cb : Callbacks ε) (w : World ε) (chunksize : Nat) (allowExpand : Bool) :
    Option (Nat × World ε) := do
  let (result, w) ← if chunksize < minLargeSize then internSmall w chunksize else
    internLarge w chunksize
  if result = 0 then
    if chunksize ≤ w.kmstate.dVictimSize then return allocateDv w chunksize
    else return splitTop cb w chunksize allowExpand
  else return (result, w)

def kmalloc (cb : Callbacks ε) (w : World ε) (size : Nat) : Option (Nat × World ε) :=
  if ¬ w.kmstate.isInit then some (0, w)
  else if requestOverflow size then some (0, w)
  else kmallocIntern cb w (request2Size size) true

-- ---------------------------------------------------------------------------
-- kfree
-- ---------------------------------------------------------------------------

def kfree (cb : Callbacks ε) (w : World ε) (ptr : Nat) : Option (World ε) := do
  let st := w.kmstate
  let chunk := payloadChunk ptr
  if ptr = 0 ∨ ¬ st.isInit then return w
  else if ¬ addressOk chunk st ∨ ¬ isInuse w.mem chunk then return actionAbort cb w
  else
    let freesize := getChunkSize w.mem chunk
    if ¬ prevInuse w.mem chunk then
      let csize := prevFoot w.mem chunk
      let prev := prevChunk w.mem chunk
      if ¬ addressOk prev st ∨ getChunkSize w.mem prev ≠ csize ∨ isInuse w.mem prev then
        return actionAbort cb w
      else
        let w ← if st.dVictim ≠ prev then unbinChunk w prev else some w
        let next := nextChunk w.mem chunk
        if ¬ addressOk next w.kmstate then return actionAbort cb w
        else mergeFreeChunks cb w prev (add freesize csize) next
    else
      let next := nextChunk w.mem chunk
      if ¬ addressOk next st then return actionAbort cb w
      else mergeFreeChunks cb w chunk freesize next

-- ---------------------------------------------------------------------------
-- krealloc
-- ---------------------------------------------------------------------------

def krealloc (cb : Callbacks ε) (w : World ε) (ptr reqSize : Nat) : Option (Nat × World ε) := do
  let st := w.kmstate
  if ptr = 0 then kmalloc cb w reqSize
  else if reqSize = 0 then
    let w ← kfree cb w ptr
    return (0, w)
  else if ¬ st.isInit then return (0, w)
  else
    let chunk := payloadChunk ptr
    if ¬ addressOk chunk st ∨ ¬ isInuse w.mem chunk then return (0, actionAbort cb w)
    else
      let next := nextChunk w.mem chunk
      if ¬ addressOk next st then return (0, actionAbort cb w)
      else
        let oldCapacity := chunkPayloadSize w.mem chunk
        let newSize := request2Size reqSize
        let curSize := getChunkSize w.mem chunk
        if newSize = curSize then return (ptr, w)
        else if newSize < curSize then
          let diff := sub curSize newSize
          if diff < minChunkSize ∧ isInuse w.mem next then return (ptr, w)
          else
            let w := w.setHeader chunk (newSize ||| cinuse ||| (header w.mem chunk &&& pinuse))
            let w ← mergeFreeChunks cb w (nextChunk w.mem chunk) diff next
            return (ptr, w)
        else
          let r ← tryExpandChunk w chunk newSize
          if r.1 then return (ptr, r.2)
          else
            let r ← kmallocIntern cb r.2 newSize true
            if r.1 ≠ 0 then
              let w := r.2.setMem (Memory.copy r.2.mem r.1 ptr oldCapacity)
              let w ← kfree cb w ptr
              return (r.1, w)
            else return (0, r.2)

end ElcoOs.Kmalloc
