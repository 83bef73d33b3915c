import ElcoOs.Kmalloc.Heap

/-!
# The top chunk

The heap callback may refuse, or move the end of the heap by what it was asked
for. Under that contract growing, shrinking and carving the top keep the heap.
-/

namespace ElcoOs.Kmalloc

open Word32

variable {ε : Type}

-- ---------------------------------------------------------------------------
-- The callback
-- ---------------------------------------------------------------------------

/-- What `ACTION_SBRK` has to do for a heap that starts at `lo` and never ends
below `least`; `heapEnd` is where it ends. -/
structure SbrkOk (cb : Callbacks ε) (heapEnd : ε → Nat) (lo least : Nat) : Prop where
  fails : ∀ i e m, (cb.sbrk i e m).1 = false →
    heapEnd (cb.sbrk i e m).2.1 = heapEnd e ∧ ∀ x, lo ≤ x → x < heapEnd e →
    (cb.sbrk i e m).2.2 x = m x
  moves : ∀ i e m, (cb.sbrk i e m).1 = true →
    (heapEnd (cb.sbrk i e m).2.1 : Int) = heapEnd e + i ∧ least ≤ heapEnd (cb.sbrk i e m).2.1 ∧
      heapEnd (cb.sbrk i e m).2.1 < 4294967296 ∧
      ∀ x, lo ≤ x → x < heapEnd e → x < heapEnd (cb.sbrk i e m).2.1 → (cb.sbrk i e m).2.2 x = m x

structure Env (cb : Callbacks ε) (heapEnd : ε → Nat) (w : World ε) : Prop where
  sbrk : SbrkOk cb heapEnd w.kmstate.heapStart (w.kmstate.heapStart + w.kmstate.initialHeapSize)
  synced : heapEnd w.env = w.kmstate.heapStart + w.kmstate.heapSize

-- ---------------------------------------------------------------------------
-- What a step keeps
-- ---------------------------------------------------------------------------

/-- No abort, and no chunk carved below its size; and if the request is one the
bins can tell, no shift by the width of a bitmap or more, no search of an empty
one, and no empty bin found. -/
def EventOk (binned : Prop) : Event → Prop
  | .sbrk _ => True
  | .abort => False
  | .shift count => binned → count < 32
  | .leftbin map head => binned → map ≠ 0 ∧ head ≠ 0
  | .carve size wanted => wanted ≤ size

def Traced (P : Prop) (w w' : World ε) : Prop := ∃ es, w'.trace = es ++ w.trace ∧
    ∀ e ∈ es, EventOk P e

/-- The heap is where it was, the callback knows its end, the payloads of `U`
are as they were, and what was recorded is in order. -/
structure Kept (heapEnd : ε → Nat) (P : Prop) (U : List (Nat × Nat)) (w w' : World ε) : Prop where
  start : w'.kmstate.heapStart = w.kmstate.heapStart
  initial : w'.kmstate.initialHeapSize = w.kmstate.initialHeapSize
  synced : heapEnd w.env = w.kmstate.heapStart + w.kmstate.heapSize →
    heapEnd w'.env = w'.kmstate.heapStart + w'.kmstate.heapSize
  quiet : Quiet U w.mem w'.mem
  traced : Traced P w w'

section
variable {heapEnd : ε → Nat} {P : Prop} {U V : List (Nat × Nat)} {w w' w'' : World ε}
  {cb : Callbacks ε}

theorem Traced.refl (P : Prop) (w : World ε) : Traced P w w := ⟨[], rfl, by simp⟩

theorem Traced.emit {e : Event} (he : EventOk P e) : Traced P w (w.emit e) :=
  ⟨[e], rfl, fun _ hx => List.mem_singleton.mp hx ▸ he⟩

theorem Traced.trans (h : Traced P w w') (h' : Traced P w' w'') : Traced P w w'' := by
  obtain ⟨es, hes, hok⟩ := h
  obtain ⟨es', hes', hok'⟩ := h'
  refine ⟨es' ++ es, by rw [hes', hes, List.append_assoc], fun e he => ?_⟩
  rcases List.mem_append.mp he with he | he
  · exact hok' e he
  · exact hok e he

theorem Kept.refl (heapEnd : ε → Nat) (P : Prop) (U : List (Nat × Nat)) (w : World ε) :
    Kept heapEnd P U w w :=
  ⟨rfl, rfl, id, Quiet.refl U w.mem, Traced.refl P w⟩

theorem Kept.trans (h : Kept heapEnd P U w w') (h' : Kept heapEnd P U w' w'') :
    Kept heapEnd P U w w'' :=
  ⟨h'.start.trans h.start, h'.initial.trans h.initial, fun hs => h'.synced (h.synced hs),
    h.quiet.trans h'.quiet, h.traced.trans h'.traced⟩

theorem Kept.mono (h : Kept heapEnd P U w w') (hs : ∀ p ∈ V, p ∈ U) : Kept heapEnd P V w w' :=
  ⟨h.start, h.initial, h.synced, h.quiet.mono hs, h.traced⟩

theorem Env.next (h : Env cb heapEnd w) (hk : Kept heapEnd P U w w') : Env cb heapEnd w' := by
  refine ⟨?_, hk.synced h.synced⟩
  rw [hk.start, hk.initial]
  exact h.sbrk

end

section
variable {heapEnd : ε → Nat} {P : Prop} {c increment : Nat} {w w' : World ε} {cs : List Chunk}
  {B : List (Nat × Nat)} {cb : Callbacks ε}

theorem HeapAt.congr_mem (w' : World ε) (h : HeapAt w cs B) (hst : w'.kmstate = w.kmstate)
    (hm : ∀ x, w.kmstate.heapStart ≤ x → x < w.kmstate.heapStart + w.kmstate.heapSize →
    w'.mem x = w.mem x) :
    HeapAt w' cs B ∧ Quiet (pairs true cs) w.mem w'.mem := by
  have hfits := h.top.fits
  have key := HeapAt.of_prefix w w' [] (hst ▸ h.tiled) (hst ▸ h.bins) h.extents h.covered
    (hst ▸ h.arena) (fun x hlo hhi => hm x (hst ▸ hlo) (by rw [hst] at hhi; omega))
      ⟨by rw [hst], rfl⟩
    (by rw [hst]; exact h.top.congr fun x hlo hhi => hm x (by have := h.tiled.le; omega) hhi)
  simpa using key

-- ---------------------------------------------------------------------------
-- Growing
-- ---------------------------------------------------------------------------

/-- A size rounded up to a multiple of `HEAP_SIZE_ALIGN`. -/
def pageUp (increment : Nat) : Nat := (increment + 4095) / 4096 * 4096

theorem alignUp (h : increment ≤ 0xFFFFF000) :
    add increment (heapSizeAlign - 1) &&& not32 (heapSizeAlign - 1) = pageUp increment := by
  rw [show heapSizeAlign - 1 = 4095 from rfl, add_of_lt (by omega),
    and_not32_4095 (by omega), pageUp]

/-- A heap that has not grown is as it was, as far as its bytes go. -/
structure Refused (w w' : World ε) : Prop where
  kmstate : w'.kmstate = w.kmstate
  mem : ∀ x, w.kmstate.heapStart ≤ x → x < w.kmstate.heapStart + w.kmstate.heapSize →
    w'.mem x = w.mem x

theorem actionSbrk_refused {i : Int} (h : HeapAt w cs B) (hcb : Env cb heapEnd w)
    (hno : (actionSbrk cb w i).1 = false) :
    Refused w (actionSbrk cb w i).2 ∧ HeapAt (actionSbrk cb w i).2 cs B ∧
      Kept heapEnd P (pairs true cs) w (actionSbrk cb w i).2 := by
  obtain ⟨hend, hmem⟩ := hcb.sbrk.fails i w.env w.mem hno
  rw [hcb.synced] at hmem hend
  obtain ⟨hat, hquiet⟩ := h.congr_mem (actionSbrk cb w i).2 rfl hmem
  exact ⟨⟨rfl, hmem⟩, hat, rfl, rfl, fun _ => hend, hquiet,
    ⟨[.sbrk i], rfl, fun _ he => List.mem_singleton.mp he ▸ trivial⟩⟩

/-- The writes that give the top the size `s` and put the dummy after it. -/
def writeTop (m : Memory) (a s : Nat) : Memory :=
  let m := setHeader m a (s ||| pinuse)
  let dummy := nextChunk m a
  setHeader (setPrevFoot m dummy s) dummy 0

theorem writeTop_eq {m : Memory} {a s : Nat} (hs : s % 8 = 0) (hfits : a + s + 8 < 4294967296) :
    writeTop m a s = ((m.store32 (a + 4) (s + 1)).store32 (a + s) s).store32 (a + s + 4) 0 := by
  have hor : s ||| pinuse = s + 1 := size_or_pinuse hs
  have hhdr : header (setHeader m a (s + 1)) a = s + flags false true :=
    Memory.load32_store32_same (by omega)
  have hdummy : nextChunk (setHeader m a (s + 1)) a = a + s := by
    rw [nextChunk, getChunkSize_of_header hhdr hs, add_of_lt (by omega)]
  simp only [writeTop, hor, hdummy]
  rfl

theorem writeTop_top {m : Memory} {a s e : Nat} (hs : s % 8 = 0) (he : a + s + 8 ≤ e)
    (hfits : e < 4294967296) : TopAt (writeTop m a s) a s e := by
  rw [writeTop_eq hs (by omega)]
  refine ⟨hs, he, fun _ => ?_, fun _ => ?_, Memory.load32_store32_same (by decide)⟩
  · rw [header, Memory.load32_store32_apart (by omega), Memory.load32_store32_apart (by omega)]
    exact Memory.load32_store32_same (by omega)
  · rw [prevFoot, Memory.load32_store32_apart (by omega)]
    exact Memory.load32_store32_same (by omega)

theorem writeTop_below {m : Memory} {a s x : Nat} (hs : s % 8 = 0) (hfits : a + s + 8 < 4294967296)
    (hx : x < a + 4) (hpos : s ≠ 0) : writeTop m a s x = m x := by
  rw [writeTop_eq hs hfits, Memory.store32_apply (by omega), Memory.store32_apply (by omega),
    Memory.store32_apply (by omega)]

/-- From the links of the top on, only the dummy after it and what is out of the heap may
differ. -/
def SameBehind (st : KmallocState) (m m' : Memory) : Prop :=
  ∀ x, st.topChunk + 8 ≤ x → x < st.heapStart + st.heapSize →
    (x < st.topChunk + st.topChunkSize ∨ st.topChunk + st.topChunkSize + 8 ≤ x) → m' x = m x

theorem HeapAt.retop (w₁ : World ε) (s size : Nat) (h : HeapAt w cs B)
    (hs : s % 8 = 0) (hpos : s ≠ 0)
    (hsize : size % 8 = 0) (hend : w.kmstate.topChunk + s + 8 ≤ w.kmstate.heapStart + size)
    (hfits : w.kmstate.heapStart + size < 4294967296) (hleast : w.kmstate.initialHeapSize ≤ size)
    (hsync : heapEnd w₁.env = w.kmstate.heapStart + size)
    (hm : ∀ x, w.kmstate.heapStart ≤ x → x < w.kmstate.heapStart + w.kmstate.heapSize →
      x < w.kmstate.heapStart + size → w₁.mem x = w.mem x)
    (htr : Traced P w w₁) (hw' : w' = { w₁ with
      kmstate := { w.kmstate with heapSize := size, topChunkSize := s }
      mem := writeTop w₁.mem w.kmstate.topChunk s }) :
    HeapAt w' cs B ∧ Kept heapEnd P (pairs true cs) w w' ∧
      (size ≤ w.kmstate.heapSize → SameBehind w'.kmstate w.mem w'.mem) := by
  subst hw'
  have hle := h.tiled.le
  have htop := h.top.fits
  have harena : Arena { w.kmstate with heapSize := size, topChunkSize := s } :=
    ⟨h.arena.isInit, h.arena.align, hfits, hsize, hleast⟩
  have key := HeapAt.of_prefix w { w₁ with
      kmstate := { w.kmstate with heapSize := size, topChunkSize := s }
      mem := writeTop w₁.mem w.kmstate.topChunk s } [] h.tiled h.bins h.extents h.covered harena
    (fun x hlo hhi => (writeTop_below hs (by omega) hhi hpos).trans
      (hm x hlo (Nat.lt_of_lt_of_le hhi (by omega)) (Nat.lt_of_lt_of_le hhi (by omega))))
    ⟨rfl, rfl⟩ (writeTop_top hs hend hfits)
  refine ⟨by simpa using key.1, ⟨rfl, rfl, fun _ => hsync, key.2, htr⟩,
    fun hless x hlo hhi hdummy => ?_⟩
  simp only at hlo hhi hdummy ⊢
  rw [← hm x (by omega) (by omega) hhi, writeTop_eq hs (by omega), Memory.store32_apply (by omega),
    Memory.store32_apply (by omega), Memory.store32_apply (by omega)]

theorem growTop_spec (increment : Nat) (h : HeapAt w cs B) (hcb : Env cb heapEnd w)
    (h0 : 0 < increment) (hinc : increment ≤ 0xFFFFF000) :
    ((growTop cb w increment).1 = false ∧ Refused w (growTop cb w increment).2 ∧
        HeapAt (growTop cb w increment).2 cs B ∧
        Kept heapEnd P (pairs true cs) w (growTop cb w increment).2) ∨
      ((growTop cb w increment).1 = true ∧ HeapAt (growTop cb w increment).2 cs B ∧
        Kept heapEnd P (pairs true cs) w (growTop cb w increment).2 ∧
        (cb.sbrk (pageUp increment) w.env w.mem).1 = true ∧
        (growTop cb w increment).2.kmstate = { w.kmstate with
          heapSize := w.kmstate.heapSize + pageUp increment
          topChunkSize := w.kmstate.topChunkSize + pageUp increment }) := by
  have hfits := h.top.fits
  have harena := h.arena.fits
  have htop8 := h.top.align
  have hsize8 := h.arena.size
  have hinit := h.arena.initial
  rw [growTop, alignUp hinc]
  have hgen : (increment + 4095) / 4096 * 4096 = pageUp increment := rfl
  generalize pageUp increment = inc at hgen
  by_cases hhalf : inc > halfMaxSizeT
  · simp only [if_pos hhalf]
    exact .inl ⟨trivial, ⟨rfl, fun _ _ _ => rfl⟩, h, Kept.refl ..⟩
  have hhalf' : inc ≤ 2147483647 := Nat.le_of_not_lt hhalf
  simp only [if_neg hhalf, toInt_of_lt (show inc < 2147483648 by omega)]
  cases hok : (actionSbrk cb w inc).1 with
  | false =>
    obtain ⟨href, hat, hkept⟩ := actionSbrk_refused (P := P) h hcb hok
    exact .inl ⟨rfl, href, hat, hkept⟩
  | true =>
    obtain ⟨hend, hleast, hlt, hmem⟩ := hcb.sbrk.moves inc w.env w.mem hok
    rw [hcb.synced] at hend hmem
    have hend' : heapEnd (cb.sbrk inc w.env w.mem).2.1 =
      w.kmstate.heapStart + (w.kmstate.heapSize + inc) := by
      omega
    have hadd : add w.kmstate.topChunkSize inc = w.kmstate.topChunkSize + inc :=
      add_of_lt (by omega)
    have hadd' : add w.kmstate.heapSize inc = w.kmstate.heapSize + inc := add_of_lt (by omega)
    obtain ⟨hat, hkept, -⟩ := h.retop (P := P) (actionSbrk cb w inc).2
      (w.kmstate.topChunkSize + inc) (w.kmstate.heapSize + inc) (by omega) (by omega)
      (by omega) (by omega) (by omega) (by omega) hend'
      (fun x hlo hhi hhi' => hmem x hlo hhi (by omega))
      ⟨[.sbrk inc], rfl, fun _ he => List.mem_singleton.mp he ▸ trivial⟩ rfl
    have hw : (actionSbrk cb w inc).2.kmstate = w.kmstate := rfl
    simp only [if_true, hw, hadd, hadd']
    exact .inr ⟨trivial, hat, hkept, hok, rfl⟩

-- ---------------------------------------------------------------------------
-- Shrinking
-- ---------------------------------------------------------------------------

/-- How much `shrink_top` means to give back, before the cap on it. -/
def surplus (st : KmallocState) : Nat :=
  let newsize := sub st.heapSize (sub st.topChunkSize heapShrinkTreshold)
  let newsize := if newsize < st.initialHeapSize then st.initialHeapSize else newsize
  sub st.heapSize (add newsize (heapSizeAlign - 1) &&& not32 (heapSizeAlign - 1))

theorem surplus_spec {st : KmallocState} (htop : heapShrinkTreshold < st.topChunkSize)
    (hle : st.topChunkSize ≤ st.heapSize) (hfits : st.heapSize < 4294967296)
    (hinit : st.initialHeapSize ≤ st.heapSize) (h8 : st.heapSize % 8 = 0) :
    (surplus st ≤ st.topChunkSize - 4096 ∧ surplus st ≤ st.heapSize - st.initialHeapSize ∧
    surplus st % 8 = 0) ∨
      halfMaxSizeT < surplus st := by
  have hthr : heapShrinkTreshold = 4096 := rfl
  have hhalf : halfMaxSizeT = 2147483647 := rfl
  rw [hhalf]
  simp only [surplus]
  rw [hthr] at htop ⊢
  have hsub : sub st.topChunkSize 4096 = st.topChunkSize - 4096 := sub_of_le (by omega) (by omega)
  have hsub' : sub st.heapSize (st.topChunkSize - 4096) = st.heapSize - (st.topChunkSize - 4096) :=
    sub_of_le (by omega) hfits
  rw [hsub, hsub']
  generalize hgen : (if st.heapSize - (st.topChunkSize - 4096) < st.initialHeapSize then
    st.initialHeapSize
    else st.heapSize - (st.topChunkSize - 4096)) = newsize
  have hbounds : st.heapSize - (st.topChunkSize - 4096) ≤ newsize ∧ st.initialHeapSize ≤ newsize ∧
      newsize ≤ st.heapSize := by
    rw [← hgen]
    split <;> omega
  rw [show heapSizeAlign - 1 = 4095 from rfl]
  by_cases hwrap : newsize + 4095 < 4294967296
  · rw [add_of_lt hwrap, and_not32_4095 hwrap]
    by_cases hover : (newsize + 4095) / 4096 * 4096 ≤ st.heapSize
    · rw [sub_of_le hover hfits]
      omega
    · rw [sub_of_lt (by omega) (by omega)]
      omega
  · have hzero : add newsize 4095 &&& not32 4095 = 0 := by
      have hadd : add newsize 4095 = newsize + 4095 - 4294967296 := by unfold add; omega
      rw [hadd, and_not32_4095 (by omega)]
      omega
    rw [hzero, sub_of_le (Nat.zero_le _) hfits]
    omega

/-- The heap began as a number of pages, or with 8 bytes more than one, and has
changed by pages or to a number of pages since. -/
structure PageHeap (st : KmallocState) : Prop where
  lt : st.heapSize < 4294967296
  pages : st.initialHeapSize % 4096 = 0 ∧ st.heapSize % 4096 = 0 ∨
    st.initialHeapSize = 4104 ∧ (st.heapSize % 4096 = 0 ∨ st.heapSize % 4096 = 8)

theorem PageHeap.surplus {st : KmallocState} (h : PageHeap st)
    (htop : heapShrinkTreshold < st.topChunkSize)
    (h8 : st.topChunkSize % 8 = 0) (hfits : st.topChunkSize + 8 ≤ st.heapSize)
    (hinit : st.initialHeapSize ≤ st.heapSize) :
    surplus st + 4096 ≤ st.topChunkSize ∧ surplus st % 8 = 0 ∧
    st.initialHeapSize + surplus st ≤ st.heapSize ∧
      (st.heapSize - surplus st) % 4096 = 0 := by
  obtain ⟨hlt, hpages⟩ := h
  have hthr : heapShrinkTreshold = 4096 := rfl
  simp only [Kmalloc.surplus]
  rw [hthr] at htop ⊢
  have hsub : sub st.topChunkSize 4096 = st.topChunkSize - 4096 := sub_of_le (by omega) (by omega)
  have hsub' : sub st.heapSize (st.topChunkSize - 4096) = st.heapSize - (st.topChunkSize - 4096) :=
    sub_of_le (by omega) hlt
  rw [hsub, hsub']
  generalize hgen : (if st.heapSize - (st.topChunkSize - 4096) < st.initialHeapSize then
    st.initialHeapSize
    else st.heapSize - (st.topChunkSize - 4096)) = n
  have hn : st.heapSize - (st.topChunkSize - 4096) ≤ n ∧ st.initialHeapSize ≤ n ∧
      (n = st.initialHeapSize ∨ n = st.heapSize - (st.topChunkSize - 4096)) := by
    rw [← hgen]
    split <;> omega
  have hround : (n + 4095) / 4096 * 4096 ≤ st.heapSize := by omega
  rw [show heapSizeAlign - 1 = 4095 from rfl, add_of_lt (by omega), and_not32_4095 (by omega),
    sub_of_le hround hlt]
  omega

theorem shrinkTop_spec (h : HeapAt w cs B) (hcb : Env cb heapEnd w)
    (hgrown : w.kmstate.heapSize < w.kmstate.initialHeapSize + 0x7FFFF000 ∨ PageHeap w.kmstate) :
    HeapAt (shrinkTop cb w) cs B ∧ Kept heapEnd P (pairs true cs) w (shrinkTop cb w) ∧
      SameBehind (shrinkTop cb w).kmstate w.mem (shrinkTop cb w).mem ∧
      ∃ d, (d = 0 ∨ d + 4096 ≤ w.kmstate.topChunkSize) ∧ (shrinkTop cb w).kmstate = { w.kmstate with
        heapSize := w.kmstate.heapSize - d, topChunkSize := w.kmstate.topChunkSize - d } := by
  have hfits := h.top.fits
  have harena := h.arena.fits
  have htop8 := h.top.align
  have hsize8 := h.arena.size
  have hinit := h.arena.initial
  have hle := h.tiled.le
  have hsame : HeapAt w cs B ∧ Kept heapEnd P (pairs true cs) w w ∧
      SameBehind w.kmstate w.mem w.mem ∧
      ∃ d, (d = 0 ∨ d + 4096 ≤ w.kmstate.topChunkSize) ∧ w.kmstate = { w.kmstate with
        heapSize := w.kmstate.heapSize - d, topChunkSize := w.kmstate.topChunkSize - d } :=
    ⟨h, Kept.refl .., fun _ _ _ _ => rfl, 0, .inl rfl, rfl⟩
  rw [shrinkTop]
  by_cases hbig : w.kmstate.topChunkSize > heapShrinkTreshold ∧
    w.kmstate.heapSize ≥ w.kmstate.initialHeapSize
  swap
  · simp only [if_neg hbig]
    exact hsame
  simp only [if_pos hbig]
  have hsur : (surplus w.kmstate ≤ w.kmstate.topChunkSize - 4096 ∧
      surplus w.kmstate ≤ w.kmstate.heapSize - w.kmstate.initialHeapSize ∧
      surplus w.kmstate % 8 = 0) ∨
        halfMaxSizeT < surplus w.kmstate ∧
        w.kmstate.heapSize < w.kmstate.initialHeapSize + 0x7FFFF000 := by
    rcases hgrown with hgrown | hpage
    · exact (surplus_spec hbig.1 (by omega) (by omega) hinit hsize8).imp_right fun hwrap =>
        ⟨hwrap, hgrown⟩
    · obtain ⟨h1, h2, h3, -⟩ := hpage.surplus hbig.1 htop8 (by omega) hinit
      exact .inl ⟨by omega, by omega, h2⟩
  rw [surplus] at hsur
  generalize sub w.kmstate.heapSize _ = d at hsur ⊢
  by_cases hpos : d > 0
  swap
  · simp only [if_neg hpos]
    exact hsame
  simp only [if_pos hpos]
  have hhalf : halfMaxSizeT = 2147483647 := rfl
  generalize hcap :
    (if d > halfMaxSizeT then halfMaxSizeT &&& not32 (heapSizeAlign - 1) else d) = dec
  have hdec : d = dec ∧ d ≤ 2147483647 ∨ halfMaxSizeT < d ∧ dec = 0x7FFFF000 := by
    by_cases hd : d > halfMaxSizeT
    · rw [if_pos hd] at hcap
      exact .inr ⟨hd, hcap.symm⟩
    · rw [if_neg hd] at hcap
      exact .inl ⟨hcap, by omega⟩
  have hneg : toInt (sub 0 dec) = -(dec : Int) := toInt_neg (by omega) (by omega)
  rw [hneg]
  cases hok : (actionSbrk cb w (-(dec : Int))).1 with
  | false =>
    obtain ⟨href, hat, hkept⟩ := actionSbrk_refused (P := P) h hcb hok
    simp only [Bool.false_eq_true, if_false]
    refine ⟨hat, hkept, fun x hlo hhi _ => ?_, 0, .inl rfl, href.kmstate⟩
    rw [href.kmstate] at hlo hhi
    exact href.mem x (by omega) hhi
  | true =>
    obtain ⟨hend, hleast, hlt, hmem⟩ := hcb.sbrk.moves (-(dec : Int)) w.env w.mem hok
    rw [hcb.synced] at hend hmem
    -- a wrapped surplus would take the heap below where it began
    have hd : dec ≤ w.kmstate.topChunkSize - 4096 ∧
      dec ≤ w.kmstate.heapSize - w.kmstate.initialHeapSize ∧
        dec % 8 = 0 := by
      omega
    have hthr : heapShrinkTreshold = 4096 := rfl
    have hsub : sub w.kmstate.topChunkSize dec = w.kmstate.topChunkSize - dec :=
      sub_of_le (by omega) (by omega)
    have hsub' : sub w.kmstate.heapSize dec = w.kmstate.heapSize - dec :=
      sub_of_le (by omega) (by omega)
    have hend' : heapEnd (cb.sbrk (-(dec : Int)) w.env w.mem).2.1 =
        w.kmstate.heapStart + (w.kmstate.heapSize - dec) := by
      omega
    obtain ⟨hat, hkept, hbehind⟩ := h.retop (P := P) (actionSbrk cb w (-(dec : Int))).2
      (w.kmstate.topChunkSize - dec) (w.kmstate.heapSize - dec) (by omega) (by omega)
        (by omega) (by omega)
      (by omega) (by omega) hend' (fun x hlo hhi hhi' => hmem x hlo hhi (by omega))
      ⟨[.sbrk (-(dec : Int))], rfl, fun _ he => List.mem_singleton.mp he ▸ trivial⟩ rfl
    have hw : (actionSbrk cb w (-(dec : Int))).2.kmstate = w.kmstate := rfl
    have hne : w.kmstate.topChunkSize - dec ≠ 0 := by omega
    simp only [if_true, hw, hsub, hsub', if_pos hne]
    exact ⟨hat, hkept, hbehind (Nat.sub_le _ _), dec, by omega, rfl⟩

-- ---------------------------------------------------------------------------
-- Carving
-- ---------------------------------------------------------------------------

theorem HeapAt.carve {a : Nat} (heapEnd : ε → Nat) (w' : World ε) (c s : Nat) (h : HeapAt w cs B)
    (ha : w.kmstate.topChunk = a) (hc : 16 ≤ c) (hc8 : c % 8 = 0)
    (hs : s % 8 = 0) (hfits : a + c + s + 8 ≤ w.kmstate.heapStart + w.kmstate.heapSize)
    (hst : w'.kmstate = { w.kmstate with topChunk := a + c, topChunkSize := s })
    (henv : w'.env = w.env) (htr : Traced P w w') (hm : ∀ x, x < a + 4 → w'.mem x = w.mem x)
    (hh : header w'.mem a = c + flags true true) (htop : TopAt w'.mem (a + c) s (a + c + s + 8)) :
    HeapAt w' (cs ++ [⟨a, c, true⟩]) B ∧ Kept heapEnd P (pairs true cs) w w' := by
  subst ha
  have harena : Arena w'.kmstate := by
    rw [hst]
    exact ⟨h.arena.isInit, h.arena.align, h.arena.fits, h.arena.size, h.arena.initial⟩
  have key := HeapAt.of_prefix w w' [⟨w.kmstate.topChunk, c, true⟩]
    (by rw [hst]; exact h.tiled) (by rw [hst]; exact h.bins) h.extents h.covered harena
    (fun x _ hhi => hm x hhi)
    ⟨rfl, ⟨hc8, hc, hh, fun hf => absurd hf (by simp)⟩, by rw [hst], rfl⟩
    (by rw [hst]; exact ⟨hs, hfits, htop.header, htop.foot, htop.dummy⟩)
  refine ⟨key.1, by rw [hst], by rw [hst], fun hsync => ?_, key.2, htr⟩
  rw [henv, hst]
  exact hsync

def remainder (s : Nat) : Nat := if s < minChunkSize then 0 else s

theorem carveTop_spec (heapEnd : ε → Nat) (h : HeapAt w cs B) (hc : 16 ≤ c) (hc8 : c % 8 = 0)
    (hle : c ≤ w.kmstate.topChunkSize) :
    (carveTop w c).1 = w.kmstate.topChunk + 8 ∧
      HeapAt (carveTop w c).2 (cs ++ [⟨w.kmstate.topChunk, c, true⟩]) B ∧
      Kept heapEnd P (pairs true cs) w (carveTop w c).2 ∧
      (carveTop w c).2.kmstate = { w.kmstate with
        topChunk := w.kmstate.topChunk + c, topChunkSize :=
          remainder (w.kmstate.topChunkSize - c) } := by
  have hfits := h.top.fits
  have harena := h.arena.fits
  have htop8 := h.top.align
  have hsize : getChunkSize w.mem w.kmstate.topChunk = w.kmstate.topChunkSize :=
    getChunkSize_of_header (h.top.header (by omega)) htop8
  have hflag : flags true true = 3 := rfl
  have hor : c ||| pinuse ||| cinuse = c + 3 := size_or_both hc8
  have hhdr : header (setHeader w.mem w.kmstate.topChunk (c + 3)) w.kmstate.topChunk =
    c + flags true true :=
    Memory.load32_store32_same (by omega)
  have hnext : nextChunk (setHeader w.mem w.kmstate.topChunk (c + 3)) w.kmstate.topChunk =
    w.kmstate.topChunk + c := by
    rw [nextChunk, getChunkSize_of_header hhdr hc8, add_of_lt (by omega)]
  have hsub : sub w.kmstate.topChunkSize c = w.kmstate.topChunkSize - c := sub_of_le hle (by omega)
  have hpay : chunkPayload w.kmstate.topChunk = w.kmstate.topChunk + 8 := add_of_lt (by omega)
  have hev : EventOk P (.carve (getChunkSize w.mem w.kmstate.topChunk) c) := by
    rw [hsize]
    exact hle
  rw [carveTop]
  simp only [hsub]
  by_cases hall : w.kmstate.topChunkSize - c < minChunkSize
  · simp only [if_pos hall, World.emit, World.setHeader, World.setTopChunk, hor, hnext]
    obtain ⟨hat, hkept⟩ := h.carve (P := P) heapEnd {
        kmstate := { w.kmstate with topChunk := w.kmstate.topChunk + c, topChunkSize := 0 }
        mem := setHeader (setHeader w.mem w.kmstate.topChunk (c + 3)) (w.kmstate.topChunk + c) 0
        env := w.env
        trace := .carve (getChunkSize w.mem w.kmstate.topChunk) c ::
          w.trace } c 0 rfl hc hc8 rfl (by omega) rfl rfl
      (Traced.emit hev)
      (fun x hx => (Memory.store32_apply (by omega)).trans (Memory.store32_apply (by omega)))
      ((Memory.load32_store32_apart (by omega)).trans hhdr)
      ⟨rfl, by
        omega, fun hne => absurd rfl hne, fun hne => absurd rfl hne,
          Memory.load32_store32_same (by decide)⟩
    refine ⟨hpay, hat, hkept, ?_⟩
    rw [remainder, if_pos hall]
  · have hmin : 16 ≤ w.kmstate.topChunkSize - c := Nat.le_of_not_lt hall
    have hoff : chunkOffset w.kmstate.topChunk c = w.kmstate.topChunk + c := add_of_lt (by omega)
    generalize hs : w.kmstate.topChunkSize - c = s at hall hmin
    have hs8 : s % 8 = 0 := by omega
    have hor' : s ||| pinuse = s + 1 := size_or_pinuse hs8
    have hhdr' :
      header (setHeader (setHeader w.mem w.kmstate.topChunk (c + 3))
        (w.kmstate.topChunk + c) (s + 1))
        (w.kmstate.topChunk + c) = s + flags false true := Memory.load32_store32_same (by omega)
    have hnext' :
      nextChunk (setHeader (setHeader w.mem w.kmstate.topChunk (c + 3))
        (w.kmstate.topChunk + c) (s + 1))
        (w.kmstate.topChunk + c) = w.kmstate.topChunk + c + s := by
      rw [nextChunk, getChunkSize_of_header hhdr' hs8, add_of_lt (by omega)]
    have hdummy := h.top.dummy
    rw [show w.kmstate.topChunk + w.kmstate.topChunkSize = w.kmstate.topChunk + c + s by omega]
      at hdummy
    simp only [if_neg hall, World.emit, World.setHeader, World.setPrevFoot, World.setTopChunk, hor,
      hor', hoff, hnext']
    obtain ⟨hat, hkept⟩ := h.carve (P := P) heapEnd {
        kmstate := { w.kmstate with topChunk := w.kmstate.topChunk + c, topChunkSize := s }
        mem := setPrevFoot (setHeader (setHeader w.mem w.kmstate.topChunk (c + 3))
          (w.kmstate.topChunk + c) (s + 1))
          (w.kmstate.topChunk + c + s) s
        env := w.env
        trace := .carve (getChunkSize w.mem w.kmstate.topChunk) c ::
          w.trace } c s rfl hc hc8 hs8 (by omega) rfl rfl
      (Traced.emit hev)
      (fun x hx => (Memory.store32_apply (by omega)).trans ((Memory.store32_apply (by omega)).trans
        (Memory.store32_apply (by omega))))
      ((Memory.load32_store32_apart (by omega)).trans
        ((Memory.load32_store32_apart (by omega)).trans hhdr))
      ⟨hs8, Nat.le_refl _, fun _ => (Memory.load32_store32_apart (by omega)).trans hhdr',
        fun _ => Memory.load32_store32_same (by omega),
        (Memory.load32_store32_apart (by omega)).trans
          ((Memory.load32_store32_apart (by omega)).trans
            ((Memory.load32_store32_apart (by omega)).trans hdummy))⟩
    refine ⟨hpay, hat, hkept, ?_⟩
    rw [remainder, if_neg hall]

/-- How much the heap grows for a chunk of `c` bytes from a top of `s`. -/
def growth (s c : Nat) : Nat := if s < c then pageUp (c - s) else 0

theorem growth_le {s : Nat} (c : Nat) : c ≤ s + growth s c := by
  unfold growth pageUp
  split <;> omega

theorem splitTop_spec (h : HeapAt w cs B) (hcb : Env cb heapEnd w) (hc : 16 ≤ c) (hc8 : c % 8 = 0)
    (hinc : c ≤ w.kmstate.topChunkSize ∨ c - w.kmstate.topChunkSize ≤ 0xFFFFF000)
    (hlt : c < 4294967296) :
    ((splitTop cb w c true).1 = 0 ∧ w.kmstate.topChunkSize < c ∧
    Refused w (splitTop cb w c true).2 ∧
        HeapAt (splitTop cb w c true).2 cs B ∧
        Kept heapEnd P (pairs true cs) w (splitTop cb w c true).2) ∨
      ((splitTop cb w c true).1 = w.kmstate.topChunk + 8 ∧
        HeapAt (splitTop cb w c true).2 (cs ++ [⟨w.kmstate.topChunk, c, true⟩]) B ∧
        Kept heapEnd P (pairs true cs) w (splitTop cb w c true).2 ∧
        (w.kmstate.topChunkSize < c →
        (cb.sbrk (growth w.kmstate.topChunkSize c) w.env w.mem).1 = true) ∧
        (splitTop cb w c true).2.kmstate = { w.kmstate with
          heapSize := w.kmstate.heapSize + growth w.kmstate.topChunkSize c
          topChunk := w.kmstate.topChunk + c
          topChunkSize :=
            remainder (w.kmstate.topChunkSize + growth w.kmstate.topChunkSize c - c) }) := by
  have hgrow := growth_le (s := w.kmstate.topChunkSize) c
  rw [splitTop]
  by_cases hlow : w.kmstate.topChunkSize < c
  · have hsub : sub c w.kmstate.topChunkSize = c - w.kmstate.topChunkSize :=
      sub_of_le (by omega) hlt
    have hg : growth w.kmstate.topChunkSize c = pageUp (c - w.kmstate.topChunkSize) := if_pos hlow
    simp only [if_pos hlow, if_true, hsub]
    rcases growTop_spec (P := P) (c - w.kmstate.topChunkSize) h hcb (by omega) (by omega) with
      ⟨hno, href, hat, hkept⟩ | ⟨hyes, hat, hkept, hsbrk, hst⟩
    · simp only [hno, Bool.false_eq_true, if_false]
      exact .inl ⟨trivial, hlow, href, hat, hkept⟩
    · simp only [hyes, if_true]
      generalize growTop cb w (c - w.kmstate.topChunkSize) = r at hat hkept hst
      rw [← hg] at hst hsbrk
      have htop : r.2.kmstate.topChunk = w.kmstate.topChunk := by rw [hst]
      obtain ⟨hres, hat', hkept', hst'⟩ := carveTop_spec heapEnd (P := P) hat hc hc8
        (by rw [hst]; exact hgrow)
      rw [htop] at hres hat'
      exact .inr ⟨hres, hat', hkept.trans hkept', fun _ => hsbrk, by rw [hst', hst]⟩
  · have hg : growth w.kmstate.topChunkSize c = 0 := if_neg hlow
    simp only [if_neg hlow]
    obtain ⟨hres, hat, hkept, hst⟩ := carveTop_spec heapEnd (P := P) h hc hc8 (by omega)
    exact .inr ⟨hres, hat, hkept, fun hn => absurd hn hlow, by rw [hst, hg]; rfl⟩

end

end ElcoOs.Kmalloc
