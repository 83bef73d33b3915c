import ElcoOs.Kmalloc.Top
import ElcoOs.Paging.Heap

/-!
# The two sizes of the heap

The allocator and the kernel each keep the size of the heap. `grow_top` and
`shrink_top` over `heap_callback` change both by the same pages, and write the
header and the footer of the top only where the kernel has mapped pages.
-/

namespace ElcoOs.Kmalloc

open Word32 Paging

-- ---------------------------------------------------------------------------
-- Model
-- ---------------------------------------------------------------------------

/-- `heap_callback` installed behind `ACTION_SBRK`. What memory holds once the
mapping has changed is up to `remap`. -/
def kernelCallbacks (remap : State → Memory → Memory) : Callbacks State where
  sbrk d env mem :=
    match env.heapCallback d with
    | some (r, env') => (r = 0, env', remap env' mem)
    | none => (false, env, mem)
  abort := id

/-- The top is a number of double words from an aligned address up to the end
of the heap, but for the dummy. -/
structure TopEnds (st : KmallocState) : Prop where
  above : st.heapStart ≤ st.topChunk
  align : st.topChunk % 8 = 0
  size : st.topChunkSize % 8 = 0
  ends : st.topChunk + st.topChunkSize + dummySize = st.heapStart + st.heapSize

/-- What `memory_init` leaves behind. -/
structure KernelStart (w : World State) : Prop where
  pages : ∃ fs, HeapState w.env fs
  page : w.env.kernelHeapAddr % 4096 = 0
  size : w.env.kernelHeapSize = kernelInitialHeapSize
  heapStart : w.kmstate.heapStart = w.env.kernelHeapAddr
  heapSize : w.kmstate.heapSize = kernelInitialHeapSize
  initial : w.kmstate.initialHeapSize = kernelInitialHeapSize
  top : TopEnds w.kmstate

inductive TopAction where
  | grow (increment : Nat)
  | shrink
  /-- the rest of the allocator, and who writes to the heap -/
  | use (st : KmallocState) (mem : Memory)
  /-- the rest of the kernel -/
  | serve (env : State)

def topStep (remap : State → Memory → Memory) (w : World State) : TopAction → Option (World State)
  | .grow increment => some (growTop (kernelCallbacks remap) w increment).2
  | .shrink => some (shrinkTop (kernelCallbacks remap) w)
  | .use st mem => some { w with kmstate := st, mem := mem }
  | .serve env => some { w with env := env }

/-- Between the calls the top may be anywhere, with any memory and any free
frames. -/
def TopAction.May (w : World State) : TopAction → World State → Prop
  | .grow increment, _ => increment < 2147483648
  | .shrink, _ => True
  | .use st _, _ =>
    TopEnds st ∧ st.heapStart = w.kmstate.heapStart ∧ st.heapSize = w.kmstate.heapSize ∧
      st.initialHeapSize = w.kmstate.initialHeapSize
  | .serve env, _ => (∃ fs, HeapState env fs) ∧ env.kernelHeapAddr = w.env.kernelHeapAddr ∧
      env.kernelHeapSize = w.env.kernelHeapSize

/-- The words that are written when the top has changed: its header, its footer
and the header of the dummy. -/
def topWords (st : KmallocState) : List (Nat × Nat) :=
  [(st.topChunk + 4, st.topChunkSize ||| pinuse), (st.topChunk + st.topChunkSize, st.topChunkSize),
    (st.topChunk + st.topChunkSize + 4, 0)]

def storeWords (m : Memory) (words : List (Nat × Nat)) : Memory :=
  words.foldl (fun m p => m.store32 p.1 p.2) m

/-- What a call has done: it asked for nothing, or was refused, or the heap has
changed by what it asked for. Only then it has written, to mapped pages. -/
inductive Answered (remap : State → Memory → Memory) (w w' : World State) : Prop where
  | silent (h : w' = w)
  | refused (d r : Int) (htrace : w'.trace = .sbrk d :: w.trace) (hr : r ≠ 0)
      (hanswer : w.env.heapCallback d = some (r, w'.env)) (hst : w'.kmstate = w.kmstate)
      (hmem : w'.mem = remap w'.env w.mem)
  | moved (d : Int) (htrace : w'.trace = .sbrk d :: w.trace) (hanswer :
    w.env.heapCallback d = some (0, w'.env))
      (hmem : w'.mem = storeWords (remap w'.env w.mem) (topWords w'.kmstate))
      (hmapped : ∀ p ∈ topWords w'.kmstate, ∀ b < 4, w'.env.pageIsMapped (p.1 + b))

structure InStep (w : World State) : Prop where
  start : w.kmstate.heapStart = w.env.kernelHeapAddr
  size : w.kmstate.heapSize = w.env.kernelHeapSize
  pages : w.kmstate.heapSize % 4096 = 0
  enough : kernelInitialHeapSize ≤ w.kmstate.heapSize
  top : TopEnds w.kmstate
  covers : Covers w.env

-- ---------------------------------------------------------------------------
-- One call
-- ---------------------------------------------------------------------------

structure Lockstep (w : World State) (fs : List Nat) : Prop where
  pages : HeapState w.env fs
  page : w.env.kernelHeapAddr % 4096 = 0
  start : w.kmstate.heapStart = w.env.kernelHeapAddr
  size : w.kmstate.heapSize = w.env.kernelHeapSize
  initial : w.kmstate.initialHeapSize = kernelInitialHeapSize
  mul : w.kmstate.heapSize % 4096 = 0
  top : TopEnds w.kmstate

variable {remap : State → Memory → Memory} {w w' : World State} {s s' : State}
  {fs fs' : List Nat} {d r : Int}

theorem Lockstep.inStep (h : Lockstep w fs) : InStep w :=
  ⟨h.start, h.size, h.mul, h.size ▸ h.pages.enough, h.top, h.pages.covers⟩

theorem KernelStart.lockstep (h : KernelStart w) : ∃ fs, Lockstep w fs := by
  obtain ⟨fs, hpages⟩ := h.pages
  have hsize := h.heapSize
  exact ⟨fs, hpages, h.page, h.heapStart, hsize.trans h.size.symm, h.initial,
    by rw [hsize]; rfl, h.top⟩

theorem actionSbrk_kernel (hres : w.env.heapCallback d = some (r, s')) :
    actionSbrk (kernelCallbacks remap) w d = (decide (r = 0),
      { w.emit (.sbrk d) with env := s', mem := remap s' w.mem }) := by
  simp only [actionSbrk, kernelCallbacks, hres]

theorem writeTop_words (st : KmallocState) (m : Memory) (hs : st.topChunkSize % 8 = 0)
    (hfits : st.topChunk + st.topChunkSize + 8 < 4294967296) :
    writeTop m st.topChunk st.topChunkSize = storeWords m (topWords st) := by
  rw [writeTop_eq hs hfits, storeWords, topWords, size_or_pinuse hs]
  rfl

theorem Lockstep.refused (remap : State → Memory → Memory) (h : Lockstep w fs)
    (hres : w.env.heapCallback d = some (r, s')) (hr : r ≠ 0)
    (h' : HeapState s' fs') (haddr : s'.kernelHeapAddr = w.env.kernelHeapAddr)
    (hsize : s'.kernelHeapSize = w.env.kernelHeapSize)
    (hw' : w' = { w.emit (.sbrk d) with env := s', mem := remap s' w.mem }) :
    Lockstep w' fs' ∧ Answered remap w w' := by
  subst hw'
  exact ⟨⟨h', haddr ▸ h.page, h.start.trans haddr.symm, h.size.trans hsize.symm,
    h.initial, h.mul, h.top⟩,
    .refused d r rfl hr hres rfl rfl⟩

theorem Lockstep.moved (remap : State → Memory → Memory) (size top : Nat) (h : Lockstep w fs)
    (hres : w.env.heapCallback d = some (0, s'))
    (h' : HeapState s' fs') (haddr : s'.kernelHeapAddr = w.env.kernelHeapAddr)
    (hsize : (s'.kernelHeapSize : Int) = w.env.kernelHeapSize + d)
    (hsize' : (size : Int) = w.kmstate.heapSize + d)
    (htop : (top : Int) = w.kmstate.topChunkSize + d) (hmul : d % 4096 = 0)
    (hw' : w' = { w.emit (.sbrk d) with
      env := s'
      kmstate := { w.kmstate with heapSize := size, topChunkSize := top }
      mem := writeTop (remap s' w.mem) w.kmstate.topChunk top }) :
    Lockstep w' fs' ∧ Answered remap w w' := by
  subst hw'
  obtain ⟨habove, halign, htop8, hends⟩ := h.top
  have hsame := h.size
  have hstart := h.start
  have hpages := h.mul
  have hbelow := h'.below
  rw [kernelHeapLimit] at hbelow
  rw [dummySize] at hends
  have htop8' : top % 8 = 0 := by omega
  refine ⟨⟨h', haddr ▸ h.page, hstart.trans haddr.symm, ?_, h.initial, ?_, habove,
    halign, htop8', ?_⟩, ?_⟩
  · show size = s'.kernelHeapSize
    omega
  · show size % 4096 = 0
    omega
  · show w.kmstate.topChunk + top + dummySize = w.kmstate.heapStart + size
    rw [dummySize]
    omega
  · refine .moved d rfl hres ?_ ?_
    · exact writeTop_words { w.kmstate with heapSize := size, topChunkSize := top } _ htop8'
        (show w.kmstate.topChunk + top + 8 < 4294967296 by omega)
    · intro p hp b hb
      simp only [topWords, List.mem_cons, List.not_mem_nil, or_false] at hp
      rcases hp with rfl | rfl | rfl <;> exact h'.mapped (by omega) (by omega)

theorem growTop_lockstep (remap : State → Memory → Memory) (h : Lockstep w fs) {increment : Nat}
    (hinc : increment < 2147483648) :
    (∃ fs', Lockstep (growTop (kernelCallbacks remap) w increment).2 fs') ∧
      Answered remap w (growTop (kernelCallbacks remap) w increment).2 ∧
      ((growTop (kernelCallbacks remap) w increment).1 = true →
        w.kmstate.topChunkSize + increment ≤
        (growTop (kernelCallbacks remap) w increment).2.kmstate.topChunkSize) := by
  have hbelow := h.pages.below
  have hsame := h.size
  have hstart := h.start
  obtain ⟨habove, halign, htop8, hends⟩ := h.top
  rw [kernelHeapLimit] at hbelow
  rw [dummySize] at hends
  rw [growTop, alignUp (by omega)]
  have hgen : (increment + 4095) / 4096 * 4096 = pageUp increment := rfl
  generalize pageUp increment = inc at hgen
  by_cases hhalf : inc > halfMaxSizeT
  · simp only [if_pos hhalf]
    exact ⟨⟨fs, h⟩, .silent rfl, fun hno => Bool.noConfusion hno⟩
  have hhalf' : inc ≤ 2147483647 := Nat.le_of_not_lt hhalf
  simp only [if_neg hhalf, toInt_of_lt (show inc < 2147483648 by omega)]
  obtain ⟨r, s', fs', hres, h', haddr, hcase⟩ := h.pages.answer (d := inc) (by omega) (by omega)
  rw [actionSbrk_kernel hres]
  rcases hcase with ⟨rfl, hsize⟩ | ⟨rfl, hsize⟩
  · have hbelow' := h'.below
    rw [kernelHeapLimit] at hbelow'
    have hadd : add w.kmstate.topChunkSize inc = w.kmstate.topChunkSize + inc :=
      add_of_lt (by omega)
    have hadd' : add w.kmstate.heapSize inc = w.kmstate.heapSize + inc := add_of_lt (by omega)
    simp only [decide_true, if_true, World.emit, hadd, hadd']
    obtain ⟨hstep, hans⟩ := h.moved remap (w.kmstate.heapSize + inc)
      (w.kmstate.topChunkSize + inc) hres h' haddr hsize (by omega) (by omega) (by omega) rfl
    exact ⟨⟨fs', hstep⟩, hans, fun _ => by show _ ≤ w.kmstate.topChunkSize + inc; omega⟩
  · obtain ⟨hstep, hans⟩ := h.refused remap hres (by decide) h' haddr hsize rfl
    simp only [show ¬(-1 : Int) = 0 by decide, decide_false, Bool.false_eq_true, if_false]
    exact ⟨⟨fs', hstep⟩, hans, False.elim⟩

theorem shrinkTop_lockstep (remap : State → Memory → Memory) (h : Lockstep w fs) :
    (∃ fs', Lockstep (shrinkTop (kernelCallbacks remap) w) fs') ∧
      Answered remap w (shrinkTop (kernelCallbacks remap) w) := by
  have hbelow := h.pages.below
  have hsame := h.size
  have hstart := h.start
  have hinit := h.initial
  have hmul := h.mul
  obtain ⟨habove, halign, htop8, hends⟩ := h.top
  rw [kernelHeapLimit] at hbelow
  rw [dummySize] at hends
  have hsilent : (∃ fs', Lockstep w fs') ∧ Answered remap w w := ⟨⟨fs, h⟩, .silent rfl⟩
  rw [shrinkTop]
  by_cases hbig : w.kmstate.topChunkSize > heapShrinkTreshold ∧
    w.kmstate.heapSize ≥ w.kmstate.initialHeapSize
  swap
  · simp only [if_neg hbig]
    exact hsilent
  simp only [if_pos hbig]
  have hpage : PageHeap w.kmstate := ⟨by omega, .inl ⟨by rw [hinit]; rfl, hmul⟩⟩
  have hsur := hpage.surplus hbig.1 htop8 (by omega) hbig.2
  rw [surplus] at hsur
  generalize sub w.kmstate.heapSize _ = give at hsur ⊢
  by_cases hpos : give > 0
  swap
  · simp only [if_neg hpos]
    exact hsilent
  simp only [if_pos hpos]
  have hhalf : halfMaxSizeT = 2147483647 := rfl
  have hcap : halfMaxSizeT &&& not32 (heapSizeAlign - 1) = 0x7FFFF000 := by decide
  rw [hcap]
  generalize hdec : (if give > halfMaxSizeT then 0x7FFFF000 else give) = dec
  have hdec : 0 < dec ∧ dec ≤ give ∧ dec ≤ 2147483647 ∧ dec % 4096 = 0 := by
    by_cases hd : give > halfMaxSizeT
    · rw [if_pos hd] at hdec
      omega
    · rw [if_neg hd] at hdec
      omega
  rw [toInt_neg (by omega) (by omega)]
  obtain ⟨r, s', fs', hres, h', haddr, hcase⟩ :=
    h.pages.answer (d := -(dec : Int)) (by omega) (by omega)
  rw [actionSbrk_kernel hres]
  rcases hcase with ⟨rfl, hsize⟩ | ⟨rfl, hsize⟩
  · have hsub : sub w.kmstate.topChunkSize dec = w.kmstate.topChunkSize - dec :=
      sub_of_le (by omega) (by omega)
    have hsub' : sub w.kmstate.heapSize dec = w.kmstate.heapSize - dec :=
      sub_of_le (by omega) (by omega)
    have hne : w.kmstate.topChunkSize - dec ≠ 0 := by omega
    simp only [decide_true, if_true, World.emit, hsub, hsub', if_pos hne]
    obtain ⟨hstep, hans⟩ := h.moved remap (w.kmstate.heapSize - dec)
      (w.kmstate.topChunkSize - dec) hres h' haddr hsize (by omega) (by omega) (by omega) rfl
    exact ⟨⟨fs', hstep⟩, hans⟩
  · obtain ⟨hstep, hans⟩ := h.refused remap hres (by decide) h' haddr hsize rfl
    simp only [show ¬(-1 : Int) = 0 by decide, decide_false, Bool.false_eq_true, if_false]
    exact ⟨⟨fs', hstep⟩, hans⟩

-- ---------------------------------------------------------------------------
-- Runs
-- ---------------------------------------------------------------------------

def KernelHeapRun (remap : State → Memory → Memory) (w : World State) : Prop :=
  Reach KernelStart (topStep remap) TopAction.May w

theorem KernelHeapRun.lockstep (h : KernelHeapRun remap w) : ∃ fs, Lockstep w fs := by
  refine h.invariant (p := fun w => ∃ fs, Lockstep w fs) (fun w hstart => hstart.lockstep) ?_
  rintro w a w' ⟨fs, h⟩ hstep hmay
  cases a with
  | grow increment =>
    cases hstep
    exact (growTop_lockstep remap h hmay).1
  | shrink =>
    cases hstep
    exact (shrinkTop_lockstep remap h).1
  | use st mem =>
    cases hstep
    obtain ⟨htop, hstart, hsize, hinit⟩ := hmay
    exact ⟨fs, h.pages, h.page, hstart.trans h.start, hsize.trans h.size, hinit.trans h.initial,
      hsize ▸ h.mul, htop⟩
  | serve env =>
    cases hstep
    obtain ⟨⟨fs', hpages⟩, haddr, hsize⟩ := hmay
    exact ⟨fs', hpages, haddr ▸ h.page, h.start.trans haddr.symm, h.size.trans hsize.symm,
      h.initial, h.mul, h.top⟩

/-- In every state of a run the two agree; so they do after each call from
there, which writes to mapped pages only, and a heap that was grown has a top
that has at least the increment more. -/
theorem lockstep_calls (h : KernelHeapRun remap w) :
    InStep w ∧
      (∀ increment < 2147483648,
        InStep (growTop (kernelCallbacks remap) w increment).2 ∧
          Answered remap w (growTop (kernelCallbacks remap) w increment).2 ∧
          ((growTop (kernelCallbacks remap) w increment).1 = true →
            w.kmstate.topChunkSize + increment ≤
              (growTop (kernelCallbacks remap) w increment).2.kmstate.topChunkSize)) ∧
      InStep (shrinkTop (kernelCallbacks remap) w) ∧
      Answered remap w (shrinkTop (kernelCallbacks remap) w) := by
  obtain ⟨fs, hlock⟩ := h.lockstep
  refine ⟨hlock.inStep, fun increment hinc => ?_, ?_⟩
  · obtain ⟨⟨fs', hlock'⟩, hans, hgrown⟩ := growTop_lockstep remap hlock hinc
    exact ⟨hlock'.inStep, hans, hgrown⟩
  · obtain ⟨⟨fs', hlock'⟩, hans⟩ := shrinkTop_lockstep remap hlock
    exact ⟨hlock'.inStep, hans⟩

/-- The heap of two pages after `libk_init_heap`, with four frames left. -/
def smallWorld : World State :=
  kmallocInit ⟨⟨0, 0, 0, 0, 0, fun _ => 0, fun _ => 0, 0, 0, 0, 0, 0⟩, fun _ => 0,
  suppliedHeap, []⟩ 4096 8192

theorem smallWorld_start : KernelStart smallWorld :=
  ⟨⟨_, suppliedHeap_state⟩, by decide +kernel, by decide +kernel, by decide, by decide, by
    decide, by decide, by decide,
    by decide, by decide⟩

/-- Two pages are added to the heap and taken away again. -/
theorem lockstep_calls_smallWorld :
    ∃ grown : World State, (growTop (kernelCallbacks fun _ m => m) smallWorld 8000) =
      (true, grown) ∧
      grown.kmstate.heapSize = 16384 ∧ InStep grown ∧ Answered (fun _ m => m) smallWorld grown ∧
      ∃ shrunk : World State, shrinkTop (kernelCallbacks fun _ m => m) grown = shrunk ∧
        shrunk.kmstate.heapSize = 8192 ∧ InStep shrunk ∧ Answered (fun _ m => m) grown shrunk := by
  have hstart : KernelHeapRun (fun _ m => m) smallWorld := .start smallWorld_start
  have hsmall := (lockstep_calls hstart).2.1 8000 (by decide)
  have hrun :
    KernelHeapRun (fun _ m => m) (growTop (kernelCallbacks fun _ m => m) smallWorld 8000).2 :=
    hstart.step (a := .grow 8000) rfl (show 8000 < 2147483648 by decide)
  have hgrown := (lockstep_calls hrun).2.2
  have hdone : (growTop (kernelCallbacks fun _ m => m) smallWorld 8000).1 = true :=
    by decide +kernel
  refine ⟨_, Prod.ext hdone rfl, by decide +kernel, hsmall.1, hsmall.2.1, _, rfl, by
    decide +kernel, hgrown.1, hgrown.2⟩

end ElcoOs.Kmalloc
