import ElcoOs.Kmalloc.Bounded
import ElcoOs.Kmalloc.Reject
import ElcoOs.Kmalloc.Sbrk

/-!
# What `shrink_top` gives back

The surplus of the top is clamped to the initial size of the heap and rounded
to pages. Where the heap began as a number of pages, or with 8 bytes more than
one, rounding never takes the new size above the old one.
-/

namespace ElcoOs.Kmalloc

open Word32

variable {ε : Type}

section
variable {w w' : World ε} {cb : Callbacks ε} {heapEnd : ε → Nat} {P : Prop} {s s' : Clients ε}
  {a c i n p size index first fs next : Nat} {r : Nat × World ε} {act : Call}

-- ---------------------------------------------------------------------------
-- Heaps of pages
-- ---------------------------------------------------------------------------

theorem PageHeap.same (h : PageHeap w.kmstate) (hs : SameSizes w w') : PageHeap w'.kmstate := by
  obtain ⟨hlt, hpages⟩ := h
  refine ⟨?_, ?_⟩
  · rw [hs.heapSize]
    exact hlt
  · rw [hs.heapSize, hs.initial]
    exact hpages

theorem PageHeap.resize (top : Nat) (h : PageHeap w.kmstate) (hlt : size < 4294967296)
    (hsize : size % 4096 = w.kmstate.heapSize % 4096 ∨ size % 4096 = 0) :
    PageHeap { w.kmstate with heapSize := size, topChunkSize := top } := by
  refine ⟨hlt, ?_⟩
  have := h.pages
  simp only
  omega

theorem growTop_pages (cb : Callbacks ε) (h : PageHeap w.kmstate) (n : Nat) :
    PageHeap (growTop cb w n).2.kmstate := by
  have hmul : (add n (heapSizeAlign - 1) &&& not32 (heapSizeAlign - 1)) % 4096 = 0 := by
    rw [show heapSizeAlign - 1 = 4095 from rfl, and_not32_4095 add_lt]
    omega
  rw [growTop]
  generalize add n (heapSizeAlign - 1) &&& not32 (heapSizeAlign - 1) = k at hmul
  have hsize : add w.kmstate.heapSize k % 4096 = w.kmstate.heapSize % 4096 := by
    rw [add]
    omega
  by_cases hk : k > halfMaxSizeT
  · simp only [if_pos hk]
    exact h
  · simp only [if_neg hk]
    cases (actionSbrk cb w (toInt k)).1 with
    | false => exact h
    | true =>
      simp only [if_true]
      exact ⟨add_lt, (h.resize 0 add_lt (.inl hsize)).pages⟩

theorem splitTop_pages (cb : Callbacks ε) (h : PageHeap w.kmstate) (c : Nat) :
    PageHeap (splitTop cb w c true).2.kmstate := by
  by_cases hlow : w.kmstate.topChunkSize < c
  · have hgrow := growTop_pages cb h (sub c w.kmstate.topChunkSize)
    -- the result is a variable from here on, so that it is never computed
    obtain ⟨g, hg⟩ : ∃ g, growTop cb w (sub c w.kmstate.topChunkSize) = g := ⟨_, rfl⟩
    rw [splitTop_short hlow hg]
    rw [hg] at hgrow
    split
    · exact hgrow.same (carveTop_noSbrk _ c).toSameSizes
    · exact hgrow
  · rw [splitTop_enough cb hlow]
    exact h.same (carveTop_noSbrk w c).toSameSizes

theorem kmalloc_pages (h : PageHeap w.kmstate) (hres : kmalloc cb w n = some r) :
    PageHeap r.2.kmstate := by
  rw [kmalloc] at hres
  split at hres
  · cases hres
    exact h
  split at hres
  · cases hres
    exact h
  rw [kmallocIntern] at hres
  have hlast : ∀ {q : Nat × World ε}, SameSizes w q.2 →
      (if q.1 = 0 then
        if request2Size n ≤ q.2.kmstate.dVictimSize then some (allocateDv q.2 (request2Size n))
        else some (splitTop cb q.2 (request2Size n) true)
      else some q) = some r → PageHeap r.2.kmstate := by
    intro q hq hres
    have hpage := h.same hq
    split at hres
    · split at hres
      · cases hres
        exact hpage.same (allocateDv_noSbrk ..).toSameSizes
      · cases hres
        exact splitTop_pages cb hpage _
    · cases hres
      exact hpage
  split at hres
  · obtain ⟨q, hq, hres⟩ := Option.bind_eq_some_iff.mp hres
    exact hlast (internSmall_noSbrk hq).toSameSizes hres
  · obtain ⟨q, hq, hres⟩ := Option.bind_eq_some_iff.mp hres
    exact hlast (internLarge_noSbrk hq).toSameSizes hres

theorem shrinkTop_pages (cb : Callbacks ε) (h : PageHeap w.kmstate) :
    PageHeap (shrinkTop cb w).kmstate := by
  rw [shrinkTop]
  by_cases hbig : w.kmstate.topChunkSize > heapShrinkTreshold ∧
    w.kmstate.heapSize ≥ w.kmstate.initialHeapSize
  swap
  · simp only [if_neg hbig]
    exact h
  simp only [if_pos hbig, show heapSizeAlign - 1 = 4095 from rfl]
  generalize (if sub w.kmstate.heapSize (sub w.kmstate.topChunkSize heapShrinkTreshold) <
    w.kmstate.initialHeapSize
    then w.kmstate.initialHeapSize else
      sub w.kmstate.heapSize (sub w.kmstate.topChunkSize heapShrinkTreshold)) = n
  rw [and_not32_4095 add_lt]
  have hn : add n 4095 / 4096 * 4096 < 4294967296 :=
    Nat.lt_of_le_of_lt (Nat.div_mul_le_self _ _) add_lt
  generalize hk : add n 4095 / 4096 * 4096 = k at hn
  have hlt := h.lt
  have hcap : halfMaxSizeT &&& not32 4095 = 0x7FFFF000 := by decide
  generalize hd : sub w.kmstate.heapSize k = d
  have hmod :
    (sub w.kmstate.heapSize (if d > halfMaxSizeT then halfMaxSizeT &&& not32 4095 else d)) % 4096 =
      w.kmstate.heapSize % 4096 ∨
        (sub w.kmstate.heapSize (if d > halfMaxSizeT then halfMaxSizeT &&& not32 4095 else
        d)) % 4096 = 0 := by
    rw [hcap]
    split
    · rw [sub]
      omega
    · rw [sub] at hd ⊢
      omega
  generalize (if d > halfMaxSizeT then halfMaxSizeT &&& not32 4095 else d) = e at hmod
  split
  · split
    · have hres : PageHeap { w.kmstate with
          heapSize := sub w.kmstate.heapSize e, topChunkSize := sub w.kmstate.topChunkSize e } :=
            h.resize _ sub_lt hmod
      split
      · exact hres
      · exact hres
    · exact h
  · exact h

theorem mergeFreeChunks_pages (h : PageHeap w.kmstate)
    (hres : mergeFreeChunks cb w first fs next = some w') :
    PageHeap w'.kmstate := by
  have hlast : ∀ {w w' : World ε} {first fs : Nat}, PageHeap w.kmstate →
      (if first = w.kmstate.dVictim then some (w.setDVictim first fs) else
      binChunk w first) = some w' →
        PageHeap w'.kmstate := by
    intro w w' first fs h hres
    split at hres
    · cases hres
      exact h.same ⟨rfl, rfl⟩
    · exact h.same (binChunk_noSbrk hres).toSameSizes
  rw [mergeFreeChunks] at hres
  simp only at hres
  split at hres
  · split at hres
    · cases hres
      refine shrinkTop_pages cb (h.same ?_)
      split <;> exact ⟨rfl, rfl⟩
    · split at hres
      · cases hres
        exact h.same ⟨rfl, rfl⟩
      · obtain ⟨w₁, h₁, hres⟩ := Option.bind_eq_some_iff.mp hres
        have hsizes := (unbinChunk_noSbrk h₁).toSameSizes
        exact hlast (h.same ⟨hsizes.heapSize, hsizes.initial⟩) hres
  · exact hlast (w := ((w.setHeader first (fs ||| pinuse)).setPrevFoot next fs).setHeader next _)
      (h.same ⟨rfl, rfl⟩) hres

theorem kfree_pages (h : PageHeap w.kmstate) (hres : kfree cb w p = some w') :
    PageHeap w'.kmstate := by
  rw [kfree] at hres
  simp only at hres
  split at hres
  · cases hres
    exact h
  split at hres
  · cases hres
    exact h
  split at hres
  · split at hres
    · cases hres
      exact h
    split at hres
    · obtain ⟨w₁, h₁, hres⟩ := Option.bind_eq_some_iff.mp hres
      have hpage := h.same (unbinChunk_noSbrk h₁).toSameSizes
      split at hres
      · cases hres
        exact hpage
      · exact mergeFreeChunks_pages hpage hres
    · simp only [Option.bind_eq_bind, Option.bind_some] at hres
      split at hres
      · cases hres
        exact h
      · exact mergeFreeChunks_pages h hres
  · split at hres
    · cases hres
      exact h
    · exact mergeFreeChunks_pages h hres

theorem Clients.call_pages (h : PageHeap s.world.kmstate) (hres : s.call cb act = some s') :
    PageHeap s'.world.kmstate := by
  cases act with
  | kmalloc n =>
    obtain ⟨r, hr, hres⟩ := Option.bind_eq_some_iff.mp hres
    cases hres
    exact kmalloc_pages h hr
  | kfree p =>
    obtain ⟨w', hr, hres⟩ := Option.bind_eq_some_iff.mp hres
    cases hres
    exact kfree_pages h hr
  | write x v =>
    cases hres
    exact h

-- ---------------------------------------------------------------------------
-- The surplus
-- ---------------------------------------------------------------------------

/-- The amount leaves the top its threshold and the heap its initial size. -/
structure Surplus (st : KmallocState) (d : Nat) : Prop where
  pos : 0 < d
  top : d ≤ st.topChunkSize - heapShrinkTreshold
  align : d % 8 = 0
  heap : st.initialHeapSize ≤ st.heapSize - d

/-- `shrink_top` has asked to release a surplus, and has taken it off the sizes if the callback
has. -/
structure GivesBack (cb : Callbacks ε) (w w' : World ε) (d : Nat) : Prop where
  surplus : Surplus w.kmstate d
  trace : w'.trace = .sbrk (-(d : Int)) :: w.trace
  refused : (cb.sbrk (-(d : Int)) w.env w.mem).1 = false → w'.kmstate = w.kmstate
  released : (cb.sbrk (-(d : Int)) w.env w.mem).1 = true →
    w'.kmstate = { w.kmstate with heapSize := w.kmstate.heapSize - d, topChunkSize :=
    w.kmstate.topChunkSize - d } ∧
      w'.kmstate.topChunkSize % 8 = 0 ∧ heapShrinkTreshold ≤ w'.kmstate.topChunkSize

theorem shrinkTop_surplus (cb : Callbacks ε) (h : PageHeap w.kmstate)
    (h8 : w.kmstate.topChunkSize % 8 = 0) (hfits : w.kmstate.topChunkSize + 8 ≤ w.kmstate.heapSize)
    (hinit : w.kmstate.initialHeapSize ≤ w.kmstate.heapSize) :
    shrinkTop cb w = w ∨ ∃ d, GivesBack cb w (shrinkTop cb w) d := by
  have hlt := h.lt
  have hthr : heapShrinkTreshold = 4096 := rfl
  rw [shrinkTop]
  by_cases hbig : w.kmstate.topChunkSize > heapShrinkTreshold ∧
    w.kmstate.heapSize ≥ w.kmstate.initialHeapSize
  swap
  · simp only [if_neg hbig]
    exact .inl trivial
  simp only [if_pos hbig]
  have hsur := h.surplus hbig.1 h8 hfits hinit
  rw [surplus] at hsur
  generalize sub w.kmstate.heapSize _ = give at hsur ⊢
  by_cases hpos : give > 0
  swap
  · simp only [if_neg hpos]
    exact .inl trivial
  simp only [if_pos hpos]
  have hhalf : halfMaxSizeT = 2147483647 := rfl
  have hcap : halfMaxSizeT &&& not32 (heapSizeAlign - 1) = 0x7FFFF000 := by decide
  rw [hcap]
  generalize hdec : (if give > halfMaxSizeT then 0x7FFFF000 else give) = d
  have hd : 0 < d ∧ d ≤ give ∧ d ≤ 2147483647 ∧ d % 8 = 0 := by
    by_cases hover : give > halfMaxSizeT
    · rw [if_pos hover] at hdec
      omega
    · rw [if_neg hover] at hdec
      omega
  have hsurplus : Surplus w.kmstate d := ⟨hd.1, by omega, hd.2.2.2, by omega⟩
  rw [toInt_neg (by omega) (by omega)]
  refine .inr ⟨d, ?_⟩
  cases hok : (cb.sbrk (-(d : Int)) w.env w.mem).1 with
  | false =>
    have hno : (actionSbrk cb w (-(d : Int))).1 = false := hok
    simp only [hno, Bool.false_eq_true, if_false]
    exact ⟨hsurplus, rfl, fun _ => rfl, fun hyes => absurd (hok.symm.trans hyes) Bool.false_ne_true⟩
  | true =>
    have hyes : (actionSbrk cb w (-(d : Int))).1 = true := hok
    have hst : (actionSbrk cb w (-(d : Int))).2.kmstate = w.kmstate := rfl
    have hsub : sub w.kmstate.topChunkSize d = w.kmstate.topChunkSize - d :=
      sub_of_le (by omega) (by omega)
    have hsub' : sub w.kmstate.heapSize d = w.kmstate.heapSize - d :=
      sub_of_le (by omega) (by omega)
    have hne : w.kmstate.topChunkSize - d ≠ 0 := by omega
    simp only [hyes, if_true, hst, hsub, hsub', if_pos hne]
    refine ⟨hsurplus, rfl, fun hno => absurd (hno.symm.trans hok) Bool.false_ne_true,
      fun _ => ⟨rfl, ?_, ?_⟩⟩
    · show (w.kmstate.topChunkSize - d) % 8 = 0
      omega
    · show heapShrinkTreshold ≤ w.kmstate.topChunkSize - d
      omega

-- ---------------------------------------------------------------------------
-- Any heap that `kmalloc_init` accepts
-- ---------------------------------------------------------------------------

/-- An area below the end of the address space that `kmalloc_init` accepts. -/
structure Accepted (a n : Nat) : Prop where
  pos : a ≠ 0
  size : sub (chunkAlign a) a + minChunkSize + dummySize ≤ n
  fits : a + n < 4294967296

/-- `kmalloc_init` was called on such an area, with a callback that knows its end. -/
inductive AnyInitial (cb : Callbacks ε) (heapEnd : ε → Nat) : Clients ε → Prop where
  | init {w : World ε} {a n : Nat} (accepted : Accepted a n) (sbrk :
    SbrkOk cb heapEnd (chunkAlign a) (a + n))
      (synced : heapEnd w.env = a + n) : AnyInitial cb heapEnd ⟨kmallocInit w a n, []⟩

def PageInitial (cb : Callbacks ε) (heapEnd : ε → Nat) (s : Clients ε) : Prop :=
  AnyInitial cb heapEnd s ∧
    (s.world.kmstate.initialHeapSize % 4096 = 0 ∨ s.world.kmstate.initialHeapSize = 4104)

def Call.Taken (s : Clients ε) : Call → Prop
  | .kmalloc size => MallocOk s.world size
  | .kfree ptr => KfreePages s.world ptr
  | .write _ _ => True

abbrev PageRun (cb : Callbacks ε) (heapEnd : ε → Nat) (s : Clients ε) : Prop :=
  Reach (PageInitial cb heapEnd) (Clients.call cb) (fun s c _ => c.Legal s ∧ c.Taken s) s

theorem kmallocInit_aligned (w : World ε) (h : Accepted a n) :
    kmallocInit w a n = kmallocInit w (chunkAlign a) (n - (chunkAlign a - a)) ∧
      (kmallocInit w a n).kmstate.initialHeapSize = n - (chunkAlign a - a) ∧
      chunkAlign a + (n - (chunkAlign a - a)) = a + n ∧ chunkAlign a % 8 = 0 ∧ chunkAlign a ≠ 0 ∧
      24 ≤ n - (chunkAlign a - a) := by
  obtain ⟨hpos, hsize, hfits⟩ := h
  rw [show minChunkSize = 16 from rfl, show dummySize = 8 from rfl] at hsize
  have halign : chunkAlign a = (a + 7) / 8 * 8 := by
    rw [chunkAlign, add_of_lt (by omega), and_not32_seven (by omega)]
  have hsub : sub (chunkAlign a) a = chunkAlign a - a := sub_of_le (by omega) (by omega)
  rw [hsub] at hsize
  have halign' : chunkAlign (chunkAlign a) = chunkAlign a := by
    rw [chunkAlign, add_of_lt (by omega), and_not32_seven (by omega)]
    omega
  have hzero : sub (chunkAlign a) (chunkAlign a) = 0 :=
    by rw [sub_of_le (Nat.le_refl _) (by omega), Nat.sub_self]
  have hn : sub n (chunkAlign a - a) = n - (chunkAlign a - a) := sub_of_le (by omega) (by omega)
  have hn' : sub (n - (chunkAlign a - a)) 0 = n - (chunkAlign a - a) :=
    sub_of_le (Nat.zero_le _) (by omega)
  have hroom : ¬add (add (chunkAlign a - a) minChunkSize) dummySize > n := by
    rw [show minChunkSize = 16 from rfl, show dummySize = 8 from rfl,
      add_of_lt (show chunkAlign a - a + 16 < 4294967296 by omega), add_of_lt (by omega)]
    omega
  have hroom' : ¬add (add 0 minChunkSize) dummySize > n - (chunkAlign a - a) := by
    rw [show add (add 0 minChunkSize) dummySize = 24 from rfl]
    omega
  refine ⟨?_, ?_, by omega, by omega, by omega, by omega⟩
  · simp only [kmallocInit, halign', hsub, hzero, hn, hn']
    rw [if_neg hpos, if_neg (show ¬chunkAlign a = 0 by omega), if_neg hroom, if_neg hroom']
  · simp only [kmallocInit, hsub, hn]
    rw [if_neg hpos, if_neg hroom]

theorem AnyInitial.initial (h : AnyInitial cb heapEnd s)
    (h8 : s.world.kmstate.initialHeapSize % 8 = 0) :
    Initial cb heapEnd s := by
  obtain ⟨hacc, hsbrk, hsynced⟩ := h
  rename_i w a n
  obtain ⟨heq, hinit, hend, halign, hpos, hsize⟩ := kmallocInit_aligned w hacc
  rw [hinit] at h8
  rw [heq]
  rw [← hend] at hsbrk hsynced
  exact .init ⟨hpos, halign, h8, hsize, hend ▸ hacc.fits⟩ hsbrk hsynced

theorem PageInitial.start (h : PageInitial cb heapEnd s) : LiveHeap cb heapEnd s ∧
    PageHeap s.world.kmstate := by
  obtain ⟨hinit, hsize⟩ := h
  have hinit := hinit.initial (by omega)
  obtain ⟨hlive, -, -⟩ := hinit.liveHeap
  refine ⟨hlive, ?_⟩
  obtain ⟨harea, -, -⟩ := hinit
  rename_i w a n
  obtain ⟨-, -, -, hst⟩ := kmallocInit_spec (w := w) harea
  have hfits := harea.fits
  simp only [hst] at hsize ⊢
  refine ⟨by show n < _; omega, ?_⟩
  simp only
  omega

theorem PageRun.pages (h : PageRun cb heapEnd s) : LiveHeap cb heapEnd s ∧
    PageHeap s.world.kmstate := by
  refine h.invariant (p := fun s => LiveHeap cb heapEnd s ∧ PageHeap s.world.kmstate)
    (fun s hs => hs.start) ?_
  rintro s c s' ⟨hlive, hpage⟩ hnext ⟨hlegal, htaken⟩
  refine ⟨?_, Clients.call_pages hpage hnext⟩
  cases c with
  | kmalloc n =>
    obtain ⟨p, w', hres, hlive', -⟩ := hlive.kmalloc hlegal htaken
    rw [Clients.call, hres] at hnext
    cases hnext
    exact hlive'
  | kfree p =>
    obtain ⟨w', hres, hlive', -⟩ := hlive.kfree (P := True) hlegal htaken
    rw [Clients.call, hres] at hnext
    cases hnext
    exact hlive'
  | write x v =>
    cases hnext
    obtain ⟨p, hp, hlo, hhi⟩ := hlegal
    exact hlive.write hp hlo hhi

-- ---------------------------------------------------------------------------
-- Every call of `shrink_top`
-- ---------------------------------------------------------------------------

/-- `kfree` in `w` comes to its end with `shrink_top` in `w₁`. -/
def EndsInShrink (w : World ε) (p : Nat) (w₁ : World ε) : Prop :=
  ∀ cb, kfree cb w p = some (shrinkTop cb w₁)

/-- Of a heap of pages `kfree` releases nothing, or `shrink_top` does, and then
a surplus. -/
theorem PageRun.gives_back (h : PageRun cb heapEnd s) (hp : p ∈ s.live)
    (htaken : KfreePages s.world p) :
    ∃ w', kfree cb s.world p = some w' ∧ (w'.trace = s.world.trace ∨
      ∃ w₁ d, EndsInShrink s.world p w₁ ∧ w₁.trace = s.world.trace ∧ GivesBack cb w₁ w' d) := by
  obtain ⟨hlive, hpage⟩ := h.pages
  obtain ⟨w', hres, -⟩ := hlive.kfree (P := True) hp htaken
  refine ⟨w', hres, ?_⟩
  obtain ⟨pre, a, size, post, rfl, hpay, hcs⟩ := hlive.split hp
  have hheap := hlive.heap
  rw [hcs] at hheap
  obtain ⟨w₁, pre₁, f, fs, B₁, hcode, hf⟩ := kfree_hole hheap
  obtain ⟨b, m, hw₁⟩ := hf.bins
  rw [hcode cb] at hres
  cases post with
  | nil =>
    obtain ⟨w₂, htop, hj⟩ := hf.hole.join_top heapEnd (P := True) hf.beside
    cases (htop cb).symm.trans hres
    have harena := hj.heap.arena
    have hfits := hj.heap.top.fits
    have hle := hj.heap.tiled.le
    have hpage₂ : PageHeap w₂.kmstate := by
      refine hpage.same ⟨?_, ?_⟩
      · rw [hj.heapSize, hw₁]
        rfl
      · rw [hj.kept.initial, hw₁]
        rfl
    have htrace : w₂.trace = s.world.trace := by
      rw [hj.trace, hw₁]
      rfl
    rcases shrinkTop_surplus cb hpage₂ hj.heap.top.align (by omega) harena.initial with
      hsame | ⟨d, hd⟩
    · exact .inl (by rw [hsame, htrace])
    · exact .inr ⟨w₂, d, fun cb => (hcode cb).trans (htop cb), htrace, hd⟩
  | cons n rest =>
    obtain ⟨hna, hat, hrest⟩ := hf.hole.after
    have hmin := hat.min
    have hle := hrest.le
    refine .inl ((mergeFreeChunks_beside ?_ hres).trans ?_)
    · omega
    · rw [hw₁]
      rfl

/-- The callback of a heap that grows up to 12 MiB and shrinks down to `least`. -/
def grant (least : Nat) : Callbacks Nat :=
  ⟨fun i e m =>
    if (least : Int) ≤ e + i ∧ (e : Int) + i < 0xC00000 then (true, ((e : Int) + i).toNat, m) else
      (false, e, m), id⟩

theorem grant_sbrkOk (lo least : Nat) : SbrkOk (grant least) id lo least := by
  refine ⟨fun i e m hfails => ?_, fun i e m hmoves => ?_⟩
  · simp only [grant] at hfails ⊢
    split at hfails
    · cases hfails
    · rename_i hno
      rw [if_neg hno]
      exact ⟨rfl, fun _ _ _ => rfl⟩
  · simp only [grant] at hmoves ⊢
    split at hmoves
    · rename_i hyes
      rw [if_pos hyes]
      refine ⟨?_, ?_, ?_, fun _ _ _ _ => rfl⟩ <;> simp only [id_eq] <;> omega
    · cases hmoves

def fourPages : Clients Nat := (setUp 4096).after (grant 8192) (.kmalloc 16000)

theorem fourPages_reached : PageRun (grant 8192) id fourPages ∧
    SmallRun (grant 8192) id fourPages := by
  have hcall : (setUp 4096).call (grant 8192) (.kmalloc 16000) = some fourPages :=
    Clients.call_after (by decide +kernel)
  have hsmall : (setUp 4096).world.kmstate.heapSize < 0xC00000 := by decide
  have hinit : Initial (grant 8192) id (setUp 4096) :=
    .init ⟨by decide, by decide, by decide, by decide, by decide⟩ (grant_sbrkOk 4096 8192) rfl
  refine ⟨.step (.start ⟨?_, .inl (by decide)⟩) hcall ⟨show 16000 < 4294967296 by decide, ?_⟩,
    .step (.start ⟨hinit, hsmall⟩) hcall
      ⟨⟨show 16000 < 4294967296 by decide, show 16000 < 0xC00000 by decide, by decide +kernel⟩,
      .inl (by decide)⟩⟩
  · exact .init ⟨by decide, by decide, by decide⟩ (grant_sbrkOk 4096 8192) rfl
  · exact hinit.liveHeap.1.heap.mallocOk hsmall (by decide) (.inl (by decide))

/-- Of the three pages that the block has added two go back. -/
theorem gives_back_fourPages :
    fourPages.world.kmstate.heapSize = 16384 ∧
      ∃ w', kfree (grant 8192) fourPages.world 4104 = some w' ∧ w'.kmstate.heapSize = 8192 ∧
        (w'.trace = fourPages.world.trace ∨ ∃ w₁ d, EndsInShrink fourPages.world 4104 w₁ ∧
          w₁.trace = fourPages.world.trace ∧ GivesBack (grant 8192) w₁ w' d) := by
  obtain ⟨hpages, hsmall⟩ := fourPages_reached
  have hheap := hsmall.smallHeap
  obtain ⟨w', hres, hback⟩ :=
    hpages.gives_back (p := 4104) (List.mem_of_elem_eq_true (by decide +kernel))
    (hheap.heap.kfreeOk hheap.heapSize).pages
  have hsize : (kfree (grant 8192) fourPages.world 4104).map (fun w => w.kmstate.heapSize) =
    some 8192 := by
    decide +kernel
  rw [hres, Option.map_some, Option.some.injEq] at hsize
  exact ⟨by decide +kernel, w', hres, hsize, hback⟩

def oddHeap : Clients Nat := (setUp 5000).after refuse (.kmalloc 8)

/-- The size of a heap of 5000 bytes is rounded up to 8192, and the difference wraps. -/
theorem gives_back_oddHeap :
    ¬∀ s, Reach (AnyInitial refuse id) (Clients.call refuse) (fun s c _ => c.Legal s) s →
    ∀ p ∈ s.live,
      ∃ w', kfree refuse s.world p = some w' ∧ (w'.trace = s.world.trace ∨
        ∃ w₁ d, EndsInShrink s.world p w₁ ∧ w₁.trace = s.world.trace ∧
          GivesBack refuse w₁ w' d) := by
  intro hall
  have hstart : AnyInitial refuse id (setUp 5000) := .init ⟨by decide, by decide, by decide⟩
    ⟨fun _ _ _ _ => ⟨rfl, fun _ _ _ => rfl⟩, fun _ _ _ h => Bool.noConfusion h⟩ rfl
  have hreach : Reach (AnyInitial refuse id) (Clients.call refuse)
    (fun s c _ => c.Legal s) oddHeap :=
    .step (.start hstart) (Clients.call_after (c := .kmalloc 8) (by decide +kernel))
      (show 8 < 4294967296 by decide)
  have hasked : (kfree refuse oddHeap.world 4104).map (fun w => (w.trace, w.kmstate.topChunkSize)) =
      some (.sbrk (-0x7FFFF000) :: oddHeap.world.trace, 4992) := by decide +kernel
  obtain ⟨w', hres, hcase⟩ := hall _ hreach 4104 (List.mem_of_elem_eq_true (by decide +kernel))
  rw [hres, Option.map_some, Option.some.injEq, Prod.mk.injEq] at hasked
  obtain ⟨htrace, htop⟩ := hasked
  rcases hcase with hsame | ⟨w₁, d, -, htrace₁, hback⟩
  · rw [htrace] at hsame
    exact absurd hsame (List.cons_ne_self _ _)
  · have hasks := hback.trace
    rw [htrace, htrace₁, List.cons.injEq, Event.sbrk.injEq] at hasks
    have hst := hback.refused rfl
    have hsur := hback.surplus.top
    rw [← hst, htop, show heapShrinkTreshold = 4096 from rfl] at hsur
    omega

end

end ElcoOs.Kmalloc
