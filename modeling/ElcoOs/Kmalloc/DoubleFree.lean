import ElcoOs.Kmalloc.Overwrite
import ElcoOs.Kmalloc.Reject

/-!
# A block freed twice

A chunk that has become the start of a free chunk says so in its header. One
that the free chunk before it has swallowed keeps its header, and the size in
its first word is not that of the chunk before any more. But a chunk in a tree
bin has its links and the index of the bin in its first 32 bytes: where the
chunk before had 24 bytes, the index takes the place of the swallowed header.
-/

namespace ElcoOs.Kmalloc

open Word32 RingTree

variable {ε : Type}

/-- `kfree` rejects the pointer and changes nothing. -/
def Caught (cb : Callbacks ε) (w : World ε) (ptr : Nat) : Prop :=
  ∃ w', kfree cb w ptr = some w' ∧ Aborted w w' ∧ Unchanged w w'

/-- The chunk before the one at `a` is free, of 24 bytes and not the victim, and what freeing
makes of the two goes into tree bin `i`. -/
def Overlaid (w : World ε) (a i : Nat) : Prop :=
  ∃ pre f s post size, chunks w = pre ++ ⟨f, 24, false⟩ :: ⟨a, s, true⟩ :: post ∧
    binnedSize w.kmstate f (s + 24) post = some size ∧ minLargeSize ≤ size ∧ calcTbin size = i

/-- Where the index, read as a header, says that the chunk is used, it says that the one before is
free; and a chunk of that bin, its address read as the size of the one before, is out of reach. -/
def Guarded (w : World ε) (a : Nat) : Prop :=
  ∀ i, Overlaid w a i → i &&& cinuse ≠ 0 → i &&& pinuse = 0 ∧
    ∀ q ∈ binned w, minLargeSize ≤ q.2 → calcTbin q.2 = i → ¬addressOk (sub a q.1) w.kmstate

/-- No difference of two addresses in the heap is one. -/
def Away (st : KmallocState) : Prop :=
  st.heapSize ≤ st.heapStart ∧ st.heapStart + 2 * st.heapSize ≤ 4294967296

instance (st : KmallocState) : Decidable (Away st) := inferInstanceAs (Decidable (_ ∧ _))

section
variable {heapEnd : ε → Nat} {P : Prop} {w w' w₁ : World ε} {cs pre pre₁ post : List Chunk}
  {B B₁ U : List (Nat × Nat)} {a b f fs i n p : Nat} {cb : Callbacks ε} {s : Clients ε}

-- ---------------------------------------------------------------------------
-- What the second call finds
-- ---------------------------------------------------------------------------

theorem Caught.of_check (hinit : w.kmstate.isInit) (hp : p ≠ 0)
    (h : addressOk (payloadChunk p) w.kmstate → ¬isInuse w.mem (payloadChunk p)) :
    Caught cb w p := by
  have hnull : ¬(p = 0 ∨ ¬w.kmstate.isInit) := by simp [hp, hinit]
  have hbad : ¬addressOk (payloadChunk p) w.kmstate ∨ ¬isInuse w.mem (payloadChunk p) :=
    or_iff_not_imp_left.mpr fun hok => h (not_not.mp hok)
  refine ⟨actionAbort cb w, ?_, rfl, rfl, rfl⟩
  simp only [kfree, if_neg hnull, if_pos hbad]
  rfl

theorem Caught.of_prev (hinit : w.kmstate.isInit) (hp : p ≠ 0)
    (hprev : ¬prevInuse w.mem (payloadChunk p))
    (h : addressOk (prevChunk w.mem (payloadChunk p)) w.kmstate →
      getChunkSize w.mem (prevChunk w.mem (payloadChunk p)) = prevFoot w.mem (payloadChunk p) →
      isInuse w.mem (prevChunk w.mem (payloadChunk p))) : Caught cb w p := by
  by_cases hchunk : addressOk (payloadChunk p) w.kmstate ∧ isInuse w.mem (payloadChunk p)
  · have hnull : ¬(p = 0 ∨ ¬w.kmstate.isInit) := by simp [hp, hinit]
    have hgood : ¬(¬addressOk (payloadChunk p) w.kmstate ∨ ¬isInuse w.mem (payloadChunk p)) := by
      simp [hchunk.1, hchunk.2]
    have hbad : ¬addressOk (prevChunk w.mem (payloadChunk p)) w.kmstate ∨
        getChunkSize w.mem (prevChunk w.mem (payloadChunk p)) ≠ prevFoot w.mem (payloadChunk p) ∨
        isInuse w.mem (prevChunk w.mem (payloadChunk p)) := by
      by_cases hok : addressOk (prevChunk w.mem (payloadChunk p)) w.kmstate
      · exact .inr (or_iff_not_imp_left.mpr fun hsize => h hok (not_not.mp hsize))
      · exact .inl hok
    refine ⟨actionAbort cb w, ?_, rfl, rfl, rfl⟩
    simp only [kfree, if_neg hnull, if_neg hgood, if_pos hprev, if_pos hbad]
    rfl
  · exact .of_check hinit hp fun hok hused => hchunk ⟨hok, hused⟩

theorem not_caught (hinit : w.kmstate.isInit) (hp : p ≠ 0)
    (hok : addressOk (payloadChunk p) w.kmstate) (hused : isInuse w.mem (payloadChunk p))
    (hprev : prevInuse w.mem (payloadChunk p))
    (hnext : addressOk (nextChunk w.mem (payloadChunk p)) w.kmstate) : ¬Caught cb w p := by
  rintro ⟨w', hres, ha, -⟩
  have hnull : ¬(p = 0 ∨ ¬w.kmstate.isInit) := by simp [hp, hinit]
  have hgood : ¬(¬addressOk (payloadChunk p) w.kmstate ∨ ¬isInuse w.mem (payloadChunk p)) := by
    simp [hok, hused]
  simp only [kfree, if_neg hnull, if_neg hgood, if_neg (not_not_intro hprev),
    if_neg (not_not_intro hnext)] at hres
  rcases mergeFreeChunks_trace hres with htr | ⟨i, htr⟩
  · exact absurd (htr.symm.trans ha) (by simp)
  · exact absurd (htr.symm.trans ha) (by simp)

-- ---------------------------------------------------------------------------
-- What the first call leaves
-- ---------------------------------------------------------------------------

theorem LiveHeap.freed (h : LiveHeap cb heapEnd s)
    (hcs : chunks s.world = pre ++ ⟨a, n, true⟩ :: post)
    (hok : FreeOk s.world.kmstate pre a n post (binned s.world)) :
    ∃ w' w₁ pre₁ f fs B₁, Kmalloc.kfree cb s.world (a + 8) = some w' ∧
      FreedHole s.world w₁ pre pre₁ a n f fs post (binned s.world) B₁ ∧
      Filled heapEnd True w₁ w' (pairs true (pre ++ post)) f fs post B₁ := by
  have hheap := h.heap
  rw [hcs] at hheap
  exact kfree_filled hheap h.env (.inl hok)

/-- The hole starts with the header of a free chunk, the top, or the dummy. -/
theorem Filled.start (h : Filled heapEnd P w₁ w' U f fs post B)
    (hhole : HoleAt w₁ pre f fs true post B) :
    ∃ z u, Kmalloc.header w'.mem f = z + flags false u ∧ z % 8 = 0 ∧
      (post = [] → w'.kmstate.topChunk = f ∧ z = w'.kmstate.topChunkSize) ∧
      (post ≠ [] → fs ≤ z) := by
  cases post with
  | nil =>
    obtain ⟨cs', B', hheap, -, htop, -⟩ := h.heap
    have htop : w'.kmstate.topChunk = f := htop
    have hat := hheap.top
    rw [htop] at hat
    have hnil : ¬([] : List Chunk) ≠ [] := not_not_intro rfl
    by_cases h0 : w'.kmstate.topChunkSize = 0
    · refine ⟨_, false, ?_, hat.align, fun _ => ⟨htop, rfl⟩, fun hne => absurd hne hnil⟩
      have hdummy := hat.dummy
      rw [h0] at hdummy ⊢
      exact hdummy
    · exact ⟨_, true, hat.header h0, hat.align, fun _ => ⟨htop, rfl⟩, fun hne => absurd hne hnil⟩
  | cons m rest =>
    obtain ⟨-, hnat, -⟩ := hhole.after
    have hm8 := hnat.align
    have hfs8 := hhole.align
    refine ⟨_, true, h.header m rfl, ?_, fun hnil => absurd hnil (List.cons_ne_nil _ _),
      fun _ => ?_⟩
    · split <;> omega
    · split <;> omega

/-- The words of a chunk that was swallowed. -/
theorem Filled.words (h : Filled heapEnd P w₁ w' U f fs post B)
    (hx : ∀ x, a ≤ x → x < a + 8 → Stale w₁.kmstate w'.kmstate f fs post x) :
    Kmalloc.header w'.mem a = Kmalloc.header w₁.mem a ∧ prevFoot w'.mem a = prevFoot w₁.mem a :=
  ⟨Memory.load32_congr fun x hlo hhi => h.stale x (hx x (by omega) (by omega)),
    Memory.load32_congr fun x hlo hhi => h.stale x (hx x hlo (by omega))⟩

theorem FreedHole.swallowed {ps : Nat} (h : FreedHole w w₁ pre pre₁ a n f fs post B B₁)
    (hpre : pre = pre₁ ++ [⟨f, ps, false⟩]) :
    header w₁.mem a = n + flags true false ∧ prevFoot w₁.mem a = ps ∧ n % 8 = 0 ∧ ps % 8 = 0 ∧
      f % 8 = 0 := by
  obtain ⟨t, hbefore, hat, -⟩ := h.heap.tiled.split
  subst hpre
  obtain ⟨-, u, -, rfl, hfree, rfl, rfl⟩ := tiled_append.mp hbefore
  have haddr := h.heap.tiled.addr_align h.heap.arena.align (c := ⟨f, ps, false⟩) (by simp)
  exact ⟨hat.header, (hfree.free rfl).2, hat.align, hfree.align, haddr⟩

theorem Settled.binned {st st' : KmallocState} (h : Settled st st' f fs post B)
    (hs : binnedSize st f fs post = some n) : (f, n) ∈ B := by
  cases post with
  | nil => cases hs
  | cons m rest =>
    simp only [binnedSize] at hs
    split at hs
    · cases hs
    · have h := h ‹_›
      split at hs
      · cases hs
        rwa [if_pos ‹_›] at h
      · rw [if_neg ‹_›] at h
        split at hs
        · cases hs
        · cases hs
          rwa [if_neg ‹_›] at h

/-- The words of a chunk in a tree bin where a chunk of 16 or 24 bytes ended. -/
theorem Heap.tree_words (h : Heap w cs B) (hmem : (f, n) ∈ B) (hlarge : minLargeSize ≤ n) :
    index w.mem f = calcTbin n ∧ right w.mem f % 8 = 0 ∧ (parent w.mem f = 0 ∨
      ∃ q ∈ B, q.1 = parent w.mem f ∧ q.1 ≠ f ∧ minLargeSize ≤ q.2 ∧
        calcTbin q.2 = calcTbin n) := by
  obtain ⟨t, hrep, -, hitems⟩ := h.bins.tree _ (calcTbin_lt n)
  have hf : f ∈ t.addrs := RTree.mem_addrs (hitems.mem_iff.mpr
    (List.mem_filter.mpr ⟨hmem, by simpa using binNo_large hlarge⟩))
  have hchunk : ∀ b ∈ t.addrs, ∃ q ∈ B, q.1 = b ∧ minLargeSize ≤ q.2 ∧
      calcTbin q.2 = calcTbin n := by
    intro b hb
    obtain ⟨q, hq, rfl⟩ := List.mem_map.mp hb
    have hq := List.mem_filter.mp (hitems.mem_iff.mp hq)
    exact ⟨q, hq.1, rfl, large_of_binNo (by simpa using hq.2)⟩
  have hplaced := TreeBin.placed h.extents hitems
  have h0 : (0 : Nat) ∉ t.addrs := fun h0 => (hplaced.fits 0 h0).1 rfl
  have hright := (hrep.closed hf).2.1
  have hparent := hrep.parent_mem hf
  refine ⟨h.bins.indexed _ hmem hlarge, ?_, ?_⟩
  · by_cases hz : (links w.mem).right f = 0
    · exact (congrArg (· % 8) hz).trans rfl
    · obtain ⟨q, hq, he, -⟩ := hchunk _ (hright hz)
      have hfree := h.free.mem_iff.mpr (List.mem_append_right _ hq)
      have := (h.toHeapAt.mem (mem_pairs.mp hfree)).2.2.2.2.1
      rw [show right w.mem f = q.1 from he.symm]
      exact this
  · have hin : (links w.mem).parent f = 0 ∨ (links w.mem).parent f ∈ t.addrs := by tauto
    refine hin.imp id fun hin => ?_
    obtain ⟨q, hq, he, hrest⟩ := hchunk _ hin
    refine ⟨q, hq, he, ?_, hrest⟩
    rw [he]
    exact hrep.parent_ne hplaced.nodup h0 hf fun hz => h0 (hz ▸ hf)

theorem payloadChunk_add (h : a + 8 < 4294967296) : payloadChunk (a + 8) = a := by
  rw [payloadChunk, sub_of_le (by omega) h]
  omega

/-- The words of the swallowed chunk are still there, or it is the dummy or out of the heap. -/
theorem Filled.caught {ps : Nat} (cb : Callbacks ε)
    (h : Filled heapEnd P w₁ w' U f fs post B₁) (hf : FreedHole w w₁ pre pre₁ a n f fs post B B₁)
    (hpre : pre = pre₁ ++ [⟨f, ps, false⟩]) (ha : a = f + ps) (hfs : fs = n + ps) (hps : 16 ≤ ps)
    (hlinks : ∀ size, binnedSize w₁.kmstate f fs post = some size →
      size < minLargeSize ∨ 32 ≤ ps) : Caught cb w' (a + 8) := by
  obtain ⟨hhdr, hfoot, hn8, hps8, hf8⟩ := hf.swallowed hpre
  obtain ⟨z, u, hz, hz8, hztop, hzfs⟩ := h.start hf.hole
  obtain ⟨cs', B', hheap, -⟩ := h.heap
  obtain ⟨-, hhi, hn, -, -, hlt⟩ := hf.heap.mem (c := ⟨a, n, true⟩) (by simp)
  simp only at hhi hn
  have hinit := hheap.arena.isInit
  have hpay : payloadChunk (a + 8) = a := payloadChunk_add (by omega)
  have hend : add w'.kmstate.heapStart w'.kmstate.heapSize =
      w'.kmstate.heapStart + w'.kmstate.heapSize := add_of_lt hheap.arena.fits
  have hstart8 := hheap.arena.align
  have hsize8 := hheap.arena.size
  by_cases hin : post = [] → a < w'.kmstate.heapStart + w'.kmstate.heapSize ∧
      a ≠ f + w'.kmstate.topChunkSize
  · have hstale : ∀ x, a ≤ x → x < a + 8 → Stale w₁.kmstate w'.kmstate f fs post x := by
      intro x hlo hhi
      refine ⟨by omega, by omega, fun size hs => ⟨by omega, ?_⟩, fun hnil => ?_⟩
      · exact (hlinks size hs).imp_right fun _ => by omega
      · obtain ⟨hlow, hne⟩ := hin hnil
        have := (hztop hnil).2
        omega
    obtain ⟨hhdr', hfoot'⟩ := h.words hstale
    rw [hhdr] at hhdr'
    rw [hfoot] at hfoot'
    refine Caught.of_prev hinit (by omega) ?_ fun _ hsize => ?_
    · rw [hpay]
      exact fun hp => by simpa using (prevInuse_of_header hhdr' hn8).mp hp
    · have hprev : prevChunk w'.mem a = f := by
        rw [prevChunk, hfoot', sub_of_le (by omega) (by omega)]
        omega
      rw [hpay, hprev, hfoot', getChunkSize_of_header hz hz8] at hsize
      by_cases hnil : post = []
      · have := hin hnil
        have := hztop hnil
        omega
      · have := hzfs hnil
        omega
  · obtain ⟨hnil, hout⟩ := Classical.not_imp.mp hin
    refine Caught.of_check hinit (by omega) fun hok => ?_
    rw [hpay] at hok ⊢
    have hlow := hok.2
    rw [hend] at hlow
    have hdummy := hheap.top.dummy
    rw [(hztop hnil).1, ← show a = f + w'.kmstate.topChunkSize by omega] at hdummy
    rw [isInuse, hdummy]
    decide

theorem LiveHeap.caught (h : LiveHeap cb heapEnd s)
    (hcs : chunks s.world = pre ++ ⟨a, n, true⟩ :: post)
    (hok : FreeOk s.world.kmstate pre a n post (binned s.world)) (hg : Guarded s.world a) :
    ∃ w', Kmalloc.kfree cb s.world (a + 8) = some w' ∧ Caught cb w' (a + 8) := by
  obtain ⟨w', w₁, pre₁, f, fs, B₁, hres, hf, hfilled⟩ := h.freed hcs hok
  obtain ⟨cs', B', hheap, -, hsettled, hold⟩ := hfilled.heap
  have hinit := hheap.arena.isInit
  obtain ⟨-, hhi, hn, -, -, hlt⟩ := hf.heap.mem (c := ⟨a, n, true⟩) (by simp)
  simp only at hhi hn
  have hpay : payloadChunk (a + 8) = a := payloadChunk_add (by omega)
  refine ⟨w', hres, ?_⟩
  rcases hf.chunk with ⟨-, rfl, -⟩ | ⟨ps, hpre, ha, hfs, h16, hsub⟩
  · -- the chunk is the start of what it has become
    obtain ⟨z, u, hz, hz8, -⟩ := hfilled.start hf.hole
    refine Caught.of_check hinit (by omega) fun _ => ?_
    rw [hpay]
    exact fun hused => by simpa using (isInuse_of_header hz hz8).mp hused
  by_cases hlinks : ∀ size, binnedSize w₁.kmstate f fs post = some size →
      size < minLargeSize ∨ 32 ≤ ps
  · exact hfilled.caught cb hf hpre ha hfs h16 hlinks
  -- tree words lie over the header
  obtain ⟨-, -, -, hps8, -⟩ := hf.swallowed hpre
  simp only [not_forall, not_or, Nat.not_lt, Nat.not_le] at hlinks
  obtain ⟨size, hbin, hlarge, hps⟩ := hlinks
  obtain ⟨hindex, hright, hparent⟩ := hheap.tree_words (hsettled.binned hbin) hlarge
  obtain rfl | rfl : ps = 16 ∨ ps = 24 := by omega
  · have hhdr : header w'.mem a = right w'.mem f := by
      rw [ha]
      rfl
    refine Caught.of_check hinit (by omega) fun _ => ?_
    rw [hpay, isInuse, hhdr, cinuse, and_two]
    omega
  · have hhdr : header w'.mem a = calcTbin size := by
      rw [ha]
      exact hindex
    have hfoot : prevFoot w'.mem a = parent w'.mem f := by
      rw [ha]
      rfl
    obtain ⟨b, m, hw₁⟩ := hf.bins
    have hover : Overlaid s.world a (calcTbin size) := by
      refine ⟨pre₁, f, n, post, size, by rw [hcs, hpre]; simp, ?_, hlarge, rfl⟩
      rw [hw₁, hfs] at hbin
      exact hbin
    by_cases hused : calcTbin size &&& cinuse ≠ 0
    · obtain ⟨hprev, hout⟩ := hg _ hover hused
      refine Caught.of_prev hinit (by omega) ?_ fun hok' _ => ?_
      · rw [hpay, prevInuse, hhdr]
        exact not_not_intro hprev
      · rw [hpay, prevChunk, hfoot] at hok' ⊢
        rcases hparent with h0 | ⟨q, hq, hqf, hne, hqlarge, hqbin⟩
        · rw [h0, sub_of_le (Nat.zero_le _) (by omega), Nat.sub_zero, isInuse, hhdr]
          exact hused
        · have hqB : q ∈ binned s.world := hsub.subset ((hold q hq).resolve_left hne)
          have hne : post ≠ [] := fun hnil => by
            rw [hnil] at hbin
            cases hbin
          rw [← hqf] at hok'
          refine absurd ?_ (hout q hqB hqlarge hqbin)
          have hst : w'.kmstate.heapStart = s.world.kmstate.heapStart := by
            rw [hfilled.kept.start, hw₁]
            rfl
          have hsz : w'.kmstate.heapSize = s.world.kmstate.heapSize := by
            rw [hfilled.heapSize hne, hw₁]
            rfl
          rw [addressOk, hst, hsz] at hok'
          exact hok'
    · refine Caught.of_check hinit (by omega) fun _ => ?_
      rw [hpay, isInuse, hhdr]
      exact hused

/-- With both flags in the index the second call frees a chunk that is not there. -/
theorem LiveHeap.not_caught (h : LiveHeap cb heapEnd s) (hover : Overlaid s.world a i)
    (hused : i &&& cinuse ≠ 0) (hprev : i &&& pinuse ≠ 0) (hok : KfreeOk s.world (a + 8))
    (hres : Kmalloc.kfree cb s.world (a + 8) = some w') : ¬Caught cb w' (a + 8) := by
  obtain ⟨pre, f, n, post, size, hcs, hbin, hlarge, rfl⟩ := hover
  have hcs : chunks s.world = (pre ++ [⟨f, 24, false⟩]) ++ ⟨a, n, true⟩ :: post := by
    rw [hcs]
    simp
  have hmem := h.heap.mem (c := ⟨a, n, true⟩) (by rw [hcs]; simp)
  simp only at hmem
  have hpay : payloadChunk (a + 8) = a := payloadChunk_add (by omega)
  obtain ⟨w'', w₁, pre₁, f', fs, B₁, hres', hf, hfilled⟩ :=
    h.freed hcs (by simpa only [hpay] using hok _ n post (by rw [hpay]; exact hcs))
  cases hres.symm.trans hres'
  obtain ⟨cs', B', hheap, -, hsettled, -⟩ := hfilled.heap
  obtain ⟨b, m, hw₁⟩ := hf.bins
  rcases hf.chunk with ⟨rfl, -⟩ | ⟨ps, hpre, rfl, rfl, -⟩
  · -- the chunk before says that it is used
    obtain ⟨t, -, -, -, hu⟩ := hf.hole.before.split
    cases hu
  obtain ⟨rfl, he⟩ := List.append_inj' hpre rfl
  obtain ⟨rfl, rfl⟩ : f = f' ∧ 24 = ps := by simpa using he
  have hbin₁ : binnedSize w₁.kmstate f (n + 24) post = some size := by
    rw [hw₁]
    exact hbin
  have hmem' := hsettled.binned hbin₁
  obtain ⟨hindex, -, -⟩ := hheap.tree_words hmem' hlarge
  have hhdr : header w'.mem (f + 24) = calcTbin size := hindex
  obtain ⟨hlo, hhi⟩ := hheap.below_top hmem'
  have hlt := calcTbin_lt size
  have h256 : minLargeSize = 256 := rfl
  have hfits := hheap.top.fits
  have harena := hheap.arena.fits
  simp only at hlo hhi
  have hnext : Kmalloc.nextChunk w'.mem (f + 24) = f + 24 + calcTbin size / 8 * 8 := by
    rw [nextChunk, getChunkSize, hhdr, flagMask, and_not32_seven (by omega), add_of_lt (by omega)]
  refine Kmalloc.not_caught hheap.arena.isInit (by omega) ?_ ?_ ?_ ?_
  · rw [hpay]
    exact hheap.addressOk (by omega) (by omega)
  · rw [hpay, isInuse, hhdr]
    exact hused
  · rw [hpay, prevInuse, hhdr]
    exact hprev
  · rw [hpay, hnext]
    exact hheap.addressOk (by omega) (by omega)

theorem Away.sub {st : KmallocState} (h : Away st) (hfits : st.heapStart + st.heapSize < 4294967296)
    (ha : st.heapStart ≤ a ∧ a < st.heapStart + st.heapSize)
    (hb : st.heapStart ≤ b ∧ b < st.heapStart + st.heapSize) : ¬addressOk (sub a b) st := by
  obtain ⟨hlow, hhigh⟩ := h
  rintro ⟨hlo, hhi⟩
  rw [add_of_lt hfits] at hhi
  by_cases hle : b ≤ a
  · rw [sub_of_le hle (by omega)] at hlo
    omega
  · rw [sub_of_lt (by omega) (by omega)] at hhi
    omega

/-- A second free of a block is caught where the first leaves no misleading header. -/
theorem SmallRun.double_free (h : SmallRun cb heapEnd s) (hp : p ∈ s.live) :
    ∃ w', kfree cb s.world p = some w' ∧
      (Guarded s.world (payloadChunk p) → Caught cb w' p) ∧
      (Caught cb w' p → ∀ i, Overlaid s.world (payloadChunk p) i → i &&& cinuse ≠ 0 →
        i &&& pinuse = 0) ∧
      (Away s.world.kmstate → (Caught cb w' p ↔ Guarded s.world (payloadChunk p))) := by
  have hs := h.smallHeap
  obtain ⟨pre, a, n, post, rfl, hpay, hcs⟩ := hs.split hp
  have hok := hs.heap.kfreeOk (p := a + 8) hs.heapSize
  have hfree := hok pre n post (by rw [hpay]; exact hcs)
  rw [hpay] at hfree ⊢
  obtain ⟨w', w₁, pre₁, f, fs, B₁, hres, -⟩ := hs.freed hcs hfree
  have hcaught : Guarded s.world a → Caught cb w' (a + 8) := by
    intro hg
    obtain ⟨w'', hres', hcaught⟩ := hs.caught hcs hfree hg
    cases hres.symm.trans hres'
    exact hcaught
  have hflags : Caught cb w' (a + 8) → ∀ i, Overlaid s.world a i → i &&& cinuse ≠ 0 →
      i &&& pinuse = 0 := by
    intro hc i hover hused
    by_contra hprev
    exact hs.not_caught hover hused hprev hok hres hc
  refine ⟨w', hres, hcaught, hflags, fun haway => ⟨fun hc i hover hused => ?_, hcaught⟩⟩
  refine ⟨hflags hc i hover hused, fun q hq _ _ => ?_⟩
  have hmem := hs.heap.mem (c := ⟨a, n, true⟩) (by rw [hcs]; simp)
  have hbelow := hs.heap.below_top hq
  have hmin := (hs.heap.extents.extent q hq).min
  have hfits := hs.heap.top.fits
  simp only at hmem
  exact haway.sub hs.heap.arena.fits (by omega) (by omega)

-- ---------------------------------------------------------------------------
-- A block behind a free chunk of 24 bytes
-- ---------------------------------------------------------------------------

/-- A free chunk of 24 bytes, a block of `n` bytes at 4128, and a small one. -/
def behindSmall (n : Nat) : Clients Nat :=
  ((((setUp 4096).after refuse (.kmalloc 20)).after refuse (.kmalloc n)).after refuse
    (.kmalloc 8)).after refuse (.kfree 4104)

theorem behindSmall_reached (hn : n = 500 ∨ n = 740) : SmallRun refuse id (behindSmall n) := by
  have hstart : SmallRun refuse id (setUp 4096) :=
    .start (setUp_initial (by decide) (by decide) (by decide))
  have hfirst : SmallRun refuse id ((setUp 4096).after refuse (.kmalloc 20)) :=
    .step hstart (Clients.call_after (c := .kmalloc 20) (by decide +kernel))
      ⟨⟨show 20 < 4294967296 by decide, show 20 < 0xC00000 by decide, by decide +kernel⟩,
        .inl (by decide)⟩
  have hsecond : SmallRun refuse id
      (((setUp 4096).after refuse (.kmalloc 20)).after refuse (.kmalloc n)) := by
    refine .step hfirst (Clients.call_after (c := .kmalloc n) ?_)
      ⟨⟨show n < 4294967296 by omega, show n < 0xC00000 by omega, ?_⟩, .inl ?_⟩
    all_goals rcases hn with rfl | rfl <;> decide +kernel
  refine .step (.step hsecond (Clients.call_after (c := .kmalloc 8) ?_)
    ⟨⟨show 8 < 4294967296 by decide, show 8 < 0xC00000 by decide, ?_⟩, .inl (by decide)⟩)
    (Clients.call_after (c := .kfree 4104) ?_)
    ⟨⟨List.mem_of_elem_eq_true ?_, trivial, ?_⟩, trivial⟩
  all_goals rcases hn with rfl | rfl <;> decide +kernel

theorem overlaid_iff {m : Chunk} (hcs : chunks w = [⟨f, 24, false⟩, ⟨a, n, true⟩, m])
    (hm : m.used = true) (hdv : w.kmstate.dVictim ≠ f) :
    Overlaid w a i ↔ minLargeSize ≤ n + 24 ∧ calcTbin (n + 24) = i := by
  have hbin : binnedSize w.kmstate f (n + 24) [m] = some (n + 24) := by
    simp only [binnedSize, if_neg hdv, if_pos hm]
  constructor
  · rintro ⟨pre, f', n', post, size, hcs', hs, hlarge, rfl⟩
    rw [hcs] at hcs'
    cases pre with
    | nil =>
      simp only [List.nil_append, List.cons.injEq, Chunk.mk.injEq] at hcs'
      obtain ⟨⟨rfl, -⟩, ⟨-, rfl, -⟩, rfl⟩ := hcs'
      cases hbin.symm.trans hs
      exact ⟨hlarge, rfl⟩
    | cons c pre =>
      cases pre with
      | nil => simp at hcs'
      | cons c' pre =>
        have hlen := congrArg List.length hcs'
        simp only [List.length_cons, List.length_append, List.length_nil] at hlen
        omega
  · rintro ⟨hlarge, rfl⟩
    exact ⟨[], f, n, [m], n + 24, hcs, hbin, hlarge, rfl⟩

theorem overlaid_behindSmall :
    (∀ i, Overlaid (behindSmall 500).world 4120 i ↔ i = 2) ∧
      ∀ i, Overlaid (behindSmall 740).world 4120 i ↔ i = 3 := by
  have h500 : chunks (behindSmall 500).world =
      [⟨4096, 24, false⟩, ⟨4120, 504, true⟩, ⟨4624, 16, true⟩] := by decide +kernel
  have h740 : chunks (behindSmall 740).world =
      [⟨4096, 24, false⟩, ⟨4120, 744, true⟩, ⟨4864, 16, true⟩] := by decide +kernel
  refine ⟨fun i => (overlaid_iff h500 rfl (by decide +kernel)).trans ?_,
    fun i => (overlaid_iff h740 rfl (by decide +kernel)).trans ?_⟩
  · rw [show calcTbin (504 + 24) = 2 by decide, and_iff_right (by decide), eq_comm]
  · rw [show calcTbin (744 + 24) = 3 by decide, and_iff_right (by decide), eq_comm]

theorem double_free_behindSmall :
    (∃ w', kfree refuse (behindSmall 500).world 4128 = some w' ∧ Caught refuse w' 4128) ∧
      ∃ w', kfree refuse (behindSmall 740).world 4128 = some w' ∧ ¬Caught refuse w' 4128 := by
  have hpay : payloadChunk 4128 = 4120 := by decide
  obtain ⟨w₁, h₁, hguarded, -, -⟩ := SmallRun.double_free (behindSmall_reached (.inl rfl))
    (List.mem_of_elem_eq_true (a := 4128) (by decide +kernel))
  obtain ⟨w₂, h₂, -, -, haway⟩ := SmallRun.double_free (behindSmall_reached (.inr rfl))
    (List.mem_of_elem_eq_true (a := 4128) (by decide +kernel))
  rw [hpay] at hguarded haway
  refine ⟨⟨w₁, h₁, hguarded fun i hover hused => ?_⟩, w₂, h₂, fun hc => ?_⟩
  · -- nothing is in bin 2
    obtain rfl := (overlaid_behindSmall.1 i).mp hover
    have hbinned : binned (behindSmall 500).world = [(4096, 24)] := by decide +kernel
    refine ⟨by decide, fun q hq hlarge => ?_⟩
    rw [hbinned, List.mem_singleton] at hq
    subst hq
    exact absurd hlarge (by decide)
  · have hguard := (haway (by decide +kernel)).mp hc 3 ((overlaid_behindSmall.2 3).mpr rfl)
    exact absurd (hguard (by decide)).1 (by decide)

/-- The index of bin 3 says that the chunk is used, and so is the one before. -/
theorem double_free_missed :
    ¬∀ s, Reach (SmallInitial refuse id) (Clients.call refuse) SmallStep s → ∀ p ∈ s.live,
      ∃ w', kfree refuse s.world p = some w' ∧ Caught refuse w' p := by
  intro h
  obtain ⟨w', hres, w'', hres', habort, -⟩ := h _ (behindSmall_reached (.inr rfl)).reach 4128
    (List.mem_of_elem_eq_true (by decide +kernel))
  have hfirst : (kfree refuse (behindSmall 740).world 4128).map World.trace =
      some (behindSmall 740).world.trace := by decide +kernel
  have hsecond : ((kfree refuse (behindSmall 740).world 4128).bind (kfree refuse · 4128)).map
      World.trace = some (behindSmall 740).world.trace := by decide +kernel
  rw [hres, Option.bind_some, hres', Option.map_some, habort] at hsecond
  rw [hres, Option.map_some, ← hsecond] at hfirst
  exact absurd (Option.some.inj hfirst) (List.cons_ne_self _ _).symm

end

end ElcoOs.Kmalloc
