import ElcoOs.Kmalloc.Bounded
import ElcoOs.Kmalloc.Sbrk

/-!
# The top as the last resort

A request comes to the top only when neither the designated victim nor any
binned chunk is large enough for it, to the `sbrk` callback only when the top
is too small as well, and comes back with nothing only when the callback fails.
-/

namespace ElcoOs.Kmalloc

open Word32 RingTree

variable {ε : Type}

/-- Neither the victim nor a binned chunk has `c` bytes. -/
def NoneFits (w : World ε) (c : Nat) : Prop := w.kmstate.dVictimSize < c ∧ ∀ p ∈ binned w, p.2 < c

/-- When a request of `c` bytes comes to the top, calls `sbrk` and fails. -/
structure LastResort (cb : Callbacks ε) (w : World ε) (c : Nat) (r : Nat × World ε) : Prop where
  top : r.1 = chunkPayload w.kmstate.topChunk ∨ ¬SameTop w.kmstate r.2.kmstate → NoneFits w c
  sbrk : ∃ es, r.2.trace = es ++ w.trace ∧
    ((∃ i, Event.sbrk i ∈ es) → NoneFits w c ∧ w.kmstate.topChunkSize < c)
  null : r.1 = 0 → NoneFits w c ∧ w.kmstate.topChunkSize < c ∧
    (cb.sbrk (growth w.kmstate.topChunkSize c) w.env w.mem).1 = false ∧ Refused w r.2

section
variable {heapEnd : ε → Nat} {P : Prop} {w w' : World ε} {cs : List Chunk} {B : List (Nat × Nat)}
  {a c i n : Nat} {cb : Callbacks ε} {s : Clients ε} {r : Nat × World ε}

-- ---------------------------------------------------------------------------
-- Which way a request goes
-- ---------------------------------------------------------------------------

theorem growTop_refused (hinc : n ≤ 0x7FFFF000) (hno : (growTop cb w n).1 = false) :
    (cb.sbrk (pageUp n) w.env w.mem).1 = false := by
  have hhalf : ¬pageUp n > halfMaxSizeT := by
    have : halfMaxSizeT = 2147483647 := rfl
    unfold pageUp
    omega
  have hlt : pageUp n < 2147483648 := by
    unfold pageUp
    omega
  rw [growTop, alignUp (by omega)] at hno
  simp only [if_neg hhalf, toInt_of_lt hlt] at hno
  cases hok : (cb.sbrk (pageUp n) w.env w.mem).1 with
  | false => rfl
  | true =>
    rw [if_pos (show (actionSbrk cb w (pageUp n)).1 = true from hok)] at hno
    cases hno

theorem growTop_topChunk (cb : Callbacks ε) (w : World ε) (n : Nat) :
    (growTop cb w n).2.kmstate.topChunk = w.kmstate.topChunk := by
  rw [growTop]
  generalize add n (heapSizeAlign - 1) &&& not32 (heapSizeAlign - 1) = k
  by_cases hk : k > halfMaxSizeT
  · simp only [if_pos hk]
  · simp only [if_neg hk]
    cases (actionSbrk cb w (toInt k)).1 <;> rfl

theorem carveTop_fst (w : World ε) (c : Nat) :
    (carveTop w c).1 = chunkPayload w.kmstate.topChunk := by
  unfold carveTop
  by_cases hall : sub w.kmstate.topChunkSize c < minChunkSize
  · simp only [if_pos hall]
  · simp only [if_neg hall]

/-- Either the callback is not called and there is a result, or nothing else would do. -/
structure Resorted (cb : Callbacks ε) (w : World ε) (B : List (Nat × Nat)) (c : Nat)
    (r : Nat × World ε) : Prop where
  noFit : NoFit w.kmstate B c
  top : w.kmstate.topChunkSize < c
  null : r.1 = 0 → (cb.sbrk (growth w.kmstate.topChunkSize c) w.env w.mem).1 = false

theorem kmallocIntern_resorts (h : Heap w cs B) (hc : 16 ≤ c) (hc8 : c % 8 = 0)
    (hlt : c ≤ 0x7FFFF000) (hreq : ReqOk w.kmstate B c) (hacc : Accepts B w.kmstate.dVictimSize)
    (hr : kmallocIntern cb w c true = some r) :
    (r.1 ≠ 0 ∧ NoSbrk w r.2) ∨ Resorted cb w B c r := by
  have hserved : ∀ {w : World ε} {r : Nat × World ε},
    Served cb (fun _ => 0) (Binned B c) w cs B c r → r.1 ≠ 0 := by
    rintro w r hs
    obtain ⟨cs', B', a, s, ha, -⟩ := hs.heap
    omega
  obtain ⟨q, hq, hno, hres⟩ :
    ∃ q, (if c < minLargeSize then internSmall w c else internLarge w c) = some q ∧
      NoSbrk w q.2 ∧ (Served cb (fun _ => 0) (Binned B c) w cs B c q ∨
        q.1 = 0 ∧ Looked (Binned B c) w q.2 ∧
        (w.kmstate.dVictimSize < c → NoFit w.kmstate B c)) := by
    by_cases hsmall : c < minLargeSize
    · have hsearch : Searched cb (fun _ => 0) (Binned B c) w cs B c (internSmall w c) :=
        internSmall_spec h hc hc8 hsmall hacc
      obtain ⟨q, hq, hres⟩ := hsearch
      exact ⟨q, by rw [if_pos hsmall, hq], internSmall_noSbrk hq, hres.imp_right fun ⟨h0, hl, hn,
        _⟩ => ⟨h0, hl, hn⟩⟩
    · have hsearch : Searched cb (fun _ => 0) (Binned B c) w cs B c (internLarge w c) :=
        internLarge_spec h hc8 (Nat.le_of_not_lt hsmall) hreq hacc
      obtain ⟨q, hq, hres⟩ := hsearch
      exact ⟨q, by rw [if_neg hsmall, hq], internLarge_noSbrk hq, hres.imp_right fun ⟨h0, hl, hn,
        _⟩ => ⟨h0, hl, hn⟩⟩
  rw [kmallocIntern_eq hq] at hr
  rcases hres with hs | ⟨h0, hlook, hfit⟩
  · rw [if_neg (hserved hs)] at hr
    obtain rfl := Option.some.inj hr
    exact .inl ⟨hserved hs, hno⟩
  rw [if_pos h0] at hr
  have hheap := hlook.heap h
  by_cases hdv : c ≤ q.2.kmstate.dVictimSize
  · rw [if_pos hdv] at hr
    obtain rfl := Option.some.inj hr
    exact .inl ⟨hserved (allocateDv_spec hheap hc hc8 hdv), hno.trans (allocateDv_noSbrk q.2 c)⟩
  rw [if_neg hdv] at hr
  rw [hlook.kmstate] at hdv
  by_cases hlow : q.2.kmstate.topChunkSize < c
  · have hgrow : sub c q.2.kmstate.topChunkSize = c - q.2.kmstate.topChunkSize :=
      sub_of_le (Nat.le_of_lt hlow) (by omega)
    -- the result is a variable from here on, so that it is never computed
    obtain ⟨g, hg⟩ : ∃ g, growTop cb q.2 (c - q.2.kmstate.topChunkSize) = g := ⟨_, rfl⟩
    rw [splitTop_short hlow (hgrow.symm ▸ hg)] at hr
    refine .inr ⟨hfit (by omega), hlook.kmstate ▸ hlow, fun hnull => ?_⟩
    have hno' : g.1 = false := by
      by_contra hgot
      have hgot : g.1 = true := by simpa using hgot
      rw [if_pos hgot] at hr
      have htop : g.2.kmstate.topChunk = w.kmstate.topChunk := by
        rw [← hg, growTop_topChunk, hlook.kmstate]
      have hfits := h.top.fits
      have harena := h.arena.fits
      rw [← Option.some.inj hr, carveTop_fst, htop, chunkPayload, add_of_lt (by omega)] at hnull
      omega
    rw [← hg] at hno'
    have hrefused := growTop_refused (by omega) hno'
    rw [growth]
    rw [hlook.kmstate] at hlow
    rw [hlook.kmstate, hlook.env, hlook.mem] at hrefused
    rw [if_pos hlow]
    exact hrefused
  · rw [splitTop_enough cb hlow] at hr
    obtain rfl := Option.some.inj hr
    obtain ⟨hpay, -⟩ :=
      carveTop_spec (P := True) (fun _ => 0) hheap.toHeapAt hc hc8 (Nat.le_of_not_lt hlow)
    exact .inl ⟨by omega, hno.trans (carveTop_noSbrk q.2 c)⟩

-- ---------------------------------------------------------------------------
-- In a heap below 12 MiB
-- ---------------------------------------------------------------------------

theorem SmallHeap.noneFits (h : SmallHeap cb heapEnd s)
    (hno : NoFit s.world.kmstate (binned s.world) c) :
    NoneFits s.world c := by
  refine ⟨hno.1, fun p hp => ?_⟩
  by_cases hc : c < 0xC00000
  · exact hno.2 hc p hp
  · have := h.heap.binned_lt h.heapSize p hp
    omega

theorem SmallHeap.lastResort (h : SmallHeap cb heapEnd s) (hn : n < 0xC00000)
    (hb : request2Size n < 0xC00000 ∨ s.world.kmstate.tbinmap = 0) :
    ∃ r, kmallocIntern cb s.world (request2Size n) true = some r ∧
      LastResort cb s.world (request2Size n) r := by
  have hov : ¬requestOverflow n := by
    rw [requestOverflow_iff (by omega)]
    omega
  obtain ⟨h8, h16, -, hup, hlt⟩ := request2Size_spec (by omega) hov
  obtain ⟨hreq, hacc⟩ := (h.heap.mallocOk h.heapSize hn hb).resolve_left hov
  obtain ⟨r, hr, hres⟩ := kmallocIntern_spec h.heap h.env h16 h8 hlt hreq hacc
  have hway := kmallocIntern_resorts h.heap h16 h8 (by omega) hreq hacc hr
  have hfits := h.heap.top.fits
  have harena := h.heap.arena.fits
  refine ⟨r, hr, fun htop => ?_, ?_, fun hnull => ?_⟩
  · rcases hres with hs | hno
    · rcases hs.top with hsame | ⟨hno, -⟩
      · -- a chunk below the top
        obtain ⟨cs', B', a, size, ha, -, hheap', hperm⟩ := hs.heap
        have hmem := hheap'.toHeapAt.mem (mem_pairs.mp (hperm.mem_iff.mpr List.mem_cons_self))
        rw [hsame.chunk] at hmem
        rcases htop with htop | htop
        · rw [chunkPayload, add_of_lt (by omega), ha] at htop
          simp only at hmem
          omega
        · exact absurd hsame htop
      · exact h.noneFits hno
    · exact h.noneFits hno.noFit.1
  · have hkept : ∃ es, r.2.trace = es ++ s.world.trace := by
      rcases hres with hs | hno
      · exact ⟨_, hs.kept.traced.choose_spec.1⟩
      · exact ⟨_, hno.kept.traced.choose_spec.1⟩
    rcases hway with ⟨-, hno⟩ | hre
    · obtain ⟨es, hes, hnot⟩ := hno.trace
      exact ⟨es, hes, fun ⟨i, hi⟩ => absurd hi (hnot i)⟩
    · obtain ⟨es, hes⟩ := hkept
      exact ⟨es, hes, fun _ => ⟨h.noneFits hre.noFit, hre.top⟩⟩
  · rcases hres with hs | hno
    · obtain ⟨cs', B', a, size, ha, -⟩ := hs.heap
      omega
    · have hre := hway.resolve_left fun hw => hw.1 hnull
      exact ⟨h.noneFits hno.noFit.1, hno.noFit.2, hre.null hnull, hno.refused⟩

theorem Heap.none_past (h : Heap w cs B) (hsmall : w.kmstate.heapSize < 0xC00000)
    (hc : 0xC00000 ≤ c) (hmap : w.kmstate.tbinmap ≠ 0) : kmallocIntern cb w c true = none := by
  have hlarge : ¬c < minLargeSize := by
    have : minLargeSize = 256 := rfl
    omega
  have h31 : calcTbin c = 31 := calcTbin_eq_31.mpr hc
  have hempty : w.kmstate.tbin 31 = 0 := by
    obtain ⟨t, hrep, -, hperm⟩ := h.bins.tree 31 (by decide)
    refine hrep.null_iff.mpr ?_
    cases t with
    | leaf => rfl
    | node head rest key l r =>
      obtain ⟨hmem, hbin⟩ :=
        List.mem_filter.mp (hperm.mem_iff.mp (show (head, key) ∈ _ by simp [RTree.items]))
      have hbin : binNo key = 32 + 31 := by simpa using hbin
      have hlt := h.binned_lt hsmall _ hmem
      have hge := calcTbin_eq_31.mp (large_of_binNo hbin).2
      simp only at hlt
      omega
  have hdv := h.victim_lt hsmall
  have hbest : kmallocTreeGetBestFit w.mem c (w.kmstate.tbin 31) (tbinDepth 31) = some 0 := by
    rw [kmallocTreeGetBestFit, if_pos (.inr hempty)]
  have hshr : shr w.kmstate.tbinmap 32 = w.kmstate.tbinmap := by simp [shr]
  rw [kmallocIntern, if_neg hlarge, internLarge]
  simp only [h31, hbest, guard, ntbins, Option.bind_eq_bind]
  simp [hshr, hmap, Nat.lt_of_lt_of_le hdv hc]

theorem SmallRun.of_reach (h : Reach (SmallInitial cb heapEnd) (Clients.call cb) SmallStep s) :
    SmallRun cb heapEnd s := by
  induction h with
  | start hinit => exact .start hinit
  | step _ hnext hstep ih =>
    rename_i s s' act _
    refine .step ih hnext ⟨hstep, ?_⟩
    cases act with
    | kfree p => trivial
    | write x v => trivial
    | kmalloc n =>
      have hs := ih.smallHeap
      have hn : n < 0xC00000 := hstep.small
      by_contra hno
      rw [Call.StaysBelow, not_or, Nat.not_lt] at hno
      have hov : ¬requestOverflow n := by
        rw [requestOverflow_iff (by omega)]
        omega
      obtain ⟨r, hr, -⟩ := Option.bind_eq_some_iff.mp hnext
      rw [kmalloc, if_neg (not_not_intro hs.heap.arena.isInit), if_neg hov,
        hs.heap.none_past hs.heapSize hno.1 hno.2] at hr
      cases hr

/-- In every state reached the top is the last resort for just those requests
that stay below the bound or come when no tree bin is in use. -/
theorem last_resort_iff (h : Reach (SmallInitial cb heapEnd) (Clients.call cb) SmallStep s)
    (hn : n < 0xC00000) :
    (∃ r, kmallocIntern cb s.world (request2Size n) true = some r ∧
    LastResort cb s.world (request2Size n) r) ↔
      request2Size n < 0xC00000 ∨ s.world.kmstate.tbinmap = 0 := by
  have hs := (SmallRun.of_reach h).smallHeap
  refine ⟨fun ⟨r, hr, _⟩ => ?_, hs.lastResort hn⟩
  by_contra hno
  simp only [not_or, Nat.not_lt] at hno
  cases (hs.heap.none_past hs.heapSize hno.1 hno.2).symm.trans hr

theorem last_resort_iff_oneInTree :
    ∃ r, kmallocIntern refuse oneInTree.world (request2Size 8) true = some r ∧
      LastResort refuse oneInTree.world (request2Size 8) r :=
  (last_resort_iff oneInTree_reached.reach (by decide)).mpr (.inl (by decide))

/-- Rounded up to the bound, a request has no result while a tree bin is in use. -/
theorem last_resort_past_last_bin :
    ¬∀ s, Reach (SmallInitial refuse id) (Clients.call refuse) SmallStep s → ∀ n < 0xC00000,
      ∃ r, kmallocIntern refuse s.world (request2Size n) true = some r ∧
        LastResort refuse s.world (request2Size n) r := by
  intro h
  obtain ⟨r, hr, -⟩ := h _ victimAndTree_reached 0xBFFFF5 (by decide)
  have hs := (SmallRun.of_reach victimAndTree_reached).smallHeap
  cases (hs.heap.none_past hs.heapSize (by decide) (by decide +kernel)).symm.trans hr

end

end ElcoOs.Kmalloc
