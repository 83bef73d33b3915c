import ElcoOs.Kmalloc.Bounded

/-!
# Rejected frees

`kfree` calls abort at three places. At the first two nothing has been written;
at the third, where the next chunk is out of the heap, the chunk before may
have been taken out of its bin already.
-/

namespace ElcoOs.Kmalloc

open Word32 Ring RingTree

variable {ε : Type}

section
variable {w w' w₁ : World ε} {cb : Callbacks ε} {B B' : List (Nat × Nat)}
  {b : BinTables} {m : Memory} {a i s ptr first fs next : Nat} {p : Nat × Nat}

-- ---------------------------------------------------------------------------
-- The bins determine what they hold
-- ---------------------------------------------------------------------------

theorem RingList.subset {xs ys : List Nat} (h : RingList m a xs)
    (h' : RingList m a ys) (ha : a ≠ 0) :
    ∀ x ∈ xs, x ∈ ys := by
  cases xs with
  | nil => simp
  | cons x xs =>
    cases ys with
    | nil => exact absurd h'.head ha
    | cons y ys =>
      obtain rfl : a = x := h.head
      obtain rfl : a = y := h'.head
      intro z hz
      rcases List.mem_cons.mp hz with rfl | hz
      · exact List.mem_cons_self
      · exact Seg.closed (p :=
          (· ∈ a :: ys)) h.ring List.mem_cons_self (fun y hy => (h'.ring.links_mem hy).1) z hz

theorem SmallBin.subset (h : SmallBin m a i B) (h' : SmallBin m a i B')
    (hx : ∀ p ∈ B, Extent p) (hp : p ∈ B) (hi : binNo p.2 = i) : p ∈ B' := by
  obtain ⟨xs, hr, hxs⟩ := h
  obtain ⟨ys, hr', hys⟩ := h'
  obtain ⟨y, hy, rfl⟩ :=
    List.mem_map.mp (hxs.mem_iff.mpr (List.mem_filter.mpr ⟨hp, by simpa using hi⟩))
  have ha : a ≠ 0 := by
    cases xs with
    | nil => exact absurd hy List.not_mem_nil
    | cons x xs =>
      have hmem :=
        List.mem_of_mem_filter (hxs.mem_iff.mp (List.mem_map.mpr ⟨x, List.mem_cons_self, rfl⟩))
      exact hr.head ▸ (hx _ hmem).pos
  exact List.mem_of_mem_filter (hys.mem_iff.mp (List.mem_map.mpr ⟨y, hr.subset hr' ha y hy, rfl⟩))

theorem TreeBin.subset (h : TreeBin m a i B) (h' : TreeBin m a i B')
    (hs : ∀ q ∈ B', getChunkSize m q.1 = q.2)
    (hp : p ∈ B) (hsize : getChunkSize m p.1 = p.2) (hi : binNo p.2 = 32 + i) : p ∈ B' := by
  obtain ⟨t, hr, -, hxs⟩ := h
  obtain ⟨t', hr', -, hys⟩ := h'
  have hmem : p ∈ t.items := hxs.mem_iff.mpr (List.mem_filter.mpr ⟨hp, by simpa using hi⟩)
  have haddr : p.1 ∈ t'.addrs := hr'.linked_iff.mp (hr.linked_iff.mpr (RTree.mem_addrs hmem))
  obtain ⟨q, hq, he⟩ := List.mem_map.mp haddr
  have hqB := List.mem_of_mem_filter (hys.mem_iff.mp hq)
  have hsnd : q.2 = p.2 := by rw [← hs q hqB, he, hsize]
  exact Prod.ext he hsnd ▸ hqB

theorem Bins.subset (h : Bins b m B) (h' : Bins b m B') (hx : ∀ p ∈ B, Extent p)
    (hp : p ∈ B) : p ∈ B' := by
  by_cases hs : p.2 < minLargeSize
  · have hi := smallIndex_lt hs
    exact (h.small _ hi).subset (h'.small _ hi) hx hp (binNo_small hs)
  · have hi := calcTbin_lt p.2
    exact (h.tree _ hi).subset (h'.tree _ hi) h'.sized hp (h.sized p hp)
      (binNo_large (Nat.le_of_not_lt hs))

-- ---------------------------------------------------------------------------
-- What the steps of `kfree` keep of any state
-- ---------------------------------------------------------------------------

def SbrkOnly (w w' : World ε) : Prop := w'.trace = w.trace ∨ ∃ i, w'.trace = .sbrk i :: w.trace

theorem shrinkTop_trace (cb : Callbacks ε) (w : World ε) : SbrkOnly w (shrinkTop cb w) := by
  rw [shrinkTop]
  by_cases hbig : w.kmstate.topChunkSize > heapShrinkTreshold ∧
    w.kmstate.heapSize ≥ w.kmstate.initialHeapSize
  swap
  · simp only [if_neg hbig]
    exact .inl rfl
  simp only [if_pos hbig]
  generalize sub w.kmstate.heapSize _ = d
  by_cases hpos : d > 0
  swap
  · simp only [if_neg hpos]
    exact .inl rfl
  simp only [if_pos hpos]
  generalize (if d > halfMaxSizeT then halfMaxSizeT &&& not32 (heapSizeAlign - 1) else d) = d
  refine .inr ⟨toInt (sub 0 d), ?_⟩
  split
  · split <;> rfl
  · rfl

theorem binned_trace (h : (if first = w.kmstate.dVictim then some (w.setDVictim first fs) else
    binChunk w first) = some w') :
    w'.trace = w.trace := by
  split at h
  · cases h
    rfl
  · obtain ⟨b, m, rfl⟩ := binChunk_keeps h
    rfl

theorem mergeFreeChunks_beside (hne : next ≠ w.kmstate.topChunk)
    (h : mergeFreeChunks cb w first fs next = some w') :
    w'.trace = w.trace := by
  rw [mergeFreeChunks] at h
  simp only at h
  split at h
  · split at h
    · rename_i htop
      exact absurd htop hne
    split at h
    · cases h
      rfl
    · obtain ⟨w₁, h₁, h⟩ := Option.bind_eq_some_iff.mp h
      obtain ⟨b, m, rfl⟩ := unbinChunk_keeps h₁
      exact (binned_trace h).trans rfl
  · exact (binned_trace h).trans rfl

theorem mergeFreeChunks_trace (h : mergeFreeChunks cb w first fs next = some w') :
    SbrkOnly w w' := by
  by_cases htop : next = w.kmstate.topChunk
  · rw [mergeFreeChunks] at h
    simp only at h
    split at h
    · split at h
      · cases h
        split
        · exact shrinkTop_trace cb _
        · exact shrinkTop_trace cb _
      · rename_i hne
        exact absurd htop hne
    · exact .inl ((binned_trace h).trans rfl)
  · exact .inl (mergeFreeChunks_beside htop h)

-- ---------------------------------------------------------------------------
-- Where `kfree` calls abort
-- ---------------------------------------------------------------------------

/-- The callback of `ACTION_ABORT` was called, and no other. -/
def Aborted (w w' : World ε) : Prop := w'.trace = .abort :: w.trace

structure Unchanged (w w' : World ε) : Prop where
  kmstate : w'.kmstate = w.kmstate
  mem : w'.mem = w.mem

/-- The checks before the backward merge pass, and the chunk before is not the
designated victim. -/
structure TakesPrev (w : World ε) (ptr : Nat) : Prop where
  notNull : ptr ≠ 0
  isInit : w.kmstate.isInit
  chunk : addressOk (payloadChunk ptr) w.kmstate ∧ isInuse w.mem (payloadChunk ptr)
  prevFree : ¬ prevInuse w.mem (payloadChunk ptr)
  prevOk : addressOk (prevChunk w.mem (payloadChunk ptr)) w.kmstate
  size : getChunkSize w.mem (prevChunk w.mem (payloadChunk ptr)) = prevFoot w.mem (payloadChunk ptr)
  free : ¬ isInuse w.mem (prevChunk w.mem (payloadChunk ptr))
  notVictim : w.kmstate.dVictim ≠ prevChunk w.mem (payloadChunk ptr)

/-- What is taken out of a bin is in one, and the next chunk is in the heap. -/
def SoundFree (w : World ε) (B : List (Nat × Nat)) (ptr : Nat) : Prop :=
  TakesPrev w ptr → (∃ s, (prevChunk w.mem (payloadChunk ptr), s) ∈ B) ∧
    addressOk (nextChunk w.mem (payloadChunk ptr)) w.kmstate

def Harmless (cb : Callbacks ε) (w : World ε) (ptr : Nat) : Prop :=
  ∀ w', kfree cb w ptr = some w' → Aborted w w' → Unchanged w w'

/-- The free does nothing, is rejected at once, or gets past all the checks. -/
inductive Decided (cb : Callbacks ε) (w : World ε) (ptr : Nat) : Prop where
  | ignored (h : kfree cb w ptr = some w)
  | rejected (h : kfree cb w ptr = some (actionAbort cb w))
  | merged (w₁ : World ε) (first fs next : Nat) (ht : w₁.trace = w.trace)
      (h : kfree cb w ptr = mergeFreeChunks cb w₁ first fs next)

theorem Decided.harmless (h : Decided cb w ptr) : Harmless cb w ptr := by
  intro w' hres ha
  cases h with
  | ignored h =>
    cases hres.symm.trans h
    exact absurd ha (by simp [Aborted])
  | rejected h =>
    cases hres.symm.trans h
    exact ⟨rfl, rfl⟩
  | merged w₁ first fs next ht h =>
    rw [Aborted, ← ht] at ha
    rcases mergeFreeChunks_trace (h.symm.trans hres) with htr | ⟨i, htr⟩
    · exact absurd (htr.symm.trans ha) (by simp)
    · exact absurd (htr.symm.trans ha) (by simp)

theorem kfree_decided (cb : Callbacks ε) (h : ¬ TakesPrev w ptr) : Decided cb w ptr := by
  obtain ⟨r, hr⟩ : ∃ r, kfree cb w ptr = r := ⟨_, rfl⟩
  have hres := hr
  rw [kfree] at hr
  simp only at hr
  by_cases hinit : ptr = 0 ∨ ¬ w.kmstate.isInit
  · rw [if_pos hinit] at hr
    exact .ignored (hres.trans hr.symm)
  rw [if_neg hinit] at hr
  by_cases hchunk : ¬ addressOk (payloadChunk ptr) w.kmstate ∨ ¬ isInuse w.mem (payloadChunk ptr)
  · rw [if_pos hchunk] at hr
    exact .rejected (hres.trans hr.symm)
  rw [if_neg hchunk] at hr
  by_cases hprev : prevInuse w.mem (payloadChunk ptr)
  · rw [if_neg (not_not_intro hprev)] at hr
    split at hr
    · exact .rejected (hres.trans hr.symm)
    · exact .merged w _ _ _ rfl (hres.trans hr.symm)
  rw [if_pos hprev] at hr
  split at hr
  · exact .rejected (hres.trans hr.symm)
  rename_i hgood
  -- the three checks pass, so the chunk before is the victim
  have hdv : ¬ w.kmstate.dVictim ≠ prevChunk w.mem (payloadChunk ptr) := fun hdv => by
    simp only [not_or, not_not] at hinit hchunk hgood
    exact h ⟨hinit.1, hinit.2, hchunk, hprev, hgood.1, hgood.2.1, hgood.2.2, hdv⟩
  rw [if_neg hdv] at hr
  simp only [Option.bind_eq_bind, Option.bind_some] at hr
  split at hr
  · exact .rejected (hres.trans hr.symm)
  · exact .merged w _ _ _ rfl (hres.trans hr.symm)

theorem TakesPrev.kfree (cb : Callbacks ε) (h : TakesPrev w ptr)
    (hunbin : unbinChunk w (prevChunk w.mem (payloadChunk ptr)) = some w₁) :
    ∃ fs, Kmalloc.kfree cb w ptr =
      if ¬ addressOk (nextChunk w₁.mem (payloadChunk ptr)) w₁.kmstate then some (actionAbort cb w₁)
      else mergeFreeChunks cb w₁ (prevChunk w.mem (payloadChunk ptr)) fs
        (nextChunk w₁.mem (payloadChunk ptr)) := by
  have hinit : ¬ (ptr = 0 ∨ ¬ w.kmstate.isInit) := by simp [h.notNull, h.isInit]
  have hchunk :
    ¬ (¬ addressOk (payloadChunk ptr) w.kmstate ∨ ¬ isInuse w.mem (payloadChunk ptr)) := by
    simp [h.chunk.1, h.chunk.2]
  have hgood : ¬ (¬ addressOk (prevChunk w.mem (payloadChunk ptr)) w.kmstate ∨
      getChunkSize w.mem (prevChunk w.mem (payloadChunk ptr)) ≠ prevFoot w.mem (payloadChunk ptr) ∨
      isInuse w.mem (prevChunk w.mem (payloadChunk ptr))) := by
    simp [h.prevOk, h.size, h.free]
  refine ⟨add (getChunkSize w.mem (payloadChunk ptr)) (prevFoot w.mem (payloadChunk ptr)), ?_⟩
  rw [Kmalloc.kfree]
  simp only [if_neg hinit, if_neg hchunk, if_pos h.prevFree, if_neg hgood,
    if_pos h.notVictim, hunbin]
  rfl

theorem Bins.unbin_changes (h : Bins w.kmstate.bins w.mem B) (hx : Extents B) (ha : (a, s) ∈ B)
    (hres : unbinChunk w a = some w') : ¬ Unchanged w w' ∧ Inside B w.mem w'.mem := by
  have hperm := List.perm_cons_erase ha
  obtain ⟨b, m, hres', hbins, hfields⟩ := unbinChunk_spec h hx hperm
  cases hres.symm.trans hres'
  refine ⟨fun hsame => ?_, hfields.inside fun p hp => (hx.extent p hp).min⟩
  have hb : b = w.kmstate.bins := congrArg KmallocState.bins hsame.kmstate
  have hm : m = w.mem := hsame.mem
  rw [hb, hm] at hbins
  have hmem := h.subset hbins hx.extent ha
  exact (List.nodup_cons.mp (hperm.nodup_iff.mp hx.nodup)).1 hmem

theorem TakesPrev.nextChunk (h : TakesPrev w ptr) (hbins : Bins w.kmstate.bins w.mem B)
    (hx : Extents B) (hprev : (prevChunk w.mem (payloadChunk ptr), s) ∈ B) (hm : Inside B w.mem m) :
    nextChunk m (payloadChunk ptr) = nextChunk w.mem (payloadChunk ptr) := by
  have hsize : prevFoot w.mem (payloadChunk ptr) = s := h.size.symm.trans (hbins.sized _ hprev)
  have hpos := h.isInit.1
  have hlo := h.chunk.1.1
  have hhi :=
    Nat.lt_trans h.chunk.1.2 (Nat.mod_lt (w.kmstate.heapStart + w.kmstate.heapSize) (by decide))
  generalize hc : payloadChunk ptr = c at *
  have hext := hx.extent _ hprev
  generalize hp : prevChunk w.mem c = p at *
  obtain ⟨hne, hfits, hmin, -⟩ := hext
  simp only at hne hfits hmin
  have hend : p + s = c := by
    rw [prevChunk, hsize] at hp
    by_cases hle : s ≤ c
    · rw [sub_of_le hle hhi] at hp
      omega
    · rw [sub_of_lt (by omega) (by omega)] at hp
      omega
  unfold Kmalloc.nextChunk
  rw [getChunkSize_congr fun x hlo hhi => hm x fun q hq => ?_]
  by_cases he : q = (p, s)
  · subst he
    simp only
    omega
  · have hap := hx.apart q hq _ hprev he
    simp only [Apart] at hap
    omega

theorem SoundFree.decided (h : SoundFree w B ptr) (hbins : Bins w.kmstate.bins w.mem B)
    (hx : Extents B) :
    Decided cb w ptr := by
  by_cases htakes : TakesPrev w ptr
  swap
  · exact kfree_decided cb htakes
  obtain ⟨⟨s, hprev⟩, hnext⟩ := h htakes
  obtain ⟨b, m, hunbin, -⟩ := unbinChunk_spec hbins hx (List.perm_cons_erase hprev)
  have hkeep := htakes.nextChunk hbins hx hprev (hbins.unbin_changes hx hprev hunbin).2
  obtain ⟨fs, hres⟩ := htakes.kfree cb hunbin
  rw [if_neg (by rw [hkeep]; exact not_not_intro hnext)] at hres
  exact .merged (w.setBins b m) _ _ _ rfl hres

theorem TakesPrev.late (h : TakesPrev w ptr) (hbins : Bins w.kmstate.bins w.mem B) (hx : Extents B)
    (hprev : (prevChunk w.mem (payloadChunk ptr), s) ∈ B)
    (hnext : ¬ addressOk (Kmalloc.nextChunk w.mem (payloadChunk ptr)) w.kmstate) :
    ∃ w', Kmalloc.kfree cb w ptr = some w' ∧ Aborted w w' ∧ ¬ Unchanged w w' := by
  obtain ⟨b, m, hunbin, -⟩ := unbinChunk_spec hbins hx (List.perm_cons_erase hprev)
  obtain ⟨hchanged, hinside⟩ := hbins.unbin_changes hx hprev hunbin
  have hkeep := h.nextChunk hbins hx hprev hinside
  obtain ⟨fs, hres⟩ := h.kfree cb hunbin
  rw [if_pos (by rw [hkeep]; exact hnext)] at hres
  exact ⟨_, hres, rfl, fun hsame => hchanged ⟨hsame.kmstate, hsame.mem⟩⟩

/-- A rejected free changes nothing where the next chunk is in the heap or the
chunk before stays in its bin, and of chunks that are binned only there. -/
theorem rejected_free_iff (hbins : Bins w.kmstate.bins w.mem B) (hx : Extents B) :
    (SoundFree w B ptr → Decided cb w ptr ∧ Harmless cb w ptr) ∧
      ((TakesPrev w ptr → ∃ s, (prevChunk w.mem (payloadChunk ptr), s) ∈ B) →
        Harmless cb w ptr → SoundFree w B ptr) := by
  refine ⟨fun h => ⟨h.decided hbins hx, (h.decided hbins hx).harmless⟩,
    fun hbinned hharm htakes => ?_⟩
  obtain ⟨s, hprev⟩ := hbinned htakes
  refine ⟨⟨s, hprev⟩, ?_⟩
  by_contra hnext
  obtain ⟨w', hres, ha, hchanged⟩ := htakes.late hbins hx hprev hnext
  exact hchanged (hharm w' hres ha)

end

-- ---------------------------------------------------------------------------
-- A header overwritten
-- ---------------------------------------------------------------------------

def overrun : World Nat :=
  oneInTree.world.setMem (setHeader oneInTree.world.mem 4400 (0x10000 ||| cinuse))

theorem binned_oneInTree : binned oneInTree.world = [(4096, 304)] := by decide +kernel

theorem overrun_bins : Bins overrun.kmstate.bins overrun.mem [(4096, 304)] ∧
    Extents [(4096, 304)] := by
  have hheap := oneInTree_reached.smallHeap.heap
  rw [binned_oneInTree] at hheap
  refine ⟨hheap.bins.congr (fun p hp x hlo hhi => ?_) hheap.extents.extent, hheap.extents⟩
  obtain rfl := List.mem_singleton.mp hp
  exact Memory.store32_apply (by simp only at hhi; omega)

theorem overrun_binned : (prevChunk overrun.mem (payloadChunk 4408), 304) ∈ [(4096, 304)] := by
  decide +kernel

theorem overrun_takesPrev : TakesPrev overrun 4408 :=
  ⟨by decide, by decide +kernel, by decide +kernel, by decide +kernel, by
    decide +kernel, by decide +kernel,
    by decide +kernel, by decide +kernel⟩

theorem rejected_free_iff_overrun :
    Harmless refuse overrun 4104 ∧ ¬ Harmless refuse overrun 4408 := by
  have hiff : ∀ ptr, (SoundFree overrun [(4096, 304)] ptr → Decided refuse overrun ptr ∧
    Harmless refuse overrun ptr) ∧
      ((TakesPrev overrun ptr →
      ∃ s, (prevChunk overrun.mem (payloadChunk ptr), s) ∈ [(4096, 304)]) →
        Harmless refuse overrun ptr → SoundFree overrun [(4096, 304)] ptr) :=
    fun _ => rejected_free_iff overrun_bins.1 overrun_bins.2
  refine ⟨((hiff 4104).1 fun h => absurd h.chunk.2 (by decide +kernel)).2, fun hharm => ?_⟩
  have hsound := (hiff 4408).2 (fun _ => ⟨304, overrun_binned⟩) hharm overrun_takesPrev
  exact absurd hsound.2 (by decide +kernel)

/-- The free chunk has left its bin when the free is rejected. -/
theorem rejected_free_unbins :
    ¬∀ (w w' : World Nat) (B : List (Nat × Nat)) (ptr : Nat), w.kmstate.isInit →
    Bins w.kmstate.bins w.mem B →
      Extents B → kfree refuse w ptr = some w' → Aborted w w' → Unchanged w w' := by
  intro h
  obtain ⟨w', hres, habort, hchanged⟩ : ∃ w', kfree refuse overrun 4408 = some w' ∧
    Aborted overrun w' ∧
      ¬ Unchanged overrun w' :=
    overrun_takesPrev.late overrun_bins.1 overrun_bins.2 overrun_binned (by decide +kernel)
  exact hchanged (h overrun w' _ 4408 (by decide +kernel) overrun_bins.1 overrun_bins.2 hres habort)

end ElcoOs.Kmalloc
