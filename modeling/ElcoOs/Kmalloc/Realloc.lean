import ElcoOs.Kmalloc.LastResort

/-!
# `krealloc` of a block that is too large

The tail is cut off and merged with what is free after it. Before a used chunk
a tail below the smallest chunk stays where it is; before the top it does not,
and where the top is empty nothing makes up for it.
-/

namespace ElcoOs.Kmalloc

open Word32

variable {ε : Type}

/-- The header of `a` gives a new size. -/
def resized (w : World ε) (a c : Nat) : World ε :=
  w.setHeader a (c ||| cinuse ||| (header w.mem a &&& pinuse))

/-- `krealloc` of the block of `(a, s)` to a chunk of `c` bytes, fewer than `s`. -/
def reallocLess (cb : Callbacks ε) (w : World ε) (a s c : Nat) : Option (Nat × World ε) :=
  if s - c < minChunkSize ∧ isInuse w.mem (a + s) then some (a + 8, w)
  else (mergeFreeChunks cb (resized w a c) (a + c) (s - c) (a + s)).map fun w => (a + 8, w)

/-- `krealloc` of the block of `(a, s)` to a chunk of `c` bytes, more than `s`. -/
def reallocMore (cb : Callbacks ε) (w : World ε) (a s c : Nat) : Option (Nat × World ε) :=
  (tryExpandChunk w a c).bind fun r =>
    if r.1 then some (a + 8, r.2)
    else (kmallocIntern cb r.2 c true).bind fun r =>
      if r.1 ≠ 0 then
        (kfree cb (r.2.setMem (Memory.copy r.2.mem r.1 (a + 8) (s - 4))) (a + 8)).map fun w =>
        (r.1, w)
      else some (0, r.2)

def UsedNext : List Chunk → Prop
  | [] => False
  | n :: _ => n.used = true

/-- The block stays where it is, in a heap that is whole: untouched where the tail
is too small for a chunk of its own, else smaller, and the tail is free. -/
structure WellShrunk (w : World ε) (p n : Nat) (r : Nat × World ε) : Prop where
  ptr : r.1 = p
  heap : Heap r.2 (chunks r.2) (binned r.2)
  topMin : TopMin r.2.kmstate
  tail : ∀ pre s post, chunks w = pre ++ ⟨payloadChunk p, s, true⟩ :: post →
    let c := request2Size n
    s - c < minChunkSize ∧ UsedNext post ∧ r.2 = w ∨
      pairs true (chunks r.2) = pairs true (pre ++ [⟨payloadChunk p, c, true⟩] ++ post) ∧
        Settled w.kmstate r.2.kmstate (payloadChunk p + c) (s - c) post (binned r.2)

/-- The block is the last before an empty top and has 8 bytes too many. -/
def Sliver (w : World ε) (p n : Nat) : Prop :=
  let chunk := payloadChunk p
  nextChunk w.mem chunk = w.kmstate.topChunk ∧ w.kmstate.topChunkSize = 0 ∧
    getChunkSize w.mem chunk = request2Size n + 8

section
variable {heapEnd : ε → Nat} {P : Prop} {w w' : World ε} {cs pre post : List Chunk}
  {B : List (Nat × Nat)}
  {a c n p s : Nat} {t : Bool} {cb : Callbacks ε} {r : Nat × World ε} {st : Clients ε}

theorem request2Size_mod (n : Nat) : request2Size n % 8 = 0 := by
  rw [request2Size]
  split
  · rfl
  · rw [chunkSizeAlign, and_not32_seven add_lt]
    omega

-- ---------------------------------------------------------------------------
-- A used chunk made smaller
-- ---------------------------------------------------------------------------

/-- The header of a used chunk is written, and no other word. -/
structure ResizedAt (w : World ε) (a c : Nat) (t : Bool) : Prop where
  header : header (resized w a c).mem a = c + flags true t
  outside : SameExcept (a + 4) (a + 8) w.mem (resized w a c).mem

theorem resized_at (hat : ChunkAt w.mem ⟨a, s, true⟩ t) (hc8 : c % 8 = 0) (hlt : c < 4294967288) :
    ResizedAt w a c t := by
  have hhdr : Kmalloc.header w.mem a = s + flags true t := hat.header
  have hor := or_kept hc8 hhdr hat.align
  have hf : flags true t < 8 := flags_lt
  refine ⟨?_, (SameExcept.refl _ _ _).store (Nat.le_refl _) (Nat.le_refl _)⟩
  show Memory.load32 (w.mem.store32 (a + 4) _) (a + 4) = _
  rw [hor, Memory.load32_store32_same (by omega)]

theorem HeapAt.trim (heapEnd : ε → Nat) (h : HeapAt w (pre ++ ⟨a, s, true⟩ :: post) B)
    (hc : 16 ≤ c) (hc8 : c % 8 = 0)
    (hlt : c < s) : HoleAt (resized w a c) (pre ++ [⟨a, c, true⟩]) (a + c) (s - c) true post B ∧
      Kept heapEnd P (pairs true (pre ++ [⟨a, c, true⟩] ++ post)) w (resized w a c) := by
  obtain ⟨t, hpre, hat, hpost⟩ := h.tiled.split
  have hmem := h.mem (c := ⟨a, s, true⟩) (by simp)
  have hle := hpost.le
  simp only at hmem hpre hpost hle
  obtain ⟨hhdr, hm⟩ := resized_at (c := c) hat hc8 (by omega)
  have hend : a + c + (s - c) = a + s := by omega
  have hB : ∀ p ∈ B, p.1 + p.2 ≤ a ∨ a + s ≤ p.1 :=
    fun p hp => h.apart_used (c := ⟨a, s, true⟩) (by simp) rfl hp
  refine ⟨⟨h.arena, ?_, ?_, by omega, by omega, ?_, ?_, h.extents, fun p hp => ?_⟩, rfl, rfl, id,
    ?_, Traced.refl P _⟩
  · refine tiled_append.mpr ⟨a, t, hpre.congr fun x _ hx => hm x (.inl hx), rfl,
      ⟨hc8, hc, hhdr, by simp⟩, rfl, rfl⟩
  · rw [hend]
    exact hpost.congr fun x hx _ => hm x (.inr (by omega))
  · exact h.top.congr fun x hx _ => hm x (.inr (Nat.le_trans (by omega) hx))
  · refine h.bins.congr (fun p hp x hlo hhi => hm x ?_) h.extents.extent
    have := hB p hp
    have := (h.extents.extent p hp).min
    omega
  · obtain ⟨q, hq, hlo, hhi⟩ := h.covered p hp
    exact ⟨q, List.mem_cons_of_mem _ (by simpa using hq), hlo, hhi⟩
  · intro q hq x hlo hhi
    simp only [List.append_assoc, List.singleton_append, pairs_append, pairs_same, List.mem_append,
      List.mem_cons] at hq
    rcases hq with hq | rfl | hq
    · have := hpre.mem (mem_pairs.mp hq)
      simp only at this
      exact hm x (.inl (by omega))
    · exact hm x (.inr (by simp only at hlo; omega))
    · have := hpost.mem (mem_pairs.mp hq)
      simp only at this
      exact hm x (.inr (by omega))

theorem Heap.trim_beside (h : Heap w (pre ++ ⟨a, s, true⟩ :: post) B) (hlt : c < s) :
    FreeBeside (resized w a c).kmstate (a + c) (pairs false (pre ++ [⟨a, c, true⟩] ++ post)) B := by
  have hne : w.kmstate.dVictim ≠ a + c :=
    h.victim_ne (c := ⟨a, s, true⟩) (by simp) rfl (Nat.le_add_right a c)
      (show a + c < a + s by omega)
  show FreeBeside w.kmstate (a + c) _ B
  exact ⟨h.noVictim, .inr ⟨hne, by simpa using h.free⟩⟩

theorem HeapAt.inuse_next (h : HeapAt w (pre ++ ⟨a, s, true⟩ :: post) B) : isInuse w.mem (a + s) ↔
    UsedNext post := by
  obtain ⟨t, -, hat, hpost⟩ := h.tiled.split
  simp only at hpost
  cases post with
  | nil =>
    obtain ⟨htop, -⟩ := hpost
    refine iff_of_false (fun hi => ?_) id
    have htop8 := h.top.align
    by_cases h0 : w.kmstate.topChunkSize = 0
    · have hdummy := h.top.dummy
      rw [h0, Nat.add_zero, ← htop] at hdummy
      rw [isInuse, hdummy] at hi
      exact hi rfl
    · have hhdr := h.top.header h0
      rw [← htop] at hhdr
      exact absurd ((isInuse_of_header hhdr htop8).mp hi) Bool.false_ne_true
  | cons n rest =>
    obtain ⟨hna, hnat, -⟩ := hpost
    rw [← hna]
    exact isInuse_of_header hnat.header hnat.align

theorem reallocLess_kept (cb : Callbacks ε) (h : HeapAt w (pre ++ ⟨a, s, true⟩ :: post) B)
    (hd : s - c < 16) (hu : UsedNext post) :
    reallocLess cb w a s c = some (a + 8, w) := if_pos ⟨hd, h.inuse_next.mpr hu⟩

theorem reallocLess_cut (h : Heap w (pre ++ ⟨a, s, true⟩ :: post) B)
    (hcb : Env cb heapEnd w) (hc : 16 ≤ c)
    (hc8 : c % 8 = 0) (hlt : c < s) (hcut : ¬(s - c < 16 ∧ UsedNext post))
    (hok : MergeOk w.kmstate (a + c) (s - c) post B ∨ post = [] ∧ PageHeap w.kmstate) :
    ∃ w', reallocLess cb w a s c = some (a + 8, w') ∧
      Merged heapEnd P w w' (pairs true (pre ++ [⟨a, c, true⟩] ++ post)) (a + c) (s - c) post
        B := by
  obtain ⟨hhole, hkept⟩ := h.toHeapAt.trim heapEnd (P := P) hc hc8 hlt
  obtain ⟨w', hres, hmerged⟩ :=
    mergeFreeChunks_spec (P := P) hhole (hcb.next hkept) (h.trim_beside hlt) hok fun n hn hu => by
    cases post with
    | nil => cases hn
    | cons m rest =>
      cases hn
      by_contra hsmall
      exact hcut ⟨by omega, hu⟩
  refine ⟨w', ?_, hmerged.after hkept rfl⟩
  rw [show a + c + (s - c) = a + s by omega] at hres
  rw [reallocLess, if_neg fun hi => hcut ⟨hi.1, h.toHeapAt.inuse_next.mp hi.2⟩,
    hres, Option.map_some]

-- ---------------------------------------------------------------------------
-- `krealloc` of a block that is out
-- ---------------------------------------------------------------------------

theorem krealloc_eq (cb : Callbacks ε) (h : HeapAt w (pre ++ ⟨a, s, true⟩ :: post) B) (hn : n ≠ 0) :
    krealloc cb w (a + 8) n =
      if request2Size n = s then some (a + 8, w)
      else if request2Size n < s then reallocLess cb w a s (request2Size n)
      else reallocMore cb w a s (request2Size n) := by
  obtain ⟨t, -, hat, hpost⟩ := h.tiled.split
  have hmem := h.mem (c := ⟨a, s, true⟩) (by simp)
  have hle := hpost.le
  have hfits := h.top.fits
  have harena := h.arena.fits
  simp only at hmem hpost hle
  have hs8 : s % 8 = 0 := hat.align
  have hhdr : header w.mem a = s + flags true t := hat.header
  have hsize : getChunkSize w.mem a = s := getChunkSize_of_header hhdr hs8
  have hchunk : payloadChunk (a + 8) = a := by
    rw [payloadChunk, sub_of_le (by omega) (by omega)]
    omega
  have hnext : nextChunk w.mem a = a + s := by rw [nextChunk, hsize, add_of_lt (by omega)]
  have hcap : chunkPayloadSize w.mem a = s - 4 := by
    rw [chunkPayloadSize, hsize, show chunkOverhead = 4 from rfl, sub_of_le (by omega) (by omega)]
  have hsane : ¬(¬addressOk a w.kmstate ∨ ¬isInuse w.mem a) := by
    simp [h.addressOk hmem.1 (show a ≤ w.kmstate.topChunk by omega),
      (isInuse_of_header hhdr hs8).mpr rfl]
  have hsane' : ¬¬addressOk (a + s) w.kmstate := not_not_intro (h.addressOk (by omega) (by omega))
  rw [krealloc]
  simp only [hchunk, hnext, hsize, hcap, if_neg (show ¬a + 8 = 0 by omega), if_neg hn,
    if_neg (not_not_intro h.arena.isInit), if_neg hsane, if_neg hsane']
  generalize hc : request2Size n = c
  have hc8 : c % 8 = 0 := hc ▸ request2Size_mod n
  by_cases heq : c = s
  · simp only [if_pos heq]
    rfl
  simp only [if_neg heq]
  by_cases hlt : c < s
  · have hsub : sub s c = s - c := sub_of_le (Nat.le_of_lt hlt) (by omega)
    obtain ⟨hhdr', -⟩ := resized_at (c := c) hat hc8 (by omega)
    have hnext' : nextChunk (resized w a c).mem a = a + c := by
      rw [nextChunk, getChunkSize_of_header hhdr' hc8, add_of_lt (by omega)]
    simp only [if_pos hlt, hsub, reallocLess]
    split
    · rfl
    · rw [← hnext']
      exact Option.map_eq_bind.symm
  · simp only [if_neg hlt, reallocMore]
    refine Option.bind_congr' rfl fun r _ => ?_
    split
    · rfl
    · refine Option.bind_congr' rfl fun q _ => ?_
      split
      · exact Option.map_eq_bind.symm
      · rfl

-- ---------------------------------------------------------------------------
-- A shrinking `krealloc`
-- ---------------------------------------------------------------------------

theorem Settled.perm {st st' : KmallocState} {f fs : Nat} {B' : List (Nat × Nat)}
    (h : Settled st st' f fs post B) (hp : B'.Perm B) : Settled st st' f fs post B' := by
  cases post with
  | nil => exact h
  | cons m rest =>
    intro hne
    have h := h hne
    split at h
    · rw [if_pos ‹_›]
      exact hp.mem_iff.mpr h
    · rw [if_neg ‹_›]
      split at h
      · rw [if_pos ‹_›]
        exact h
      · rw [if_neg ‹_›]
        exact hp.mem_iff.mpr h

theorem SmallHeap.shrink (h : SmallHeap cb heapEnd st)
    (hcs : chunks st.world = pre ++ ⟨a, s, true⟩ :: post)
    (hn : n ≠ 0) (hc : 16 ≤ request2Size n) (hless : request2Size n < s) :
    ∃ w', krealloc cb st.world (a + 8) n = some (a + 8, w') ∧
      (s - request2Size n < 16 ∧ UsedNext post ∧ w' = st.world ∨
        Merged heapEnd P st.world w' (pairs true (pre ++ [⟨a, request2Size n, true⟩] ++ post))
          (a + request2Size n) (s - request2Size n) post (binned st.world)) := by
  have hheap := h.heap
  have hsum := h.heap.tiled.sum_sizes
  have hfits := h.heap.top.fits
  have hsmall := h.heapSize
  rw [hcs] at hheap hsum
  simp only [List.map_append, List.map_cons, List.sum_append, List.sum_cons] at hsum
  rw [krealloc_eq cb hheap.toHeapAt hn, if_neg (Nat.ne_of_lt hless), if_pos hless]
  by_cases hkeep : s - request2Size n < 16 ∧ UsedNext post
  · exact ⟨_, reallocLess_kept cb hheap.toHeapAt hkeep.1 hkeep.2, .inl ⟨hkeep.1, hkeep.2, rfl⟩⟩
  · obtain ⟨w', hres, hmerged⟩ :=
      reallocLess_cut (P := P) hheap h.env hc (request2Size_mod n) hless hkeep
      (.inl (.of_small hsmall (by omega)))
    exact ⟨w', hres, .inr hmerged⟩

theorem Tiled.nil_of_eq {m : Memory} {u v : Bool} (h : Tiled m a u cs a v) : cs = [] := by
  have hle := h.le
  exact List.eq_nil_of_length_eq_zero (by omega)

/-- The sliver becomes the top. -/
theorem reallocLess_sliver (cb : Callbacks ε) (h : Heap w (pre ++ [⟨a, s, true⟩]) B)
    (h0 : w.kmstate.topChunkSize = 0) (hc : 16 ≤ c) (hc8 : c % 8 = 0) (hs : s = c + 8) :
    ∃ w', reallocLess cb w a s c = some (a + 8, w') ∧ w'.kmstate.topChunkSize = 8 := by
  have hless : c < s := by omega
  obtain ⟨hhole, -⟩ := h.toHeapAt.trim (fun _ => 0) (P := True) hc hc8 hless
  obtain ⟨w', hres, hj⟩ := hhole.join_top (fun _ => 0) (P := True) (h.trim_beside hless)
  have hsize : w'.kmstate.topChunkSize = s - c + w.kmstate.topChunkSize := hj.topChunkSize
  have hidle : shrinkTop cb w' = w' := by
    rw [shrinkTop, if_neg (fun hbig => absurd hbig.1 ?_)]
    rw [hsize, show heapShrinkTreshold = 4096 from rfl]
    omega
  have hres := hres cb
  rw [show a + c + (s - c) = a + s by omega, hidle] at hres
  refine ⟨w', ?_, by omega⟩
  rw [reallocLess, if_neg fun hi => h.toHeapAt.inuse_next.mp hi.2, hres, Option.map_some]

/-- In every state reached the heap stays whole unless the tail is a sliver. -/
theorem well_shrunk_iff (h : Reach (SmallInitial cb heapEnd) (Clients.call cb) SmallStep st)
    (hp : p ∈ st.live) (hn : 0 < n) (hlt : n < 0xC00000)
    (hless : request2Size n < getChunkSize st.world.mem (payloadChunk p)) :
    (∃ r, krealloc cb st.world p n = some r ∧ WellShrunk st.world p n r) ↔
    ¬Sliver st.world p n := by
  have hs := (SmallRun.of_reach h).smallHeap
  have hov : ¬requestOverflow n := by
    rw [requestOverflow_iff (by omega)]
    omega
  obtain ⟨hc8, hc16, -⟩ := request2Size_spec (by omega) hov
  have hn0 : n ≠ 0 := Nat.ne_of_gt hn
  obtain ⟨pre, a, s, post, rfl, hpay, hcs⟩ := hs.split hp
  have hheap := hs.heap
  rw [hcs] at hheap
  obtain ⟨t, -, hat, hpost⟩ := hheap.tiled.split
  have hhdr : header st.world.mem a = s + flags true t := hat.header
  have hs8 : s % 8 = 0 := hat.align
  have hsize : getChunkSize st.world.mem a = s := getChunkSize_of_header hhdr hs8
  have hmem := hheap.mem (c := ⟨a, s, true⟩) (by simp)
  simp only at hmem hpost
  rw [hpay, hsize] at hless
  have hnext : nextChunk st.world.mem a = a + s := by rw [nextChunk, hsize, add_of_lt (by omega)]
  rw [Sliver, hpay, hnext, hsize]
  constructor
  · rintro ⟨r, hres, hwell⟩ ⟨htop, h0, hsliver⟩
    rw [htop] at hpost
    obtain rfl := hpost.nil_of_eq
    obtain ⟨w', hres', h8⟩ := reallocLess_sliver cb hheap h0 hc16 hc8 hsliver
    rw [krealloc_eq cb hheap.toHeapAt hn0, if_neg (by omega), if_pos hless, hres'] at hres
    cases hres
    rcases hwell.topMin with hzero | hmin
    · simp only at hzero
      omega
    · simp only at hmin
      omega
  · intro hno
    obtain ⟨w', hres, hcase⟩ := hs.shrink (P := True) hcs hn0 hc16 hless
    refine ⟨_, hres, rfl, ?_, ?_, ?_⟩
    · rcases hcase with ⟨-, -, rfl⟩ | hmerged
      · exact hs.heap
      · obtain ⟨cs', B', hheap', -⟩ := hmerged.heap
        exact hheap'.canonical
    · rcases hcase with ⟨-, -, rfl⟩ | hmerged
      · exact hs.topMin
      · refine hmerged.topMin (fun hnil => ?_) hs.topMin
        subst hnil
        rcases hs.topMin with h0 | h16
        · have : ¬s = request2Size n + 8 := fun he => hno ⟨hpost.1, h0, he⟩
          omega
        · omega
    · rw [hpay]
      intro pre' s' post' hcs'
      have hheap' := hs.heap
      rw [hcs'] at hheap'
      obtain ⟨t', -, hat', -⟩ := hheap'.tiled.split
      have hhdr' : header st.world.mem a = s' + flags true t' := hat'.header
      have hsize' : getChunkSize st.world.mem a = s' := getChunkSize_of_header hhdr' hat'.align
      obtain ⟨w'', hres', hcase'⟩ := hs.shrink (P := True) hcs' hn0 hc16 (by omega)
      cases hres.symm.trans hres'
      rcases hcase' with ⟨hsmall, hused, rfl⟩ | hmerged
      · exact .inl ⟨hsmall, hused, rfl⟩
      · obtain ⟨cs', B', hheap'', hused, hsettled, -⟩ := hmerged.heap
        exact .inr ⟨by
          rw [hheap''.toHeapAt.chunks_eq]; exact hused, hsettled.perm hheap''.binned_perm⟩

def oneBlock : Clients Nat := (setUp 4096).after refuse (.kmalloc 300)

theorem oneBlock_reached : FixedRun oneBlock :=
  .malloc (.start (setUp_initial (by decide) (by decide) (by decide))) (by decide)
    (by decide +kernel) (by decide +kernel)

theorem well_shrunk_oneBlock :
    ∃ r, krealloc refuse oneBlock.world 4104 100 = some r ∧
      WellShrunk oneBlock.world 4104 100 r := by
  refine (well_shrunk_iff oneBlock_reached (List.mem_of_elem_eq_true (by decide +kernel))
    (by decide) (by decide)
    (by decide +kernel)).mpr fun hsliver => ?_
  exact absurd hsliver.2.1 (by decide +kernel)

def wholeHeap : Clients Nat := (setUp 32).after refuse (.kmalloc 20)

theorem wholeHeap_reached : FixedRun wholeHeap :=
  .malloc (.start (setUp_initial (by decide) (by decide) (by decide))) (by decide)
    (by decide +kernel) (by decide +kernel)

/-- The last 8 bytes of the block make a top that is too small to be a chunk. -/
theorem well_shrunk_wholeHeap :
    ¬∀ s, Reach (SmallInitial refuse id) (Clients.call refuse) SmallStep s → ∀ p ∈ s.live, ∀ n,
    0 < n → n < 0xC00000 →
      request2Size n < getChunkSize s.world.mem (payloadChunk p) →
        ∃ r, krealloc refuse s.world p n = some r ∧ WellShrunk s.world p n r := by
  intro hall
  have hp : 4104 ∈ wholeHeap.live := List.mem_of_elem_eq_true (by decide +kernel)
  have hless : request2Size 12 < getChunkSize wholeHeap.world.mem (payloadChunk 4104) :=
    by decide +kernel
  have hsliver : Sliver wholeHeap.world 4104 12 := by
    refine ⟨?_, ?_, ?_⟩ <;> decide +kernel
  exact (well_shrunk_iff wholeHeap_reached hp (by decide) (by decide) hless).mp
    (hall _ wholeHeap_reached 4104 hp 12 (by decide) (by decide) hless) hsliver

end

end ElcoOs.Kmalloc
