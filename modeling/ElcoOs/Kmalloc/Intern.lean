import ElcoOs.Kmalloc.Kmalloc
import ElcoOs.Kmalloc.Top

/-!
# `kmalloc_intern` keeps the heap

Each way to serve a request takes one chunk that is free and large enough, out
of the bins, the designated victim or the top, marks it used whole or after a
split, and leaves the others where they were. `ReqOk` says which requests find
their way: those the bins can tell by size, and of the larger ones those that
the last bin happens to serve.
-/

namespace ElcoOs.Kmalloc

open Word32 RingTree

variable {ε : Type}

def victims (st : KmallocState) : List (Nat × Nat) :=
  if st.dVictim = 0 then [] else [(st.dVictim, st.dVictimSize)]

/-- The heap between two calls: what is free is the victim or binned. -/
structure Heap (w : World ε) (cs : List Chunk) (B : List (Nat × Nat)) :
    Prop extends HeapAt w cs B where
  free : (pairs false cs).Perm (victims w.kmstate ++ B)
  noVictim : w.kmstate.dVictim = 0 → w.kmstate.dVictimSize = 0

/-- Neither the victim nor, for sizes below those of the last bin, a binned chunk
is large enough. -/
def NoFit (st : KmallocState) (B : List (Nat × Nat)) (c : Nat) : Prop :=
  st.dVictimSize < c ∧ (c < 0xC00000 → ∀ p ∈ B, p.2 < c)

structure SameTop (st st' : KmallocState) : Prop where
  chunk : st'.topChunk = st.topChunk
  size : st'.topChunkSize = st.topChunkSize
  heapSize : st'.heapSize = st.heapSize

/-- The chunk comes from the top, which grew if it was too small. -/
structure TopUsed (cb : Callbacks ε) (w : World ε) (st' : KmallocState) (c : Nat) : Prop where
  chunk : st'.topChunk = w.kmstate.topChunk + c
  size : st'.topChunkSize = remainder (w.kmstate.topChunkSize + growth w.kmstate.topChunkSize c - c)
  heapSize : st'.heapSize = w.kmstate.heapSize + growth w.kmstate.topChunkSize c
  grown : w.kmstate.topChunkSize < c →
    (cb.sbrk (growth w.kmstate.topChunkSize c) w.env w.mem).1 = true

/-- One more chunk is used, of at least `c` bytes. -/
structure Served (cb : Callbacks ε) (heapEnd : ε → Nat) (P : Prop) (w : World ε) (cs : List Chunk)
    (B : List (Nat × Nat)) (c : Nat) (r : Nat × World ε) : Prop where
  kept : Kept heapEnd P (pairs true cs) w r.2
  top : SameTop w.kmstate r.2.kmstate ∨ NoFit w.kmstate B c ∧ TopUsed cb w r.2.kmstate c
  heap : ∃ cs' B' a s, r.1 = a + 8 ∧ c ≤ s ∧ Heap r.2 cs' B' ∧
    (pairs true cs').Perm ((a, s) :: pairs true cs)

structure NotServed (heapEnd : ε → Nat) (P : Prop) (w : World ε) (cs : List Chunk)
    (B : List (Nat × Nat)) (c : Nat) (r : Nat × World ε) : Prop where
  null : r.1 = 0
  kept : Kept heapEnd P (pairs true cs) w r.2
  noFit : NoFit w.kmstate B c ∧ w.kmstate.topChunkSize < c
  refused : Refused w r.2
  heap : Heap r.2 cs B

-- ---------------------------------------------------------------------------
-- Steps on states
-- ---------------------------------------------------------------------------

section
variable {heapEnd : ε → Nat} {P : Prop} {w w' : World ε} {cs pre post : List Chunk}
  {B B' V : List (Nat × Nat)}
  {a c i r s : Nat} {m' : Memory} {b : BinTables} {e : Event} {cb : Callbacks ε}

theorem Kept.of_quiet (h : Quiet (pairs true cs) w.mem m') :
    Kept heapEnd P (pairs true cs) w (w.setMem m') :=
  ⟨rfl, rfl, id, h, Traced.refl P _⟩

theorem Kept.of_bins (h : Quiet (pairs true cs) w.mem m') :
    Kept heapEnd P (pairs true cs) w (w.setBins b m') :=
  ⟨rfl, rfl, id, h, Traced.refl P _⟩

theorem Kept.emit {U : List (Nat × Nat)} (he : EventOk P e) : Kept heapEnd P U w (w.emit e) :=
  ⟨rfl, rfl, id, Quiet.refl U w.mem, Traced.emit he⟩

theorem Kept.carve {U : List (Nat × Nat)} (h : c ≤ s) : Kept heapEnd P U w (w.emit (.carve s c)) :=
  Kept.emit (e := .carve s c) h

theorem Kept.setDVictim {U : List (Nat × Nat)} : Kept heapEnd P U w (w.setDVictim a s) :=
  ⟨rfl, rfl, id, Quiet.refl U w.mem, Traced.refl P _⟩

theorem HeapAt.emit (h : HeapAt w cs B) : HeapAt (w.emit e) cs B :=
  ⟨h.arena, h.tiled, h.top, h.bins, h.extents, h.covered⟩

theorem HeapAt.setDVictim (h : HeapAt w cs B) : HeapAt (w.setDVictim a s) cs B :=
  ⟨⟨h.arena.isInit, h.arena.align, h.arena.fits, h.arena.size, h.arena.initial⟩, h.tiled, h.top,
  h.bins, h.extents,
    h.covered⟩

theorem Heap.emit (h : Heap w cs B) : Heap (w.emit e) cs B := ⟨h.toHeapAt.emit, h.free, h.noVictim⟩

theorem victims_setDVictim (ha : a ≠ 0) : victims (w.setDVictim a s).kmstate = [(a, s)] := if_neg ha

theorem split_free (hf : (a, s) ∈ pairs false cs) : ∃ pre post, cs = pre ++ ⟨a, s, false⟩ :: post :=
  List.append_of_mem (mem_pairs.mp hf)

theorem free_perm (h : (pairs false (pre ++ ⟨a, s, false⟩ :: post)).Perm ((a, s) :: V)) :
    (pairs false (pre ++ post)).Perm V := by
  simp only [pairs_append, pairs_same] at h ⊢
  exact List.Perm.cons_inv (List.perm_middle.symm.trans h)

-- ---------------------------------------------------------------------------
-- A free chunk taken into use
-- ---------------------------------------------------------------------------

theorem HeapAt.serve_whole (heapEnd : ε → Nat) (h : HeapAt w cs B)
    (hfree : (pairs false cs).Perm ((a, s) :: V)) (hB : ∀ p ∈ B, Apart p (a, s)) :
    ∃ cs', HeapAt (w.setMem (markUsed w.mem a)) cs' B ∧ (pairs false cs').Perm V ∧
      (pairs true cs').Perm ((a, s) :: pairs true cs) ∧
      Kept heapEnd P (pairs true cs) w (w.setMem (markUsed w.mem a)) := by
  obtain ⟨pre, post, rfl⟩ := split_free (hfree.mem_iff.mpr List.mem_cons_self)
  obtain ⟨hat, hquiet⟩ := h.use hB
  refine ⟨_, hat, ?_, ?_, Kept.of_quiet hquiet⟩
  · simpa using free_perm hfree
  · simp only [pairs_append, pairs_same, pairs_true_free]
    exact List.perm_middle

theorem HeapAt.serve_part (heapEnd : ε → Nat) (h : HeapAt w cs B)
    (hfree : (pairs false cs).Perm ((a, c + r) :: V))
    (hB : ∀ p ∈ B, Apart p (a, c + r)) (hc : 16 ≤ c) (hc8 : c % 8 = 0) (hr : 16 ≤ r) :
    ∃ cs', HeapAt (w.setMem (cutUsed w.mem a c r)) cs' B ∧
      (pairs false cs').Perm ((a + c, r) :: V) ∧
      (pairs true cs').Perm ((a, c) :: pairs true cs) ∧
      Kept heapEnd P (pairs true cs) w (w.setMem (cutUsed w.mem a c r)) := by
  obtain ⟨pre, post, rfl⟩ := split_free (hfree.mem_iff.mpr List.mem_cons_self)
  obtain ⟨hat, hquiet⟩ := h.cut hB hc hc8 hr
  refine ⟨_, hat, ?_, ?_, Kept.of_quiet hquiet⟩
  · have := free_perm hfree
    simp only [pairs_append, pairs_same, pairs_false_used] at this ⊢
    exact List.perm_middle.trans (this.cons _)
  · simp only [pairs_append, pairs_same, pairs_true_free]
    exact List.perm_middle

theorem replaceDv_spec (heapEnd : ε → Nat) (h : HeapAt w cs B)
    (hfree : (pairs false cs).Perm ((a, r) :: victims w.kmstate ++ B))
    (hacc : Accepts B w.kmstate.dVictimSize) :
    ∃ w', replaceDv w a = some w' ∧ Heap w' cs (victims w.kmstate ++ B) ∧
      Kept heapEnd P (pairs true cs) w w' ∧
      SameTop w.kmstate w'.kmstate := by
  have hf : (a, r) ∈ pairs false cs := hfree.mem_iff.mpr List.mem_cons_self
  have hx := h.pairs_extents false
  have ha : a ≠ 0 := (hx.extent _ hf).pos
  have hsize : ∀ {w' : World ε} {B' : List (Nat × Nat)}, HeapAt w' cs B' →
    getChunkSize w'.mem a = r := by
    intro w' B' h'
    obtain ⟨-, -, t, hat⟩ := h'.tiled.mem (mem_pairs.mp hf)
    exact getChunkSize_of_header hat.header hat.align
  have hdone : ∀ {w' : World ε} {B' : List (Nat × Nat)}, HeapAt w' cs B' →
    (pairs false cs).Perm ((a, r) :: B') →
      Heap (w'.setDVictim a r) cs B' := fun h' hp =>
    ⟨h'.setDVictim, by rw [victims_setDVictim ha]; exact hp, fun h0 => absurd h0 ha⟩
  by_cases hdv : w.kmstate.dVictim = 0
  · have hv : victims w.kmstate = [] := if_pos hdv
    rw [hv] at hfree ⊢
    refine ⟨w.setDVictim a r, ?_, hdone h hfree, Kept.setDVictim, rfl, rfl, rfl⟩
    simp [replaceDv, hdv, hsize h]
  · have hv : victims w.kmstate = [(w.kmstate.dVictim, w.kmstate.dVictimSize)] := if_neg hdv
    rw [hv] at hfree ⊢
    have hapart := hx.perm hfree
    have hnd := (List.nodup_cons.mp (List.nodup_cons.mp hapart.nodup).2).1
    obtain ⟨b, m', hres, hat, hquiet, -⟩ := h.bin (a := w.kmstate.dVictim)
      (s := w.kmstate.dVictimSize)
      (hfree.mem_iff.mpr (by simp))
      (fun p hp => hapart.apart p (by simp [hp]) _ (by simp) fun he => hnd (he ▸ hp)) hacc
    refine ⟨(w.setBins b m').setDVictim a r, ?_, hdone hat hfree,
      (Kept.of_bins hquiet).trans Kept.setDVictim, rfl, rfl, rfl⟩
    simp [replaceDv, hdv, hres, hsize hat]

-- ---------------------------------------------------------------------------
-- The writes as the code makes them
-- ---------------------------------------------------------------------------

def splitChunk (m : Memory) (chunk c r : Nat) : Memory :=
  let m := setHeader m chunk (c ||| pinuse ||| cinuse)
  let new := chunkOffset chunk c
  let m := setHeader m new (r ||| pinuse)
  setPrevFoot m (nextChunk m new) r

theorem splitChunk_eq {m : Memory} (hc8 : c % 8 = 0) (hr8 : r % 8 = 0)
    (hfits : a + c + r + 8 < 4294967296) :
    splitChunk m a c r = cutUsed m a c r := by
  have hoff : chunkOffset a c = a + c := add_of_lt (by omega)
  have hhdr :
    header (setHeader (setHeader m a (c + flags true true)) (a + c) (r + flags false true))
      (a + c) =
      r + flags false true :=
    Memory.load32_store32_same (by simp only [flags, pinuse, if_true,
    Bool.false_eq_true, if_false]; omega)
  have hnext :
    nextChunk (setHeader (setHeader m a (c + flags true true)) (a + c) (r + flags false true))
      (a + c) =
      a + c + r := by
    rw [nextChunk, getChunkSize_of_header hhdr hr8, add_of_lt (by omega)]
  simp only [splitChunk, size_or_both hc8, size_or_pinuse hr8, hoff, hnext]
  rfl

-- ---------------------------------------------------------------------------
-- Small bins
-- ---------------------------------------------------------------------------

theorem Heap.take_small (h : Heap w cs B) (hi : i < 32) (hne : w.kmstate.sbin i ≠ 0) :
    ∃ a b m' B', removeSchunk w i = (a, w.setBins b m') ∧ HeapAt (w.setBins b m') cs B' ∧
      Quiet (pairs true cs) w.mem m' ∧
      (pairs false cs).Perm ((a, 8 * i) :: (victims w.kmstate ++ B')) ∧
      (∀ p ∈ B', Apart p (a, 8 * i)) ∧ B'.Subperm B ∧ a ≠ 0 ∧ a + 8 * i + 8 < 4294967296 ∧
      getChunkSize m' a = 8 * i := by
  obtain ⟨a, b, m', B', hres, hp, hb, hin⟩ := removeSchunk_spec h.bins h.extents hi hne
  obtain ⟨hat, hquiet⟩ := h.drop hp hb hin
  have hfree : (pairs false cs).Perm ((a, 8 * i) :: (victims w.kmstate ++ B')) :=
    h.free.trans ((hp.append_left _).trans List.perm_middle)
  have hf : (a, 8 * i) ∈ pairs false cs := hfree.mem_iff.mpr List.mem_cons_self
  have hmem := h.mem (mem_pairs.mp hf)
  have := h.start_ne
  obtain ⟨-, -, t, hca⟩ := hat.tiled.mem (mem_pairs.mp hf)
  simp only at hmem
  exact ⟨a, b, m', B', hres, hat, hquiet, hfree, h.apart_dropped hp,
    List.Subperm.cons_self.trans hp.symm.subperm, by omega, by omega,
    getChunkSize_of_header hca.header hca.align⟩

theorem allocateSbin_spec (h : Heap w cs B) (hi : i < 32) (hne : w.kmstate.sbin i ≠ 0)
    (hc : c ≤ 8 * i) :
    ∃ r, allocateSbin w i c = some r ∧ Served cb heapEnd P w cs B c r := by
  obtain ⟨a, b, m', B', hres, hat, hquiet, hfree, hapart, -, ha, hfits, hsize⟩ :=
    h.take_small hi hne
  obtain ⟨cs', hat', hfree', hused, hkept⟩ := HeapAt.serve_whole heapEnd (P := P)
    (hat.emit (e := .carve (8 * i) c)) hfree hapart
  refine ⟨(chunkPayload a, ((w.setBins b m').emit (.carve (8 * i) c)).setMem (markUsed m' a)), ?_,
    (Kept.of_bins hquiet).trans ((Kept.carve hc).trans hkept), .inl ⟨rfl, rfl, rfl⟩,
    cs', B', a, 8 * i, add_of_lt (by omega), hc, ⟨hat', hfree', h.noVictim⟩, hused⟩
  have hsize' : getChunkSize (w.setBins b m').mem a = 8 * i := hsize
  simp only [allocateSbin, guard, if_pos (show i < nsbins from hi), hres, if_neg ha, hsize']
  rfl

theorem splitSbin_spec (h : Heap w cs B) (hi : i < 32) (hne : w.kmstate.sbin i ≠ 0)
    (hc : 16 ≤ c) (hc8 : c % 8 = 0)
    (hle : c + 16 ≤ 8 * i) (hacc : Accepts B w.kmstate.dVictimSize) :
    ∃ r, splitSbin w i c = some r ∧ Served cb heapEnd P w cs B c r := by
  obtain ⟨a, b, m', B', hres, hat, hquiet, hfree, hapart, hsubp, ha, hfits, hsize⟩ :=
    h.take_small hi hne
  obtain ⟨r, hr⟩ : ∃ r, 8 * i = c + r := ⟨8 * i - c, by omega⟩
  rw [hr] at hfree hapart hsize hfits
  obtain ⟨cs', hat', hfree', hused, hkept⟩ := HeapAt.serve_part heapEnd (P := P)
    (hat.emit (e := .carve (c + r) c)) hfree hapart hc hc8 (by omega)
  obtain ⟨w', hdv, hheap, hkept', htop⟩ := replaceDv_spec heapEnd (P := P) hat' hfree'
    (hacc.mono hsubp)
  refine ⟨(chunkPayload a, w'), ?_,
    (Kept.of_bins hquiet).trans
      ((Kept.carve (Nat.le_add_right c r)).trans (hkept.trans (hkept'.mono fun p hp =>
      hused.mem_iff.mpr (List.mem_cons_of_mem _ hp)))),
    .inl ⟨htop.chunk, htop.size, htop.heapSize⟩, cs', _, a, c, add_of_lt (by omega),
    Nat.le_refl _, hheap, hused⟩
  have hsub : sub (c + r) c = r := by
    rw [sub_of_le (by omega) (by omega)]
    omega
  have hsplit := splitChunk_eq (m := m') (a := a) (c := c) (r := r) hc8 (by omega) (by omega)
  have hoff : chunkOffset a c = a + c := add_of_lt (by omega)
  simp only [splitSbin, guard, if_pos (show i < nsbins from hi), hres, if_neg ha]
  show (replaceDv (((w.setBins b m').emit (.carve (getChunkSize m' a) c)).setMem
    (splitChunk m' a c (sub (getChunkSize m' a) c))) (chunkOffset a c) >>= fun w =>
    some (chunkPayload a, w)) = _
  rw [hsize, hsub, hsplit, hoff]
  exact congrArg (· >>= fun w => some (chunkPayload a, w)) hdv

-- ---------------------------------------------------------------------------
-- Tree bins and the designated victim
-- ---------------------------------------------------------------------------

theorem Heap.take_large (h : Heap w cs B) (hmem : (a, s) ∈ B) (hs : minLargeSize ≤ s) :
    ∃ w₁ b m' B', removeTchunk w a (index w.mem a) = some w₁ ∧
      clearTbin w₁ (index w₁.mem a) = w.setBins b m' ∧
      HeapAt (w.setBins b m') cs B' ∧ Quiet (pairs true cs) w.mem m' ∧
      (pairs false cs).Perm ((a, s) :: (victims w.kmstate ++ B')) ∧ (∀ p ∈ B', Apart p (a, s)) ∧
      B'.Subperm B ∧
      getChunkSize m' a = s := by
  have hp : B.Perm ((a, s) :: B.erase (a, s)) := List.perm_cons_erase hmem
  obtain ⟨w₁, b, m', hres, hclear, hm', hidx, hb, hin⟩ := removeTchunk_spec h.bins h.extents hp hs
  obtain ⟨hat, hquiet⟩ := h.drop hp hb hin
  have hfree : (pairs false cs).Perm ((a, s) :: (victims w.kmstate ++ B.erase (a, s))) :=
    h.free.trans ((hp.append_left _).trans List.perm_middle)
  obtain ⟨-, -, t, hca⟩ := hat.tiled.mem (mem_pairs.mp (hfree.mem_iff.mpr List.mem_cons_self))
  subst hm'
  exact ⟨w₁, b, w₁.mem, _, hres, by rw [hidx]; exact hclear, hat, hquiet, hfree, h.apart_dropped hp,
    List.Subperm.cons_self.trans hp.symm.subperm, getChunkSize_of_header hca.header hca.align⟩

theorem allocateTchunk_eq {w₁ : World ε} (ha : a ≠ 0) (hsize : getChunkSize w.mem a = s)
    (hres : removeTchunk (w.emit (.carve s c)) a (index w.mem a) = some w₁)
    (hclear : clearTbin w₁ (index w₁.mem a) = (w.emit (.carve s c)).setBins b m')
    (hsize' : getChunkSize m' a = s) :
    allocateTchunk w a c =
      if sub s c > minChunkSize then
        (replaceDv (((w.emit (.carve s c)).setBins b m').setMem (splitChunk m' a c (sub s c)))
          (chunkOffset a c)) >>=
          fun w => some (chunkPayload a, w)
      else some (chunkPayload a, ((w.emit (.carve s c)).setBins b m').setMem (markUsed m' a)) := by
  have hres' : removeTchunk (w.emit (.carve s c)) a (index (w.emit (.carve s c)).mem a) = some w₁ :=
    hres
  rw [allocateTchunk, if_neg ha, hsize]
  generalize hw₂ : (w.emit (.carve s c)).setBins b m' = w₂ at hclear ⊢
  obtain rfl : w₂.mem = m' := by rw [← hw₂]; rfl
  extract_lets w₀
  rw [show removeTchunk w₀ a (index w₀.mem a) = some w₁ from hres',
    Option.bind_eq_bind, Option.bind_some]
  simp only []
  rw [hclear, hsize']
  generalize sub s c = r
  rw [splitChunk, Nat.or_right_comm c cinuse pinuse]
  rfl

theorem allocateTchunk_spec (h : Heap w cs B) (hmem : (a, s) ∈ B)
    (hs : minLargeSize ≤ s) (hc : 16 ≤ c)
    (hc8 : c % 8 = 0) (hle : c ≤ s) (hacc : Accepts B w.kmstate.dVictimSize) :
    ∃ r, allocateTchunk w a c = some r ∧ Served cb heapEnd P w cs B c r := by
  have hx := h.extents.extent _ hmem
  have ha : a ≠ 0 := hx.pos
  have hbelow := h.below_top hmem
  have hs8 : s % 8 = 0 := hx.align
  have htop := h.top.fits
  have harena := h.arena.fits
  simp only at hbelow
  have hsize0 : getChunkSize w.mem a = s := h.bins.sized _ hmem
  obtain ⟨w₁, b, m', B', hres, hclear, hat, hquiet, hfree, hapart, hsubp, hsize⟩ :=
    Heap.take_large (w := w.emit (.carve s c)) h.emit hmem hs
  have hkept₀ : Kept heapEnd P (pairs true cs) w ((w.emit (.carve s c)).setBins b m') :=
    (Kept.carve hle).trans (Kept.of_bins hquiet)
  have hsub : sub s c = s - c := sub_of_le hle (by omega)
  have hcode := allocateTchunk_eq (c := c) ha hsize0 hres hclear hsize
  rw [hsub] at hcode
  rw [hcode]
  by_cases hbig : s - c > minChunkSize
  · rw [if_pos hbig]
    have hbig' : 16 < s - c := hbig
    obtain ⟨r, hr⟩ : ∃ r, s = c + r := ⟨s - c, by omega⟩
    subst hr
    obtain ⟨cs', hat', hfree', hused, hkept⟩ :=
      HeapAt.serve_part heapEnd (P := P) hat hfree hapart hc hc8
      (by omega)
    obtain ⟨w', hdv, hheap, hkept', htop⟩ :=
      replaceDv_spec heapEnd (P := P) hat' hfree' (hacc.mono hsubp)
    have hoff : chunkOffset a c = a + c := add_of_lt (by omega)
    refine ⟨(chunkPayload a, w'), ?_,
      hkept₀.trans
        (hkept.trans (hkept'.mono fun p hp => hused.mem_iff.mpr (List.mem_cons_of_mem _ hp))),
      .inl ⟨htop.chunk, htop.size, htop.heapSize⟩, cs', _, a, c, add_of_lt (by omega),
      Nat.le_refl _, hheap, hused⟩
    rw [show c + r - c = r by omega, splitChunk_eq hc8 (by omega) (by omega), hoff]
    exact congrArg (· >>= fun w => some (chunkPayload a, w)) hdv
  · rw [if_neg hbig]
    obtain ⟨cs', hat', hfree', hused, hkept⟩ := HeapAt.serve_whole heapEnd (P := P) hat hfree hapart
    exact ⟨_, rfl, hkept₀.trans hkept, .inl ⟨rfl, rfl, rfl⟩, cs', B', a, s,
      add_of_lt (by omega), hle,
      ⟨hat', hfree', h.noVictim⟩, hused⟩

theorem allocateDv_spec (h : Heap w cs B) (hc : 16 ≤ c) (hc8 : c % 8 = 0)
    (hle : c ≤ w.kmstate.dVictimSize) :
    Served cb heapEnd P w cs B c (allocateDv w c) := by
  have ha : w.kmstate.dVictim ≠ 0 := fun h0 => by
    have := h.noVictim h0
    omega
  have hv : victims w.kmstate = [(w.kmstate.dVictim, w.kmstate.dVictimSize)] := if_neg ha
  have hfree : (pairs false cs).Perm ((w.kmstate.dVictim, w.kmstate.dVictimSize) :: B) := by
    have := h.free
    rwa [hv] at this
  have hf := hfree.mem_iff.mpr List.mem_cons_self
  have hmem := h.mem (mem_pairs.mp hf)
  simp only at hmem
  obtain ⟨-, -, t, hca⟩ := h.tiled.mem (mem_pairs.mp hf)
  have hsize : getChunkSize w.mem w.kmstate.dVictim = w.kmstate.dVictimSize :=
    getChunkSize_of_header hca.header hca.align
  have hx := (h.pairs_extents false).perm hfree
  have hapart : ∀ p ∈ B, Apart p (w.kmstate.dVictim, w.kmstate.dVictimSize) := fun p hp =>
    hx.apart p (List.mem_cons_of_mem _ hp) _ List.mem_cons_self
      fun he => (List.nodup_cons.mp hx.nodup).1 (he ▸ hp)
  have hsub : sub w.kmstate.dVictimSize c = w.kmstate.dVictimSize - c := sub_of_le hle (by omega)
  have hpay : chunkPayload w.kmstate.dVictim = w.kmstate.dVictim + 8 := add_of_lt (by omega)
  rw [allocateDv]
  simp only [hsize, hsub,
    if_neg (show ¬(w.kmstate.dVictim = 0 ∨ w.kmstate.dVictimSize < c) by omega)]
  by_cases hall : w.kmstate.dVictimSize - c < minChunkSize
  · obtain ⟨cs', hat', hfree', hused, hkept⟩ := HeapAt.serve_whole heapEnd (P := P)
      (h.toHeapAt.emit (e := .carve w.kmstate.dVictimSize c)) hfree hapart
    rw [if_pos hall]
    exact ⟨(Kept.carve hle).trans (hkept.trans Kept.setDVictim), .inl ⟨rfl, rfl, rfl⟩, cs',
      B, _, _, hpay, hle,
      ⟨hat'.setDVictim, hfree', fun _ => rfl⟩, hused⟩
  · rw [if_neg hall]
    have hmin : 16 ≤ w.kmstate.dVictimSize - c := Nat.le_of_not_lt hall
    obtain ⟨a, hdv⟩ : ∃ a, w.kmstate.dVictim = a := ⟨_, rfl⟩
    obtain ⟨r, hr⟩ : ∃ r, w.kmstate.dVictimSize = c + r := ⟨w.kmstate.dVictimSize - c, by omega⟩
    rw [hdv] at ha hpay ⊢
    rw [hdv, hr] at hfree hapart hmem
    rw [hr, show c + r - c = r by omega] at hmin ⊢
    rw [hr] at hle
    obtain ⟨cs', hat', hfree', hused, hkept⟩ := HeapAt.serve_part heapEnd (P := P)
      (h.toHeapAt.emit (e := .carve (c + r) c)) hfree hapart hc hc8 hmin
    have hsplit := splitChunk_eq (m := w.mem) (a := a) (c := c) (r := r) hc8 (by omega) (by omega)
    have hoff : chunkOffset a c = a + c := add_of_lt (by omega)
    have hcut : cutUsed (w.emit (.carve (c + r) c)).mem a c r = splitChunk w.mem a c r :=
      hsplit.symm
    rw [hcut] at hat' hkept
    have hat'' := hat'.setDVictim (a := chunkOffset a c) (s := r)
    refine ⟨(Kept.carve hle).trans (hkept.trans Kept.setDVictim), .inl ⟨rfl, rfl, rfl⟩, cs', B, a,
      c, hpay, Nat.le_refl _,
      ⟨hat'', ?_, fun h0 => ?_⟩, hused⟩
    · show (pairs false cs').Perm (victims (World.setDVictim w (chunkOffset a c) r).kmstate ++ B)
      rw [victims_setDVictim (by omega), hoff]
      exact hfree'
    · have : chunkOffset a c = 0 := h0
      omega

end

-- ---------------------------------------------------------------------------
-- Finding a bin
-- ---------------------------------------------------------------------------

section
variable {map k : Nat}

theorem calcLeftbin_zero (h : map < 4294967296) : calcLeftbin 0 map = ctz map := by
  have hand : map &&& 4294967295 = map := by
    have := Nat.and_two_pow_sub_one_of_lt_two_pow (n := 32) h
    exact this
  rw [calcLeftbin, show sub 0 (1 <<< 0) = 4294967295 from rfl, hand]

theorem leftbin_spec (hmap : map < 4294967296) (h : map >>> k ≠ 0) :
    k + calcLeftbin 0 (map >>> k) < 32 ∧ map.testBit (k + calcLeftbin 0 (map >>> k)) = true := by
  have hlt : map >>> k < 4294967296 := Nat.lt_of_le_of_lt (Nat.shiftRight_le map k) hmap
  rw [calcLeftbin_zero hlt]
  obtain ⟨-, hbit, -⟩ := ctz_spec hlt h
  rw [Nat.testBit_shiftRight] at hbit
  refine ⟨?_, hbit⟩
  by_contra hn
  have := Nat.testBit_lt_two_pow (Nat.lt_of_lt_of_le hmap (Nat.pow_le_pow_right (n := 2) (by decide)
    (Nat.le_of_not_lt hn)))
  simp [this] at hbit

theorem shr_of_lt (h : k < 32) : shr map k = map >>> k := by
  rw [shr, Nat.mod_eq_of_lt h]

theorem Bins.small_ne {b : BinTables} {m : Memory} {B : List (Nat × Nat)} {i : Nat}
    (h : Bins b m B) (hi : i < 32) (hbit : b.sbinmap.testBit i = true) : b.sbin i ≠ 0 := by
  rw [h.sbinmap i hi] at hbit
  simpa using hbit

theorem Bins.small_bit {b : BinTables} {m : Memory} {B : List (Nat × Nat)}
    {p : Nat × Nat} (h : Bins b m B) (hx : Extents B) (hp : p ∈ B) (hs : p.2 < minLargeSize) :
    b.sbinmap.testBit (smallIndex p.2) = true := by
  have hi := smallIndex_lt hs
  obtain ⟨xs, hr, hxs⟩ := h.small (smallIndex p.2) hi
  rw [h.sbinmap _ hi, decide_eq_true_eq]
  have hf : p ∈ B.filter (binNo ·.2 = smallIndex p.2) :=
    List.mem_filter.mpr ⟨hp, by simpa using binNo_small hs⟩
  cases xs with
  | nil =>
    have := hxs.mem_iff.mpr hf
    simp at this
  | cons a xs =>
    have ha := List.mem_filter.mp (hxs.mem_iff.mp (List.mem_map.mpr ⟨a, List.mem_cons_self, rfl⟩))
    rw [hr.head]
    exact (hx.extent _ ha.1).pos

theorem Bins.tree_bit {b : BinTables} {m : Memory} {B : List (Nat × Nat)}
    {p : Nat × Nat} (h : Bins b m B)
    (hp : p ∈ B) (hs : minLargeSize ≤ p.2) : b.tbinmap.testBit (calcTbin p.2) = true := by
  have hi := calcTbin_lt p.2
  obtain ⟨t, hr, -, hxs⟩ := h.tree (calcTbin p.2) hi
  rw [h.tbinmap _ hi, decide_eq_true_eq]
  have hf : p ∈ B.filter (binNo ·.2 = 32 + calcTbin p.2) :=
    List.mem_filter.mpr ⟨hp, by simpa using binNo_large hs⟩
  intro h0
  rw [hr.null_iff.mp h0] at hxs
  have := hxs.mem_iff.mpr hf
  simp [RTree.items] at this

theorem Bins.tree_ne {b : BinTables} {m : Memory} {B : List (Nat × Nat)} {i : Nat}
    (h : Bins b m B) (hi : i < 32) (hbit : b.tbinmap.testBit i = true) : b.tbin i ≠ 0 := by
  rw [h.tbinmap i hi] at hbit
  simpa using hbit

theorem Bins.get_smallest {b : BinTables} {m : Memory} {B : List (Nat × Nat)} {i : Nat}
    (h : Bins b m B) (hi : i < 32) (hne : b.tbin i ≠ 0) :
    ∃ a s, kmallocTreeGetSmallest m (b.tbin i) = some a ∧ (a, s) ∈ B ∧ minLargeSize ≤ s ∧
      calcTbin s = i := by
  obtain ⟨t, hr, ht, hp⟩ := h.tree i hi
  have hheight := Trie.height_le ht
  rw [tbinDepth_eq] at hheight
  obtain ⟨a, ha, hmem⟩ := kmallocTreeGetSmallest_spec hr (fun he => hne (hr.null_iff.mpr he))
    (Nat.le_trans hheight (by unfold loopFuel; omega))
  obtain ⟨⟨a', s⟩, hin, rfl⟩ := List.mem_map.mp hmem
  have hf := List.mem_filter.mp (hp.mem_iff.mp hin)
  obtain ⟨hlarge, hbin⟩ := large_of_binNo (by simpa using hf.2)
  exact ⟨a', s, ha, hf.1, hlarge, hbin⟩

end

-- ---------------------------------------------------------------------------
-- Requests
-- ---------------------------------------------------------------------------

/-- A binned chunk that the search of the last bin finds for a size of that bin:
large enough, and one of a group whose upper bits are those of the size, or
among chunks that all are. -/
def FitsLast (B : List (Nat × Nat)) (c : Nat) : Prop :=
  ∃ p ∈ B, c ≤ p.2 ∧ (p.2 / 2 ^ 22 = c / 2 ^ 22 ∨ ∀ q ∈ B, 0xC00000 ≤ q.2 → c ≤ q.2)

/-- The size is not one of the last bin, or that bin has a chunk for it. -/
def Binned (B : List (Nat × Nat)) (c : Nat) : Prop := c < 0xC00000 ∨ FitsLast B c

/-- The request is served rightly or refused: its size is not one of the last
bin, or it is that of a chunk; or no chunk there is below it in the upper bits
and one serves it, or the victim does, or no tree bin is in use and the top does
without its growth wrapping around. -/
def ReqOk (st : KmallocState) (B : List (Nat × Nat)) (c : Nat) : Prop :=
  c < 0xC00000 ∨ (∃ p ∈ B, p.2 = c) ∨
    ((∀ p ∈ B, 0xC00000 ≤ p.2 → c / 2 ^ 22 ≤ p.2 / 2 ^ 22) ∧
      (FitsLast B c ∨ c ≤ st.dVictimSize ∨
        st.tbinmap = 0 ∧ (c ≤ st.topChunkSize ∨ c - st.topChunkSize ≤ 0xFFFFF000)))

structure Looked (P : Prop) (w w' : World ε) : Prop where
  kmstate : w'.kmstate = w.kmstate
  mem : w'.mem = w.mem
  env : w'.env = w.env
  traced : Traced P w w'

section
variable {heapEnd : ε → Nat} {P : Prop} {w w' : World ε} {cs : List Chunk}
  {B : List (Nat × Nat)} {c : Nat} {cb : Callbacks ε} {e : Event}

theorem Looked.emit (he : EventOk P e) : Looked P w (w.emit e) := ⟨rfl, rfl, rfl, Traced.emit he⟩

theorem Looked.trans {w'' : World ε} (h : Looked P w w') (h' : Looked P w' w'') : Looked P w w'' :=
  ⟨h'.kmstate.trans h.kmstate, h'.mem.trans h.mem, h'.env.trans h.env, h.traced.trans h'.traced⟩

theorem Looked.kept {U : List (Nat × Nat)} (h : Looked P w w') : Kept heapEnd P U w w' :=
  ⟨by rw [h.kmstate], by rw [h.kmstate], by rw [h.kmstate, h.env]; exact id,
    by rw [h.mem]; exact Quiet.refl U w.mem, h.traced⟩

theorem Looked.heap (h : Looked P w w') (hw : Heap w cs B) : Heap w' cs B := by
  obtain ⟨hst, hm, -, -⟩ := h
  cases w
  cases w'
  simp only at hst hm
  subst hst hm
  exact ⟨⟨hw.arena, hw.tiled, hw.top, hw.bins, hw.extents, hw.covered⟩, hw.free, hw.noVictim⟩

theorem Served.after {r : Nat × World ε} (h : Looked P w w')
    (hs : Served cb heapEnd P w' cs B c r) :
    Served cb heapEnd P w cs B c r :=
  by
  refine ⟨h.kept.trans hs.kept, ?_, hs.heap⟩
  have htop := hs.top
  rw [h.kmstate] at htop
  exact htop.imp_right fun ⟨hno, hu⟩ =>
    ⟨hno, h.kmstate ▸ hu.chunk, h.kmstate ▸ hu.size, h.kmstate ▸ hu.heapSize,
    by have := hu.grown; rwa [h.kmstate, h.env, h.mem] at this⟩

/-- A search that either serves the request or leaves it to the victim and the top. -/
def Searched (cb : Callbacks ε) (heapEnd : ε → Nat) (P : Prop) (w : World ε) (cs : List Chunk)
    (B : List (Nat × Nat)) (c : Nat) (res : Option (Nat × World ε)) : Prop :=
  ∃ r, res = some r ∧ (Served cb heapEnd P w cs B c r ∨
    r.1 = 0 ∧ Looked P w r.2 ∧ (w.kmstate.dVictimSize < c → NoFit w.kmstate B c) ∧
      (c < 0xC00000 ∨ c ≤ w.kmstate.dVictimSize ∨ c ≤ w.kmstate.topChunkSize ∨
        c - w.kmstate.topChunkSize ≤ 0xFFFFF000))

theorem Searched.served {res : Option (Nat × World ε)}
    (h : ∃ r, res = some r ∧ Served cb heapEnd P w cs B c r) :
    Searched cb heapEnd P w cs B c res :=
  have ⟨r, hr, hs⟩ := h
  ⟨r, hr, .inl hs⟩

theorem Searched.after {res : Option (Nat × World ε)} (h : Looked P w w')
    (hs : Searched cb heapEnd P w' cs B c res) :
    Searched cb heapEnd P w cs B c res := by
  obtain ⟨r, hr, hs⟩ := hs
  refine ⟨r, hr, hs.imp (Served.after h) fun ⟨h0, hl, hc⟩ => ⟨h0, h.trans hl, ?_⟩⟩
  rw [← h.kmstate]
  exact hc

theorem internSmall_spec (h : Heap w cs B) (hc : 16 ≤ c) (hc8 : c % 8 = 0)
    (hsmall : c < minLargeSize) (hacc : Accepts B w.kmstate.dVictimSize) :
    Searched cb heapEnd P w cs B c (internSmall w c) := by
  have h256 : minLargeSize = 256 := rfl
  have hidx : smallIndex c = c / 8 := smallIndex_eq c
  have hmap : w.kmstate.sbinmap < 4294967296 := h.bins.sbinmap_lt
  have htmap : w.kmstate.tbinmap < 4294967296 := h.bins.tbinmap_lt
  rw [internSmall, hidx]
  generalize hi : c / 8 = i
  have hi32 : i < 32 := by omega
  have hlook : Looked P w (w.emit (.shift i)) := Looked.emit (e := .shift i) fun _ => hi32
  have hheap := hlook.heap h
  simp only [shr_of_lt hi32]
  by_cases hfit : w.kmstate.sbinmap >>> i &&& 0x3 ≠ 0
  · rw [if_pos hfit]
    -- the bit of one of the two bins is set
    have hbit : ∀ j, (w.kmstate.sbinmap >>> i).testBit j = w.kmstate.sbinmap.testBit (i + j) :=
      fun j => by
      rw [Nat.testBit_shiftRight]
    have hlt : w.kmstate.sbinmap >>> i < 4294967296 :=
      Nat.lt_of_le_of_lt (Nat.shiftRight_le _ i) hmap
    have hone : ∃ k, not32 (w.kmstate.sbinmap >>> i) &&& 1 = k ∧ k ≤ 1 ∧
      w.kmstate.sbinmap.testBit (i + k) = true := by
      refine ⟨_, rfl, Nat.and_le_right, ?_⟩
      rw [and_one]
      have h0 := hbit 0
      have h1 := hbit 1
      rw [Nat.testBit_eq_decide_div_mod_eq] at h0 h1
      have h3 : w.kmstate.sbinmap >>> i &&& 3 = w.kmstate.sbinmap >>> i % 4 :=
        Nat.and_two_pow_sub_one_eq_mod _ 2
      rw [h3] at hfit
      have hnot : not32 (w.kmstate.sbinmap >>> i) % 2 = 1 - w.kmstate.sbinmap >>> i % 2 := by
        unfold not32
        omega
      rw [hnot]
      by_cases hodd : w.kmstate.sbinmap >>> i % 2 = 1
      · rw [hodd, ← h0]
        exact decide_eq_true (by simpa using hodd)
      · rw [show 1 - w.kmstate.sbinmap >>> i % 2 = 1 by omega, ← h1]
        simp only [Nat.pow_one, decide_eq_true_eq]
        omega
    obtain ⟨k, hk, hk1, hset⟩ := hone
    have hik : i + k < 32 := by
      by_contra hn
      have :=
        Nat.testBit_lt_two_pow (Nat.lt_of_lt_of_le hmap (Nat.pow_le_pow_right (n := 2) (by decide)
        (Nat.le_of_not_lt hn)))
      simp [this] at hset
    rw [hk]
    exact (Searched.served (allocateSbin_spec hheap hik (h.bins.small_ne hik hset)
      (by omega))).after hlook
  rw [if_neg hfit]
  by_cases hdv : c > w.kmstate.dVictimSize
  swap
  · rw [if_neg hdv]
    exact ⟨_, rfl, .inr ⟨rfl, hlook, fun hn => absurd hn hdv, .inl (by omega)⟩⟩
  rw [if_pos hdv, shr_of_lt (by decide), ← Nat.shiftRight_add]
  by_cases hbits : w.kmstate.sbinmap >>> (i + 2) ≠ 0
  · rw [if_pos hbits]
    obtain ⟨hj, hset⟩ := leftbin_spec hmap hbits
    generalize hjeq : i + 2 + calcLeftbin 0 (w.kmstate.sbinmap >>> (i + 2)) = j at hj hset
    have hne := h.bins.small_ne hj hset
    have hlook' :
      Looked P w ((w.emit (.shift i)).emit (.leftbin (w.kmstate.sbinmap >>> (i + 2))
        (w.kmstate.sbin j))) :=
      hlook.trans (Looked.emit (e := .leftbin _ _) fun _ => ⟨hbits, hne⟩)
    have hguard : (guard (j < nsbins) : Option Unit) = some () := by
      simp [guard, show j < nsbins from hj]
    rw [hguard]
    exact (Searched.served (splitSbin_spec (hlook'.heap h) hj hne hc hc8 (by omega) hacc)).after
      hlook'
  rw [if_neg hbits]
  by_cases ht : w.kmstate.tbinmap ≠ 0
  · rw [if_pos ht, allocateSmallestTbin]
    have hshift : w.kmstate.tbinmap >>> 0 ≠ 0 := ht
    obtain ⟨hj, hset⟩ := leftbin_spec htmap hshift
    rw [Nat.zero_add, Nat.shiftRight_zero] at hj hset
    have hmapeq : (w.emit (.shift i)).kmstate.tbinmap = w.kmstate.tbinmap := rfl
    simp only [hmapeq]
    generalize hjeq : calcLeftbin 0 w.kmstate.tbinmap = j at hj hset
    have hne := h.bins.tree_ne hj hset
    obtain ⟨a, s, ha, hmem, hlarge, hbin⟩ := h.bins.get_smallest hj hne
    have hlook' :
      Looked P w ((w.emit (.shift i)).emit (.leftbin w.kmstate.tbinmap (w.kmstate.tbin j))) :=
      hlook.trans (Looked.emit (e := .leftbin _ _) fun _ => ⟨ht, hne⟩)
    have hguard : (guard (j < ntbins) : Option Unit) = some () := by
      simp [guard, show j < ntbins from hj]
    have ha' :
      kmallocTreeGetSmallest
        ((w.emit (.shift i)).emit (.leftbin w.kmstate.tbinmap (w.kmstate.tbin j))).mem
        (w.kmstate.tbin j) = some a := ha
    have hbineq : ∀ e, ((w.emit (.shift i)).emit e).kmstate.tbin = w.kmstate.tbin := fun _ => rfl
    rw [hguard]
    simp only [bind, Option.bind_some, hbineq, show (w.emit (.shift i)).kmstate.tbin =
      w.kmstate.tbin from rfl, ha']
    exact (Searched.served (allocateTchunk_spec (hlook'.heap h) hmem hlarge hc hc8 (by omega)
      hacc)).after hlook'
  · rw [if_neg ht]
    refine ⟨_, rfl, .inr ⟨rfl, hlook, fun hn => ⟨hn, fun _ p hp => ?_⟩, .inl (by omega)⟩⟩
    by_contra hle
    by_cases hps : p.2 < minLargeSize
    · -- its bin is the one that fits exactly, the next, or one found by the scan
      have hbit := h.bins.small_bit h.extents hp hps
      rw [smallIndex_eq] at hbit
      obtain ⟨k, hk⟩ : ∃ k, p.2 / 8 = i + k := ⟨p.2 / 8 - i, by omega⟩
      rw [hk, ← Nat.testBit_shiftRight] at hbit
      by_cases hk2 : k < 2
      · have h3 : (w.kmstate.sbinmap >>> i &&& 0x3).testBit k = true := by
          rw [Nat.testBit_and, show w.kmstate.sbinmap >>> i = w.kmstate.bins.sbinmap >>> i from rfl,
            hbit]
          obtain rfl | rfl : k = 0 ∨ k = 1 := by omega
          · rfl
          · rfl
        rw [not_not.mp hfit] at h3
        simp at h3
      · have h2 : (w.kmstate.sbinmap >>> (i + 2)).testBit (k - 2) = true := by
          rw [Nat.testBit_shiftRight] at hbit ⊢
          rw [show i + 2 + (k - 2) = i + k by omega]
          exact hbit
        rw [not_not.mp hbits] at h2
        simp at h2
    · have hbit := h.bins.tree_bit hp (Nat.le_of_not_lt hps)
      rw [show w.kmstate.bins.tbinmap = 0 from not_not.mp ht] at hbit
      simp at hbit

/-- The keys of the bin that a size selects are not below it from the bits its
trie sorts by. -/
theorem ReqOk.atLeast {t : RTree} (hreq : ReqOk w.kmstate B c) (hno : ∀ p ∈ B, p.2 ≠ c)
    (hlarge : minLargeSize ≤ c) (hp : t.items.Perm (B.filter (binNo ·.2 = 32 + calcTbin c))) :
    AtLeast (tbinDepth (calcTbin c)) c t := by
  intro k hk
  obtain ⟨y, hy⟩ := RTree.mem_keys.mp hk
  have hf := List.mem_filter.mp (hp.mem_iff.mp hy)
  obtain ⟨hlo, hbin⟩ := large_of_binNo (s := k) (by simpa using hf.2)
  by_cases hlt : calcTbin c < 31
  · have h1 := calcTbin_agree hlarge hlt
    have h2 := calcTbin_agree hlo (hbin ▸ hlt)
    rw [hbin] at h2
    exact Nat.le_of_eq (h1.trans h2.symm)
  · have h31 : calcTbin c = 31 := by
      have := calcTbin_lt c
      omega
    have hc31 := calcTbin_eq_31.mp h31
    rw [h31, show tbinDepth 31 = 22 from rfl]
    rcases hreq with hlow | ⟨p, hp', heq⟩ | ⟨hup, -⟩
    · omega
    · exact absurd heq (hno p hp')
    · exact hup (y, k) hf.1 (calcTbin_eq_31.mp (hbin.trans h31))

theorem not_binned {t : RTree} (h31 : calcTbin c = 31)
    (hp : t.items.Perm (B.filter (binNo ·.2 = 32 + calcTbin c)))
    (hagree : ∀ k ∈ t.keys, k / 2 ^ tbinDepth (calcTbin c) = c / 2 ^ tbinDepth (calcTbin c) → k < c)
    (hlow : t = .leaf ∨ ∃ k ∈ t.keys, k < c) : ¬Binned B c := by
  have hc31 := calcTbin_eq_31.mp h31
  rw [h31, show tbinDepth 31 = 22 from rfl] at hagree
  rintro (hlt | ⟨p, hpm, hle, hfit⟩)
  · omega
  have hp31 : calcTbin p.2 = 31 := calcTbin_eq_31.mpr (by omega)
  have hpt : p ∈ t.items := by
    refine hp.mem_iff.mpr (List.mem_filter.mpr ⟨hpm, ?_⟩)
    have h256 : minLargeSize = 256 := rfl
    rw [binNo_large (s := p.2) (by omega), hp31, h31]
    rfl
  rcases hfit with heq | hall
  · have := hagree p.2 (RTree.mem_keys.mpr ⟨p.1, hpt⟩) heq
    omega
  · rcases hlow with rfl | ⟨k, hk, hkc⟩
    · simp [RTree.items] at hpt
    · obtain ⟨y, hy⟩ := RTree.mem_keys.mp hk
      have hf := List.mem_filter.mp (hp.mem_iff.mp hy)
      obtain ⟨-, hbin⟩ := large_of_binNo (s := k) (by simpa using hf.2)
      have := hall (y, k) hf.1 (calcTbin_eq_31.mp (hbin.trans h31))
      simp only at this
      omega

theorem internLarge_found {t : RTree} {a s : Nat} (h : Heap w cs B) (hc8 : c % 8 = 0)
    (hlarge : minLargeSize ≤ c) (hp : t.items.Perm (B.filter (binNo ·.2 = 32 + calcTbin c)))
    (ha : kmallocTreeGetBestFit w.mem c (w.kmstate.tbin (calcTbin c))
      (tbinDepth (calcTbin c)) = some a)
    (hs : (a, s) ∈ t.items) (h0 : a ≠ 0) (hle : c ≤ s) (hacc : Accepts B w.kmstate.dVictimSize) :
    Searched cb heapEnd P w cs B c (internLarge w c) := by
  have h256 : minLargeSize = 256 := rfl
  have hguard : (guard (calcTbin c < ntbins) : Option Unit) = some () := by
    simp [guard, show calcTbin c < ntbins from calcTbin_lt c]
  have hf := List.mem_filter.mp (hp.mem_iff.mp hs)
  obtain ⟨hslarge, -⟩ := large_of_binNo (s := s) (by simpa using hf.2)
  rw [internLarge]
  simp only [hguard, ha, Option.bind_eq_bind, Option.bind_some]
  rw [if_pos h0]
  by_cases hfit : c > w.kmstate.dVictimSize ∨ getChunkSize w.mem a ≤ w.kmstate.dVictimSize
  · rw [if_pos hfit]
    exact Searched.served (allocateTchunk_spec h hf.1 hslarge (by omega) hc8 hle hacc)
  · rw [if_neg hfit]
    exact ⟨_, rfl,
      .inr ⟨rfl, ⟨rfl, rfl, rfl, Traced.refl _ w⟩, fun hn => by omega, .inr (.inl (by omega))⟩⟩

/-- A chunk of just this size is found, whatever the others are. -/
theorem internLarge_exact (h : Heap w cs B) (hc8 : c % 8 = 0) (hlarge : minLargeSize ≤ c)
    (hhas : ∃ p ∈ B, p.2 = c) (hacc : Accepts B w.kmstate.dVictimSize) :
    Searched cb heapEnd P w cs B c (internLarge w c) := by
  obtain ⟨p, hpB, rfl⟩ := hhas
  obtain ⟨t, hr, ht, hp⟩ := h.bins.tree (calcTbin p.2) (calcTbin_lt p.2)
  have hpt : p ∈ t.items := by
    refine hp.mem_iff.mpr (List.mem_filter.mpr ⟨hpB, ?_⟩)
    rw [binNo_large hlarge]
    simp
  have hdepth := tbinDepth_eq (calcTbin p.2)
  obtain ⟨a, ha, hs⟩ := kmallocTreeGetBestFit_exact hr ht (by omega) (TreeBin.keyed h.bins hp)
    (RTree.mem_keys.mpr ⟨p.1, hpt⟩)
  have h0 : a ≠ 0 := ((TreeBin.placed h.extents hp).fits a (RTree.mem_addrs hs)).1
  exact internLarge_found h hc8 hlarge hp ha hs h0 (Nat.le_refl _) hacc

theorem internLarge_spec (h : Heap w cs B) (hc8 : c % 8 = 0) (hlarge : minLargeSize ≤ c)
    (hreq : ReqOk w.kmstate B c) (hacc : Accepts B w.kmstate.dVictimSize) :
    Searched cb heapEnd (Binned B c) w cs B c (internLarge w c) := by
  have h256 : minLargeSize = 256 := rfl
  by_cases hhas : ∃ p ∈ B, p.2 = c
  · exact internLarge_exact h hc8 hlarge hhas hacc
  have hnone : ∀ p ∈ B, p.2 ≠ c := fun p hp heq => hhas ⟨p, hp, heq⟩
  have hi := calcTbin_lt c
  have htmap : w.kmstate.tbinmap < 4294967296 := h.bins.tbinmap_lt
  have hdepth := tbinDepth_eq (calcTbin c)
  obtain ⟨t, hr, ht, hp⟩ := h.bins.tree (calcTbin c) hi
  obtain ⟨a, ha, hfound, hnull⟩ := kmallocTreeGetBestFit_spec hr ht (by omega) (by omega)
    (TreeBin.keyed h.bins hp)
    (TreeBin.placed h.extents hp) (hreq.atLeast hnone hlarge hp)
  have ha' : kmallocTreeGetBestFit w.mem c (w.kmstate.tbin (calcTbin c)) (tbinDepth (calcTbin c)) =
    some a := ha
  by_cases h0 : a ≠ 0
  · obtain ⟨s, hs, hle⟩ := hfound.resolve_left h0
    exact internLarge_found h hc8 hlarge hp ha' hs h0 hle hacc
  have hguard : (guard (calcTbin c < ntbins) : Option Unit) = some () := by
    simp [guard, show calcTbin c < ntbins from hi]
  rw [internLarge]
  simp only [hguard, ha', Option.bind_eq_bind, Option.bind_some]
  rw [if_neg h0]
  obtain ⟨hagree, hlow⟩ := hnull (Classical.not_not.mp h0)
  by_cases h31 : calcTbin c = 31
  · -- the shift by 32 is one by 0, and the bin found is beyond the table
    have hno : ¬Binned B c := not_binned h31 hp hagree hlow
    have hc31 := calcTbin_eq_31.mp h31
    have hlook : ∀ e, e ≠ .abort → (∀ s n, e ≠ .carve s n) → EventOk (Binned B c) e := by
      intro e h1 h2
      cases e with
      | sbrk i => trivial
      | abort => exact absurd rfl h1
      | shift n => exact fun hb => absurd hb hno
      | leftbin map head => exact fun hb => absurd hb hno
      | carve s n => exact absurd rfl (h2 s n)
    have hlook₁ : Looked (Binned B c) w (w.emit (.shift (calcTbin c + 1))) :=
      Looked.emit (hlook _ (by simp) (by simp))
    rw [h31] at hlook₁ ⊢
    rw [show shr w.kmstate.tbinmap (31 + 1) = w.kmstate.tbinmap from Nat.shiftRight_zero]
    rcases hreq with hlt | hex | ⟨-, hfits | hdv | ⟨hempty, htop⟩⟩
    · omega
    · exact absurd hex hhas
    · exact absurd (.inr hfits) hno
    · by_cases hbits : w.kmstate.tbinmap ≠ 0
      · rw [if_pos hbits]
        have hdvi := calcTbin_lt w.kmstate.dVictimSize
        rw [if_neg (by omega)]
        exact ⟨_, rfl, .inr ⟨rfl, hlook₁.trans (Looked.emit (hlook _ (by simp) (by simp))),
          fun hn => by omega,
          .inr (.inl hdv)⟩⟩
      · rw [if_neg hbits]
        exact ⟨_, rfl, .inr ⟨rfl, hlook₁, fun hn => by omega, .inr (.inl hdv)⟩⟩
    · rw [if_neg (by simpa using hempty)]
      exact ⟨_, rfl, .inr ⟨rfl, hlook₁, fun hn => ⟨hn, fun hlow => by omega⟩, .inr (.inr htop)⟩⟩
  have hlt : calcTbin c < 31 := by omega
  have hclt := calcTbin_lt_31.mp hlt
  have hlook : Looked (Binned B c) w (w.emit (.shift (calcTbin c + 1))) :=
    Looked.emit (e := .shift _) fun _ => by omega
  rw [shr_of_lt (show calcTbin c + 1 < 32 by omega)]
  by_cases hbits : w.kmstate.tbinmap >>> (calcTbin c + 1) ≠ 0
  swap
  · rw [if_neg hbits]
    refine ⟨_, rfl, .inr ⟨rfl, hlook, fun hn => ⟨hn, fun _ p hp' => ?_⟩, .inl hclt⟩⟩
    by_contra hle
    have hbit := h.bins.tree_bit hp' (by omega)
    have hmono := calcTbin_mono (Nat.le_of_not_lt hle)
    by_cases heq : calcTbin p.2 = calcTbin c
    · -- in the bin that was searched all are smaller
      have hpt : p ∈ t.items := hp.mem_iff.mpr (List.mem_filter.mpr ⟨hp', by
        rw [binNo_large (s := p.2) (by omega), heq]
        simp⟩)
      have h1 := calcTbin_agree (s := p.2) (by omega) (by omega)
      have h2 := calcTbin_agree hlarge hlt
      rw [heq] at h1
      exact hle (hagree p.2 (RTree.mem_keys.mpr ⟨p.1, hpt⟩) (h1.trans h2.symm))
    · obtain ⟨k, hk⟩ : ∃ k, calcTbin p.2 = calcTbin c + 1 + k :=
        ⟨calcTbin p.2 - calcTbin c - 1, by omega⟩
      rw [hk, ← Nat.testBit_shiftRight, show w.kmstate.bins.tbinmap = w.kmstate.tbinmap from rfl,
        not_not.mp hbits] at hbit
      simp at hbit
  rw [if_pos hbits]
  obtain ⟨hj, hset⟩ := leftbin_spec htmap hbits
  have hjgt :
    calcTbin c < calcTbin c + 1 + calcLeftbin 0 (w.kmstate.tbinmap >>> (calcTbin c + 1)) := by omega
  generalize calcTbin c + 1 + calcLeftbin 0 (w.kmstate.tbinmap >>> (calcTbin c + 1)) =
    j at hj hset hjgt ⊢
  have hne := h.bins.tree_ne hj hset
  have hlook' : Looked (Binned B c) w ((w.emit (.shift (calcTbin c + 1))).emit
      (.leftbin (w.kmstate.tbinmap >>> (calcTbin c + 1)) (w.kmstate.tbin j))) :=
    hlook.trans (Looked.emit (e := .leftbin _ _) fun _ => ⟨hbits, hne⟩)
  by_cases htry : calcTbin w.kmstate.dVictimSize ≥ j ∨ c > w.kmstate.dVictimSize
  swap
  · rw [if_neg htry]
    exact ⟨_, rfl, .inr ⟨rfl, hlook', fun hn => absurd (.inr hn) htry, .inl hclt⟩⟩
  rw [if_pos htry]
  obtain ⟨x, s, hx, hmem, hslarge, hbin⟩ := h.bins.get_smallest hj hne
  have hcs : c ≤ s := by
    by_contra hn
    have := calcTbin_mono (s := s) (c := c) (by omega)
    omega
  have hguard' : (guard (j < ntbins) : Option Unit) = some () := by
    simp [guard, show j < ntbins from hj]
  have hx' : kmallocTreeGetSmallest ((w.emit (.shift (calcTbin c + 1))).emit
      (.leftbin (w.kmstate.tbinmap >>> (calcTbin c + 1)) (w.kmstate.tbin j))).mem
        (w.kmstate.tbin j) = some x := hx
  rw [hguard', Option.bind_some, hx', Option.bind_some]
  by_cases hfit : c > w.kmstate.dVictimSize ∨ getChunkSize ((w.emit (.shift (calcTbin c + 1))).emit
      (.leftbin (w.kmstate.tbinmap >>> (calcTbin c + 1)) (w.kmstate.tbin j))).mem x <
      w.kmstate.dVictimSize
  · rw [if_pos hfit]
    exact (Searched.served (allocateTchunk_spec (hlook'.heap h) hmem hslarge (by omega) hc8 hcs
      hacc)).after hlook'
  · rw [if_neg hfit]
    exact ⟨_, rfl, .inr ⟨rfl, hlook', fun hn => absurd (.inl hn) hfit, .inl hclt⟩⟩

-- ---------------------------------------------------------------------------
-- The whole
-- ---------------------------------------------------------------------------

theorem kmallocIntern_eq {r : Nat × World ε}
    (hr : (if c < minLargeSize then internSmall w c else internLarge w c) = some r) :
    kmallocIntern cb w c true =
      if r.1 = 0 then
        if c ≤ r.2.kmstate.dVictimSize then some (allocateDv r.2 c) else
          some (splitTop cb r.2 c true)
      else some r := by
  rw [kmallocIntern]
  by_cases hsmall : c < minLargeSize
  · rw [if_pos hsmall] at hr ⊢
    rw [hr]
    rfl
  · rw [if_neg hsmall] at hr ⊢
    rw [hr]
    rfl

theorem kmallocIntern_spec (h : Heap w cs B) (hcb : Env cb heapEnd w)
    (hc : 16 ≤ c) (hc8 : c % 8 = 0)
    (hlt : c < 4294967296) (hreq : ReqOk w.kmstate B c) (hacc : Accepts B w.kmstate.dVictimSize) :
    ∃ r, kmallocIntern cb w c true = some r ∧
      (Served cb heapEnd (Binned B c) w cs B c r ∨ NotServed heapEnd (Binned B c) w cs B c r) := by
  have hsearch : Searched cb heapEnd (Binned B c) w cs B c
      (if c < minLargeSize then internSmall w c else internLarge w c) := by
    by_cases hsmall : c < minLargeSize
    · rw [if_pos hsmall]
      exact internSmall_spec h hc hc8 hsmall hacc
    · rw [if_neg hsmall]
      exact internLarge_spec h hc8 (Nat.le_of_not_lt hsmall) hreq hacc
  obtain ⟨r, hr, hres⟩ := hsearch
  rw [kmallocIntern_eq hr]
  rcases hres with hs | ⟨h0, hlook, hno, htop⟩
  · obtain ⟨cs', B', a, s, ha, -, -, -⟩ := hs.heap
    rw [if_neg (by omega)]
    exact ⟨r, rfl, .inl hs⟩
  rw [if_pos h0, hlook.kmstate]
  have hheap := hlook.heap h
  by_cases hdv : c ≤ w.kmstate.dVictimSize
  · rw [if_pos hdv]
    exact ⟨_, rfl,
      .inl ((allocateDv_spec hheap hc hc8 (by rw [hlook.kmstate]; exact hdv)).after hlook)⟩
  rw [if_neg hdv]
  have hcb' : Env cb heapEnd r.2 := hcb.next (P := Binned B c) (U := []) hlook.kept
  refine ⟨_, rfl, ?_⟩
  rcases splitTop_spec (P :=
    Binned B c) hheap.toHeapAt hcb' hc hc8 (by rw [hlook.kmstate]; omega) hlt with
    ⟨hz, hlow, href, hat, hkept⟩ | ⟨hz, hat, hkept, hsbrk, hst⟩
  · rw [hlook.kmstate] at hlow
    refine .inr ⟨hz, hlook.kept.trans hkept, ⟨hno (by omega), hlow⟩,
      ⟨href.kmstate.trans hlook.kmstate, fun x hlo hhi => ?_⟩, hat, ?_, ?_⟩
    · rw [href.mem x (by rw [hlook.kmstate]; exact hlo) (by rw [hlook.kmstate]; exact hhi),
        hlook.mem]
    · rw [href.kmstate]
      exact hheap.free
    · rw [href.kmstate]
      exact hheap.noVictim
  · have hno' : NoFit r.2.kmstate B c := by
      rw [hlook.kmstate]
      exact hno (by omega)
    refine .inl (Served.after hlook ⟨hkept,
      .inr ⟨hno', by rw [hst], by rw [hst], by rw [hst], hsbrk⟩,
      _, B, r.2.kmstate.topChunk, c, hz, Nat.le_refl _, ⟨hat, ?_, ?_⟩, ?_⟩)
    · rw [hst, pairs_append, pairs_false_used, pairs_nil, List.append_nil]
      exact hheap.free
    · rw [hst]
      exact hheap.noVictim
    · simp only [pairs_append, pairs_same, pairs_nil]
      exact List.perm_append_comm

end

end ElcoOs.Kmalloc
