import ElcoOs.Kmalloc.Contents

/-!
# Histories with `krealloc`

Clients call `krealloc` as well, with sizes over all of `size_t`, and the heap
stays whole as long as no size overflows. One that does is rounded to a small
size: the block is made smaller or freed, and handed back all the same.
-/

namespace ElcoOs.Kmalloc

open Word32

variable {ε : Type}

-- ---------------------------------------------------------------------------
-- Requests
-- ---------------------------------------------------------------------------

inductive Request where
  | call (c : Call)
  | krealloc (ptr size : Nat)

/-- The blocks that are out after `krealloc` has returned `r`. -/
def outAfter (live : List Nat) (ptr size r : Nat) : List Nat :=
  if ptr = 0 then (if r = 0 then live else r :: live)
  else if size = 0 then live.erase ptr
  else if r = 0 then live
  else r :: live.erase ptr

def Clients.request (cb : Callbacks ε) (s : Clients ε) : Request → Option (Clients ε)
  | .call c => s.call cb c
  | .krealloc ptr size => do
    let r ← Kmalloc.krealloc cb s.world ptr size
    return ⟨r.2, outAfter s.live ptr size r.1⟩

def Request.Legal (s : Clients ε) : Request → Prop
  | .call c => c.Legal s
  | .krealloc ptr size => (ptr = 0 ∨ ptr ∈ s.live) ∧ size < 4294967296

/-- The bins can take what the request does, and a block is not given a size that overflows. -/
def Request.Ok (s : Clients ε) : Request → Prop
  | .call c => c.Ok s
  | .krealloc ptr size =>
    if ptr = 0 then MallocOk s.world size
    else if size = 0 then KfreeOk s.world ptr
    else ¬requestOverflow size ∧ ReallocOk s.world ptr size

abbrev RequestRun (cb : Callbacks ε) (heapEnd : ε → Nat) (s : Clients ε) : Prop :=
  Reach (Initial cb heapEnd) (Clients.request cb) (fun s q _ => q.Legal s ∧ q.Ok s) s

/-- The chunk is in use, between the start of the heap and its top, and no free chunk has a part of
it. -/
structure Owned (w : World ε) (chunk size : Nat) : Prop where
  inUse : ⟨chunk, size, true⟩ ∈ chunks w
  start : w.kmstate.heapStart ≤ chunk
  top : chunk + size ≤ w.kmstate.topChunk
  heap : w.kmstate.topChunk + w.kmstate.topChunkSize ≤ w.kmstate.heapStart + w.kmstate.heapSize
  free : ∀ f ∈ victims w.kmstate ++ binned w, Apart f (chunk, size)

/-- `q` is the payload of a chunk that is its own, with room for `n` bytes. -/
def Honoured (w : World ε) (q n : Nat) : Prop :=
  ∃ size, Owned w (payloadChunk q) size ∧ n + 4 ≤ size

section
variable {heapEnd : ε → Nat} {w w' : World ε} {cs pre post : List Chunk} {B : List (Nat × Nat)}
  {a c n p s : Nat} {cb : Callbacks ε} {st st' : Clients ε} {r : Nat × World ε}

theorem LiveHeap.pos (h : LiveHeap cb heapEnd st) (hp : p ∈ st.live) : p ≠ 0 := by
  obtain ⟨q, -, rfl⟩ := h.block hp
  exact Nat.succ_ne_zero _

theorem Clients.request_spec {q : Request} (h : LiveHeap cb heapEnd st)
    (hl : q.Legal st) (hok : q.Ok st) :
    ∃ st', st.request cb q = some st' ∧ LiveHeap cb heapEnd st' := by
  cases q with
  | call c =>
    obtain ⟨st', hres, hlive, -⟩ := Clients.call_spec h hl hok
    exact ⟨st', hres, hlive⟩
  | krealloc ptr size =>
    obtain ⟨hptr, hlt⟩ := hl
    rw [Clients.request]
    by_cases h0 : ptr = 0
    · subst h0
      rw [Request.Ok, if_pos rfl] at hok
      obtain ⟨p, w', hres, hlive, -⟩ := h.kmalloc hlt hok
      exact ⟨_, by rw [Kmalloc.krealloc, if_pos rfl, hres]; rfl, hlive⟩
    · have hp := hptr.resolve_left h0
      rw [Request.Ok, if_neg h0] at hok
      by_cases hz : size = 0
      · subst hz
        rw [if_pos rfl] at hok
        obtain ⟨w', hres, hlive, -⟩ := h.kfree (P := True) hp hok.pages
        refine ⟨_, by rw [Kmalloc.krealloc, if_neg h0, if_pos rfl, hres]; rfl, ?_⟩
        rw [outAfter, if_neg h0, if_pos rfl]
        exact hlive
      · rw [if_neg hz] at hok
        obtain ⟨r, hres, hr⟩ := h.realloc hp (Nat.pos_of_ne_zero hz) hlt hok.1 hok.2
        refine ⟨_, by rw [hres]; rfl, ?_⟩
        rw [outAfter, if_neg h0, if_neg hz]
        exact hr.live

theorem RequestRun.liveHeap (h : RequestRun cb heapEnd st) : LiveHeap cb heapEnd st := by
  refine h.invariant (fun s hs => hs.liveHeap.1) fun s q s' hs hnext hmay => ?_
  obtain ⟨s'', hres, hlive⟩ := Clients.request_spec hs hmay.1 hmay.2
  cases hres.symm.trans hnext
  exact hlive

theorem OkRun.requestRun (h : OkRun cb heapEnd st) : RequestRun cb heapEnd st := by
  induction h with
  | start h => exact .start h
  | step _ hnext hmay ih =>
    rename_i c _
    exact .step (a := .call c) ih hnext hmay

-- ---------------------------------------------------------------------------
-- Merging always comes to an end
-- ---------------------------------------------------------------------------

theorem binChunk_returns (w : World ε) (a : Nat) : ∃ w', binChunk w a = some w' := by
  rw [binChunk]
  obtain ⟨s, hs⟩ : ∃ s, getChunkSize w.mem a = s := ⟨_, rfl⟩
  simp only [hs]
  split
  · have hi : smallIndex s < nsbins := smallIndex_lt ‹_›
    simp [guard, hi]
  · have hi : calcTbin s < ntbins := calcTbin_lt s
    simp [guard, hi]

theorem mergeFreeChunks_returns (cb : Callbacks ε) {f fs e : Nat}
    (hun : ¬isInuse w.mem e → e ≠ w.kmstate.topChunk → e ≠ w.kmstate.dVictim →
      let size := add fs (getChunkSize w.mem e)
      ∃ w', unbinChunk ((w.setHeader f (size ||| pinuse)).setPrevFoot (chunkOffset f size) size) e =
        some w') :
    ∃ w', mergeFreeChunks cb w f fs e = some w' := by
  have hlast : ∀ (w : World ε) (size : Nat), ∃ w',
    (if f = w.kmstate.dVictim then some (w.setDVictim f size)
      else binChunk w f) = some w' := fun w size => by
    split
    · exact ⟨_, rfl⟩
    · exact binChunk_returns w f
  rw [mergeFreeChunks]
  split
  · rename_i hi
    by_cases htop : e = w.kmstate.topChunk
    · exact ⟨_, if_pos htop⟩
    · by_cases hdv : e = w.kmstate.dVictim
      · exact ⟨_, (if_neg htop).trans (if_pos hdv)⟩
      · obtain ⟨w₁, hw₁⟩ := hun hi htop hdv
        obtain ⟨w', hw'⟩ := hlast w₁ (add fs (getChunkSize w.mem e))
        refine ⟨w', ((if_neg htop).trans (if_neg hdv)).trans ?_⟩
        exact (congrArg (Option.bind · _) hw₁).trans hw'
  · exact hlast _ _

theorem Heap.merge_returns (cb : Callbacks ε) (h : Heap w (pre ++ ⟨a, s, true⟩ :: post) B)
    (hc : c + 8 ≤ s) :
    ∃ w', mergeFreeChunks cb (resized w a c) (a + c) (s - c) (a + s) = some w' := by
  obtain ⟨t, -, hat, hpost⟩ := h.tiled.split
  have hs16 : 16 ≤ s := hat.min
  simp only at hpost
  have hm : SameExcept (a + 4) (a + 8) w.mem (resized w a c).mem :=
    (SameExcept.refl _ _ _).store (Nat.le_refl _) (Nat.le_refl _)
  have hst : (resized w a c).kmstate = w.kmstate := rfl
  generalize resized w a c = w₁ at hm hst
  have hnext : header w₁.mem (a + s) = header w.mem (a + s) :=
    Memory.load32_congr fun x _ _ => hm x (by omega)
  refine mergeFreeChunks_returns cb fun hfree htop hdv => ?_
  rw [hst] at htop hdv
  cases post with
  | nil => exact absurd hpost.1 htop
  | cons d rest =>
    obtain ⟨da, N, du⟩ := d
    obtain ⟨rfl, hdat, hrest⟩ := hpost
    have hu : du = false := by
      by_contra hu
      refine hfree ?_
      rw [isInuse, hnext]
      exact (isInuse_of_header hdat.header hdat.align).mpr (by simpa using hu)
    subst hu
    have hle := hrest.le
    have htopf := h.top.fits
    have harena := h.arena.fits
    simp only at hle
    have hsize : getChunkSize w₁.mem (a + s) = N := by
      rw [getChunkSize, hnext]
      exact getChunkSize_of_header hdat.header hdat.align
    have hadd : add (s - c) N = s - c + N := add_of_lt (by omega)
    have hoff : chunkOffset (a + c) (s - c + N) = a + s + N := by
      rw [chunkOffset, add_of_lt (by omega)]
      omega
    simp only [hsize, hadd, hoff]
    obtain ⟨m₂, hm₂⟩ : ∃ m₂, setPrevFoot (setHeader w₁.mem (a + c) ((s - c + N) ||| pinuse))
      (a + s + N) (s - c + N) = m₂ :=
      ⟨_, rfl⟩
    have hbins : Bins w.kmstate.bins m₂ B := h.toHeapAt.bins_around fun x hx => by
      rw [← hm₂, setPrevFoot, setHeader, Memory.store32_apply (by omega),
        Memory.store32_apply (by omega)]
      exact hm x (by omega)
    rcases h.free_cases (show (a + s, N) ∈ pairs false _ by simp) with ⟨he, -⟩ | ⟨-, hpB, -⟩
    · exact absurd he.symm hdv
    · obtain ⟨b, m', hres, -⟩ :=
        unbinChunk_spec (w := w₁.setMem m₂) (by rw [← hst] at hbins; exact hbins) h.extents hpB
      exact ⟨_, (congrArg (fun m => unbinChunk (w₁.setMem m) (a + s)) hm₂).trans hres⟩

-- ---------------------------------------------------------------------------
-- Sizes that overflow
-- ---------------------------------------------------------------------------

/-- A size that overflows is rounded to nothing or to the smallest chunk. -/
theorem request2Size_of_overflow (hn : n < 4294967296) (h : requestOverflow n) :
    request2Size n = 0 ∨ request2Size n = 16 := by
  rw [requestOverflow_iff hn] at h
  unfold request2Size chunkOverhead minChunkSize
  by_cases h4 : n + 4 < 4294967296
  · have h7 : add (n + 4) 7 = n + 4 + 7 - 4294967296 := by unfold add; omega
    rw [add_of_lt h4, if_neg (by omega), chunkSizeAlign, h7, and_not32_seven (by omega)]
    omega
  · have hadd : add n 4 = n + 4 - 4294967296 := by unfold add; omega
    rw [hadd, if_pos (by omega)]
    exact .inr rfl

theorem chunks_size_le {d : Chunk} (hd : d ∈ chunks w) : d.size ≤ 4294967288 := by
  rw [chunks] at hd
  generalize w.kmstate.heapSize = fuel at hd
  generalize w.kmstate.heapStart = b at hd
  induction fuel generalizing b with
  | zero => cases hd
  | succ fuel ih =>
    rw [walk] at hd
    split at hd
    · cases hd
    · rcases List.mem_cons.mp hd with rfl | hd
      · have := Memory.load32_lt w.mem (b + 4)
        show header w.mem b &&& not32 flagMask ≤ _
        rw [header, show flagMask = 7 from rfl, and_not32_seven this]
        omega
      · exact ih _ hd

theorem not_honoured (hn : n < 4294967296) (h : requestOverflow n) : ¬Honoured w p n := by
  rintro ⟨size, hown, hle⟩
  rw [requestOverflow_iff hn] at h
  have := chunks_size_le hown.inUse
  simp only at this
  omega

theorem Heap.realloc_overflow (cb : Callbacks ε) (h : Heap w (pre ++ ⟨a, s, true⟩ :: post) B)
    (hn : n < 4294967296)
    (hov : requestOverflow n) : ∃ w', krealloc cb w (a + 8) n = some (a + 8, w') := by
  obtain ⟨t, -, hat, -⟩ := h.tiled.split
  have hs16 : 16 ≤ s := hat.min
  have hs8 : s % 8 = 0 := hat.align
  have hn0 : n ≠ 0 := by
    rw [requestOverflow_iff hn] at hov
    omega
  have hc := request2Size_of_overflow hn hov
  rw [krealloc_eq cb h.toHeapAt hn0]
  generalize request2Size n = c at *
  by_cases heq : c = s
  · exact ⟨w, if_pos heq⟩
  · rw [if_neg heq, if_pos (by omega), reallocLess]
    split
    · exact ⟨w, rfl⟩
    · obtain ⟨w', hres⟩ := h.merge_returns (c := c) cb (by omega)
      exact ⟨w', by rw [hres]; rfl⟩

theorem Heap.owned (h : Heap w (chunks w) (binned w)) (hp : (a, s) ∈ pairs true (chunks w)) :
    Owned w a s := by
  have hmem := mem_pairs.mp hp
  obtain ⟨hlo, hhi, -⟩ := h.toHeapAt.mem hmem
  have htop := h.top.fits
  refine ⟨hmem, hlo, hhi, by omega, fun f hf => ?_⟩
  have hfree : f ∈ pairs false (chunks w) := h.free.mem_iff.mpr hf
  rcases h.tiled.apart (mem_pairs.mp hfree) hmem with he | hap
  · simp at he
  · exact hap

theorem Reallocated.honoured (h : Reallocated cb heapEnd w st.live p n r) (hr : r.1 ≠ 0) :
    Honoured r.2 r.1 n := by
  have hlive := h.live
  rw [if_neg hr] at hlive
  obtain ⟨q, hq, he⟩ := hlive.block List.mem_cons_self
  obtain ⟨hpay, husable⟩ := hlive.heap.toHeapAt.payload hq
  have hsize := h.size hr
  have hmin := (hlive.heap.toHeapAt.mem (mem_pairs.mp hq)).2.2.1
  simp only at he husable hmin
  rw [he, husable] at hsize
  refine ⟨q.2, ?_, by omega⟩
  rw [he, hpay]
  exact hlive.heap.owned hq

/-- In every state reached `krealloc` of a block returns. A size that does not
overflow is honoured, as far as the bins and the top can take the call, and one
that does never is. -/
theorem RequestRun.honours (h : RequestRun cb heapEnd st) (hp : p ∈ st.live) (hn : 0 < n)
    (hlt : n < 4294967296) :
    (¬requestOverflow n → ReallocOk st.world p n →
      ∃ r, krealloc cb st.world p n = some r ∧ (r.1 ≠ 0 → Honoured r.2 r.1 n)) ∧
    (requestOverflow n → ∃ r, krealloc cb st.world p n = some r ∧ r.1 ≠ 0 ∧
    ¬Honoured r.2 r.1 n) := by
  have hlive := h.liveHeap
  refine ⟨fun hov hok => ?_, fun hov => ?_⟩
  · obtain ⟨r, hres, hr⟩ := hlive.realloc hp hn hlt hov hok
    exact ⟨r, hres, hr.honoured⟩
  · obtain ⟨pre, a, s, post, rfl, -, hcs⟩ := hlive.split hp
    have hheap := hlive.heap
    rw [hcs] at hheap
    obtain ⟨w', hres⟩ := hheap.realloc_overflow cb hlt hov
    exact ⟨_, hres, Nat.succ_ne_zero _, not_honoured hlt hov⟩

theorem oneBlock_requestRun : RequestRun refuse id oneBlock :=
  (SmallRun.of_reach oneBlock_reached).okRun.requestRun

theorem honours_oneBlock :
    (∃ r, krealloc refuse oneBlock.world 4104 1000 = some r ∧ r.1 = 4104 ∧ Honoured r.2 r.1 1000) ∧
      ∃ r, krealloc refuse oneBlock.world 4104 0xFFFFFFF8 = some r ∧
        ¬Honoured r.2 r.1 0xFFFFFFF8 := by
  have hmem : 4104 ∈ oneBlock.live := List.mem_of_elem_eq_true (by decide +kernel)
  obtain ⟨r, hres, hr⟩ :=
    (oneBlock_requestRun.honours hmem (n := 1000) (by decide) (by decide)).1 (by decide)
    ((SmallRun.of_reach oneBlock_reached).smallHeap.reallocOk (by decide) oneBlock_alone
      (.inl (by decide)))
  obtain ⟨r', hres', -, hr'⟩ :=
    (oneBlock_requestRun.honours hmem (n := 0xFFFFFFF8) (by decide) (by decide)).2 (by decide)
  have hq : (krealloc refuse oneBlock.world 4104 1000).map (·.1) = some 4104 := by decide +kernel
  rw [hres, Option.map_some, Option.some.injEq] at hq
  exact ⟨⟨r, hres, hq, hr (hq ▸ by decide)⟩, r', hres', hr'⟩

/-- A block that should grow to nearly all of memory is freed and handed back. -/
theorem honoured_freed :
    ¬∀ s, RequestRun refuse id s → ∀ p ∈ s.live, ∀ n, 0 < n → n < 4294967296 →
      ∀ r, krealloc refuse s.world p n = some r → r.1 ≠ 0 → Honoured r.2 r.1 n := by
  intro hall
  have hres : ((krealloc refuse oneBlock.world 4104 0xFFFFFFF8).map fun r => (r.1, chunks r.2)) =
    some (4104, []) := by
    decide +kernel
  obtain ⟨⟨q, w'⟩, hr, heq⟩ := Option.map_eq_some_iff.mp hres
  obtain ⟨rfl, hnone⟩ : q = 4104 ∧ chunks w' = [] := by simpa using heq
  obtain ⟨size, hown, -⟩ :=
    hall _ oneBlock_requestRun 4104 (List.mem_of_elem_eq_true (by decide +kernel)) 0xFFFFFFF8
    (by decide) (by decide) _ hr (Nat.succ_ne_zero _)
  have hmem := hown.inUse
  rw [hnone] at hmem
  cases hmem

end

end ElcoOs.Kmalloc
