import ElcoOs.Kmalloc.Free
import ElcoOs.Lib.Reach

/-!
# Histories of calls

Clients call `kmalloc`, `kfree` and `krealloc` and write into the blocks they
hold. `LiveHeap` is what holds between calls: the heap, the callback in step
with it, and the blocks that are out are the chunks in use.
-/

namespace ElcoOs.Kmalloc

open Word32 RingTree

variable {ε : Type}

-- ---------------------------------------------------------------------------
-- Initialisation
-- ---------------------------------------------------------------------------

/-- An area that `kmalloc_init` accepts, 8-aligned at both ends and below the end
of the address space. -/
structure HeapArea (a n : Nat) : Prop where
  pos : a ≠ 0
  align : a % 8 = 0
  size : n % 8 = 0
  accepted : 24 ≤ n
  fits : a + n < 4294967296

theorem emptyBins (m : Memory) : Bins ⟨0, 0, fun _ => 0, fun _ => 0⟩ m [] := by
  refine ⟨by simp, by simp, fun i _ => ⟨[], ⟨rfl, List.nodup_nil, trivial⟩, List.Perm.refl _⟩,
    fun i _ => ⟨.leaf, rfl, ?_, List.Perm.refl _⟩, ?_, ?_, ?_, ?_⟩
  · cases tbinDepth i <;> trivial
  · exact Nat.two_pow_pos 32
  · intro i _
    simp
  · exact Nat.two_pow_pos 32
  · intro i _
    simp

theorem kmallocInit_spec {w : World ε} {a n : Nat} (h : HeapArea a n) :
    Heap (kmallocInit w a n) [] [] ∧ (kmallocInit w a n).env = w.env ∧
    (kmallocInit w a n).trace = w.trace ∧
      (kmallocInit w a n).kmstate =
        { heapStart := a, heapSize := n, initialHeapSize := n, sbinmap := 0, tbinmap :=
        0, sbin := fun _ => 0,
          tbin := fun _ => 0, dVictim := 0, dVictimSize := 0, topChunk := a, topChunkSize := n - 8,
          magic := kmallocStateMagic } := by
  obtain ⟨hpos, halign, hsize, hacc, hfits⟩ := h
  have h1 : chunkAlign a = a := by
    rw [chunkAlign, add_of_lt (by omega), and_not32_seven (by omega)]
    omega
  have h2 : sub a a = 0 := by rw [sub_of_le (Nat.le_refl a) (by omega), Nat.sub_self]
  have h3 : sub n 0 = n := sub_of_le (Nat.zero_le n) (by omega)
  have h4 : sub n dummySize = n - 8 := sub_of_le (show 8 ≤ n by omega) (by omega)
  have h5 : chunkFloor (n - 8) = n - 8 := by
    rw [chunkFloor, and_not32_seven (by omega)]
    omega
  have h6 : ¬add (add 0 minChunkSize) dummySize > n := by
    have : add (add 0 minChunkSize) dummySize = 24 := rfl
    omega
  generalize hs : n - 8 = s at h4 h5
  have hor : s ||| pinuse = s + 1 := size_or_pinuse (by omega)
  generalize hm : setNext (setPrev (setHeader w.mem a (s + 1)) a a) a a = m
  have hhdr : header m a = s + flags false true := by
    rw [← hm, header, setNext, setPrev, setHeader, Memory.load32_store32_apart (by omega),
      Memory.load32_store32_apart (by omega), Memory.load32_store32_same (by omega)]
    rfl
  have hnext : nextChunk m a = a + s := by
    rw [nextChunk, getChunkSize_of_header hhdr (by omega), add_of_lt (by omega)]
  have hhdr' : header (setPrevFoot m (a + s) s) a = s + flags false true := by
    rw [header, setPrevFoot, Memory.load32_store32_apart (by omega)]
    exact hhdr
  have hnext' : nextChunk (setPrevFoot m (a + s) s) a = a + s := by
    rw [nextChunk, getChunkSize_of_header hhdr' (by omega), add_of_lt (by omega)]
  have hcode : kmallocInit w a n = { w with
      mem := setHeader (setPrevFoot m (a + s) s) (a + s) 0
      kmstate :=
        { heapStart := a, heapSize := n, initialHeapSize := n, sbinmap := 0, tbinmap :=
        0, sbin := fun _ => 0,
          tbin := fun _ => 0, dVictim := 0, dVictimSize := 0, topChunk := a, topChunkSize := s,
          magic := kmallocStateMagic } } := by
    rw [kmallocInit, if_neg hpos]
    simp only [h1, h2, h3, h4, h5, if_neg h6, hor, hm, hnext, hnext']
  generalize hm' : setHeader (setPrevFoot m (a + s) s) (a + s) 0 = m' at hcode
  have htop : TopAt m' a s (a + n) := by
    rw [← hm']
    refine ⟨by omega, by omega, fun _ => ?_, fun _ => ?_, Memory.load32_store32_same (by decide)⟩
    · exact (Memory.load32_store32_apart (by omega)).trans hhdr'
    · exact (Memory.load32_store32_apart (by omega)).trans (Memory.load32_store32_same (by omega))
  rw [hcode]
  exact ⟨⟨⟨⟨⟨hpos, rfl⟩, halign, hfits, hsize, Nat.le_refl n⟩, ⟨rfl, rfl⟩, htop, emptyBins _,
    ⟨by simp, List.nodup_nil, by simp⟩, by
      simp [Covered]⟩, List.Perm.refl _, fun _ => rfl⟩, rfl, rfl, rfl⟩

-- ---------------------------------------------------------------------------
-- What a walk over the heap finds
-- ---------------------------------------------------------------------------

/-- The chunks from the start of the heap up to the top, along `NEXTCHUNK`. -/
def chunks (w : World ε) : List Chunk :=
  walk w.mem w.kmstate.topChunk w.kmstate.heapSize w.kmstate.heapStart

def binned (w : World ε) : List (Nat × Nat) :=
  (pairs false (chunks w)).filter (·.1 ≠ w.kmstate.dVictim)

section
variable {w w' : World ε} {cs : List Chunk} {B : List (Nat × Nat)}

theorem HeapAt.chunks_eq (h : HeapAt w cs B) : chunks w = cs := by
  have hle := h.tiled.le
  have hfits := h.top.fits
  have harena := h.arena.fits
  exact h.tiled.walk (by omega) (by omega)

theorem Heap.binned_perm (h : Heap w cs B) : (binned w).Perm B := by
  rw [binned, h.chunks_eq]
  have hx := h.pairs_extents false
  have hB : ∀ p ∈ B, p ∈ pairs false cs :=
    fun p hp => h.free.mem_iff.mpr (List.mem_append_right _ hp)
  refine (h.free.filter _).trans ?_
  rw [List.filter_append]
  have hv : (victims w.kmstate).filter (·.1 ≠ w.kmstate.dVictim) = [] := by
    rw [victims]
    split <;> simp
  rw [hv, List.nil_append, List.filter_eq_self.mpr]
  intro p hp
  refine decide_eq_true fun he => ?_
  have hdv : w.kmstate.dVictim ≠ 0 := he ▸ (hx.extent p (hB p hp)).pos
  have hvict : victims w.kmstate = [(w.kmstate.dVictim, w.kmstate.dVictimSize)] := if_neg hdv
  have hfree := h.free
  rw [hvict] at hfree
  have heq := hx.eq_of_fst (hB p hp) (hfree.mem_iff.mpr List.mem_cons_self) he
  have hnd := (List.nodup_cons.mp (hfree.nodup_iff.mp hx.nodup)).1
  exact hnd (heq ▸ hp)

/-- A heap is one of the chunks a walk finds, with those that are free and not
the victim binned. -/
theorem Heap.canonical (h : Heap w cs B) : Heap w (chunks w) (binned w) := by
  have hp := h.binned_perm
  rw [h.chunks_eq]
  exact ⟨⟨h.arena, h.tiled, h.top, h.bins.perm hp.symm, h.extents.perm hp.symm,
    h.covered.mono fun p hm => hp.mem_iff.mp hm⟩, h.free.trans (hp.symm.append_left _), h.noVictim⟩

end

-- ---------------------------------------------------------------------------
-- Calls
-- ---------------------------------------------------------------------------

structure Clients (ε : Type) where
  world : World ε
  live : List Nat

inductive Call where
  | kmalloc (size : Nat)
  | kfree (ptr : Nat)
  /-- a client stores a byte -/
  | write (addr : Nat) (value : UInt8)

def Clients.call (cb : Callbacks ε) (s : Clients ε) : Call → Option (Clients ε)
  | .kmalloc size => do
    let r ← kmalloc cb s.world size
    return ⟨r.2, if r.1 = 0 then s.live else r.1 :: s.live⟩
  | .kfree ptr => do
    let w ← kfree cb s.world ptr
    return ⟨w, s.live.erase ptr⟩
  | .write addr value =>
    some ⟨s.world.setMem (Function.update s.world.mem addr value), s.live⟩

/-- The bytes a client may use: from the pointer up to the next chunk's header. -/
def usable (w : World ε) (ptr : Nat) : Nat := chunkPayloadSize w.mem (payloadChunk ptr)

/-- Sizes are those of `size_t`, clients free what they hold and write into it. -/
def Call.Legal (s : Clients ε) : Call → Prop
  | .kmalloc size => size < 4294967296
  | .kfree ptr => ptr ∈ s.live
  | .write addr _ => ∃ ptr ∈ s.live, ptr ≤ addr ∧ addr < ptr + usable s.world ptr

/-- What holds between calls. -/
structure LiveHeap (cb : Callbacks ε) (heapEnd : ε → Nat) (s : Clients ε) : Prop where
  heap : Heap s.world (chunks s.world) (binned s.world)
  env : Env cb heapEnd s.world
  live : s.live.Perm ((pairs true (chunks s.world)).map (·.1 + 8))

/-- The request overflows, or the bins can serve it and take the victim back. -/
def MallocOk (w : World ε) (size : Nat) : Prop :=
  requestOverflow size ∨
    ReqOk w.kmstate (binned w) (request2Size size) ∧ Accepts (binned w) w.kmstate.dVictimSize

/-- The bins take what freeing the chunk of `ptr` makes of it. -/
def KfreeOk (w : World ε) (ptr : Nat) : Prop :=
  ∀ pre s post, chunks w = pre ++ ⟨payloadChunk ptr, s, true⟩ :: post →
    FreeOk w.kmstate pre (payloadChunk ptr) s post (binned w)

/-- As `KfreeOk`, but what joins the top of a heap of pages may be of any size. -/
def KfreePages (w : World ε) (ptr : Nat) : Prop :=
  ∀ pre s post, chunks w = pre ++ ⟨payloadChunk ptr, s, true⟩ :: post →
    FreeOk w.kmstate pre (payloadChunk ptr) s post (binned w) ∨ post = [] ∧ PageHeap w.kmstate

def Call.Ok (s : Clients ε) : Call → Prop
  | .kmalloc size => MallocOk s.world size
  | .kfree ptr => KfreeOk s.world ptr
  | .write _ _ => True

/-- The block at `ptr` has its size and its bytes. -/
structure Undisturbed (w w' : World ε) (ptr : Nat) : Prop where
  size : usable w' ptr = usable w ptr
  bytes : ∀ x, ptr ≤ x → x < ptr + usable w ptr → w'.mem x = w.mem x

structure Blocks (w : World ε) (live : List Nat) : Prop where
  nodup : live.Nodup
  align : ∀ p ∈ live, p % 8 = 0
  inside : ∀ p ∈ live, w.kmstate.heapStart ≤ p ∧
    p + usable w p ≤ w.kmstate.heapStart + w.kmstate.heapSize
  apart : ∀ p ∈ live, ∀ q ∈ live, p ≠ q → p + usable w p ≤ q ∨ q + usable w q ≤ p

section
variable {heapEnd : ε → Nat} {P : Prop} {w w' : World ε} {cs cs' pre post : List Chunk}
  {B B' : List (Nat × Nat)} {a c n p x : Nat} {v : UInt8} {cb : Callbacks ε} {s s' : Clients ε}
  {U : List (Nat × Nat)} {live : List Nat}

theorem HeapAt.payload (h : HeapAt w cs B) {q : Nat × Nat} (hq : q ∈ pairs true cs) :
    payloadChunk (q.1 + 8) = q.1 ∧ usable w (q.1 + 8) = q.2 - 4 := by
  have hmem := h.mem (mem_pairs.mp hq)
  obtain ⟨-, -, t, hat⟩ := h.tiled.mem (mem_pairs.mp hq)
  have hhdr : header w.mem q.1 = q.2 + flags true t := hat.header
  simp only at hmem
  have hp : payloadChunk (q.1 + 8) = q.1 := by
    rw [payloadChunk, sub_of_le (by omega) (by omega)]
    omega
  refine ⟨hp, ?_⟩
  rw [usable, hp, chunkPayloadSize, getChunkSize_of_header hhdr (by omega),
    show chunkOverhead = 4 from rfl,
    sub_of_le (by omega) (by omega)]

theorem LiveHeap.block (h : LiveHeap cb heapEnd s) (hp : p ∈ s.live) :
    ∃ q ∈ pairs true (chunks s.world), p = q.1 + 8 := by
  obtain ⟨q, hq, he⟩ := List.mem_map.mp (h.live.mem_iff.mp hp)
  exact ⟨q, hq, he.symm⟩

theorem LiveHeap.blocks (h : LiveHeap cb heapEnd s) : Blocks s.world s.live := by
  have hat := h.heap.toHeapAt
  have hx := hat.pairs_extents true
  refine ⟨?_, fun p hp => ?_, fun p hp => ?_, fun p hp q hq hne => ?_⟩
  · refine h.live.nodup_iff.mpr (hx.nodup.map_on fun p hp q hq he => ?_)
    exact hx.eq_of_fst hp hq (by omega)
  · obtain ⟨q, hq, rfl⟩ := h.block hp
    have := hat.mem (mem_pairs.mp hq)
    simp only at this
    omega
  · obtain ⟨q, hq, rfl⟩ := h.block hp
    have hmem := hat.mem (mem_pairs.mp hq)
    have hfits := hat.top.fits
    rw [(hat.payload hq).2]
    simp only at hmem
    omega
  · obtain ⟨i, hi, rfl⟩ := h.block hp
    obtain ⟨j, hj, rfl⟩ := h.block hq
    have hap := hx.apart i hi j hj fun he => hne (he ▸ rfl)
    have himin := (hx.extent i hi).min
    have hjmin := (hx.extent j hj).min
    rw [(hat.payload hi).2, (hat.payload hj).2]
    simp only [Apart] at hap
    omega

theorem HeapAt.undisturbed (h : HeapAt w cs B) (h' : HeapAt w' cs' B') (hk : Quiet U w.mem w'.mem)
    {q : Nat × Nat} (hU : q ∈ U) (hq : q ∈ pairs true cs) (hq' : q ∈ pairs true cs') :
    Undisturbed w w' (q.1 + 8) := by
  have hmin := (h.mem (mem_pairs.mp hq)).2.2.1
  simp only at hmin
  refine ⟨(h'.payload hq').2.trans (h.payload hq).2.symm, fun x hlo hhi => hk q hU x hlo ?_⟩
  rw [(h.payload hq).2] at hhi
  omega

-- ---------------------------------------------------------------------------
-- Steps
-- ---------------------------------------------------------------------------

theorem LiveHeap.of_heap (h : Heap w cs B) (hcb : Env cb heapEnd w)
    (hl : live.Perm ((pairs true cs).map (·.1 + 8))) :
    LiveHeap cb heapEnd ⟨w, live⟩ :=
  ⟨h.canonical, hcb, by simpa only [h.chunks_eq] using hl⟩

theorem kmalloc_spec (h : LiveHeap cb heapEnd s) (hn : n < 4294967296) (hok : MallocOk s.world n) :
    ∃ r, kmalloc cb s.world n = some r ∧
      (requestOverflow n ∧ r = (0, s.world) ∨ ¬requestOverflow n ∧
        (Served cb heapEnd (Binned (binned s.world) (request2Size n)) s.world (chunks s.world)
          (binned s.world)
            (request2Size n) r ∨
          NotServed heapEnd (Binned (binned s.world) (request2Size n)) s.world (chunks s.world)
            (binned s.world)
            (request2Size n) r)) := by
  have hinit := h.heap.arena.isInit
  rw [kmalloc, if_neg (not_not_intro hinit)]
  by_cases hov : requestOverflow n
  · exact ⟨_, if_pos hov, .inl ⟨hov, rfl⟩⟩
  · rw [if_neg hov]
    obtain ⟨hreq, hacc⟩ := hok.resolve_left hov
    obtain ⟨h8, h16, -, -, hlt⟩ := request2Size_spec hn hov
    obtain ⟨r, hr, hres⟩ := kmallocIntern_spec h.heap h.env h16 h8 hlt hreq hacc
    exact ⟨r, hr, .inr ⟨hov, hres⟩⟩

theorem LiveHeap.split (h : LiveHeap cb heapEnd s) (hp : p ∈ s.live) :
    ∃ pre a size post, p = a + 8 ∧ payloadChunk p = a ∧
      chunks s.world = pre ++ ⟨a, size, true⟩ :: post := by
  obtain ⟨q, hq, rfl⟩ := h.block hp
  obtain ⟨pre, post, hcs⟩ := List.append_of_mem (mem_pairs.mp hq)
  exact ⟨pre, q.1, q.2, post, rfl, (h.heap.toHeapAt.payload hq).1, hcs⟩

theorem KfreeOk.pages (h : KfreeOk w p) : KfreePages w p := fun pre s post hcs =>
    .inl (h pre s post hcs)

theorem LiveHeap.kfree (h : LiveHeap cb heapEnd s) (hp : p ∈ s.live) (hok : KfreePages s.world p) :
    ∃ w', Kmalloc.kfree cb s.world p = some w' ∧ LiveHeap cb heapEnd ⟨w', s.live.erase p⟩ ∧
      (TopMin s.world.kmstate → TopMin w'.kmstate) ∧ slack w'.kmstate = slack s.world.kmstate ∧
      Traced P s.world w' ∧ ∀ q ∈ s.live.erase p, Undisturbed s.world w' q := by
  obtain ⟨pre, a, size, post, rfl, hpay, hcs⟩ := h.split hp
  have hheap := h.heap
  have hfree := hok pre size post (by rw [hpay]; exact hcs)
  have hlive := h.live
  rw [hpay] at hfree
  rw [hcs] at hheap hlive
  obtain ⟨w', hres, hfreed, htop⟩ := kfree_spec (P := P) hheap h.env hfree
  obtain ⟨cs', B', hheap', huse⟩ := hfreed.heap
  have hperm : (s.live.erase (a + 8)).Perm ((pairs true cs').map (·.1 + 8)) := by
    rw [huse]
    have hl : s.live.Perm ((a + 8) :: (pairs true (pre ++ post)).map (·.1 + 8)) := by
      simpa using hlive.trans (by simp)
    simpa using hl.erase (a + 8)
  refine ⟨w', hres, .of_heap hheap' (h.env.next hfreed.kept) hperm, htop, hfreed.slack,
    hfreed.kept.traced,
    fun q hq => ?_⟩
  obtain ⟨i, hi, rfl⟩ := List.mem_map.mp (hperm.mem_iff.mp hq)
  have hU : i ∈ pairs true (pre ++ post) := huse ▸ hi
  refine hheap.toHeapAt.undisturbed hheap'.toHeapAt hfreed.kept.quiet hU ?_ hi
  simp only [pairs_append, pairs_same, List.mem_append, List.mem_cons] at hU ⊢
  exact hU.imp_right .inr

theorem TopUsed.topMin (h : TopUsed cb w w'.kmstate c) : TopMin w'.kmstate := by
  have hmin : minChunkSize = 16 := rfl
  rw [TopMin, h.size, remainder]
  split <;> omega

theorem LiveHeap.kmalloc (h : LiveHeap cb heapEnd s) (hn : n < 4294967296)
    (hok : MallocOk s.world n) :
    ∃ p w', Kmalloc.kmalloc cb s.world n = some (p, w') ∧
      LiveHeap cb heapEnd ⟨w', if p = 0 then s.live else p :: s.live⟩ ∧
      (TopMin s.world.kmstate → TopMin w'.kmstate) ∧ (p ≠ 0 → n ≤ usable w' p) ∧
      ∀ q ∈ s.live, Undisturbed s.world w' q := by
  have hat := h.heap.toHeapAt
  obtain ⟨⟨p, w'⟩, hres, ⟨-, he⟩ | ⟨hov, hs | hno⟩⟩ := kmalloc_spec h hn hok
  · cases he
    exact ⟨_, _, hres, by simpa using h, id, by simp, fun q _ => ⟨rfl, fun _ _ _ => rfl⟩⟩
  · obtain ⟨-, -, hroom, -⟩ := request2Size_spec hn hov
    obtain ⟨cs', B', a, size, hp, hsize, hheap', hperm⟩ := hs.heap
    have hat' := hheap'.toHeapAt
    have hfresh : (a, size) ∈ pairs true cs' := hperm.mem_iff.mpr List.mem_cons_self
    simp only at hp
    subst hp
    refine ⟨_, w', hres, .of_heap hheap' (h.env.next hs.kept) ?_, ?_, fun _ => ?_, fun q hq => ?_⟩
    · rw [if_neg (by omega)]
      exact ((h.live.cons (a + 8)).trans (by simpa using (hperm.map (·.1 + 8)).symm))
    · intro hmin
      rcases hs.top with hsame | ⟨-, htop⟩
      · exact hsame.topMin hmin
      · exact htop.topMin
    · rw [(hat'.payload hfresh).2]
      simp only
      omega
    · obtain ⟨i, hi, rfl⟩ := h.block hq
      exact hat.undisturbed hat' hs.kept.quiet hi hi (hperm.mem_iff.mpr (List.mem_cons_of_mem _ hi))
  · have hnull : p = 0 := hno.null
    subst hnull
    refine ⟨_, w', hres, .of_heap hno.heap (h.env.next hno.kept) h.live, ?_,
      by simp, fun q hq => ?_⟩
    · rw [TopMin, TopMin, hno.refused.kmstate]
      exact id
    · obtain ⟨i, hi, rfl⟩ := h.block hq
      exact hat.undisturbed hno.heap.toHeapAt hno.kept.quiet hi hi hi

theorem HeapAt.overwrite {m' : Memory} (h : HeapAt w cs B) {q : Nat × Nat} (hq : q ∈ pairs true cs)
    (hm : SameExcept (q.1 + 8) (q.1 + q.2 + 4) w.mem m') : HeapAt (w.setMem m') cs B := by
  obtain ⟨pre, post, rfl⟩ := List.append_of_mem (mem_pairs.mp hq)
  obtain ⟨t, hpre, hat, hpost⟩ := h.tiled.split
  have hle := hpost.le
  have hmin : 16 ≤ q.2 := hat.min
  simp only at hpre hpost hle
  refine ⟨h.arena, ?_, h.top.congr fun y hy _ => hm y (.inr (Nat.le_trans ?_ hy)), ?_,
    h.extents, h.covered⟩
  · refine hpre.splice [⟨q.1, q.2, true⟩] hpost (fun y hy => hm y (by omega)) ⟨rfl,
      ⟨hat.align, hmin, ?_, by simp⟩, rfl, rfl⟩
    exact (Memory.load32_congr fun y _ _ => hm y (by simp only at *; omega)).trans hat.header
  · omega
  · refine h.bins.congr (fun p hp y hylo hyhi => hm y ?_) h.extents.extent
    have hap := h.apart_used (c := ⟨q.1, q.2, true⟩) (by simp) rfl hp
    have := (h.extents.extent p hp).min
    simp only at hap
    omega

theorem LiveHeap.write (h : LiveHeap cb heapEnd s) (hp : p ∈ s.live) (hlo : p ≤ x)
    (hhi : x < p + usable s.world p) :
    LiveHeap cb heapEnd ⟨s.world.setMem (Function.update s.world.mem x v), s.live⟩ := by
  obtain ⟨q, hq, rfl⟩ := h.block hp
  have hat := h.heap.toHeapAt
  have hmin := (hat.mem (mem_pairs.mp hq)).2.2.1
  rw [(hat.payload hq).2] at hhi
  simp only at hmin
  have hm : SameExcept (q.1 + 8) (q.1 + q.2 + 4) s.world.mem (Function.update s.world.mem x v) :=
    fun y hy => Function.update_of_ne (by omega) v s.world.mem
  exact .of_heap ⟨hat.overwrite hq hm, h.heap.free, h.heap.noVictim⟩ ⟨h.env.sbrk,
    h.env.synced⟩ h.live

theorem Clients.call_spec {c : Call} (h : LiveHeap cb heapEnd s) (hl : c.Legal s) (hok : c.Ok s) :
    ∃ s', s.call cb c = some s' ∧ LiveHeap cb heapEnd s' ∧
      (TopMin s.world.kmstate → TopMin s'.world.kmstate) := by
  cases c with
  | kmalloc n =>
    obtain ⟨p, w', hres, hlive, htop, -⟩ := h.kmalloc hl hok
    exact ⟨_, by rw [Clients.call, hres]; rfl, hlive, htop⟩
  | kfree p =>
    obtain ⟨w', hres, hlive, htop, -⟩ := h.kfree (P := True) hl (KfreeOk.pages hok)
    exact ⟨_, by rw [Clients.call, hres]; rfl, hlive, htop⟩
  | write x v =>
    obtain ⟨p, hp, hlo, hhi⟩ := hl
    exact ⟨_, rfl, h.write hp hlo hhi, id⟩

end

end ElcoOs.Kmalloc
