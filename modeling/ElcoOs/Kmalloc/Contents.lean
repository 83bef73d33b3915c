import ElcoOs.Kmalloc.Grow
import ElcoOs.Kmalloc.Move

/-!
# What `krealloc` keeps

Kept, made smaller, grown in place or moved, the block has the bytes it had, as
many as both sizes allow, and the others are left alone. Where there is no other
block nothing changes.
-/

namespace ElcoOs.Kmalloc

open Word32

variable {ε : Type}

/-- The bins can take what `krealloc` does. -/
def ReallocOk (w : World ε) (p n : Nat) : Prop :=
  ∀ pre s post, chunks w = pre ++ ⟨payloadChunk p, s, true⟩ :: post →
    let c := request2Size n
    (c < s → MergeOk w.kmstate (payloadChunk p + c) (s - c) post (binned w)) ∧
      (s < c → ExpandOk w s c post (binned w)) ∧
      (s + room w.kmstate post < c →
        ReqOk w.kmstate (binned w) c ∧ Accepts (binned w) w.kmstate.dVictimSize ∧
        GiveBackOk w.kmstate pre s post)

/-- The block of `p` is at `r.1` now with its bytes, and the others are as they were;
or there is no room and the block is as it was. -/
structure Reallocated (cb : Callbacks ε) (heapEnd : ε → Nat) (w : World ε) (out : List Nat)
    (p n : Nat) (r : Nat × World ε) :
    Prop where
  live : LiveHeap cb heapEnd ⟨r.2, if r.1 = 0 then out else r.1 :: out.erase p⟩
  others : ∀ q ∈ out, q ≠ p → Undisturbed w r.2 q
  size : r.1 ≠ 0 → n ≤ usable r.2 r.1
  bytes : r.1 ≠ 0 → ∀ i, i < usable w p → i < n → r.2.mem (r.1 + i) = w.mem (p + i)
  freed : r.1 ≠ 0 → r.1 ≠ p → ∀ q ∈ pairs true (chunks r.2),
    Apart q (payloadChunk p, getChunkSize w.mem (payloadChunk p))
  null : r.1 = 0 → Undisturbed w r.2 p ∧ header r.2.mem (payloadChunk p) =
    header w.mem (payloadChunk p)

def OverBin (w : World ε) (p n : Nat) : Prop :=
  ∃ pre s d post, chunks w = pre ++ ⟨payloadChunk p, s, true⟩ :: d :: post ∧ d.used = false ∧
    w.kmstate.dVictim ≠ d.addr ∧ s < request2Size n ∧ request2Size n ≤ s + d.size

section
variable {heapEnd : ε → Nat} {P : Prop} {w w' : World ε} {cs pre post : List Chunk}
  {B : List (Nat × Nat)}
  {U : List (Nat × Nat)} {a c n p s : Nat} {cb : Callbacks ε} {st : Clients ε} {r : Nat × World ε}

-- ---------------------------------------------------------------------------
-- The outcomes
-- ---------------------------------------------------------------------------

theorem LiveHeap.other (h : LiveHeap cb heapEnd st)
    (hcs : chunks st.world = pre ++ ⟨a, s, true⟩ :: post) {q : Nat}
    (hq : q ∈ st.live) (hne : q ≠ a + 8) : ∃ i ∈ pairs true (pre ++ post), q = i.1 + 8 := by
  obtain ⟨i, hi, rfl⟩ := h.block hq
  rw [hcs] at hi
  simp only [pairs_append, pairs_same, List.mem_append, List.mem_cons] at hi ⊢
  rcases hi with hi | rfl | hi
  · exact ⟨i, .inl hi, rfl⟩
  · exact absurd rfl hne
  · exact ⟨i, .inr hi, rfl⟩

theorem Reallocated.in_place (h : LiveHeap cb heapEnd st)
    (hcs : chunks st.world = pre ++ ⟨a, s, true⟩ :: post)
    (hheap : Heap w' cs B) (hused : pairs true cs = pairs true (pre ++ ⟨a, c, true⟩ :: post))
    (hsize : n + 4 ≤ c)
    (hkept : Kept heapEnd P U st.world w') (hU : ∀ q ∈ pairs true (pre ++ post), q ∈ U)
    (hown : ∀ i, i < s - 4 → i < n → w'.mem (a + 8 + i) = st.world.mem (a + 8 + i)) :
    Reallocated cb heapEnd st.world st.live (a + 8) n (a + 8, w') := by
  have hat := h.heap.toHeapAt
  have hold : (a, s) ∈ pairs true (chunks st.world) := by
    rw [hcs]
    simp
  have hnew : (a, c) ∈ pairs true cs := by
    rw [hused]
    simp
  have hmem : a + 8 ∈ st.live := h.live.mem_iff.mpr (List.mem_map.mpr ⟨_, hold, rfl⟩)
  have husable : usable st.world (a + 8) = s - 4 := (hat.payload hold).2
  refine ⟨?_, fun q hq hne => ?_, fun _ => ?_, fun _ i hi hin => hown i (by omega) hin,
    fun _ hne => absurd rfl hne,
    fun h0 => absurd h0 (Nat.succ_ne_zero _)⟩
  · rw [if_neg (Nat.succ_ne_zero _)]
    refine .of_heap hheap (h.env.next hkept)
      ((List.perm_cons_erase hmem).symm.trans (h.live.trans ?_))
    rw [hused, hcs]
    simp
  · obtain ⟨i, hi, rfl⟩ := h.other hcs hq hne
    refine hat.undisturbed hheap.toHeapAt hkept.quiet (hU i hi) ?_ ?_
    · rw [hcs]
      simp only [pairs_append, pairs_same, List.mem_append, List.mem_cons] at hi ⊢
      exact hi.imp_right .inr
    · rw [hused]
      simp only [pairs_append, pairs_same, List.mem_append, List.mem_cons] at hi ⊢
      exact hi.imp_right .inr
  · rw [(hheap.toHeapAt.payload hnew).2]
    simp only
    omega

theorem Reallocated.elsewhere (h : LiveHeap cb heapEnd st)
    (hcs : chunks st.world = pre ++ ⟨a, s, true⟩ :: post)
    (hsize : n + 4 ≤ c) (hr : Moved heapEnd P st.world pre a s c post r) :
    Reallocated cb heapEnd st.world st.live (a + 8) n r := by
  obtain ⟨hkept, -, cs', B', a', s', hp, hap, hsize', hheap, hused, hbytes⟩ := hr
  obtain ⟨p, w'⟩ := r
  simp only at hp hkept hheap hbytes
  subst hp
  have hat := h.heap.toHeapAt
  have hold : (a, s) ∈ pairs true (chunks st.world) := by
    rw [hcs]
    simp
  have hnew : (a', s') ∈ pairs true cs' := hused.mem_iff.mpr List.mem_cons_self
  have husable : usable st.world (a + 8) = s - 4 := (hat.payload hold).2
  have hpay : payloadChunk (a + 8) = a := (hat.payload hold).1
  have hrest : (st.live.erase (a + 8)).Perm ((pairs true (pre ++ post)).map (·.1 + 8)) := by
    have hl : st.live.Perm ((a + 8) :: (pairs true (pre ++ post)).map (·.1 + 8)) := by
      refine h.live.trans ?_
      rw [hcs]
      simp
    simpa using hl.erase (a + 8)
  refine ⟨?_, fun q hq hne => ?_, fun _ => ?_, fun _ i hi _ => hbytes i (by omega),
    fun _ _ q hq => ?_,
    fun h0 => absurd h0 (Nat.succ_ne_zero _)⟩
  · rw [if_neg (Nat.succ_ne_zero _)]
    have hout :
      ((pairs true cs').map (·.1 + 8)).Perm ((a' + 8) ::
        (pairs true (pre ++ post)).map (·.1 + 8)) := hused.map _
    exact .of_heap hheap (h.env.next hkept) ((hrest.cons (a' + 8)).trans hout.symm)
  · obtain ⟨i, hi, rfl⟩ := h.other hcs hq hne
    refine hat.undisturbed hheap.toHeapAt hkept.quiet hi ?_
      (hused.mem_iff.mpr (List.mem_cons_of_mem _ hi))
    rw [hcs]
    simp only [pairs_append, pairs_same, List.mem_append, List.mem_cons] at hi ⊢
    exact hi.imp_right .inr
  · rw [(hheap.toHeapAt.payload hnew).2]
    simp only
    omega
  · rw [hpay, hat.size_at hcs]
    rw [hheap.toHeapAt.chunks_eq] at hq
    rcases List.mem_cons.mp (hused.mem_iff.mp hq) with rfl | hq
    · exact hap
    · -- it was in use next to the block before
      have hx := hat.pairs_extents true
      rw [hcs] at hx
      have hx : Extents ((a, s) :: pairs true (pre ++ post)) := hx.perm (by simp)
      exact (hx.apart _ List.mem_cons_self q (List.mem_cons_of_mem _ hq) fun he =>
        (List.nodup_cons.mp hx.nodup).1 (he ▸ hq)).symm

theorem Reallocated.nowhere (h : LiveHeap cb heapEnd st) (hp : p ∈ st.live)
    (hr : NotServed heapEnd P st.world (chunks st.world) (binned st.world) c r) :
    Reallocated cb heapEnd st.world st.live p n r := by
  obtain ⟨q, w'⟩ := r
  obtain ⟨rfl, hkept, -, hrefused, hheap⟩ := hr
  simp only at hkept hrefused hheap
  have hat := h.heap.toHeapAt
  have hkeep : ∀ q ∈ st.live, Undisturbed st.world w' q := fun q hq => by
    obtain ⟨i, hi, rfl⟩ := h.block hq
    exact hat.undisturbed hheap.toHeapAt hkept.quiet hi hi hi
  refine ⟨?_, fun q hq _ => hkeep q hq, fun h0 => absurd rfl h0, fun h0 => absurd rfl h0,
    fun h0 => absurd rfl h0,
    fun _ => ⟨hkeep p hp, ?_⟩⟩
  · rw [if_pos rfl]
    exact .of_heap hheap (h.env.next hkept) h.live
  · obtain ⟨i, hi, rfl⟩ := h.block hp
    have hmem := hat.mem (mem_pairs.mp hi)
    have hfits := hat.top.fits
    rw [(hat.payload hi).1]
    simp only at hmem
    exact Memory.load32_congr fun x _ _ => hrefused.mem x (by omega) (by omega)

-- ---------------------------------------------------------------------------
-- `krealloc` between calls
-- ---------------------------------------------------------------------------

theorem reallocMore_elsewhere (hres : tryExpandChunk w a c = some (false, w)) :
    reallocMore cb w a s c = moveBlock cb w a s c := by
  rw [reallocMore, hres]
  rfl

theorem LiveHeap.realloc (h : LiveHeap cb heapEnd st) (hp : p ∈ st.live) (hn : 0 < n)
    (hlt : n < 4294967296) (hov : ¬requestOverflow n) (hok : ReallocOk st.world p n) :
    ∃ r, krealloc cb st.world p n = some r ∧ Reallocated cb heapEnd st.world st.live p n r := by
  obtain ⟨hc8, hc16, hroom, -, hc⟩ := request2Size_spec hlt hov
  have hmem := hp
  obtain ⟨pre, a, s, post, rfl, hpay, hcs⟩ := h.split hp
  obtain ⟨hmerge, hexpand, hmove⟩ := hok pre s post (by rw [hpay]; exact hcs)
  rw [hpay] at hmerge
  have hheap := h.heap
  rw [hcs] at hheap
  rw [krealloc_eq cb hheap.toHeapAt (Nat.ne_of_gt hn)]
  generalize request2Size n = c at *
  have hafter : ∀ q ∈ pairs true (pre ++ post), q ∈ pairs true (pre ++ [⟨a, c, true⟩] ++ post) :=
    fun q hq => by
    simp only [List.append_assoc, List.singleton_append, pairs_append, pairs_same, List.mem_append,
      List.mem_cons] at hq ⊢
    exact hq.imp_right .inr
  have hkeep : n + 4 ≤ s → Reallocated cb heapEnd st.world st.live (a + 8) n (a + 8, st.world) :=
    fun hns =>
    .in_place h hcs hheap rfl hns (.refl heapEnd True _ _) (fun q hq => hq) fun _ _ _ => rfl
  rcases Nat.lt_trichotomy c s with hless | rfl | hmore
  · rw [if_neg (by omega), if_pos hless]
    by_cases hu : s - c < 16 ∧ UsedNext post
    · exact ⟨_, reallocLess_kept cb hheap.toHeapAt hu.1 hu.2, hkeep (by omega)⟩
    · obtain ⟨w', hres, hmerged⟩ :=
        reallocLess_cut (P := True) hheap h.env hc16 hc8 hless hu (.inl (hmerge hless))
      obtain ⟨cs', B', hheap', hused, -⟩ := hmerged.heap
      refine ⟨_, hres,
        .in_place h hcs hheap' (by simpa using hused) hroom hmerged.kept hafter fun i _ hi => ?_⟩
      exact hmerged.kept.quiet (a, c) (by simp) _ (by simp only; omega) (by simp only; omega)
  · exact ⟨_, if_pos rfl, hkeep hroom⟩
  · rw [if_neg (by omega), if_neg (by omega)]
    rcases tryExpandChunk_spec (P := True) hheap hmore hc hc8 fun _ => hexpand hmore with
      ⟨hfull, hno⟩ | ⟨hfit, w', hres, hexp⟩
    · rw [reallocMore_elsewhere hno]
      obtain ⟨hreq, hacc, hback⟩ := hmove hfull
      obtain ⟨r, hres, hr | hr⟩ := moveBlock_spec hheap h.env hmore hc8 hc hreq hacc hback
      · exact ⟨r, hres, .elsewhere h hcs (by omega) hr⟩
      · exact ⟨r, hres, .nowhere h hmem (hcs ▸ hr)⟩
    · obtain ⟨cs', B', hheap', hused, -⟩ := hexp.heap
      refine ⟨(a + 8, w'),
        by rw [reallocMore,
          hres]; rfl, .in_place h hcs hheap' hused ?_ hexp.kept ?_ fun i hi _ => ?_⟩
      · rw [grown]
        split <;> omega
      · intro q hq
        simp only [pairs_append, pairs_same, List.mem_append, List.mem_cons] at hq ⊢
        exact hq.imp_right .inr
      · exact hexp.kept.quiet (a, s) (by simp) _ (by simp only; omega) (by simp only; omega)

-- ---------------------------------------------------------------------------
-- In a heap below the bound
-- ---------------------------------------------------------------------------

theorem freeBefore_le (cs : List Chunk) : freeBefore cs ≤ (cs.map Chunk.size).sum := by
  rcases List.eq_nil_or_concat cs with rfl | ⟨cs, d, rfl⟩
  · exact Nat.zero_le _
  · obtain ⟨da, ds, du⟩ := d
    cases du <;> simp [freeBefore]

theorem freeAfter_le (cs : List Chunk) : freeAfter cs ≤ (cs.map Chunk.size).sum := by
  cases cs with
  | nil => exact Nat.zero_le _
  | cons d rest =>
    obtain ⟨da, ds, du⟩ := d
    cases du <;> simp [freeAfter]

theorem room_le (k : KmallocState) (cs : List Chunk) :
    room k cs ≤ (cs.map Chunk.size).sum + k.topChunkSize := by
  cases cs with
  | nil => simp [room]
  | cons d rest =>
    rw [room, List.map_cons, List.sum_cons]
    split <;> omega

theorem Heap.around_lt (h : Heap w (pre ++ ⟨a, s, true⟩ :: post) B)
    (hsmall : w.kmstate.heapSize < 0xC00000) :
    (pre.map Chunk.size).sum + s + (post.map Chunk.size).sum + w.kmstate.topChunkSize <
    0xC00000 := by
  have hsum := h.tiled.sum_sizes
  have hfits := h.top.fits
  simp only [List.map_append, List.map_cons, List.sum_append, List.sum_cons] at hsum
  omega

theorem SmallHeap.reallocOk (h : SmallHeap cb heapEnd st) (hn : n < 0xC00000)
    (hbin : ¬OverBin st.world p n)
    (hok : request2Size n < 0xC00000 ∨ st.world.kmstate.tbinmap = 0) : ReallocOk st.world p n := by
  intro pre s post hcs
  have hheap := h.heap
  rw [hcs] at hheap
  have hlt := hheap.around_lt h.heapSize
  refine ⟨fun hless => .of_small h.heapSize (by omega), fun hmore => ?_, fun _ => ?_⟩
  · cases post with
    | nil => trivial
    | cons d rest =>
      intro hu hdv hcut
      exact absurd ⟨pre, s, d, rest, hcs, hu, hdv, hmore, by omega⟩ hbin
  · have hov : ¬requestOverflow n := by
      rw [requestOverflow_iff (by omega)]
      omega
    obtain ⟨hreq, hacc⟩ := (h.heap.mallocOk h.heapSize hn hok).resolve_left hov
    have hbefore := freeBefore_le pre
    have hafter := freeAfter_le post
    have hsize := h.heapSize
    exact ⟨hreq, hacc, by omega, fun _ => by omega⟩

/-- In every state reached `krealloc` keeps the bytes for just those requests that
stay below the bound or come when no tree bin is in use. -/
theorem contents_kept_iff (h : Reach (SmallInitial cb heapEnd) (Clients.call cb) SmallStep st)
    (hp : p ∈ st.live) (hn : 0 < n) (hlt : n < 0xC00000) (hbin : ¬OverBin st.world p n) :
    (∃ r, krealloc cb st.world p n = some r ∧ Reallocated cb heapEnd st.world st.live p n r) ↔
      request2Size n < 0xC00000 ∨ st.world.kmstate.tbinmap = 0 := by
  have hs := (SmallRun.of_reach h).smallHeap
  have hov : ¬requestOverflow n := by
    rw [requestOverflow_iff (by omega)]
    omega
  refine ⟨fun ⟨r, hr, _⟩ => ?_,
    fun hok => hs.realloc hp hn (by omega) hov (hs.reallocOk hlt hbin hok)⟩
  by_contra hno
  simp only [not_or, Nat.not_lt] at hno
  obtain ⟨hc8, -, -, -, hc⟩ := request2Size_spec (by omega) hov
  obtain ⟨pre, a, s, post, rfl, -, hcs⟩ := hs.split hp
  have hheap := hs.heap
  rw [hcs] at hheap
  have hbelow := hheap.around_lt hs.heapSize
  have hroom := room_le st.world.kmstate post
  rw [krealloc_eq cb hheap.toHeapAt (Nat.ne_of_gt hn), if_neg (by omega), if_neg (by omega)] at hr
  have hfull : tryExpandChunk st.world a (request2Size n) = some (false, st.world) :=
    (tryExpandChunk_eq hheap.toHeapAt (by omega) hc).trans (if_neg (by omega))
  rw [reallocMore_elsewhere hfull, moveBlock, hs.heap.none_past hs.heapSize hno.1 hno.2] at hr
  cases hr

theorem oneBlock_alone : ¬OverBin oneBlock.world 4104 n := by
  rintro ⟨pre, s, d, post, hcs, -⟩
  have hone : chunks oneBlock.world = [⟨4096, 304, true⟩] := by decide +kernel
  have hlen := congrArg List.length (hone.symm.trans hcs)
  simp only [List.length_append, List.length_cons, List.length_nil] at hlen
  omega

theorem contents_kept_iff_oneBlock :
    ∃ r, krealloc refuse oneBlock.world 4104 1000 = some r ∧
      Reallocated refuse id oneBlock.world oneBlock.live 4104 1000 r :=
  (contents_kept_iff oneBlock_reached (List.mem_of_elem_eq_true (by decide +kernel))
    (by decide) (by decide)
    oneBlock_alone).mpr (.inl (by decide))

/-- Rounded up to the bound, a size has no result while a tree bin is in use. -/
theorem contents_kept_past_last_bin :
    ¬∀ s, FixedRun s → ∀ p ∈ s.live, ∀ n, 0 < n → n < 0xC00000 → ¬OverBin s.world p n →
      ∃ r, krealloc refuse s.world p n = some r ∧ Reallocated refuse id s.world s.live p n r := by
  intro hall
  have hnone : krealloc refuse victimAndTree.world 4728 0xBFFFF5 = none :=
    Option.isNone_iff_eq_none.mp (by decide +kernel)
  have hp : 4728 ∈ victimAndTree.live := List.mem_of_elem_eq_true (by decide +kernel)
  have hover : ¬OverBin victimAndTree.world 4728 0xBFFFF5 := by
    rintro ⟨pre, s, d, post, hcs, -⟩
    have hwalk : (chunks victimAndTree.world).map Chunk.addr = [4096, 4160, 4400, 4416, 4720] := by
      decide +kernel
    have haddr : payloadChunk 4728 = 4720 := by decide
    rw [hcs] at hwalk
    rcases pre with _ | ⟨c₁, _ | ⟨c₂, _ | ⟨c₃, _ | ⟨c₄, _ | ⟨c₅, pre⟩⟩⟩⟩⟩ <;> simp [haddr] at hwalk
  obtain ⟨r, hr, -⟩ := hall _ victimAndTree_reached 4728 hp 0xBFFFF5 (by decide) (by decide) hover
  cases hnone.symm.trans hr

end

end ElcoOs.Kmalloc
