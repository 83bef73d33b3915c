import ElcoOs.Kmalloc.Runs

/-!
# Histories in a heap below 12 MiB

The last tree bin, number 31, takes the chunks from 0xC00000 bytes on. In a
heap below that size no chunk gets there and `kfree` never fails; `kmalloc`
does only when a request just below the bound is rounded up to it while there
are chunks in the tree bins.
-/

namespace ElcoOs.Kmalloc

open Word32

variable {ε : Type}

/-- `kmalloc_init` was called on an area, with a callback that knows its end. -/
inductive Initial (cb : Callbacks ε) (heapEnd : ε → Nat) : Clients ε → Prop where
  | init {w : World ε} {a n : Nat} (area : HeapArea a n) (sbrk : SbrkOk cb heapEnd a (a + n))
      (synced : heapEnd w.env = a + n) : Initial cb heapEnd ⟨kmallocInit w a n, []⟩

def SmallInitial (cb : Callbacks ε) (heapEnd : ε → Nat) (s : Clients ε) : Prop :=
  Initial cb heapEnd s ∧ s.world.kmstate.heapSize < 0xC00000

def Call.Small : Call → Prop
  | .kmalloc size => size < 0xC00000
  | _ => True

structure SmallStep (s : Clients ε) (c : Call) (s' : Clients ε) : Prop where
  legal : c.Legal s
  small : c.Small
  heapSize : s'.world.kmstate.heapSize < 0xC00000

def Call.StaysBelow (s : Clients ε) : Call → Prop
  | .kmalloc size => request2Size size < 0xC00000 ∨ s.world.kmstate.tbinmap = 0
  | _ => True

abbrev SmallRun (cb : Callbacks ε) (heapEnd : ε → Nat) (s : Clients ε) : Prop :=
  Reach (SmallInitial cb heapEnd) (Clients.call cb) (fun s c s' => SmallStep s c s' ∧
  c.StaysBelow s) s

section
variable {heapEnd : ε → Nat} {P : Prop} {w w' : World ε} {cs pre post : List Chunk}
  {B : List (Nat × Nat)} {a b f fs n p size : Nat} {u v : Bool} {m : Memory} {cb : Callbacks ε}
  {s s' : Clients ε} {c : Call}

-- ---------------------------------------------------------------------------
-- Sizes
-- ---------------------------------------------------------------------------

theorem Tiled.sum_sizes (h : Tiled m a u cs b v) : a + (cs.map Chunk.size).sum = b := by
  induction cs generalizing a u with
  | nil => simpa using h.1
  | cons c cs ih =>
    obtain ⟨rfl, -, hrest⟩ := h
    have := ih hrest
    simp only [List.map_cons, List.sum_cons]
    omega

theorem Heap.binned_lt (h : Heap w cs B) (hsmall : w.kmstate.heapSize < 0xC00000) :
    ∀ p ∈ B, p.2 < 0xC00000 := by
  intro p hp
  have := h.below_top hp
  have := h.top.fits
  omega

theorem Heap.victim_lt (h : Heap w cs B) (hsmall : w.kmstate.heapSize < 0xC00000) :
    w.kmstate.dVictimSize < 0xC00000 := by
  by_cases hdv : w.kmstate.dVictim = 0
  · rw [h.noVictim hdv]
    decide
  · have hv : victims w.kmstate = [(w.kmstate.dVictim, w.kmstate.dVictimSize)] := if_neg hdv
    have hfree := h.free
    rw [hv] at hfree
    have hmem := h.toHeapAt.mem (mem_pairs.mp (hfree.mem_iff.mpr List.mem_cons_self))
    have hfits := h.top.fits
    simp only at hmem
    omega

theorem Heap.mallocOk (h : Heap w (chunks w) (binned w)) (hsmall : w.kmstate.heapSize < 0xC00000)
    (hn : n < 0xC00000)
    (hok : request2Size n < 0xC00000 ∨ w.kmstate.tbinmap = 0) : MallocOk w n := by
  refine or_iff_not_imp_left.mpr fun hov => ⟨?_, .inl (h.victim_lt hsmall)⟩
  obtain ⟨-, -, -, hlt, -⟩ := request2Size_spec (by omega) hov
  rcases hok with hok | hmap
  · exact .inl hok
  · refine .inr (.inr ⟨fun p hp hlast => absurd (h.binned_lt hsmall p hp) (by omega),
      .inr (.inr ⟨hmap, .inr ?_⟩)⟩)
    omega

theorem MergeOk.of_small (hsmall : w.kmstate.heapSize < 0xC00000)
    (hsum : fs + (post.map Chunk.size).sum < 0xC00000) : MergeOk w.kmstate f fs post B := by
  cases post with
  | nil =>
    show _ < _
    omega
  | cons n rest =>
    simp only [List.map_cons, List.sum_cons] at hsum
    intro _
    split
    · exact .inl (by omega)
    · exact fun _ => .inl (by omega)

theorem Heap.kfreeOk (h : Heap w (chunks w) (binned w)) (hsmall : w.kmstate.heapSize < 0xC00000) :
    KfreeOk w p := by
  intro pre s post hcs
  have hsum := h.tiled.sum_sizes
  have hfits := h.top.fits
  rw [hcs, List.map_append, List.sum_append, List.map_cons, List.sum_cons] at hsum
  rw [FreeOk]
  split
  · rename_i q qs hlast
    obtain ⟨pre', rfl⟩ := List.getLast?_eq_some_iff.mp hlast
    simp only [List.map_append, List.map_cons, List.map_nil, List.sum_append, List.sum_cons,
      List.sum_nil] at hsum
    exact .of_small hsmall (by omega)
  · exact .of_small hsmall (by simp only at hsum; omega)

-- ---------------------------------------------------------------------------
-- The invariant
-- ---------------------------------------------------------------------------

structure SmallHeap (cb : Callbacks ε) (heapEnd : ε → Nat) (s : Clients ε) :
    Prop extends LiveHeap cb heapEnd s where
  topMin : TopMin s.world.kmstate
  heapSize : s.world.kmstate.heapSize < 0xC00000

theorem Initial.liveHeap (h : Initial cb heapEnd s) :
    LiveHeap cb heapEnd s ∧ TopMin s.world.kmstate ∧ slack s.world.kmstate = 0 := by
  obtain ⟨harea, hsbrk, hsynced⟩ := h
  rename_i w a n
  obtain ⟨hheap, henv, -, hst⟩ := kmallocInit_spec (w := w) harea
  have hacc := harea.accepted
  have hsize := harea.size
  refine ⟨.of_heap hheap ⟨?_, ?_⟩ (List.Perm.refl _), .inr ?_, ?_⟩
  · rw [hst]
    exact hsbrk
  · rw [hst, henv]
    exact hsynced
  · rw [hst]
    simp only
    omega
  · rw [slack, hst]
    simp only
    omega

theorem SmallHeap.ok (h : SmallHeap cb heapEnd s) (hc : c.Small)
    (hb : c.StaysBelow s) : c.Ok s := by
  cases c with
  | kmalloc n => exact h.heap.mallocOk h.heapSize hc hb
  | kfree p => exact h.heap.kfreeOk h.heapSize
  | write x v => trivial

theorem SmallRun.smallHeap (h : SmallRun cb heapEnd s) : SmallHeap cb heapEnd s := by
  refine h.invariant (fun s hs => ?_) fun s c s' hs hnext hmay => ?_
  · obtain ⟨hlive, htop, -⟩ := hs.1.liveHeap
    exact ⟨hlive, htop, hs.2⟩
  · obtain ⟨⟨hlegal, hsmall, hsize⟩, hbelow⟩ := hmay
    obtain ⟨s'', hres, hlive, htop⟩ := Clients.call_spec hs.toLiveHeap hlegal (hs.ok hsmall hbelow)
    cases hres.symm.trans hnext
    exact ⟨hlive, htop hs.topMin, hsize⟩

-- ---------------------------------------------------------------------------
-- A heap that cannot grow
-- ---------------------------------------------------------------------------

/-- The callback that always fails. -/
def refuse : Callbacks Nat := ⟨fun _ e m => (false, e, m), id⟩

/-- A world before `kmalloc_init`. -/
def blank (heapEnd : Nat) : World Nat :=
  ⟨⟨0, 0, 0, 0, 0, fun _ => 0, fun _ => 0, 0, 0, 0, 0, 0⟩, fun _ => 0, heapEnd, []⟩

/-- A heap of `n` bytes at 4096. -/
def setUp (n : Nat) : Clients Nat := ⟨kmallocInit (blank (4096 + n)) 4096 n, []⟩

theorem setUp_initial (hsize : n % 8 = 0) (hacc : 24 ≤ n) (hlt : n < 0xC00000) :
    SmallInitial refuse id (setUp n) := by
  have harea : HeapArea 4096 n := ⟨by decide, by decide, hsize, hacc, by omega⟩
  refine ⟨.init harea ⟨fun _ _ _ _ => ⟨rfl, fun _ _ _ => rfl⟩,
    fun _ _ _ h => Bool.noConfusion h⟩ rfl, ?_⟩
  rw [setUp, (kmallocInit_spec harea).2.2.2]
  exact hlt

def Clients.after (cb : Callbacks ε) (s : Clients ε) (c : Call) : Clients ε := (s.call cb c).getD s

theorem Clients.call_after (h : (s.call cb c).isSome) : s.call cb c = some (s.after cb c) := by
  obtain ⟨s', hs⟩ := Option.isSome_iff_exists.mp h
  rw [Clients.after, hs, Option.getD_some]

/-- The states reached in a heap below the bound that cannot grow. -/
abbrev FixedRun (s : Clients Nat) : Prop := Reach (SmallInitial refuse id)
    (Clients.call refuse) SmallStep s

theorem FixedRun.malloc {s : Clients Nat} (h : FixedRun s) (hn : n < 0xC00000)
    (hres : (s.call refuse (.kmalloc n)).isSome)
    (hsize : (s.after refuse (.kmalloc n)).world.kmstate.heapSize < 0xC00000) :
    FixedRun (s.after refuse (.kmalloc n)) :=
  .step h (Clients.call_after hres) ⟨show n < 4294967296 by omega, hn, hsize⟩

theorem FixedRun.free {s : Clients Nat} (h : FixedRun s) (hp : s.live.elem p = true)
    (hres : (s.call refuse (.kfree p)).isSome)
    (hsize : (s.after refuse (.kfree p)).world.kmstate.heapSize < 0xC00000) :
    FixedRun (s.after refuse (.kfree p)) :=
  .step h (Clients.call_after hres) ⟨List.mem_of_elem_eq_true hp, trivial, hsize⟩

def oneInTree : Clients Nat :=
  (((setUp 4096).after refuse (.kmalloc 300)).after refuse (.kmalloc 8)).after refuse (.kfree 4104)

theorem oneInTree_reached : SmallRun refuse id oneInTree := by
  refine .step (.step (.step (.start (setUp_initial (by decide) (by decide) (by decide)))
    (Clients.call_after (c := .kmalloc 300) (by decide +kernel)) ?_)
    (Clients.call_after (c := .kmalloc 8) (by decide +kernel)) ?_)
    (Clients.call_after (c := .kfree 4104) (by decide +kernel)) ?_
  · exact ⟨⟨show 300 < 4294967296 by decide, show 300 < 0xC00000 by decide, by decide +kernel⟩,
      .inl (by decide)⟩
  · exact ⟨⟨show 8 < 4294967296 by decide, show 8 < 0xC00000 by decide, by decide +kernel⟩,
      .inl (by decide)⟩
  · exact ⟨⟨List.mem_of_elem_eq_true (by decide +kernel), trivial, by decide +kernel⟩, trivial⟩

/-- A request that is rounded up to the bound has no bin behind its own to look
into, and the tree bitmap is not zero. -/
theorem past_last_bin : oneInTree.call refuse (.kmalloc 0xBFFFF5) = none :=
  Option.isNone_iff_eq_none.mp (by decide +kernel)

/-- The first of two blocks of 300 bytes is freed and cut for one of 60, so that its rest is
the victim, and the second one is freed and goes into a tree bin. -/
def victimAndTree : Clients Nat :=
  (((((((setUp 4096).after refuse (.kmalloc 300)).after refuse (.kmalloc 8)).after refuse
    (.kmalloc 300)).after refuse (.kmalloc 8)).after refuse (.kfree 4104)).after refuse
    (.kmalloc 60)).after refuse (.kfree 4424)

theorem victimAndTree_reached : FixedRun victimAndTree := by
  have hstart : FixedRun (setUp 4096) := .start (setUp_initial (by decide) (by decide) (by decide))
  have hfour :=
    ((hstart.malloc (n := 300) (by decide) (by decide +kernel) (by decide +kernel)).malloc
    (n := 8) (by decide) (by decide +kernel) (by decide +kernel)).malloc
    (n := 300) (by decide) (by decide +kernel) (by decide +kernel)
  have hlast := hfour.malloc (n := 8) (by decide) (by decide +kernel) (by decide +kernel)
  have hcut :=
    (hlast.free (p := 4104) (by decide +kernel) (by decide +kernel) (by decide +kernel)).malloc
    (n := 60) (by decide) (by decide +kernel) (by decide +kernel)
  exact hcut.free (p := 4424) (by decide +kernel) (by decide +kernel) (by decide +kernel)

/-- The place behind the last bin is that of the victim, which is no tree chunk. -/
theorem past_last_bin_victim : victimAndTree.call refuse (.kmalloc 0xBFFFF5) = none :=
  Option.isNone_iff_eq_none.mp (by decide +kernel)

/-- The heap is whole in every state reached, and every call returns. -/
theorem SmallRun.heap_whole (h : SmallRun cb heapEnd s) :
    Heap s.world (chunks s.world) (binned s.world) ∧ TopMin s.world.kmstate ∧
      s.live.Perm ((pairs true (chunks s.world)).map (·.1 + 8)) ∧
      ∀ c : Call, c.Legal s → c.Small → c.StaysBelow s → ∃ s', s.call cb c = some s' := by
  have hs := h.smallHeap
  refine ⟨hs.heap, hs.topMin, hs.live, fun c hl hc hb => ?_⟩
  obtain ⟨s', hres, -⟩ := Clients.call_spec hs.toLiveHeap hl (hs.ok hc hb)
  exact ⟨s', hres⟩

theorem heap_whole_oneInTree : Heap oneInTree.world (chunks oneInTree.world)
    (binned oneInTree.world) ∧
    TopMin oneInTree.world.kmstate :=
  ⟨oneInTree_reached.heap_whole.1, oneInTree_reached.heap_whole.2.1⟩

theorem SmallRun.reach (h : SmallRun cb heapEnd s) : Reach (SmallInitial cb heapEnd)
    (Clients.call cb) SmallStep s :=
  h.mono fun _ _ _ hm => hm.1

/-- Not every call returns. -/
theorem heap_whole_past_last_bin :
    ¬∀ s, Reach (SmallInitial refuse id) (Clients.call refuse) SmallStep s →
      (Heap s.world (chunks s.world) (binned s.world) ∧ TopMin s.world.kmstate) ∧
        ∀ c : Call, c.Legal s → c.Small → ∃ s', s.call refuse c = some s' := by
  intro h
  obtain ⟨s', hres⟩ := (h _ victimAndTree_reached).2 (.kmalloc 0xBFFFF5)
    (show 0xBFFFF5 < 4294967296 by decide) (show 0xBFFFF5 < 0xC00000 by decide)
  cases past_last_bin_victim.symm.trans hres

-- ---------------------------------------------------------------------------
-- The blocks
-- ---------------------------------------------------------------------------

/-- Blocks have room, keep apart, and are left alone by the calls about others. -/
theorem SmallRun.blocks_kept (h : SmallRun cb heapEnd s) :
    Blocks s.world s.live ∧
      (∀ n, n < 0xC00000 → (Call.kmalloc n).StaysBelow s →
        ∃ p w', kmalloc cb s.world n = some (p, w') ∧
          (p ≠ 0 → n ≤ usable w' p ∧ Blocks w' (p :: s.live)) ∧ ∀ q ∈ s.live,
          Undisturbed s.world w' q) ∧
      ∀ p ∈ s.live, ∃ w', kfree cb s.world p = some w' ∧ ∀ q ∈ s.live, q ≠ p →
        Undisturbed s.world w' q := by
  have hs := h.smallHeap
  have hblocks := hs.toLiveHeap.blocks
  refine ⟨hblocks, fun n hn hb => ?_, fun p hp => ?_⟩
  · obtain ⟨p, w', hres, hlive, -, hroom, hkept⟩ :=
      hs.kmalloc (show n < 4294967296 by omega) (hs.ok (c := .kmalloc n) hn hb)
    refine ⟨p, w', hres, fun hp => ⟨hroom hp, ?_⟩, hkept⟩
    rw [if_neg hp] at hlive
    exact hlive.blocks
  · obtain ⟨w', hres, -, -, -, -, hkept⟩ :=
      hs.kfree (P := True) hp (KfreeOk.pages (hs.ok (c := .kfree p) trivial trivial))
    exact ⟨w', hres, fun q hq hne => hkept q ((List.mem_erase_of_ne hne).mpr hq)⟩

theorem blocks_kept_oneInTree : Blocks oneInTree.world oneInTree.live :=
  oneInTree_reached.blocks_kept.1

/-- There is no state after the call in which the block would be undisturbed. -/
theorem blocks_kept_past_last_bin :
    ¬∀ s, Reach (SmallInitial refuse id) (Clients.call refuse) SmallStep s → ∀ n < 0xC00000,
      ∃ p w', kmalloc refuse s.world n = some (p, w') ∧ ∀ q ∈ s.live, Undisturbed s.world w' q := by
  intro h
  obtain ⟨p, w', hres, -⟩ := h _ victimAndTree_reached 0xBFFFF5 (by decide)
  have hnone := past_last_bin_victim
  rw [Clients.call, hres] at hnone
  cases hnone

-- ---------------------------------------------------------------------------
-- No byte gets lost
-- ---------------------------------------------------------------------------

/-- A request does not leave 8 bytes of the top: a free chunk is as large, or the
top, grown where it has to, is not 8 bytes larger, or it has to grow and cannot. -/
def Call.NoSliver (cb : Callbacks ε) (s : Clients ε) : Call → Prop
  | .kmalloc size =>
    let st := s.world.kmstate
    let c := request2Size size
    requestOverflow size ∨ (∃ p ∈ binned s.world, c ≤ p.2) ∨ c ≤ st.dVictimSize ∨
      st.topChunkSize + growth st.topChunkSize c ≠ c + 8 ∨
      st.topChunkSize < c ∧ (cb.sbrk (growth st.topChunkSize c) s.world.env s.world.mem).1 = false
  | _ => True

abbrev TightRun (cb : Callbacks ε) (heapEnd : ε → Nat) (s : Clients ε) : Prop :=
  Reach (SmallInitial cb heapEnd) (Clients.call cb)
    (fun s c s' => SmallStep s c s' ∧ c.StaysBelow s ∧ c.NoSliver cb s) s

theorem growth_mod (a c : Nat) : growth a c % 8 = 0 := by
  unfold growth pageUp
  split <;> omega

/-- Taken from the top, a chunk leaves nothing behind unless 8 bytes are left. -/
theorem TopUsed.slack {c : Nat} (h : TopUsed cb w w'.kmstate c)
    (hstart : w'.kmstate.heapStart = w.kmstate.heapStart)
    (htop : w.kmstate.topChunkSize % 8 = 0) (hc : c % 8 = 0)
    (hno : w.kmstate.topChunkSize + growth w.kmstate.topChunkSize c ≠ c + 8)
    (hs : slack w.kmstate = 0) :
    slack w'.kmstate = 0 := by
  have hg := growth_mod w.kmstate.topChunkSize c
  have hle := growth_le (s := w.kmstate.topChunkSize) c
  have hmin : minChunkSize = 16 := rfl
  unfold Kmalloc.slack at hs ⊢
  rw [h.chunk, h.size, h.heapSize, hstart, remainder]
  split <;> omega

theorem LiveHeap.kmalloc_slack {r : Nat × World ε} (h : LiveHeap cb heapEnd s) (hn : n < 4294967296)
    (hsmall : s.world.kmstate.heapSize < 0xC00000) (hok : MallocOk s.world n)
    (hno : (Call.kmalloc n).NoSliver cb s)
    (hs : slack s.world.kmstate = 0) (hres : Kmalloc.kmalloc cb s.world n = some r) :
    slack r.2.kmstate = 0 := by
  obtain ⟨r', hr, hcase⟩ := kmalloc_spec h hn hok
  cases hr.symm.trans hres
  rcases hcase with ⟨-, rfl⟩ | ⟨hov, hserved | hnot⟩
  · exact hs
  · rcases hserved.top with hsame | ⟨⟨hdv, hfit⟩, htop⟩
    · exact (hsame.slack hserved.kept.start).trans hs
    · obtain ⟨h8, -⟩ := request2Size_spec hn hov
      refine htop.slack hserved.kept.start h.heap.top.align h8 ?_ hs
      rcases hno with hov' | ⟨p, hp, hle⟩ | hle | hne | ⟨hlt, hfail⟩
      · exact absurd hov' hov
      · have := h.heap.binned_lt hsmall p hp
        by_cases hlarge : request2Size n < 0xC00000
        · have := hfit hlarge p hp
          omega
        · omega
      · omega
      · exact hne
      · exact absurd ((htop.grown hlt).symm.trans hfail) (by decide)
  · rw [hnot.refused.kmstate]
    exact hs

structure TightHeap (cb : Callbacks ε) (heapEnd : ε → Nat) (s : Clients ε) :
    Prop extends SmallHeap cb heapEnd s where
  slack : slack s.world.kmstate = 0

theorem TightRun.tightHeap (h : TightRun cb heapEnd s) : TightHeap cb heapEnd s := by
  refine h.invariant (fun s hs => ?_) fun s c s' hs hnext hmay => ?_
  · obtain ⟨hlive, htop, hslack⟩ := hs.1.liveHeap
    exact ⟨⟨hlive, htop, hs.2⟩, hslack⟩
  · obtain ⟨⟨hlegal, hsmall, hsize⟩, hbelow, hno⟩ := hmay
    have hok := hs.ok hsmall hbelow
    obtain ⟨s'', hres, hlive, htop⟩ := Clients.call_spec hs.toLiveHeap hlegal hok
    cases hres.symm.trans hnext
    refine ⟨⟨hlive, htop hs.topMin, hsize⟩, ?_⟩
    cases c with
    | kmalloc n =>
      obtain ⟨r, hr, hrs⟩ := Option.bind_eq_some_iff.mp hnext
      cases hrs
      exact hs.kmalloc_slack hlegal hs.heapSize hok hno hs.slack hr
    | kfree p =>
      obtain ⟨w', hr, -, -, hkeep, -⟩ := hs.kfree (P := True) hlegal (KfreeOk.pages hok)
      rw [Clients.call, hr] at hnext
      cases hnext
      exact hkeep.trans hs.slack
    | write x v =>
      cases hnext
      exact hs.slack

/-- A heap in which all is free: one top, and no chunk in any bin. -/
structure AllTop (st : KmallocState) : Prop where
  topChunk : st.topChunk = st.heapStart
  topChunkSize : st.topChunkSize = st.heapSize - dummySize
  dVictim : st.dVictim = 0
  sbin : st.sbinmap = 0 ∧ ∀ i < nsbins, st.sbin i = 0
  tbin : st.tbinmap = 0 ∧ ∀ i < ntbins, st.tbin i = 0

theorem Tiled.all_free (h : Tiled m a true cs b true) (hused : pairs true cs = []) : cs = [] := by
  cases cs with
  | nil => rfl
  | cons c rest =>
    obtain ⟨rfl, hat, hrest⟩ := h
    have hfree : c.used = false := by
      by_contra hu
      rw [pairs_cons, if_pos (by simpa using hu)] at hused
      exact List.cons_ne_nil _ _ hused
    rw [hfree] at hrest
    obtain ⟨n, rest', rfl, -, hu, -⟩ := hrest.next_used
    have : (n.addr, n.size) ∈ pairs true (c :: n :: rest') := mem_pairs.mpr (by simp [← hu])
    rw [hused] at this
    exact absurd this List.not_mem_nil

theorem Bins.empty {b : BinTables} (h : Bins b m []) :
    (b.sbinmap = 0 ∧ ∀ i < nsbins, b.sbin i = 0) ∧ b.tbinmap = 0 ∧ ∀ i < ntbins, b.tbin i = 0 := by
  have hsmall : ∀ i < nsbins, b.sbin i = 0 := by
    intro i hi
    obtain ⟨xs, hring, hperm⟩ := h.small i hi
    have hxs : xs = [] := by simpa using hperm.eq_nil
    subst hxs
    exact hring.1
  have htree : ∀ i < ntbins, b.tbin i = 0 := by
    intro i hi
    obtain ⟨t, hrep, -, hperm⟩ := h.tree i hi
    cases t with
    | leaf => exact hrep
    | node => exact absurd hperm.eq_nil (by simp [RingTree.RTree.items])
  have hzero : ∀ map, map < 4294967296 → (∀ i < 32, map.testBit i = false) → map = 0 := by
    intro map hlt hbits
    refine Nat.eq_of_testBit_eq fun i => ?_
    rw [Nat.zero_testBit]
    by_cases hi : i < 32
    · exact hbits i hi
    · exact Nat.testBit_lt_two_pow
        (Nat.lt_of_lt_of_le hlt (Nat.pow_le_pow_right Nat.two_pos (Nat.le_of_not_lt hi)))
  exact ⟨⟨hzero _ h.sbinmap_lt fun i hi => by simp [h.sbinmap i hi, hsmall i hi], hsmall⟩,
    hzero _ h.tbinmap_lt fun i hi => by simp [h.tbinmap i hi, htree i hi], htree⟩

/-- The dummy stays at the end of the heap, and a heap with no block out is one
top again. -/
theorem TightRun.no_leak (h : TightRun cb heapEnd s) :
    let st := s.world.kmstate
    st.topChunk + st.topChunkSize + dummySize = st.heapStart + st.heapSize ∧
    (s.live = [] → AllTop st) := by
  have hs := h.tightHeap
  have hslack := hs.slack
  have htop := hs.heap.top.fits
  have hend : s.world.kmstate.topChunk + s.world.kmstate.topChunkSize + dummySize =
      s.world.kmstate.heapStart + s.world.kmstate.heapSize := by
    rw [Kmalloc.slack] at hslack
    simp only [dummySize]
    omega
  refine ⟨hend, fun hnil => ?_⟩
  have hlive := hs.live
  rw [hnil] at hlive
  have hchunks : chunks s.world = [] := hs.heap.tiled.all_free (by simpa using hlive.symm.eq_nil)
  have htiled := hs.heap.tiled
  have hfree := hs.heap.free
  have hbins := hs.heap.bins
  rw [hchunks] at htiled hfree
  have hstart : s.world.kmstate.heapStart = s.world.kmstate.topChunk := htiled.1
  obtain ⟨hvict, hbinned⟩ := List.append_eq_nil_iff.mp hfree.symm.eq_nil
  rw [hbinned] at hbins
  obtain ⟨hsbin, htbin⟩ := hbins.empty
  refine ⟨hstart.symm, ?_, ?_, hsbin, htbin⟩
  · simp only [dummySize] at hend ⊢
    omega
  · by_contra hdv
    rw [victims, if_neg hdv] at hvict
    exact List.cons_ne_nil _ _ hvict

theorem no_leak_one_block :
    let st := ((setUp 4096).after refuse (.kmalloc 300)).world.kmstate
    st.topChunk + st.topChunkSize + dummySize = st.heapStart + st.heapSize := by
  refine (TightRun.no_leak (show TightRun refuse id ((setUp 4096).after refuse (.kmalloc 300)) from
    .step (.start (setUp_initial (by decide) (by decide) (by decide)))
      (Clients.call_after (c := .kmalloc 300) (by decide +kernel)) ?_)).1
  exact ⟨⟨show 300 < 4294967296 by decide, show 300 < 0xC00000 by decide, by decide +kernel⟩,
    .inl (by decide),
    .inr (.inr (.inr (.inl (by decide +kernel))))⟩

/-- A top of 24 bytes gives 16 and the other 8 are in no chunk any more. -/
theorem no_leak_sliver :
    ¬∀ s, Reach (SmallInitial refuse id) (Clients.call refuse) SmallStep s →
      let st := s.world.kmstate
      st.topChunk + st.topChunkSize + dummySize = st.heapStart + st.heapSize := by
  intro h
  have hreach : Reach (SmallInitial refuse id) (Clients.call refuse) SmallStep
      ((setUp 32).after refuse (.kmalloc 12)) := by
    refine .step (.start (setUp_initial (by decide) (by decide) (by decide)))
      (Clients.call_after (c := .kmalloc 12) (by decide +kernel)) ?_
    exact ⟨show 12 < 4294967296 by decide, show 12 < 0xC00000 by decide, by decide +kernel⟩
  exact absurd (h _ hreach) (by decide +kernel)

end

end ElcoOs.Kmalloc
