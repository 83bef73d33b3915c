import ElcoOs.Kmalloc.Bounded

/-!
# Requests of any size

Heaps of any size and requests over all of `size_t`. Where the last tree bin
can tell the sizes in it from the one asked for, and the top does not have to
grow past the address space, a request is served from a chunk that is large
enough, or refused with nothing changed.
-/

namespace ElcoOs.Kmalloc

open Word32

variable {ε : Type}

/-- The histories in which the bins can take every call. -/
abbrev OkRun (cb : Callbacks ε) (heapEnd : ε → Nat) (s : Clients ε) : Prop :=
  Reach (Initial cb heapEnd) (Clients.call cb) (fun s c _ => c.Legal s ∧ c.Ok s) s

abbrev LegalRun (cb : Callbacks ε) (heapEnd : ε → Nat) (s : Clients ε) : Prop :=
  Reach (Initial cb heapEnd) (Clients.call cb) (fun s c _ => c.Legal s) s

/-- What was recorded since `w`. -/
def Recorded (w w' : World ε) (p : Event → Prop) : Prop :=
  ∃ es, w'.trace = es ++ w.trace ∧ ∀ e ∈ es, p e

def Event.Fits : Event → Prop
  | .carve size wanted => wanted ≤ size
  | _ => True

/-- Bitmaps are shifted by less than their width, and a search is for a bin that has a chunk. -/
def Event.InBins : Event → Prop
  | .shift count => count < 32
  | .leftbin map head => map ≠ 0 ∧ head ≠ 0
  | _ => True

structure SameHeap (w w' : World ε) : Prop where
  kmstate : w'.kmstate = w.kmstate
  mem : ∀ x, w.kmstate.heapStart ≤ x → x < w.kmstate.heapStart + w.kmstate.heapSize →
    w'.mem x = w.mem x

/-- `[a, a + n)` is in the heap. -/
def InHeap (st : KmallocState) (a n : Nat) : Prop := st.heapStart ≤ a ∧
    a + n ≤ st.heapStart + st.heapSize

/-- A block of at least `n` bytes was handed out, or nothing was done. -/
def SafelyServed (w : World ε) (n : Nat) (r : Nat × World ε) : Prop :=
  r.1 = 0 ∧ SameHeap w r.2 ∨
    r.1 ≠ 0 ∧ n + 4 ≤ getChunkSize r.2.mem (payloadChunk r.1) ∧
      InHeap r.2.kmstate (payloadChunk r.1) (getChunkSize r.2.mem (payloadChunk r.1)) ∧
      InHeap r.2.kmstate r.2.kmstate.topChunk r.2.kmstate.topChunkSize

section
variable {heapEnd : ε → Nat} {P : Prop} {w w' : World ε} {cb : Callbacks ε}
  {s : Clients ε} {n : Nat} {cs : List Chunk} {B : List (Nat × Nat)}

theorem OkRun.liveHeap (h : OkRun cb heapEnd s) : LiveHeap cb heapEnd s := by
  refine h.invariant (fun s hs => hs.liveHeap.1) fun s c s' hs hnext hmay => ?_
  obtain ⟨s'', hres, hlive, -⟩ := Clients.call_spec hs hmay.1 hmay.2
  cases hres.symm.trans hnext
  exact hlive

theorem SmallRun.okRun (h : SmallRun cb heapEnd s) : OkRun cb heapEnd s := by
  induction h with
  | start h => exact .start h.1
  | step h hnext hmay ih =>
    exact .step ih hnext ⟨hmay.1.legal, (SmallRun.smallHeap h).ok hmay.1.small hmay.2⟩

theorem OkRun.legalRun (h : OkRun cb heapEnd s) : LegalRun cb heapEnd s :=
  h.mono fun _ _ _ hm => hm.1

theorem kmalloc_kept (h : LiveHeap cb heapEnd s) (hn : n < 4294967296) (hok : MallocOk s.world n) :
    ∃ r, kmalloc cb s.world n = some r ∧ SafelyServed s.world n r ∧
      (requestOverflow n ∧ r = (0, s.world) ∨
        Traced (Binned (binned s.world) (request2Size n)) s.world r.2) := by
  obtain ⟨r, hres, ⟨hov, rfl⟩ | ⟨hov, hs | hno⟩⟩ := kmalloc_spec h hn hok
  · exact ⟨_, hres, .inl ⟨rfl, rfl, fun _ _ _ => rfl⟩, .inl ⟨hov, rfl⟩⟩
  · obtain ⟨-, -, hroom, -⟩ := request2Size_spec hn hov
    obtain ⟨cs', B', a, size, hp, hsize, hheap, hperm⟩ := hs.heap
    have hat := hheap.toHeapAt
    have hfresh : (a, size) ∈ pairs true cs' := hperm.mem_iff.mpr List.mem_cons_self
    have hmem := hat.mem (mem_pairs.mp hfresh)
    have hfits := hat.top.fits
    have hle := hat.tiled.le
    have hpay : payloadChunk r.1 = a := hp ▸ (hat.payload hfresh).1
    obtain ⟨-, -, t, hc⟩ := hat.tiled.mem (mem_pairs.mp hfresh)
    have hhdr : header r.2.mem a = size + flags true t := hc.header
    simp only at hmem
    have hchunk : getChunkSize r.2.mem a = size := getChunkSize_of_header hhdr hmem.2.2.2.1
    refine ⟨r, hres, .inr ⟨by omega, ?_⟩, .inr hs.kept.traced⟩
    rw [hpay, hchunk, InHeap, InHeap]
    omega
  · exact ⟨r, hres, .inl ⟨hno.null, hno.refused.kmstate, hno.refused.mem⟩, .inr hno.kept.traced⟩

-- ---------------------------------------------------------------------------
-- Every request
-- ---------------------------------------------------------------------------

/-- Every request the bins can take is served safely. -/
theorem OkRun.kmalloc_safe (h : OkRun cb heapEnd s) (hn : n < 4294967296)
    (hok : MallocOk s.world n) :
    ∃ r, kmalloc cb s.world n = some r ∧ SafelyServed s.world n r := by
  obtain ⟨r, hres, hserved, -⟩ := kmalloc_kept h.liveHeap hn hok
  exact ⟨r, hres, hserved⟩

theorem oneInTree_mallocOk : MallocOk oneInTree.world 8 := by
  have hheap := oneInTree_reached.smallHeap
  exact hheap.heap.mallocOk hheap.heapSize (by decide) (.inl (by decide))

theorem kmalloc_safe_oneInTree : ∃ r, kmalloc refuse oneInTree.world 8 = some r ∧
    SafelyServed oneInTree.world 8 r :=
  oneInTree_reached.okRun.kmalloc_safe (by decide) oneInTree_mallocOk

def stay : Callbacks Unit := ⟨fun i e m => (i = 0, e, m), id⟩

def tiny : Clients Unit :=
  ⟨kmallocInit ⟨⟨0, 0, 0, 0, 0, fun _ => 0, fun _ => 0, 0, 0, 0, 0, 0⟩, fun _ => 0, (), []⟩ 4096 24,
  []⟩

theorem tiny_initial : Initial stay (fun _ => 4120) tiny := by
  refine .init ⟨by decide, by decide, by decide, by decide, by decide⟩ ⟨fun _ _ _ _ =>
    ⟨rfl, fun _ _ _ => rfl⟩, ?_⟩ rfl
  intro i e m hi
  have h0 : i = 0 := of_decide_eq_true hi
  subst h0
  exact ⟨rfl, Nat.le_refl _, by decide, fun _ _ _ _ => rfl⟩

/-- The growth that the request needs wraps around to 0. -/
theorem tiny_served : (kmalloc stay tiny.world 0xFFFFFFF0).map (fun r =>
    (r.1, getChunkSize r.2.mem 4096, r.2.kmstate.heapStart + r.2.kmstate.heapSize, r.2.trace)) =
      some (4104, 0xFFFFFFF8, 4120, [.carve 16 0xFFFFFFF8, .sbrk 0, .shift 32]) := by
  decide +kernel

theorem kmalloc_safe_tiny : ¬∀ s, Reach (Initial stay fun _ => 4120) (Clients.call stay)
    (fun s c _ => c.Legal s ∧ c.Small) s → ∀ n < 4294967296,
      ∃ r, kmalloc stay s.world n = some r ∧ SafelyServed s.world n r := by
  intro hall
  obtain ⟨r, hres, hsafe⟩ := hall _ (.start tiny_initial) 0xFFFFFFF0 (by decide)
  have hserved := tiny_served
  rw [hres, Option.map_some, Option.some.injEq, Prod.mk.injEq, Prod.mk.injEq, Prod.mk.injEq]
    at hserved
  obtain ⟨hp, hsize, hend, -⟩ := hserved
  rcases hsafe with ⟨hnull, -⟩ | ⟨-, -, ⟨-, hchunk⟩, -⟩
  · rw [hp] at hnull
    exact absurd hnull (by decide)
  · rw [hp, show payloadChunk 4104 = 4096 by decide, hsize, hend] at hchunk
    exact absurd hchunk (by decide)

/-- Nothing is carved from a smaller chunk. -/
theorem OkRun.carves_fit (h : OkRun cb heapEnd s) (hn : n < 4294967296) (hok : MallocOk s.world n) :
    ∃ r, kmalloc cb s.world n = some r ∧ Recorded s.world r.2 Event.Fits := by
  obtain ⟨r, hres, -, ⟨-, rfl⟩ | ⟨es, htrace, hev⟩⟩ := kmalloc_kept h.liveHeap hn hok
  · exact ⟨_, hres, [], rfl, by simp⟩
  · refine ⟨r, hres, es, htrace, fun e he => ?_⟩
    have hfits := hev e he
    cases e with
    | carve size wanted => exact hfits
    | _ => trivial

theorem carves_fit_oneInTree : ∃ r, kmalloc refuse oneInTree.world 8 = some r ∧
    Recorded oneInTree.world r.2 Event.Fits :=
  oneInTree_reached.okRun.carves_fit (by decide) oneInTree_mallocOk

theorem carves_fit_tiny : ¬∀ s, LegalRun stay (fun _ => 4120) s → ∀ n < 4294967296,
    ∃ r, kmalloc stay s.world n = some r ∧ Recorded s.world r.2 Event.Fits := by
  intro hall
  obtain ⟨r, hres, es, htrace, hfits⟩ := hall _ (.start tiny_initial) 0xFFFFFFF0 (by decide)
  have hserved := tiny_served
  rw [hres, Option.map_some, Option.some.injEq, Prod.mk.injEq, Prod.mk.injEq, Prod.mk.injEq]
    at hserved
  have hes : es = r.2.trace := by
    rw [htrace, show tiny.world.trace = [] from rfl, List.append_nil]
  exact absurd (hfits (.carve 16 0xFFFFFFF8) (by simp [hes, hserved.2.2.2]))
    (show ¬0xFFFFFFF8 ≤ 16 by decide)

/-- A request that the bins can tell is searched for within them. -/
theorem OkRun.stays_in_bins (h : OkRun cb heapEnd s) (hn : n < 4294967296)
    (hok : MallocOk s.world n)
    (hbinned : requestOverflow n ∨ Binned (binned s.world) (request2Size n)) :
    ∃ r, kmalloc cb s.world n = some r ∧ Recorded s.world r.2 Event.InBins := by
  obtain ⟨r, hres, -, hcase⟩ := kmalloc_kept h.liveHeap hn hok
  rcases hcase with ⟨-, rfl⟩ | ⟨es, htrace, hev⟩
  · exact ⟨_, hres, [], rfl, by simp⟩
  · by_cases hov : requestOverflow n
    · obtain ⟨r', hres', ⟨-, rfl⟩ | ⟨hno, -⟩⟩ := kmalloc_spec h.liveHeap hn hok
      · cases hres.symm.trans hres'
        exact ⟨_, hres, [], rfl, by simp⟩
      · exact absurd hov hno
    · have hin := hbinned.resolve_left hov
      refine ⟨r, hres, es, htrace, fun e he => ?_⟩
      have hok := hev e he
      cases e with
      | shift count => exact hok hin
      | leftbin map head => exact hok hin
      | _ => trivial

theorem stays_in_bins_oneInTree : ∃ r, kmalloc refuse oneInTree.world 8 = some r ∧
    Recorded oneInTree.world r.2 Event.InBins :=
  oneInTree_reached.okRun.stays_in_bins (by decide) oneInTree_mallocOk (.inr (.inl (by decide)))

/-- The request for just the bound is not. -/
theorem stays_in_bins_past_last_bin : ¬∀ s, LegalRun refuse id s → ∀ n < 4294967296,
    ∃ r, kmalloc refuse s.world n = some r ∧ Recorded s.world r.2 Event.InBins := by
  intro hall
  obtain ⟨r, hres, -⟩ := hall _ oneInTree_reached.okRun.legalRun 0xBFFFF5 (by decide)
  have hnone := past_last_bin
  rw [Clients.call, hres] at hnone
  cases hnone

end

end ElcoOs.Kmalloc
