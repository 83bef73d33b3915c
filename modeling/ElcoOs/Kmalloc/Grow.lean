import ElcoOs.Kmalloc.Expand
import ElcoOs.Kmalloc.Large

/-!
# `krealloc` of a block that has free bytes after it

The block grows where it is and the heap stays whole, unless a part of a binned
chunk is taken and the header of the rest comes to lie on a link or on the index
of that chunk, which is still in its bin then.
-/

namespace ElcoOs.Kmalloc

open Word32

variable {ε : Type}

/-- The bins can take what growing the block of `p` for `n` bytes does. -/
def GrowOk (w : World ε) (p n : Nat) : Prop :=
  ∀ pre s post, chunks w = pre ++ ⟨payloadChunk p, s, true⟩ :: post →
    ExpandOk w s (request2Size n) post (binned w)

/-- The heap is whole, the block has grown, and what is left of the free chunk
after it has taken its place. -/
structure WellGrown (w : World ε) (p n : Nat) (w' : World ε) : Prop where
  heap : Heap w' (chunks w') (binned w')
  topMin : TopMin w'.kmstate
  block : ∀ pre s post, chunks w = pre ++ ⟨payloadChunk p, s, true⟩ :: post →
    let c := grown w.kmstate s (request2Size n) post
    pairs true (chunks w') = pairs true (pre ++ ⟨payloadChunk p, c, true⟩ :: post) ∧
      Consumed w.kmstate w'.kmstate (payloadChunk p + c)
        (s + room w.kmstate post - c) post (binned w) (binned w')

section
variable {heapEnd : ε → Nat} {P : Prop} {w w' : World ε} {post : List Chunk}
  {B B' B'' : List (Nat × Nat)} {e n p r : Nat} {cb : Callbacks ε} {st : Clients ε}

theorem OkRun.topMin (h : OkRun cb heapEnd st) : TopMin st.world.kmstate := by
  suffices hboth : LiveHeap cb heapEnd st ∧ TopMin st.world.kmstate from hboth.2
  refine Reach.invariant (p := fun s => LiveHeap cb heapEnd s ∧ TopMin s.world.kmstate)
    (fun s hs => ⟨hs.liveHeap.1, hs.liveHeap.2.1⟩) (fun s c s' hs hnext hmay => ?_) h
  obtain ⟨s'', hres, hlive, htop⟩ := Clients.call_spec hs.1 hmay.1 hmay.2
  cases hres.symm.trans hnext
  exact ⟨hlive, htop hs.2⟩

theorem Consumed.perm {a a' : KmallocState} (h : Consumed a a' e r post B B') (hp : B''.Perm B') :
    Consumed a a' e r post B B'' := by
  cases post with
  | nil => exact ⟨h.1, h.2.1, h.2.2.1, hp.trans h.2.2.2⟩
  | cons n rest =>
    obtain ⟨htop, h⟩ := h
    refine ⟨htop, ?_⟩
    split at h
    · rw [if_pos ‹_›]
      exact ⟨h.1, hp.trans h.2⟩
    · rw [if_neg ‹_›]
      exact ⟨h.1, hp.trans h.2⟩

theorem HeapAt.size_at {cs pre : List Chunk} {a s : Nat} (h : HeapAt w cs B)
    (hcs : cs = pre ++ ⟨a, s, true⟩ :: post) :
    getChunkSize w.mem a = s := by
  subst hcs
  obtain ⟨t, -, hat, -⟩ := h.tiled.split
  exact getChunkSize_of_header hat.header hat.align

theorem LiveHeap.expand {pre : List Chunk} {a s : Nat} (h : LiveHeap cb heapEnd st)
    (hcs : chunks st.world = pre ++ ⟨a, s, true⟩ :: post) (hn : n < 4294967296)
    (hov : ¬requestOverflow n) (hmore : s < request2Size n)
    (hok : ExpandOk st.world s (request2Size n) post (binned st.world)) :
    s + room st.world.kmstate post < request2Size n ∧
        tryExpandChunk st.world a (request2Size n) = some (false, st.world) ∨
      request2Size n ≤ s + room st.world.kmstate post ∧
      ∃ w', tryExpandChunk st.world a (request2Size n) = some (true, w') ∧
        Expanded heapEnd P st.world w' pre a s (grown st.world.kmstate s (request2Size n) post) post
          (binned st.world) := by
  obtain ⟨hc8, -, -, -, hc⟩ := request2Size_spec hn hov
  have hheap := h.heap
  rw [hcs] at hheap
  exact tryExpandChunk_spec hheap hmore hc hc8 fun _ => hok

/-- In every state reached the block grows in place, and the heap stays whole, or
nothing is done. -/
theorem OkRun.grow_in_place (h : OkRun cb heapEnd st) (hp : p ∈ st.live) (hn : 0 < n)
    (hlt : n < 0xC00000) (hmore : getChunkSize st.world.mem (payloadChunk p) < request2Size n)
    (hok : GrowOk st.world p n) :
    ∃ b w', tryExpandChunk st.world (payloadChunk p) (request2Size n) = some (b, w') ∧
      (b = true → krealloc cb st.world p n = some (p, w') ∧ WellGrown st.world p n w') ∧
      (b = false → w' = st.world) := by
  have hlive := h.liveHeap
  have hat := hlive.heap.toHeapAt
  have hov : ¬requestOverflow n := by
    rw [requestOverflow_iff (by omega)]
    omega
  obtain ⟨pre, a, s, post, rfl, hpay, hcs⟩ := hlive.split hp
  rw [hpay, hat.size_at hcs] at hmore
  rw [hpay]
  have hgrow := hok pre s post (by rw [hpay]; exact hcs)
  rcases hlive.expand (P := True) hcs (by omega) hov hmore hgrow with ⟨-, hno⟩ | ⟨-, w', hres, hexp⟩
  · exact ⟨false, _, hno, fun hb => Bool.noConfusion hb, fun _ => rfl⟩
  refine ⟨true, w', hres, fun _ => ⟨?_, ?_, hexp.topMin h.topMin, ?_⟩,
    fun hb => Bool.noConfusion hb⟩
  · have hheap := hat
    rw [hcs] at hheap
    rw [krealloc_eq cb hheap (Nat.ne_of_gt hn), if_neg (by omega), if_neg (by omega),
      reallocMore, hres]
    rfl
  · obtain ⟨cs', B', hheap', -⟩ := hexp.heap
    exact hheap'.canonical
  · rw [hpay]
    intro pre' s' post' hcs'
    have hsize := (hat.size_at hcs').symm.trans (hat.size_at hcs)
    subst hsize
    have hgrow' := hok pre' s' post' (by rw [hpay]; exact hcs')
    rcases hlive.expand (P := True) hcs' (by omega) hov hmore hgrow' with
      ⟨-, hno⟩ | ⟨-, w'', hres', hexp'⟩
    · cases hno.symm.trans hres
    · cases hres'.symm.trans hres
      obtain ⟨cs', B', hheap', hused, hconsumed⟩ := hexp'.heap
      rw [hheap'.toHeapAt.chunks_eq]
      exact ⟨hused, hconsumed.perm hheap'.binned_perm⟩

def twoInBin : Clients Nat :=
  let s :=
    (((setUp 4096).after refuse (.kmalloc 12)).after refuse (.kmalloc 36)).after
      refuse (.kmalloc 12)
  let s := (s.after refuse (.kmalloc 36)).after refuse (.kmalloc 12)
  (s.after refuse (.kfree 4120)).after refuse (.kfree 4176)

theorem twoInBin_reached : FixedRun twoInBin := by
  refine .free
    (.free (.malloc
      (.malloc (.malloc (.malloc (.malloc (.start (setUp_initial ?_ ?_ ?_)) ?_ ?_ ?_) ?_ ?_ ?_)
    ?_ ?_ ?_) ?_ ?_ ?_) ?_ ?_ ?_) ?_ ?_ ?_) ?_ ?_ ?_ <;> decide +kernel

/-- A block that grows by 16 bytes into one of the two leaves the other alone in its bin, and 24
bytes in another. -/
theorem grow_in_place_part :
    ∃ w', krealloc refuse twoInBin.world 4104 28 = some (4104, w') ∧
      WellGrown twoInBin.world 4104 28 w' ∧
      binned w' = [(4128, 24), (4168, 40)] := by
  have hrun : OkRun refuse id twoInBin := (SmallRun.of_reach twoInBin_reached).okRun
  have hchunks : chunks twoInBin.world =
      [⟨4096, 16, true⟩, ⟨4112, 40, false⟩, ⟨4152, 16, true⟩, ⟨4168, 40, false⟩,
      ⟨4208, 16, true⟩] := by decide +kernel
  have hok : GrowOk twoInBin.world 4104 28 := by
    intro pre s post hcs
    rw [hchunks, show payloadChunk 4104 = 4096 by decide] at hcs
    cases pre with
    | nil =>
      obtain ⟨hblock, rfl⟩ := List.cons.inj hcs
      cases hblock
      exact fun _ _ _ => ⟨.inr (.inl ⟨by decide, by decide⟩), .inl (by decide)⟩
    | cons c pre =>
      -- no other chunk is at 4096
      obtain ⟨-, htail⟩ := List.cons.inj hcs
      have hmem : (⟨4096, s, true⟩ : Chunk) ∈ pre ++ ⟨4096, s, true⟩ :: post :=
        List.mem_append_right pre List.mem_cons_self
      rw [← List.append_eq, ← htail] at hmem
      simp at hmem
  obtain ⟨b, w', hexp, hgrown, -⟩ :=
    hrun.grow_in_place (List.mem_of_elem_eq_true (by decide +kernel)) (by decide)
    (by decide) (by decide +kernel) hok
  have hres : ((tryExpandChunk twoInBin.world (payloadChunk 4104) (request2Size 28)).map fun r =>
      (r.1, binned r.2)) = some (true, [(4128, 24), (4168, 40)]) := by decide +kernel
  rw [hexp, Option.map_some, Option.some.injEq, Prod.mk.injEq] at hres
  obtain ⟨hb, hbinned⟩ := hres
  obtain ⟨hkrealloc, hwell⟩ := hgrown hb
  exact ⟨w', hkrealloc, hwell, hbinned⟩

/-- A block that grows by 8 bytes into one of the two leaves the other with a link that is no
address. -/
theorem grow_in_place_twoInBin :
    ¬∀ s, FixedRun s → ∀ p ∈ s.live, ∀ n, 0 < n → n < 0xC00000 →
      getChunkSize s.world.mem (payloadChunk p) < request2Size n →
      ∀ w', tryExpandChunk s.world (payloadChunk p) (request2Size n) = some (true, w') →
        WellGrown s.world p n w' := by
  intro hall
  have hres : ((tryExpandChunk twoInBin.world (payloadChunk 4104) (request2Size 20)).map fun r =>
      (r.1, binned r.2, prev r.2.mem 4168)) = some (true, [(4120, 32), (4168, 40)], 33) :=
      by decide +kernel
  obtain ⟨⟨b, w'⟩, hexp, heq⟩ := Option.map_eq_some_iff.mp hres
  obtain ⟨rfl, hbinned, hprev⟩ : b = true ∧ binned w' = [(4120, 32), (4168, 40)] ∧
    prev w'.mem 4168 = 33 := by
    simpa using heq
  have hwell :=
    hall _ twoInBin_reached 4104 (List.mem_of_elem_eq_true (by decide +kernel)) 20 (by decide)
      (by decide)
    (by decide +kernel) w' hexp
  -- alone in its ring, a chunk has itself before it
  obtain ⟨xs, hring, hperm⟩ := hwell.heap.bins.small 5 (by decide)
  rw [hbinned, show ([(4120, 32), (4168, 40)] : List (Nat × Nat)).filter (binNo ·.2 = 5) =
    [(4168, 40)] by decide] at hperm
  obtain ⟨a, rfl, ha⟩ := List.map_eq_singleton_iff.mp (List.perm_singleton.mp hperm)
  obtain ⟨rfl, -⟩ := Prod.mk.inj ha
  exact absurd (hprev.symm.trans (Ring.ring_single.mp hring.ring).2) (by decide)

end

end ElcoOs.Kmalloc
