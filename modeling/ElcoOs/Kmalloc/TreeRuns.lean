import ElcoOs.Kmalloc.BestFit
import ElcoOs.Kmalloc.BinOps

/-!
# Runs of one tree bin

A tree that insertions and removals have built from the empty one, beside the
list of the chunks that should be in it. Chunks come and go between the calls,
so memory outside those of the list may change at any time.
-/

namespace ElcoOs.Kmalloc

open Word32 Ring RingTree

variable {i a s root size : Nat} {m m' : Memory} {B : List (Nat × Nat)} {t : RTree}

-- ---------------------------------------------------------------------------
-- A tree of chunks
-- ---------------------------------------------------------------------------

/-- The tree at `root` sorts the chunks `B` by the low `d` bits of their sizes. -/
structure SizedTree (d : Nat) (m : Memory) (root : Nat) (B : List (Nat × Nat))
    (t : RTree) : Prop where
  rep : TreeRep (links m) 0 root t
  trie : Trie d t
  keyed : Keyed m t
  items : t.items.Perm B
  placed : Placed t.addrs

theorem SizedTree.empty (d : Nat) (m : Memory) : SizedTree d m 0 [] .leaf :=
  ⟨rfl, Trie.leaf _, by simp [Keyed, RTree.items], List.Perm.refl _, ⟨List.nodup_nil,
  by simp [Spaced], by simp [Fits]⟩⟩

theorem SizedTree.congr {d : Nat} (h : SizedTree d m root B t)
    (hm : ∀ y ∈ t.addrs, getChunkSize m' y = getChunkSize m y ∧ (links m).SameAt (links m') y) :
    SizedTree d m' root B t :=
  ⟨h.rep.congr fun y hy => (hm y hy).2, h.trie,
  fun x hx => (hm x.1 (RTree.mem_addrs hx)).1.trans (h.keyed x hx),
    h.items, h.placed⟩

theorem SizedTree.insert {d : Nat} (h : SizedTree d m root B t) (hd : 0 < d)
    (hsize : getChunkSize m a = s) (hroom : Room s d t)
    (hnd : (a :: t.addrs).Nodup) (hs : Spaced 32 (a :: t.addrs)) (hf : Fits 32 (a :: t.addrs)) :
    SizedTree d (kmallocTreeInsert m a root d).1 (kmallocTreeInsert m a root d).2 ((a, s) :: B)
      (t.insert a s d) ∧
      SameOutside 28 (a :: t.addrs) m (kmallocTreeInsert m a root d).1 := by
  obtain ⟨hrep, hoff⟩ := kmallocTreeInsert_spec a h.rep hd h.keyed (hsize.symm ▸ hroom) hnd hs hf
  rw [hsize] at hrep
  have hitems := items_insert (a := a) hroom
  have hplaced : Placed (a :: t.addrs) := ⟨hnd, hs, hf⟩
  refine ⟨⟨hrep, h.trie.insert hroom, fun x hxi => ?_, hitems.trans (h.items.cons _),
    hplaced.perm (hitems.map Prod.fst).symm⟩, hoff⟩
  have hmem : x.1 ∈ a :: t.addrs := by
    rcases List.mem_cons.mp (hitems.mem_iff.mp hxi) with rfl | hxi
    · exact List.mem_cons_self
    · exact List.mem_cons_of_mem _ (RTree.mem_addrs hxi)
  have hkeep : getChunkSize (kmallocTreeInsert m a root d).1 x.1 = getChunkSize m x.1 :=
    hoff.getChunkSize fun b hb => by
      have := hs x.1 hmem b hb
      omega
  rcases List.mem_cons.mp (hitems.mem_iff.mp hxi) with rfl | hxi
  · exact hkeep.trans hsize
  · exact hkeep.trans (h.keyed x hxi)

theorem SizedTree.remove {d : Nat} (h : SizedTree d m root B t) (hd : d < 4294967296)
    (ha : (a, s) ∈ B) :
    ∃ m' root' t', kmallocTreeRemove m a root = some (m', root') ∧
      SizedTree d m' root' (B.erase (a, s)) t' ∧
      SameOutside 28 t.addrs m m' := by
  obtain ⟨m', root', t', hres, hrep, htrie, hperm, hoff⟩ :=
    kmallocTreeRemove_spec h.rep h.trie hd h.placed
    (h.items.mem_iff.mpr ha)
  have haddrs : t.addrs.Perm (a :: t'.addrs) := hperm.map Prod.fst
  refine ⟨m', root', t', hres,
    ⟨hrep, htrie, fun x hx => ?_, ?_, (h.placed.perm haddrs).sublist (List.sublist_cons_self a _)⟩,
    hoff⟩
  · have hxt : x ∈ t.items := hperm.mem_iff.mpr (List.mem_cons_of_mem _ hx)
    refine (hoff.getChunkSize fun b hb => ?_).trans (h.keyed x hxt)
    have := h.placed.spaced x.1 (RTree.mem_addrs hxt) b hb
    omega
  · exact (hperm.symm.trans (h.items.trans (List.perm_cons_erase ha))).cons_inv

-- ---------------------------------------------------------------------------
-- A tree of one bin
-- ---------------------------------------------------------------------------

/-- The tree at `root` holds the chunks `B` of bin `i`. -/
structure BinTree (i : Nat) (m : Memory) (root : Nat) (B : List (Nat × Nat))
    (t : RTree) : Prop where
  rep : TreeRep (links m) 0 root t
  trie : Trie (tbinDepth i) t
  keyed : Keyed m t
  items : t.items.Perm B
  extents : Extents B
  bin : ∀ p ∈ B, minLargeSize ≤ p.2 ∧ calcTbin p.2 = i

def SameChunks (B : List (Nat × Nat)) (m m' : Memory) : Prop := ∀ p ∈ B, ∀ x, p.1 + 4 ≤ x →
    x < p.1 + p.2 → m' x = m x

theorem BinTree.empty (i : Nat) (m : Memory) : BinTree i m 0 [] .leaf :=
  ⟨rfl, Trie.leaf _,
  by simp [Keyed, RTree.items], List.Perm.refl _, ⟨by simp, List.nodup_nil, by simp⟩, by simp⟩

theorem BinTree.item (h : BinTree i m root B t) {x : Nat × Nat} (hx : x ∈ t.items) :
    x ∈ B ∧ 256 ≤ x.2 :=
  have hB := h.items.mem_iff.mp hx
  ⟨hB, (h.bin x hB).1⟩

theorem BinTree.mem (h : BinTree i m root B t) {y : Nat} (hy : y ∈ t.addrs) :
    ∃ p ∈ B, p.1 = y ∧ 32 ≤ p.2 := by
  obtain ⟨p, hp, rfl⟩ := List.mem_map.mp hy
  obtain ⟨hB, hlarge⟩ := h.item hp
  exact ⟨p, hB, rfl, by omega⟩

theorem BinTree.placed (h : BinTree i m root B t) : Placed t.addrs :=
  ⟨(h.items.map Prod.fst).nodup_iff.mpr h.extents.fst_nodup, h.extents.spaced fun _ => h.mem,
  h.extents.fits fun _ => h.mem⟩

theorem tbinDepth_pos (i : Nat) : 0 < tbinDepth i := by
  rw [tbinDepth_eq]
  omega

theorem BinTree.beside (h : BinTree i m root B t) (hx : Extents ((a, s) :: B))
    (hs : minLargeSize ≤ s) :
    (a :: t.addrs).Nodup ∧ Spaced 32 (a :: t.addrs) ∧ Fits 32 (a :: t.addrs) := by
  have hlarge : 256 ≤ s := hs
  have hnotin := (List.nodup_cons.mp hx.nodup).1
  have hmem : ∀ y ∈ a :: t.addrs, ∃ p ∈ (a, s) :: B, p.1 = y ∧ 32 ≤ p.2 := by
    intro y hy
    rcases List.mem_cons.mp hy with rfl | hy
    · exact ⟨_, List.mem_cons_self, rfl, by simp only; omega⟩
    · obtain ⟨p, hp, hres⟩ := h.mem hy
      exact ⟨p, List.mem_cons_of_mem _ hp, hres⟩
  refine ⟨List.nodup_cons.mpr ⟨fun hm => ?_, h.placed.nodup⟩, hx.spaced hmem, hx.fits hmem⟩
  obtain ⟨p, hp, rfl, -⟩ := h.mem hm
  exact hnotin (hx.eq_of_fst List.mem_cons_self (List.mem_cons_of_mem _ hp) rfl ▸ hp)

theorem BinTree.sizedTree (h : BinTree i m root B t) : SizedTree (tbinDepth i) m root B t :=
  ⟨h.rep, h.trie, h.keyed, h.items, h.placed⟩

theorem SizedTree.binTree (h : SizedTree (tbinDepth i) m root B t) (hx : Extents B)
    (hbin : ∀ p ∈ B, minLargeSize ≤ p.2 ∧ calcTbin p.2 = i) : BinTree i m root B t :=
  ⟨h.rep, h.trie, h.keyed, h.items, hx, hbin⟩

theorem BinTree.congr (h : BinTree i m root B t) (hm : SameChunks B m m') :
    BinTree i m' root B t := by
  refine (h.sizedTree.congr fun y hy => ?_).binTree h.extents h.bin
  obtain ⟨p, hB, rfl, hlarge⟩ := h.mem hy
  exact ⟨getChunkSize_congr fun x _ _ => hm p hB x (by omega) (by omega),
    links_sameAt fun x _ _ => hm p hB x (by omega) (by omega)⟩

theorem BinTree.insert (h : BinTree i m root B t) (hx : Extents ((a, s) :: B))
    (hsize : getChunkSize m a = s)
    (hs : minLargeSize ≤ s) (hi : calcTbin s = i) (hroom : Room s (tbinDepth i) t) :
    BinTree i (kmallocTreeInsert m a root (tbinDepth i)).1
      (kmallocTreeInsert m a root (tbinDepth i)).2 ((a, s) :: B)
        (t.insert a s (tbinDepth i)) ∧
      SameOutside 28 (a :: t.addrs) m (kmallocTreeInsert m a root (tbinDepth i)).1 := by
  obtain ⟨hnd, hspaced, hfits⟩ := h.beside hx hs
  obtain ⟨htree, hoff⟩ := h.sizedTree.insert (tbinDepth_pos i) hsize hroom hnd hspaced hfits
  refine ⟨htree.binTree hx fun p hp => ?_, hoff⟩
  rcases List.mem_cons.mp hp with rfl | hp
  · exact ⟨hs, hi⟩
  · exact h.bin p hp

theorem BinTree.remove (h : BinTree i m root B t) (hlt : i < 32) (ha : (a, s) ∈ B) :
    ∃ m' root' t', kmallocTreeRemove m a root = some (m', root') ∧
      BinTree i m' root' (B.erase (a, s)) t' ∧
      SameOutside 28 t.addrs m m' := by
  have hdepth := tbinDepth_eq i
  obtain ⟨m', root', t', hres, htree, hoff⟩ := h.sizedTree.remove (by omega) ha
  exact ⟨m', root', t', hres, htree.binTree (h.extents.sublist List.erase_sublist)
    fun p hp => h.bin p (List.mem_of_mem_erase hp), hoff⟩

-- ---------------------------------------------------------------------------
-- Runs
-- ---------------------------------------------------------------------------

structure TreeState where
  mem : Memory
  root : Nat
  chunks : List (Nat × Nat)

inductive TreeAction where
  | insert (chunk : Nat)
  | remove (chunk : Nat)
  /-- memory changes in between -/
  | other (mem : Memory)

def treeStep (i : Nat) (s : TreeState) : TreeAction → Option TreeState
  | .insert chunk =>
    let r := kmallocTreeInsert s.mem chunk s.root (tbinDepth i)
    some ⟨r.1, r.2, (chunk, getChunkSize s.mem chunk) :: s.chunks⟩
  | .remove chunk =>
    (kmallocTreeRemove s.mem chunk s.root).map fun r =>
    ⟨r.1, r.2, s.chunks.erase (chunk, getChunkSize s.mem chunk)⟩
  | .other mem => some { s with mem := mem }

/-- Chunks of the bin, apart from those that are there, go in; chunks that are
there come out; and none of them is written otherwise. -/
def TreeMay (i : Nat) (s : TreeState) : TreeAction → TreeState → Prop
  | .insert chunk, _ =>
    minLargeSize ≤ getChunkSize s.mem chunk ∧ calcTbin (getChunkSize s.mem chunk) = i ∧
      Extents ((chunk, getChunkSize s.mem chunk) :: s.chunks)
  | .remove chunk, _ => (chunk, getChunkSize s.mem chunk) ∈ s.chunks
  | .other mem, _ => SameChunks s.chunks s.mem mem

def TreeRun (i : Nat) (s : TreeState) : Prop := Reach (fun s => s.root = 0 ∧ s.chunks = [])
    (treeStep i) (TreeMay i) s

theorem BinTree.agrees (h : BinTree i m root B t) (hi : i < 31) (hs : 256 ≤ s)
    (hbin : calcTbin s = i) :
    Agrees (tbinDepth i) s t := by
  intro k hk
  obtain ⟨a, ha⟩ := RTree.mem_keys.mp hk
  obtain ⟨hlarge, hk⟩ := h.bin _ (h.items.mem_iff.mp ha)
  simp only at hk
  have h1 := calcTbin_agree hlarge (by simp only; omega)
  have h2 := calcTbin_agree hs (by omega)
  simp only [hk] at h1
  rw [hbin] at h2
  rw [h1, h2]

theorem BinTree.uniform (h : BinTree i m root B t) (hi : i < 31) : Uniform (tbinDepth i) t := by
  intro k hk k' hk'
  obtain ⟨a, ha⟩ := RTree.mem_keys.mp hk'
  obtain ⟨hlarge, hbin⟩ := h.bin _ (h.items.mem_iff.mp ha)
  exact h.agrees hi hlarge hbin k hk

theorem TreeRun.binTree {st : TreeState} (h : TreeRun i st) (hi : i < 31) :
    ∃ t, BinTree i st.mem st.root st.chunks t := by
  refine Reach.invariant (p := fun st : TreeState => ∃ t,
    BinTree i st.mem st.root st.chunks t) ?_ ?_ h
  · rintro ⟨mem, root, chunks⟩ ⟨hroot, hchunks⟩
    obtain rfl : root = 0 := hroot
    obtain rfl : chunks = [] := hchunks
    exact ⟨.leaf, .empty i mem⟩
  · rintro st a st' ⟨t, ht⟩ hstep hmay
    cases a with
    | insert chunk =>
      obtain ⟨hlarge, hbin, hx⟩ := hmay
      cases hstep
      exact ⟨_, (ht.insert hx rfl hlarge hbin ((ht.agrees hi hlarge hbin).room ht.trie)).1⟩
    | remove chunk =>
      obtain ⟨m', root', t', hres, ht', -⟩ := ht.remove (by omega) hmay
      simp only [treeStep, hres, Option.map_some, Option.some.injEq] at hstep
      subst hstep
      exact ⟨t', ht'⟩
    | other mem =>
      cases hstep
      exact ⟨t, ht.congr hmay⟩

-- ---------------------------------------------------------------------------
-- Best fit
-- ---------------------------------------------------------------------------

/-- In a tree of any bin but the last the search returns the best fit exactly
when the best fit is where it looks. -/
theorem bestFit_iff {st : TreeState} (h : TreeRun i st) (hi : i ≤ 30) (hsize : calcTbin size = i) :
    ∃ t a, TreeRep (links st.mem) 0 st.root t ∧ t.items.Perm st.chunks ∧
      kmallocTreeGetBestFit st.mem size st.root (tbinDepth i) = some a ∧
      (BestFit st.chunks size a ↔ Reached size (tbinDepth i) t) := by
  obtain ⟨t, ht⟩ := h.binTree (by omega)
  have hdepth := tbinDepth_eq i
  have hside : Agrees (tbinDepth i) size t ∨ ∀ k ∈ t.keys, size < k := by
    by_cases hs : 256 ≤ size
    · exact .inl (ht.agrees (by omega) hs hsize)
    · refine .inr fun k hk => ?_
      obtain ⟨a, ha⟩ := RTree.mem_keys.mp hk
      have := (ht.item ha).2
      simp only at this
      omega
  obtain ⟨a, hres, hiff⟩ :=
    bestFit_iff_reached ht.rep ht.trie (tbinDepth_pos i)
      (by omega) ht.keyed ht.placed (ht.uniform (by omega)) hside
  have hperm : BestFit st.chunks size a ↔ BestFit t.items size a := by
    simp only [BestFit, ht.items.mem_iff]
  exact ⟨t, a, ht.rep, ht.items, hres, hperm.trans hiff⟩

def twoNodes : TreeState :=
  let mem := setHeader (setHeader (fun _ => 0) 4096 (264 ||| pinuse)) 8192 (320 ||| pinuse)
  let s : TreeState := ⟨mem, 0, []⟩
  ((treeStep 0 s (.insert 4096)).bind (treeStep 0 · (.insert 8192))).getD s

theorem twoNodes_chunks : twoNodes.chunks = [(8192, 320), (4096, 264)] := by decide +kernel

theorem twoNodes_run : TreeRun 0 twoNodes := by
  refine .step (a := .insert 8192) (.step (a := .insert 4096) (.start ⟨rfl, rfl⟩) rfl ?_) rfl ?_
  · have hsize :
      getChunkSize (setHeader (setHeader (fun _ => 0) 4096 (264 ||| pinuse)) 8192 (320 ||| pinuse))
        4096 =
        264 := by decide +kernel
    simp only [TreeMay, hsize]
    refine ⟨by decide, by decide, ⟨?_, by simp, by simp⟩⟩
    rintro p hp
    obtain rfl := List.mem_singleton.mp hp
    exact ⟨by decide, by decide, by decide, by decide⟩
  · have hchunks := twoNodes_chunks
    simp only [TreeMay]
    show minLargeSize ≤ _ ∧ calcTbin _ = 0 ∧ Extents twoNodes.chunks
    rw [hchunks]
    refine ⟨by decide +kernel, by decide +kernel, ⟨?_, by decide, ?_⟩⟩
    · intro p hp
      simp only [List.mem_cons, List.not_mem_nil, or_false] at hp
      rcases hp with rfl | rfl
      · exact ⟨by decide, by decide, by decide, by decide⟩
      · exact ⟨by decide, by decide, by decide, by decide⟩
    · unfold Apart
      decide

theorem bestFit_iff_twoNodes :
    ∃ t a, TreeRep (links twoNodes.mem) 0 twoNodes.root t ∧ t.items.Perm twoNodes.chunks ∧
      kmallocTreeGetBestFit twoNodes.mem 256 twoNodes.root (tbinDepth 0) = some a ∧
      (BestFit twoNodes.chunks 256 a ↔ Reached 256 (tbinDepth 0) t) :=
  bestFit_iff twoNodes_run (by decide) (by decide)

/-- The root would do, but the search turns right at it. -/
theorem bestFit_overlooked :
    ¬∀ i ≤ 30, ∀ st, TreeRun i st → ∀ size, size % 8 = 0 → calcTbin size = i →
      ∃ a, kmallocTreeGetBestFit st.mem size st.root (tbinDepth i) = some a ∧
        BestFit st.chunks size a := by
  intro h
  obtain ⟨a, hres, hbest⟩ := h 0 (by decide) twoNodes twoNodes_run 256 (by decide) (by decide)
  have hright : kmallocTreeGetBestFit twoNodes.mem 256 twoNodes.root (tbinDepth 0) = some 8192 :=
    by decide +kernel
  cases hright.symm.trans hres
  obtain ⟨s, hs, -, hmin⟩ := hbest.2 (by decide)
  rw [twoNodes_chunks] at hs hmin
  have hle := hmin (4096, 264) (by simp) (by decide)
  simp only [List.mem_cons, Prod.mk.injEq, List.not_mem_nil, or_false] at hs
  omega

end ElcoOs.Kmalloc
