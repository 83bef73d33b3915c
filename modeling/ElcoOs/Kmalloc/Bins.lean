import ElcoOs.Kmalloc.Sizes
import ElcoOs.Kmalloc.TreeRemove
import ElcoOs.Kmalloc.TreeSearch
import ElcoOs.Kmalloc.Util

/-!
# The bins

`Bins` says that the two tables and their bitmaps hold exactly a given list of
free chunks. Binning adds a chunk to the list and unbinning takes it out;
both write only words of the chunks of the list that the bins go by.
-/

namespace ElcoOs.Kmalloc

open Word32 Ring RingTree

/-- The part of `kmstate` that the bins are. -/
structure BinTables where
  sbinmap : Nat
  tbinmap : Nat
  sbin : Nat → Nat
  tbin : Nat → Nat

def KmallocState.bins (st : KmallocState) : BinTables := ⟨st.sbinmap, st.tbinmap, st.sbin, st.tbin⟩

def KmallocState.setBins (st : KmallocState) (b : BinTables) : KmallocState :=
  { st with sbinmap := b.sbinmap, tbinmap := b.tbinmap, sbin := b.sbin, tbin := b.tbin }

def World.setBins (w : World ε) (b : BinTables) (m : Memory) : World ε :=
  { w with kmstate := w.kmstate.setBins b, mem := m }

-- ---------------------------------------------------------------------------
-- Chunks as pairs of address and size
-- ---------------------------------------------------------------------------

/-- A chunk size, and the chunk ends inside the address space. -/
structure Extent (p : Nat × Nat) : Prop where
  pos : p.1 ≠ 0
  fits : p.1 + p.2 ≤ 4294967296
  min : 16 ≤ p.2
  align : p.2 % 8 = 0

def Apart (p q : Nat × Nat) : Prop := p.1 + p.2 ≤ q.1 ∨ q.1 + q.2 ≤ p.1

structure Extents (B : List (Nat × Nat)) : Prop where
  extent : ∀ p ∈ B, Extent p
  nodup : B.Nodup
  apart : ∀ p ∈ B, ∀ q ∈ B, p ≠ q → Apart p q

theorem Extents.perm {B B' : List (Nat × Nat)} (h : Extents B) (hp : B.Perm B') : Extents B' :=
  ⟨fun p hpm => h.extent p (hp.mem_iff.mpr hpm), hp.nodup_iff.mp h.nodup,
    fun p hpm q hqm => h.apart p (hp.mem_iff.mpr hpm) q (hp.mem_iff.mpr hqm)⟩

theorem Extents.sublist {B B' : List (Nat × Nat)} (h : Extents B)
    (hs : B'.Sublist B) : Extents B' :=
  ⟨fun p hp => h.extent p (hs.subset hp), h.nodup.sublist hs,
    fun p hp q hq => h.apart p (hs.subset hp) q (hs.subset hq)⟩

def Inside (B : List (Nat × Nat)) (m m' : Memory) : Prop :=
  ∀ x, (∀ p ∈ B, x < p.1 + 8 ∨ p.1 + p.2 ≤ x) → m' x = m x

theorem Inside.refl (B : List (Nat × Nat)) (m : Memory) : Inside B m m := fun _ _ => rfl

theorem Inside.trans {B : List (Nat × Nat)} {m m' m'' : Memory} (h : Inside B m m')
    (h' : Inside B m' m'') :
    Inside B m m'' := fun x hx => (h' x hx).trans (h x hx)

theorem Inside.mono {B C : List (Nat × Nat)} {m m' : Memory} (h : Inside B m m')
    (hs : ∀ p ∈ B, p ∈ C) :
    Inside C m m' := fun x hx => h x fun p hp => hx p (hs p hp)

/-- Only the words of these chunks that the bins go by may differ: the links, and of
a chunk in a tree bin those of the tree. -/
def Fields (B : List (Nat × Nat)) (m m' : Memory) : Prop :=
  ∀ x, (∀ p ∈ B, x < p.1 + 8 ∨ p.1 + 16 ≤ x ∧ (p.2 < minLargeSize ∨ p.1 + 32 ≤ x)) → m' x = m x

theorem Fields.trans {B : List (Nat × Nat)} {m m' m'' : Memory} (h : Fields B m m')
    (h' : Fields B m' m'') :
    Fields B m m'' := fun x hx => (h' x hx).trans (h x hx)

theorem Fields.inside {B : List (Nat × Nat)} {m m' : Memory} (h : Fields B m m')
    (hB : ∀ p ∈ B, 16 ≤ p.2) :
    Inside B m m' := by
  have hlarge : minLargeSize = 256 := rfl
  intro x hx
  refine h x fun p hp => ?_
  have := hx p hp
  have := hB p hp
  omega

-- ---------------------------------------------------------------------------
-- The bins hold a list of chunks
-- ---------------------------------------------------------------------------

/-- Small bins first, then tree bins. -/
def binNo (size : Nat) : Nat := if size < minLargeSize then smallIndex size else 32 + calcTbin size

/-- A ring with the chunks of small bin `i`. -/
def SmallBin (m : Memory) (head i : Nat) (B : List (Nat × Nat)) : Prop :=
  ∃ xs, RingList m head xs ∧ (xs.map (·, 8 * i)).Perm (B.filter (binNo ·.2 = i))

/-- A trie with the chunks of tree bin `i`. -/
def TreeBin (m : Memory) (root i : Nat) (B : List (Nat × Nat)) : Prop :=
  ∃ t, TreeRep (links m) 0 root t ∧ Trie (tbinDepth i) t ∧
    t.items.Perm (B.filter (binNo ·.2 = 32 + i))

structure Bins (b : BinTables) (m : Memory) (B : List (Nat × Nat)) : Prop where
  sized : ∀ p ∈ B, getChunkSize m p.1 = p.2
  indexed : ∀ p ∈ B, minLargeSize ≤ p.2 → index m p.1 = calcTbin p.2
  small : ∀ i < 32, SmallBin m (b.sbin i) i B
  tree : ∀ i < 32, TreeBin m (b.tbin i) i B
  sbinmap_lt : b.sbinmap < 4294967296
  sbinmap : ∀ i < 32, b.sbinmap.testBit i = decide (b.sbin i ≠ 0)
  tbinmap_lt : b.tbinmap < 4294967296
  tbinmap : ∀ i < 32, b.tbinmap.testBit i = decide (b.tbin i ≠ 0)

theorem binNo_small {s : Nat} (h : s < minLargeSize) : binNo s = smallIndex s := if_pos h

theorem binNo_large {s : Nat} (h : minLargeSize ≤ s) : binNo s = 32 + calcTbin s :=
  if_neg (Nat.not_lt.mpr h)

theorem smallIndex_lt {s : Nat} (h : s < minLargeSize) : smallIndex s < 32 := by
  rw [smallIndex_eq]
  have : minLargeSize = 256 := rfl
  omega

theorem small_of_binNo {s i : Nat} (hi : i < 32) (h : binNo s = i) : s < minLargeSize := by
  by_contra hn
  rw [binNo_large (Nat.le_of_not_lt hn)] at h
  omega

theorem large_of_binNo {s i : Nat} (h : binNo s = 32 + i) : minLargeSize ≤ s ∧ calcTbin s = i := by
  by_cases hs : s < minLargeSize
  · have := smallIndex_lt hs
    rw [binNo_small hs] at h
    omega
  · rw [binNo_large (Nat.le_of_not_lt hs)] at h
    exact ⟨Nat.le_of_not_lt hs, by omega⟩

theorem SmallBin.congr {m m' : Memory} {head i : Nat} {B : List (Nat × Nat)}
    (h : SmallBin m head i B)
    (hm : ∀ p ∈ B, binNo p.2 = i → ∀ x, p.1 + 8 ≤ x → x < p.1 + 16 → m' x = m x) :
    SmallBin m' head i B := by
  obtain ⟨xs, hr, hp⟩ := h
  have hxs : ∀ a ∈ xs, ∀ x, a + 8 ≤ x → x < a + 16 → m' x = m x := by
    intro a ha
    have hf := List.mem_filter.mp (hp.mem_iff.mp (List.mem_map.mpr ⟨a, ha, rfl⟩))
    exact hm _ hf.1 (by simpa using hf.2)
  refine ⟨xs, hr.congr (fun a ha => ?_) (fun a ha => ?_), hp⟩
  · exact Memory.load32_congr fun x _ _ => hxs a ha x (by omega) (by omega)
  · exact Memory.load32_congr fun x _ _ => hxs a ha x (by omega) (by omega)

theorem TreeBin.congr {m m' : Memory} {root i : Nat} {B : List (Nat × Nat)} (h : TreeBin m root i B)
    (hm : ∀ p ∈ B, binNo p.2 = 32 + i → ∀ x, p.1 + 8 ≤ x → x < p.1 + 28 → m' x = m x) :
    TreeBin m' root i B := by
  obtain ⟨t, hr, ht, hp⟩ := h
  refine ⟨t, hr.congr fun a ha => ?_, ht, hp⟩
  obtain ⟨p, hpt, rfl⟩ := List.mem_map.mp ha
  have hf := List.mem_filter.mp (hp.mem_iff.mp hpt)
  exact links_sameAt (hm p hf.1 (by simpa using hf.2))

/-- The chunks keep their place when their headers, links and indices do not change. -/
theorem Bins.congr_fields {b : BinTables} {m m' : Memory} {B : List (Nat × Nat)} (h : Bins b m B)
    (hm : ∀ p ∈ B, ∀ x, p.1 + 4 ≤ x → x < p.1 + 16 ∨ minLargeSize ≤ p.2 ∧ x < p.1 + 32 →
    m' x = m x) : Bins b m' B := by
  refine ⟨fun p hp => ?_, fun p hp hs => ?_, fun i hi => ?_, fun i hi => ?_,
    h.sbinmap_lt, h.sbinmap,
    h.tbinmap_lt, h.tbinmap⟩
  · exact (getChunkSize_congr fun x _ _ => hm p hp x (by omega) (.inl (by omega))).trans
      (h.sized p hp)
  · exact (Memory.load32_congr fun x _ _ => hm p hp x (by omega) (.inr ⟨hs, by omega⟩)).trans
      (h.indexed p hp hs)
  · exact (h.small i hi).congr fun p hp _ x _ hhi => hm p hp x (by omega) (.inl hhi)
  · exact (h.tree i hi).congr fun p hp hb x _ _ =>
      hm p hp x (by omega) (.inr ⟨(large_of_binNo hb).1, by omega⟩)

theorem Bins.congr {b : BinTables} {m m' : Memory} {B : List (Nat × Nat)} (h : Bins b m B)
    (hm : ∀ p ∈ B, ∀ x, p.1 + 4 ≤ x → x < p.1 + p.2 → m' x = m x)
    (hx : ∀ p ∈ B, Extent p) : Bins b m' B := by
  refine h.congr_fields fun p hp x hlo hhi => hm p hp x hlo ?_
  have hmin := (hx p hp).min
  have hlarge : minLargeSize = 256 := rfl
  omega

theorem SmallBin.perm {m : Memory} {head i : Nat} {B B' : List (Nat × Nat)}
    (h : SmallBin m head i B)
    (hp : (B.filter (binNo ·.2 = i)).Perm (B'.filter (binNo ·.2 = i))) : SmallBin m head i B' := by
  obtain ⟨xs, hr, hxs⟩ := h
  exact ⟨xs, hr, hxs.trans hp⟩

theorem TreeBin.perm {m : Memory} {root i : Nat} {B B' : List (Nat × Nat)} (h : TreeBin m root i B)
    (hp : (B.filter (binNo ·.2 = 32 + i)).Perm (B'.filter (binNo ·.2 = 32 + i))) :
    TreeBin m root i B' := by
  obtain ⟨t, hr, ht, hxs⟩ := h
  exact ⟨t, hr, ht, hxs.trans hp⟩

theorem Bins.perm {b : BinTables} {m : Memory} {B B' : List (Nat × Nat)} (h : Bins b m B)
    (hp : B.Perm B') :
    Bins b m B' :=
  ⟨fun p hpm => h.sized p (hp.mem_iff.mpr hpm), fun p hpm => h.indexed p (hp.mem_iff.mpr hpm),
    fun i hi => (h.small i hi).perm (hp.filter _), fun i hi => (h.tree i hi).perm (hp.filter _),
    h.sbinmap_lt, h.sbinmap, h.tbinmap_lt, h.tbinmap⟩

-- ---------------------------------------------------------------------------
-- One bin exchanged
-- ---------------------------------------------------------------------------

section
variable {b : BinTables} {m m' : Memory} {B B' C : List (Nat × Nat)} {ys : List Nat}
  {i k n head map : Nat}

/-- An edit of the links of bin `k` only. -/
structure EditOf (k n : Nat) (C : List (Nat × Nat)) (ys : List Nat) (m m' : Memory) : Prop where
  extents : Extents C
  off : SameOutside n ys m m'
  le : n ≤ 28
  mem : ∀ y ∈ ys, ∃ p ∈ C, p.1 = y ∧ binNo p.2 = k ∧ n ≤ p.2

theorem EditOf.byte {p : Nat × Nat} {x : Nat} (h : EditOf k n C ys m m') (hp : p ∈ C)
    (hlo : p.1 + 4 ≤ x)
    (hhi : x < p.1 + p.2) (hx : binNo p.2 ≠ k ∨ x < p.1 + 8 ∨ p.1 + 28 ≤ x) : m' x = m x := by
  refine h.off x fun y hy => ?_
  obtain ⟨q, hq, rfl, hk, hn⟩ := h.mem y hy
  have hle := h.le
  by_cases he : p = q
  · subst he
    rcases hx with hx | hx
    · exact absurd hk hx
    · omega
  · have hap : p.1 + p.2 ≤ q.1 ∨ q.1 + q.2 ≤ p.1 := h.extents.apart p hp q hq he
    omega

theorem EditOf.sized (h : EditOf k n C ys m m') {p : Nat × Nat} (hp : p ∈ C) :
    getChunkSize m' p.1 = getChunkSize m p.1 := by
  have := (h.extents.extent p hp).min
  exact getChunkSize_congr fun x _ _ => h.byte hp (by omega) (by omega) (.inr (.inl (by omega)))

theorem EditOf.indexed (h : EditOf k n C ys m m') {p : Nat × Nat} (hp : p ∈ C)
    (hs : minLargeSize ≤ p.2) :
    index m' p.1 = index m p.1 := by
  have : minLargeSize = 256 := rfl
  exact Memory.load32_congr fun x _ _ => h.byte hp (by omega) (by omega) (.inr (.inr (by omega)))

theorem EditOf.fields (h : EditOf k n C ys m m') (hk : n ≤ 16 ∨ 32 ≤ k) : Fields C m m' := by
  intro x hx
  refine h.off x fun y hy => ?_
  obtain ⟨p, hp, rfl, hno, -⟩ := h.mem y hy
  have hle := h.le
  have hxp := hx p hp
  rcases hk with hk | hk
  · omega
  · have hlarge := (large_of_binNo (s := p.2) (i := k - 32) (by omega)).1
    omega

theorem EditOf.small (h : EditOf k n C ys m m') (hB : ∀ p ∈ B, p ∈ C) (hk : i ≠ k)
    (hbin : SmallBin m head i B) : SmallBin m' head i B := by
  refine hbin.congr fun p hp hno x _ _ => ?_
  have := (h.extents.extent p (hB p hp)).min
  exact h.byte (hB p hp) (by omega) (by omega) (.inl (hno ▸ hk))

theorem EditOf.tree (h : EditOf k n C ys m m') (hB : ∀ p ∈ B, p ∈ C) (hk : 32 + i ≠ k)
    (hbin : TreeBin m head i B) : TreeBin m' head i B := by
  refine hbin.congr fun p hp hno x _ _ => ?_
  have := (large_of_binNo hno).1
  have : minLargeSize = 256 := rfl
  exact h.byte (hB p hp) (by omega) (by omega) (.inl (hno ▸ hk))

theorem Bins.replace_small (h : Bins b m B) (he : EditOf i n C ys m m') (hi : i < 32)
    (hB : ∀ p ∈ B, p ∈ C) (hB' : ∀ p ∈ B', p ∈ C) (hsize : ∀ p ∈ B', getChunkSize m p.1 = p.2)
    (hidx : ∀ p ∈ B', minLargeSize ≤ p.2 → index m p.1 = calcTbin p.2)
    (hother : ∀ k, k ≠ i → (B.filter (binNo ·.2 = k)).Perm (B'.filter (binNo ·.2 = k)))
    (hbin : SmallBin m' head i B') (hmap : map < 4294967296)
    (hbit : ∀ j < 32, map.testBit j = if j = i then decide (head ≠ 0) else b.sbinmap.testBit j) :
    Bins { b with sbinmap := map, sbin := Function.update b.sbin i head } m' B' := by
  refine ⟨fun p hp => (he.sized (hB' p hp)).trans (hsize p hp),
    fun p hp hs => (he.indexed (hB' p hp) hs).trans (hidx p hp hs), fun j hj =>
    ?_, fun j hj => ?_, hmap,
    fun j hj => ?_, h.tbinmap_lt, h.tbinmap⟩
  · by_cases hji : j = i
    · subst hji
      simpa using hbin
    · simp only [Function.update_of_ne hji]
      exact (he.small hB hji (h.small j hj)).perm (hother j hji)
  · have hne : 32 + j ≠ i := by omega
    exact (he.tree hB hne (h.tree j hj)).perm (hother _ hne)
  · by_cases hji : j = i
    · subst hji
      simp [hbit j hj]
    · simp [hbit j hj, hji, h.sbinmap j hj]

theorem Bins.replace_tree (h : Bins b m B) (he : EditOf (32 + i) n C ys m m') (hB : ∀ p ∈ B, p ∈ C)
    (hB' : ∀ p ∈ B', p ∈ C) (hsize : ∀ p ∈ B', getChunkSize m p.1 = p.2)
    (hidx : ∀ p ∈ B', minLargeSize ≤ p.2 → index m p.1 = calcTbin p.2)
    (hother : ∀ k, k ≠ 32 + i → (B.filter (binNo ·.2 = k)).Perm (B'.filter (binNo ·.2 = k)))
    (hbin : TreeBin m' head i B') (hmap : map < 4294967296)
    (hbit : ∀ j < 32, map.testBit j = if j = i then decide (head ≠ 0) else b.tbinmap.testBit j) :
    Bins { b with tbinmap := map, tbin := Function.update b.tbin i head } m' B' := by
  refine ⟨fun p hp => (he.sized (hB' p hp)).trans (hsize p hp),
    fun p hp hs => (he.indexed (hB' p hp) hs).trans (hidx p hp hs), fun j hj => ?_, fun j hj => ?_,
    h.sbinmap_lt, h.sbinmap, hmap, fun j hj => ?_⟩
  · have hne : j ≠ 32 + i := by omega
    exact (he.small hB hne (h.small j hj)).perm (hother _ hne)
  · by_cases hji : j = i
    · subst hji
      simpa using hbin
    · simp only [Function.update_of_ne hji]
      exact (he.tree hB (by omega) (h.tree j hj)).perm (hother _ (by omega))
  · by_cases hji : j = i
    · subst hji
      simp [hbit j hj]
    · simp [hbit j hj, hji, h.tbinmap j hj]

end

end ElcoOs.Kmalloc
