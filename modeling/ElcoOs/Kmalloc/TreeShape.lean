import ElcoOs.Kmalloc.LastBin
import ElcoOs.Lib.TrieNodes

/-!
# The shape of a bin tree

What insertions and removals of chunks of one bin make of the links in memory,
from whatever order they come in: a trie on the bits of the sizes, with a ring
of the chunks of each size hanging on one node. Bin 0 has no lower bound here,
so that its sizes may differ above the bits of its trie; they are multiples of
eight, of which no more than three share those bits.
-/

namespace ElcoOs.Kmalloc

open Ring RingTree

variable {i a d s root size : Nat} {m m' : Memory} {B : List (Nat × Nat)} {t : RTree}

-- ---------------------------------------------------------------------------
-- Room
-- ---------------------------------------------------------------------------

theorem few_of_first_bin {k : Nat} {ks : List Nat} (hnd : ks.Nodup) (hk : k % 8 = 0)
    (hks : ∀ k' ∈ ks, k' % 8 = 0 ∧ k' < 384 ∧ ∀ j, 3 ≤ j → j < 7 → k'.testBit j = k.testBit j) :
    ks.length ≤ 3 := by
  have hsub : ks ⊆ [k % 128, k % 128 + 128, k % 128 + 256] := by
    intro k' hk'
    obtain ⟨h8, hlt, hbits⟩ := hks k' hk'
    have hmid : k' / 2 ^ 3 % 2 ^ 4 = k / 2 ^ 3 % 2 ^ 4 := by
      refine Nat.eq_of_testBit_eq fun j => ?_
      rw [Nat.testBit_mod_two_pow, Nat.testBit_mod_two_pow, Nat.testBit_div_two_pow,
        Nat.testBit_div_two_pow]
      by_cases hj : j < 4
      · rw [hbits (j + 3) (by omega) (by omega)]
      · simp [hj]
    simp only [List.mem_cons, List.not_mem_nil, or_false]
    omega
  exact (List.subperm_of_subset hnd hsub).length_le

theorem SizedTree.room (h : SizedTree (tbinDepth i) m root B t) (hi : i < 31)
    (hB : ∀ p ∈ B, calcTbin p.2 = i)
    (hs : calcTbin s = i) (h8 : s % 8 = 0) : Room s (tbinDepth i) t := by
  have hkey : ∀ k ∈ t.keys, calcTbin k = i ∧ k % 8 = 0 := by
    intro k hk
    obtain ⟨a, ha⟩ := RTree.mem_keys.mp hk
    refine ⟨hB _ (h.items.mem_iff.mp ha), ?_⟩
    have hmod := getChunkSize_mod m a
    rwa [h.keyed _ ha] at hmod
  by_cases h0 : i = 0
  · subst h0
    refine room_of_few (e := 3) h.trie (by decide) fun ks hnd hks =>
      few_of_first_bin hnd h8 fun k hk => ?_
    obtain ⟨hmem, hbits⟩ := hks k hk
    exact ⟨(hkey k hmem).2, lt_of_calcTbin_zero (hkey k hmem).1, hbits⟩
  · have hlarge : ∀ k, calcTbin k = i → 256 ≤ k := fun k hk => by
      by_contra hlt
      exact h0 (hk.symm.trans (calcTbin_small (by omega)))
    refine Agrees.room (fun k hk => ?_) h.trie
    have hbin := (hkey k hk).1
    have h1 := calcTbin_agree (hlarge k hbin) (by omega)
    have h2 := calcTbin_agree (hlarge s hs) (by omega)
    rw [hbin] at h1
    rw [hs] at h2
    rw [h1, h2]

-- ---------------------------------------------------------------------------
-- Runs
-- ---------------------------------------------------------------------------

/-- A chunk of the bin that is not in the tree and overlaps none that is goes
in, one that is there comes out, and nothing else writes their sizes and links. -/
def ShapeMay (i : Nat) (s : TreeState) : TreeAction → Prop
  | .insert chunk => calcTbin (getChunkSize s.mem chunk) = i ∧ chunk ∉ s.chunks.map Prod.fst ∧
      Spaced 32 (chunk :: s.chunks.map Prod.fst) ∧ Fits 32 (chunk :: s.chunks.map Prod.fst)
  | .remove chunk => chunk ∈ s.chunks.map Prod.fst
  | .other mem => ∀ a ∈ s.chunks.map Prod.fst,
      getChunkSize mem a = getChunkSize s.mem a ∧ (links s.mem).SameAt (links mem) a

def ShapeRun (i : Nat) (s : TreeState) : Prop :=
  Reach (fun s => s.root = 0 ∧ s.chunks = []) (treeStep i) (fun s a _ => ShapeMay i s a) s

/-- The tree holds the chunks of the state, which are of bin `i`. -/
structure TreeOk (i : Nat) (st : TreeState) (t : RTree) : Prop where
  tree : SizedTree (tbinDepth i) st.mem st.root st.chunks t
  bin : ∀ p ∈ st.chunks, calcTbin p.2 = i

theorem TreeOk.addrs {st : TreeState} (h : TreeOk i st t) : t.addrs.Perm (st.chunks.map Prod.fst) :=
  h.tree.items.map Prod.fst

theorem TreeOk.beside {st : TreeState} {chunk : Nat} (h : TreeOk i st t)
    (hmay : ShapeMay i st (.insert chunk)) :
    (chunk :: t.addrs).Nodup ∧ Spaced 32 (chunk :: t.addrs) ∧ Fits 32 (chunk :: t.addrs) := by
  obtain ⟨-, hnot, hs, hf⟩ := hmay
  have hperm := h.addrs.cons chunk
  refine ⟨List.nodup_cons.mpr ⟨fun hm => hnot (h.addrs.mem_iff.mp hm), h.tree.placed.nodup⟩,
    hs.sub fun a ha => hperm.mem_iff.mp ha, fun a ha => hf a (hperm.mem_iff.mp ha)⟩

theorem TreeOk.room {st : TreeState} {chunk : Nat} (h : TreeOk i st t) (hi : i < 31)
    (hmay : ShapeMay i st (.insert chunk)) : Room (getChunkSize st.mem chunk) (tbinDepth i) t :=
  h.tree.room hi h.bin hmay.1 (getChunkSize_mod st.mem chunk)

theorem TreeOk.step {st : TreeState} (h : TreeOk i st t) (hi : i < 31) (act : TreeAction)
    (hmay : ShapeMay i st act) :
    ∃ st' t', treeStep i st act = some st' ∧ TreeOk i st' t' := by
  cases act with
  | insert chunk =>
    obtain ⟨hnd, hs, hf⟩ := h.beside hmay
    refine ⟨_, _, rfl, (h.tree.insert (tbinDepth_pos i) rfl (h.room hi hmay) hnd hs hf).1,
      fun p hp => ?_⟩
    rcases List.mem_cons.mp hp with rfl | hp
    · exact hmay.1
    · exact h.bin p hp
  | remove chunk =>
    have hdepth := tbinDepth_eq i
    obtain ⟨⟨a, s⟩, hB, rfl⟩ := List.mem_map.mp hmay
    have hsize : getChunkSize st.mem a = s := h.tree.keyed _ (h.tree.items.mem_iff.mpr hB)
    obtain ⟨m', root', t', hres, htree, -⟩ := h.tree.remove (by omega) hB
    refine ⟨⟨m', root', st.chunks.erase (a, s)⟩, t', ?_, htree,
      fun p hp => h.bin p (List.mem_of_mem_erase hp)⟩
    simp only [treeStep, hres, hsize, Option.map_some]
  | other mem =>
    exact ⟨_, t, rfl, h.tree.congr fun a ha => hmay a (h.addrs.mem_iff.mp ha), h.bin⟩

theorem ShapeRun.treeOk {st : TreeState} (h : ShapeRun i st) (hi : i < 31) :
    ∃ t, TreeOk i st t := by
  refine Reach.invariant (p := fun st => ∃ t, TreeOk i st t) ?_ ?_ h
  · rintro ⟨mem, root, chunks⟩ ⟨hroot, hchunks⟩
    obtain rfl : root = 0 := hroot
    obtain rfl : chunks = [] := hchunks
    exact ⟨.leaf, .empty _ mem, by simp⟩
  · rintro st act st' ⟨t, ht⟩ hstep hmay
    obtain ⟨st'', t', hres, ht'⟩ := ht.step hi act hmay
    obtain rfl := Option.some.inj (hstep.symm.trans hres)
    exact ⟨t', ht'⟩

/-- Insertions and removals keep the bin tree a well-linked trie of rings that
holds the chunks inserted and not removed, every call returns, and no insertion
runs out of bits. -/
theorem tree_well_linked {st : TreeState} (h : ShapeRun i st) (hi : i ≤ 30) :
    WellLinked (links st.mem) (getChunkSize st.mem) (tbinDepth i) st.root (st.chunks.map Prod.fst) ∧
      (∀ act, ShapeMay i st act → ∃ st', treeStep i st act = some st') ∧
      ∀ chunk, ShapeMay i st (.insert chunk) →
        ∀ n ∈ treeInsertShifts st.mem chunk st.root (tbinDepth i), 0 ≤ n := by
  obtain ⟨t, ht⟩ := h.treeOk (by omega)
  refine ⟨?_, fun act hmay => ?_, fun chunk hmay => ?_⟩
  · exact (ht.tree.rep.wellLinked ht.tree.trie ht.tree.keyed ht.tree.placed.nodup).perm ht.addrs
  · obtain ⟨st', -, hres, -⟩ := ht.step (by omega) act hmay
    exact ⟨st', hres⟩
  · obtain ⟨hnd, hs, hf⟩ := ht.beside hmay
    exact (ht.tree.shifts_iff (tbinDepth_pos i)
      (List.nodup_cons.mp hnd).1 hs (hf chunk List.mem_cons_self).1).mpr
      (ht.room (by omega) hmay)

theorem TreeRun.shapeRun {st : TreeState} (h : TreeRun i st) (hi : i < 31) : ShapeRun i st := by
  induction h with
  | start h => exact .start h
  | @step st st' act h hnext hmay ih =>
    obtain ⟨t, ht⟩ := TreeRun.binTree h hi
    have haddrs : t.addrs.Perm (st.chunks.map Prod.fst) := ht.items.map Prod.fst
    refine .step ih hnext ?_
    cases act with
    | insert chunk =>
      obtain ⟨hlarge, hbin, hx⟩ := hmay
      obtain ⟨hnd, hs, hf⟩ := ht.beside hx hlarge
      have hperm := haddrs.cons chunk
      exact ⟨hbin, fun hm => (List.nodup_cons.mp hnd).1 (haddrs.mem_iff.mpr hm),
        hs.sub fun a ha => hperm.mem_iff.mpr ha, fun a ha => hf a (hperm.mem_iff.mpr ha)⟩
    | remove chunk => exact List.mem_map.mpr ⟨_, hmay, rfl⟩
    | other mem =>
      intro a ha
      obtain ⟨p, hp, rfl, hlarge⟩ := ht.mem (haddrs.mem_iff.mpr ha)
      exact ⟨getChunkSize_congr fun x _ _ => hmay p hp x (by omega) (by omega),
        links_sameAt fun x _ _ => hmay p hp x (by omega) (by omega)⟩

theorem tree_well_linked_twoNodes :
    WellLinked (links twoNodes.mem) (getChunkSize twoNodes.mem)
      (tbinDepth 0) twoNodes.root (twoNodes.chunks.map Prod.fst) ∧
      (∀ act, ShapeMay 0 twoNodes act → ∃ st', treeStep 0 twoNodes act = some st') ∧
      ∀ chunk, ShapeMay 0 twoNodes (.insert chunk) →
        ∀ n ∈ treeInsertShifts twoNodes.mem chunk twoNodes.root (tbinDepth 0), 0 ≤ n :=
  tree_well_linked (twoNodes_run.shapeRun (by decide)) (by decide)

-- ---------------------------------------------------------------------------
-- Smallest
-- ---------------------------------------------------------------------------

theorem getSmallestLoop_path {fuel cur sc ss b : Nat}
    (h : kmallocTreeGetSmallestLoop m fuel cur sc ss = some b)
    (h0 : cur ≠ 0) : b = sc ∨ ∃ q, AtPath (links m) cur q b := by
  induction fuel generalizing cur sc ss with
  | zero => cases h
  | succ fuel ih =>
    rw [kmallocTreeGetSmallestLoop] at h
    by_cases hleave : ktchunkIsLeave m cur
    · rw [if_pos hleave] at h
      exact .inl (Option.some.inj h).symm
    rw [if_neg hleave] at h
    obtain ⟨dir, hchild, hne⟩ : ∃ dir, (if left m cur ≠ 0 then left m cur else right m cur) =
      (links m).child dir cur ∧
        (links m).child dir cur ≠ 0 := by
      by_cases hl : left m cur = 0
      · exact ⟨true, if_neg (not_not_intro hl), fun hr => hleave ⟨hl, hr⟩⟩
      · exact ⟨false, if_pos hl, hl⟩
    simp only [hchild] at h
    split at h
    · rcases ih h hne with rfl | ⟨q, hq⟩
      · exact .inr ⟨[dir], .down h0 (.here hne)⟩
      · exact .inr ⟨dir :: q, .down h0 hq⟩
    · rcases ih h hne with rfl | ⟨q, hq⟩
      · exact .inl rfl
      · exact .inr ⟨dir :: q, .down h0 hq⟩

theorem getSmallest_path {cur b : Nat} (h : kmallocTreeGetSmallest m cur = some b) (h0 : cur ≠ 0) :
    ∃ q, AtPath (links m) cur q b := by
  rw [kmallocTreeGetSmallest, if_neg h0] at h
  rcases getSmallestLoop_path h h0 with rfl | hq
  · exact ⟨[], .here h0⟩
  · exact hq

theorem BinTree.smallest {n : Nat} {p : List Bool} (h : BinTree i m root B t) (hi : i < 31)
    (hn : AtPath (links m) root p n) :
    ∃ b q, kmallocTreeGetSmallest m n = some b ∧ AtPath (links m) n q b ∧
      ∀ c, Linked (links m) n c → getChunkSize m b ≤ getChunkSize m c := by
  have hdepth := tbinDepth_eq i
  obtain ⟨par, rest, k, l, r, hsub, hrep⟩ := h.rep.atPath hn
  have hne : t.subtree p ≠ .leaf := by simp [hsub]
  have hkeyed : Keyed m (t.subtree p) := fun x hx => h.keyed x ((subtree_sublist p).subset hx)
  obtain ⟨b, k, hb, hitem, hleast⟩ :=
    getSmallest_least hrep hne (h.trie.subtree hne).2.1 ((h.uniform hi).subtree h.trie)
    hkeyed (by omega)
  obtain ⟨q, hq⟩ := getSmallest_path hb hn.ne_zero.2
  refine ⟨b, q, hb, hq, fun c hc => ?_⟩
  obtain ⟨⟨c', k'⟩, hx, rfl⟩ := List.mem_map.mp (hrep.linked_iff.mp hc)
  have hle := hleast k' (RTree.mem_keys.mpr ⟨c', hx⟩)
  rw [hkeyed _ hitem, hkeyed _ hx]
  exact hle

theorem lt_of_calcTbin_lt {s c : Nat} (h : calcTbin s < calcTbin c) : s < c := by
  by_contra hle
  exact absurd (calcTbin_mono (Nat.le_of_not_lt hle)) (Nat.not_le.mpr h)

-- ---------------------------------------------------------------------------
-- Smallest of all bins
-- ---------------------------------------------------------------------------

/-- The tree bins in one memory, each with the chunks it holds. -/
structure TreeBins where
  mem : Memory
  root : Nat → Nat
  chunks : Nat → List (Nat × Nat)

def TreeBins.state (b : TreeBins) (i : Nat) : TreeState := ⟨b.mem, b.root i, b.chunks i⟩

/-- The request has tree bin `i` as its own: smaller ones have a small bin. -/
def OwnBin (size i : Nat) : Prop := minLargeSize ≤ size ∧ calcTbin size = i

def AboveOwn (size i : Nat) : Prop := minLargeSize ≤ size → calcTbin size < i

theorem TreeRun.bin {st : TreeState} (h : TreeRun i st) : ∀ p ∈ st.chunks, minLargeSize ≤ p.2 ∧
    calcTbin p.2 = i := by
  refine Reach.invariant (p := fun st : TreeState => ∀ p ∈ st.chunks, minLargeSize ≤ p.2 ∧
    calcTbin p.2 = i) ?_ ?_ h
  · rintro st ⟨-, hchunks⟩
    simp [hchunks]
  · intro st act st' hst hstep hmay
    cases act with
    | insert chunk =>
      cases hstep
      intro p hp
      rcases List.mem_cons.mp hp with rfl | hp
      · exact ⟨hmay.1, hmay.2.1⟩
      · exact hst p hp
    | remove chunk =>
      obtain ⟨r, -, rfl⟩ := Option.map_eq_some_iff.mp hstep
      exact fun p hp => hst p (List.mem_of_mem_erase hp)
    | other mem =>
      cases hstep
      exact hst

theorem BinTree.none_fits (h : BinTree i m root B t) (hi : i < 31) (hown : OwnBin size i)
    (hres : kmallocTreeGetBestFit m size root (tbinDepth i) = some 0) : ∀ p ∈ B, p.2 < size := by
  have hdepth := tbinDepth_eq i
  have hag := h.agrees hi hown.1 hown.2
  obtain ⟨a, hres', -, hnull⟩ := kmallocTreeGetBestFit_spec h.rep h.trie (tbinDepth_pos i)
    (by omega) h.keyed h.placed
    hag.atLeast
  cases hres.symm.trans hres'
  intro p hp
  have hk : p.2 ∈ t.keys := RTree.mem_keys.mpr ⟨p.1, h.items.mem_iff.mpr hp⟩
  exact (hnull rfl).1 p.2 hk (hag p.2 hk)

/-- In any subtree of a bin the search finds a least chunk, the bins are in the
order of their sizes, and what the search finds in the lowest bin in use above
the own bin of a request is the least chunk that fits outside that bin, and the
least of all that fit when the search of the own bin came back with nothing. -/
theorem smallest_of_bins {b : TreeBins} (h : ∀ i < 32, TreeRun i (b.state i)) :
    (∀ i ≤ 30, ∀ p n, AtPath (links b.mem) (b.root i) p n →
      ∃ a q, kmallocTreeGetSmallest b.mem n = some a ∧ AtPath (links b.mem) n q a ∧
        ∀ c, Linked (links b.mem) n c → getChunkSize b.mem a ≤ getChunkSize b.mem c) ∧
    (∀ i j, i < j → j < 32 → ∀ p ∈ b.chunks i, ∀ q ∈ b.chunks j, p.2 < q.2) ∧
    ∀ size j, j ≤ 30 → AboveOwn size j → b.root j ≠ 0 → (∀ i < j, AboveOwn size i → b.root i = 0) →
      ∃ a s, kmallocTreeGetSmallest b.mem (b.root j) = some a ∧ (a, s) ∈ b.chunks j ∧ size < s ∧
        (∀ i < 32, ∀ p ∈ b.chunks i, size ≤ p.2 → ¬ OwnBin size i → s ≤ p.2) ∧
        ∀ i, OwnBin size i → kmallocTreeGetBestFit b.mem size (b.root i) (tbinDepth i) = some 0 →
          ∀ i < 32, ∀ p ∈ b.chunks i, size ≤ p.2 → s ≤ p.2 := by
  have hbin : ∀ i < 32, ∀ p ∈ b.chunks i, minLargeSize ≤ p.2 ∧ calcTbin p.2 = i :=
    fun i hi => (h i hi).bin
  refine ⟨fun i hi p n hn => ?_, fun i j hij hj p hp q hq => ?_,
    fun size j hj habove hroot hlow => ?_⟩
  · obtain ⟨t, ht⟩ := (h i (by omega)).binTree (by omega)
    exact BinTree.smallest ht (by omega) hn
  · refine lt_of_calcTbin_lt ?_
    rw [(hbin i (by omega) p hp).2, (hbin j hj q hq).2]
    exact hij
  · have hdepth := tbinDepth_eq j
    obtain ⟨t, ht⟩ := (h j (by omega)).binTree (by omega)
    have hleaf : t ≠ .leaf := fun he => hroot (ht.rep.null_iff.mpr he)
    obtain ⟨a, s, ha, hitem, hleast⟩ :=
      getSmallest_least ht.rep hleaf ht.trie (ht.uniform (by omega)) ht.keyed (by omega)
    have has : (a, s) ∈ b.chunks j := ht.items.mem_iff.mp hitem
    obtain ⟨hlarge, hs⟩ := hbin j (by omega) (a, s) has
    have hfit : size < s := by
      by_cases hsize : minLargeSize ≤ size
      · refine lt_of_calcTbin_lt ?_
        rw [show calcTbin s = j from hs]
        exact habove hsize
      · simp only at hlarge
        omega
    have hother : ∀ i < 32, ∀ p ∈ b.chunks i, size ≤ p.2 → ¬ OwnBin size i → s ≤ p.2 := by
      intro i hi p hp hle hown
      obtain ⟨-, hpi⟩ := hbin i hi p hp
      by_cases hi' : AboveOwn size i
      · -- lower bins are empty, higher ones hold larger chunks
        rcases Nat.lt_trichotomy i j with hij | rfl | hij
        · obtain ⟨t', ht'⟩ := (h i hi).binTree (by omega)
          obtain rfl : t' = .leaf := ht'.rep.null_iff.mp (hlow i hij hi')
          exact absurd (ht'.items.mem_iff.mpr hp) (by simp [RTree.items])
        · exact hleast p.2 (RTree.mem_keys.mpr ⟨p.1, ht.items.mem_iff.mpr hp⟩)
        · refine Nat.le_of_lt (lt_of_calcTbin_lt ?_)
          rw [show calcTbin s = j from hs, hpi]
          exact hij
      · -- what is below the own bin is too small
        obtain ⟨hsize, hge⟩ : minLargeSize ≤ size ∧ i ≤ calcTbin size := by
          simpa [AboveOwn] using hi'
        have hne : calcTbin size ≠ i := fun he => hown ⟨hsize, he⟩
        have hmono := calcTbin_mono hle
        omega
    refine ⟨a, s, ha, has, hfit, hother, fun own hown hnull i hi p hp hle => ?_⟩
    by_cases ho : OwnBin size i
    · obtain rfl : own = i := hown.2.symm.trans ho.2
      have habove := habove hown.1
      rw [hown.2] at habove
      obtain ⟨t', ht'⟩ := (h own hi).binTree (by omega)
      exact absurd (ht'.none_fits (by omega) hown hnull p hp) (Nat.not_lt.mpr hle)
    · exact hother i hi p hp hle ho

/-- The two chunks of `twoNodes` in bin 0 and nothing in the others. -/
def twoNodesBins : TreeBins :=
  ⟨twoNodes.mem, fun i => if i = 0 then twoNodes.root else 0, fun i => if i = 0 then
  twoNodes.chunks else []⟩

theorem twoNodesBins_runs : ∀ i < 32, TreeRun i (twoNodesBins.state i) := by
  intro i _
  by_cases hi : i = 0
  · subst hi
    exact twoNodes_run
  · exact .start ⟨if_neg hi, if_neg hi⟩

theorem smallest_of_bins_twoNodes :
    ∃ a s, kmallocTreeGetSmallest twoNodes.mem twoNodes.root = some a ∧ (a, s) ∈ twoNodes.chunks ∧
      100 < s := by
  obtain ⟨a, s, ha, hs, hlt, -⟩ := (smallest_of_bins twoNodesBins_runs).2.2 100 0 (by decide)
    (fun hlarge => absurd hlarge (by decide)) (by decide +kernel) (by simp)
  exact ⟨a, s, ha, hs, hlt⟩

end ElcoOs.Kmalloc
