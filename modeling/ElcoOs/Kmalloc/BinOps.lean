import ElcoOs.Kmalloc.Bins

/-!
# Binning and unbinning

One lemma for each operation on the bins: what list of chunks they hold
afterwards, and that only words of those chunks that the bins go by are written.
-/

namespace ElcoOs.Kmalloc

open Word32 Ring RingTree

variable {ε : Type}

-- ---------------------------------------------------------------------------
-- Records of a bin
-- ---------------------------------------------------------------------------

section
variable {B C : List (Nat × Nat)} {ys : List Nat} {a s n k : Nat} {m : Memory}

theorem Extents.spaced (h : Extents C) (hys : ∀ y ∈ ys, ∃ p ∈ C, p.1 = y ∧ n ≤ p.2) :
    Spaced n ys := by
  intro a ha b hb
  obtain ⟨p, hp, rfl, hpn⟩ := hys a ha
  obtain ⟨q, hq, rfl, hqn⟩ := hys b hb
  by_cases he : p = q
  · exact .inl (he ▸ rfl)
  · have hap : p.1 + p.2 ≤ q.1 ∨ q.1 + q.2 ≤ p.1 := h.apart p hp q hq he
    omega

theorem Extents.fits (h : Extents C) (hys : ∀ y ∈ ys, ∃ p ∈ C, p.1 = y ∧ n ≤ p.2) : Fits n ys := by
  intro a ha
  obtain ⟨p, hp, rfl, hpn⟩ := hys a ha
  have := (h.extent p hp).fits
  exact ⟨(h.extent p hp).pos, by omega⟩

theorem Extents.eq_of_fst (h : Extents C) (hp : p ∈ C) (hq : q ∈ C) (he : p.1 = q.1) : p = q := by
  by_contra hne
  have hap : p.1 + p.2 ≤ q.1 ∨ q.1 + q.2 ≤ p.1 := h.apart p hp q hq hne
  have := (h.extent p hp).min
  have := (h.extent q hq).min
  omega

theorem Extents.fst_nodup (h : Extents C) : (C.map Prod.fst).Nodup :=
  h.nodup.map_on fun _ hp _ hq he => h.eq_of_fst hp hq he

theorem size_of_smallIndex (ha : s % 8 = 0) : 8 * smallIndex s = s := by
  rw [smallIndex_eq]
  omega

theorem filter_cons_same (h : binNo s = k) :
    ((a, s) :: B).filter (binNo ·.2 = k) = (a, s) :: B.filter (binNo ·.2 = k) := by
  rw [List.filter_cons_of_pos (by simpa using h)]

theorem filter_cons_other (h : binNo s ≠ k) :
    ((a, s) :: B).filter (binNo ·.2 = k) = B.filter (binNo ·.2 = k) := by
  rw [List.filter_cons_of_neg (by simpa using h)]

theorem SmallBin.mem {i : Nat} (hB : ∀ p ∈ B, p ∈ C) (hx : Extents C)
    (hxs : (ys.map (·, 8 * i)).Perm (B.filter (binNo ·.2 = i))) {y : Nat} (hy : y ∈ ys) :
    ∃ p ∈ C, p.1 = y ∧ binNo p.2 = i ∧ 16 ≤ p.2 := by
  have hf := List.mem_filter.mp (hxs.mem_iff.mp (List.mem_map.mpr ⟨y, hy, rfl⟩))
  exact ⟨_, hB _ hf.1, rfl, by simpa using hf.2, (hx.extent _ (hB _ hf.1)).min⟩

theorem TreeBin.mem {t : RTree} {i : Nat} (hB : ∀ p ∈ B, p ∈ C)
    (hxs : t.items.Perm (B.filter (binNo ·.2 = 32 + i))) {y : Nat} (hy : y ∈ t.addrs) :
    ∃ p ∈ C, p.1 = y ∧ binNo p.2 = 32 + i ∧ 256 ≤ p.2 := by
  obtain ⟨p, hp, rfl⟩ := List.mem_map.mp hy
  have hf := List.mem_filter.mp (hxs.mem_iff.mp hp)
  have hno : binNo p.2 = 32 + i := by simpa using hf.2
  exact ⟨p, hB p hf.1, rfl, hno, (large_of_binNo hno).1⟩

theorem TreeBin.keyed {b : BinTables} {t : RTree} {i : Nat} (h : Bins b m B)
    (hxs : t.items.Perm (B.filter (binNo ·.2 = 32 + i))) : Keyed m t :=
  fun x hx => h.sized x (List.mem_of_mem_filter (hxs.mem_iff.mp hx))

theorem TreeBin.placed {t : RTree} {i : Nat} (hx : Extents B)
    (hxs : t.items.Perm (B.filter (binNo ·.2 = 32 + i))) : Placed t.addrs := by
  have hmem : ∀ y ∈ t.addrs, ∃ p ∈ B, p.1 = y ∧ 32 ≤ p.2 := by
    intro y hy
    obtain ⟨p, hp, he, -, hs⟩ := TreeBin.mem (fun _ hp => hp) hxs hy
    exact ⟨p, hp, he, by omega⟩
  refine ⟨?_, hx.spaced hmem, hx.fits hmem⟩
  exact (hxs.map Prod.fst).nodup_iff.mpr (hx.sublist List.filter_sublist).fst_nodup

end

-- ---------------------------------------------------------------------------
-- Binning
-- ---------------------------------------------------------------------------

/-- The trie of the last bin has room for the size: it is not one of that bin,
or few chunks are there, or all there agree with it above bit 22. -/
def Accepts (B : List (Nat × Nat)) (s : Nat) : Prop :=
  s < 0xC00000 ∨ (B.filter (0xC00000 ≤ ·.2)).length ≤ 22 ∨
    ∀ p ∈ B, 0xC00000 ≤ p.2 → p.2 / 2 ^ 22 = s / 2 ^ 22

theorem Accepts.mono {B B' : List (Nat × Nat)} {s : Nat} (h : Accepts B s) (hs : B'.Subperm B) :
    Accepts B' s := by
  rcases h with h | h | h
  · exact .inl h
  · exact .inr (.inl (Nat.le_trans (hs.filter _).length_le h))
  · exact .inr (.inr fun p hp => h p (hs.subset hp))

section
variable {B B' : List (Nat × Nat)} {a s : Nat} {w : World ε}

theorem TreeBin.room {t : RTree} (hs : minLargeSize ≤ s)
    (hxs : t.items.Perm (B.filter (binNo ·.2 = 32 + calcTbin s)))
    (ht : Trie (tbinDepth (calcTbin s)) t)
    (hacc : Accepts B s) : Room s (tbinDepth (calcTbin s)) t := by
  have hkeys : ∀ k ∈ t.keys, ∃ p ∈ B, p.2 = k ∧ minLargeSize ≤ k ∧ calcTbin k = calcTbin s := by
    intro k hk
    obtain ⟨y, hy⟩ := RTree.mem_keys.mp hk
    have hf := List.mem_filter.mp (hxs.mem_iff.mp hy)
    obtain ⟨h1, h2⟩ := large_of_binNo (by simpa using hf.2)
    exact ⟨(y, k), hf.1, rfl, h1, h2⟩
  have hcase : calcTbin s < 31 ∨ calcTbin s = 31 := by
    have := calcTbin_lt s
    omega
  rcases hcase with hlt | h31
  · refine Agrees.room (fun k hk => ?_) ht
    obtain ⟨-, -, -, hlo, hbin⟩ := hkeys k hk
    have h1 := calcTbin_agree hlo (hbin ▸ hlt)
    rw [hbin] at h1
    rw [h1, calcTbin_agree hs hlt]
  · have hd : tbinDepth (calcTbin s) = 22 := by rw [h31]; rfl
    rcases hacc with hlow | hfew | hsame
    · have := calcTbin_lt_31.mpr hlow
      omega
    · refine room_of_length ?_
      rw [hd]
      refine Nat.le_trans t.length_keys_le (Nat.le_trans ?_ hfew)
      rw [hxs.length_eq]
      refine (List.Sublist.length_le ?_)
      refine List.monotone_filter_right B fun p hp => ?_
      have := (large_of_binNo (s := p.2) (by simpa using hp)).2
      simpa using calcTbin_eq_31.mp (this.trans h31)
    · refine Agrees.room (fun k hk => ?_) ht
      obtain ⟨p, hp, rfl, -, hbin⟩ := hkeys k hk
      rw [hd]
      exact hsame p hp (calcTbin_eq_31.mp (hbin.trans h31))

theorem testBit_added {map i j head : Nat} (h0 : head ≠ 0) :
    (map ||| 1 <<< i).testBit j = if j = i then decide (head ≠ 0) else map.testBit j := by
  rw [testBit_setBit]
  by_cases hji : j = i
  · simp [hji, h0]
  · have hne : i ≠ j := fun he => hji he.symm
    simp [hji, hne]

theorem binChunk_small (h : Bins w.kmstate.bins w.mem B) (hx : Extents ((a, s) :: B))
    (hsize : getChunkSize w.mem a = s) (hs : s < minLargeSize) :
    ∃ b m', binChunk w a = some (w.setBins b m') ∧ Bins b m' ((a, s) :: B) ∧
      Fields ((a, s) :: B) w.mem m' := by
  have hi := smallIndex_lt hs
  have hno := binNo_small hs
  have hxa := hx.extent (a, s) List.mem_cons_self
  have hsub : ∀ p ∈ B, p ∈ (a, s) :: B := fun p hp => List.mem_cons_of_mem _ hp
  obtain ⟨xs, hr, hxs⟩ := h.small (smallIndex s) hi
  have hmem : ∀ y ∈ a :: xs, ∃ p ∈ (a, s) :: B, p.1 = y ∧ binNo p.2 = smallIndex s ∧ 16 ≤ p.2 := by
    intro y hy
    rcases List.mem_cons.mp hy with rfl | hy
    · exact ⟨_, List.mem_cons_self, rfl, hno, hxa.min⟩
    · exact SmallBin.mem hsub hx hxs hy
  have hmem16 : ∀ y ∈ a :: xs, ∃ p ∈ (a, s) :: B, p.1 = y ∧ 16 ≤ p.2 := fun y hy => by
    obtain ⟨p, hp, he, -, hn⟩ := hmem y hy
    exact ⟨p, hp, he, hn⟩
  have hnew : a ∉ xs := by
    intro ha
    have hf := List.mem_of_mem_filter (hxs.mem_iff.mp (List.mem_map.mpr ⟨a, ha, rfl⟩))
    have heq := hx.eq_of_fst List.mem_cons_self (hsub _ hf) rfl
    exact (List.nodup_cons.mp hx.nodup).1 (heq ▸ hf)
  obtain ⟨hring, hoff⟩ := kmallocDllistAdd_spec hr hnew (hx.spaced hmem16) (hx.fits hmem16)
  generalize hadd : kmallocDllistAdd w.mem a (w.kmstate.bins.sbin (smallIndex s)) = r at hring hoff
  have hedit : EditOf (smallIndex s) 16 ((a, s) :: B) (a :: xs) w.mem r.1 :=
    ⟨hx, hoff, by omega, hmem⟩
  have hhead : r.2 ≠ 0 := hring.head ▸ hxa.pos
  refine ⟨{ w.kmstate.bins with
      sbinmap := w.kmstate.sbinmap ||| 1 <<< smallIndex s
      sbin := Function.update w.kmstate.sbin (smallIndex s) r.2 }, r.1, ?_, ?_,
        hedit.fields (.inl (Nat.le_refl _))⟩
  · rw [binChunk, hsize]
    simp only [if_pos hs, guard, if_pos (show smallIndex s < nsbins from hi)]
    subst hadd
    rfl
  · refine h.replace_small hedit hi hsub (fun _ hp => hp) ?_ ?_ ?_ ⟨a :: xs, hring, ?_⟩
      (setBit_lt h.sbinmap_lt hi) fun j _ => testBit_added hhead
    · intro p hp
      rcases List.mem_cons.mp hp with rfl | hp
      · exact hsize
      · exact h.sized p hp
    · intro p hp hlg
      rcases List.mem_cons.mp hp with rfl | hp
      · exact absurd hs (Nat.not_lt.mpr hlg)
      · exact h.indexed p hp hlg
    · exact fun k hk => by rw [filter_cons_other (fun he => hk (he.symm.trans hno))]
    · rw [size_of_smallIndex (s := s) hxa.align] at hxs ⊢
      rw [filter_cons_same hno]
      exact hxs.cons _

theorem binChunk_large (h : Bins w.kmstate.bins w.mem B) (hx : Extents ((a, s) :: B))
    (hsize : getChunkSize w.mem a = s) (hs : minLargeSize ≤ s) (hacc : Accepts B s) :
    ∃ b m', binChunk w a = some (w.setBins b m') ∧ Bins b m' ((a, s) :: B) ∧
      Fields ((a, s) :: B) w.mem m' := by
  have hi := calcTbin_lt s
  have hno := binNo_large hs
  have hxa := hx.extent (a, s) List.mem_cons_self
  have hfits : a + s ≤ 4294967296 := hxa.fits
  have h256 : 256 ≤ s := hs
  have hsub : ∀ p ∈ B, p ∈ (a, s) :: B := fun p hp => List.mem_cons_of_mem _ hp
  have hnotin : (a, s) ∉ B := (List.nodup_cons.mp hx.nodup).1
  -- the index is written first
  have hindex : Fields ((a, s) :: B) w.mem (setIndex w.mem a (calcTbin s)) := by
    intro x hx
    have := hx (a, s) List.mem_cons_self
    have hlarge : minLargeSize = 256 := rfl
    simp only at this
    exact Memory.store32_apply (by omega)
  have hh : Bins w.kmstate.bins (setIndex w.mem a (calcTbin s)) B := by
    refine h.congr (fun p hp x hlo hhi => Memory.store32_apply ?_) fun p hp =>
      hx.extent p (hsub p hp)
    have hap := hx.apart (a, s) List.mem_cons_self p (hsub p hp) (fun he => hnotin (he ▸ hp))
    simp only [Apart] at hap
    omega
  have hsize' : getChunkSize (setIndex w.mem a (calcTbin s)) a = s := by
    rw [← hsize]
    exact getChunkSize_congr fun x _ _ => Memory.store32_apply (by omega)
  have hidx' : index (setIndex w.mem a (calcTbin s)) a = calcTbin s :=
    Memory.load32_store32_same (by omega)
  obtain ⟨t, hr, ht, hxs⟩ := hh.tree (calcTbin s) hi
  have hmem : ∀ y ∈ a :: t.addrs, ∃ p ∈ (a, s) :: B, p.1 = y ∧ binNo p.2 = 32 + calcTbin s ∧
    256 ≤ p.2 := by
    intro y hy
    rcases List.mem_cons.mp hy with rfl | hy
    · exact ⟨_, List.mem_cons_self, rfl, hno, hs⟩
    · exact TreeBin.mem hsub hxs hy
  have hmem32 : ∀ y ∈ a :: t.addrs, ∃ p ∈ (a, s) :: B, p.1 = y ∧ 32 ≤ p.2 := fun y hy => by
    obtain ⟨p, hp, he, -, hn⟩ := hmem y hy
    exact ⟨p, hp, he, by omega⟩
  have hnd : (a :: t.addrs).Nodup := by
    refine List.nodup_cons.mpr ⟨fun hm => ?_,
      (TreeBin.placed (hx.sublist (List.sublist_cons_self _ _)) hxs).nodup⟩
    obtain ⟨p, hp, rfl⟩ := List.mem_map.mp hm
    have hpB := List.mem_of_mem_filter (hxs.mem_iff.mp hp)
    exact hnotin (hx.eq_of_fst (q := p) List.mem_cons_self (hsub p hpB) rfl ▸ hpB)
  have hdepth : 0 < tbinDepth (calcTbin s) := by
    rw [tbinDepth_eq]
    omega
  obtain ⟨hrep, hoff⟩ := kmallocTreeInsert_spec a hr hdepth (TreeBin.keyed hh hxs)
    (hsize'.symm ▸ TreeBin.room hs hxs ht hacc) hnd (hx.spaced hmem32) (hx.fits hmem32)
  rw [hsize'] at hrep
  generalize hins :
    kmallocTreeInsert (setIndex w.mem a (calcTbin s)) a (w.kmstate.bins.tbin (calcTbin s))
    (tbinDepth (calcTbin s)) = r at hrep hoff
  have hedit : EditOf (32 + calcTbin s) 28 ((a, s) :: B) (a :: t.addrs)
    (setIndex w.mem a (calcTbin s)) r.1 :=
    ⟨hx, hoff, by omega, fun y hy => by
      obtain ⟨p, hp, he, hb, hn⟩ := hmem y hy
      exact ⟨p, hp, he, hb, by omega⟩⟩
  have hroom := TreeBin.room hs hxs ht hacc
  have hroot : r.2 ≠ 0 := by
    intro h0
    have hleaf := hrep.null_iff.mp h0
    have := (items_insert (a := a) hroom).length_eq
    simp [hleaf, RTree.items] at this
  refine ⟨{ w.kmstate.bins with
      tbinmap := w.kmstate.tbinmap ||| 1 <<< calcTbin s
      tbin := Function.update w.kmstate.tbin (calcTbin s) r.2 }, r.1, ?_, ?_,
        hindex.trans (hedit.fields (.inr (Nat.le_add_right ..)))⟩
  · rw [binChunk, hsize]
    simp only [if_neg (Nat.not_lt.mpr hs), guard, if_pos (show calcTbin s < ntbins from hi)]
    subst hins
    rfl
  · refine hh.replace_tree hedit hsub (fun _ hp => hp) ?_ ?_ ?_ ⟨_, hrep, Trie.insert hroom ht, ?_⟩
      (setBit_lt h.tbinmap_lt hi) fun j _ => testBit_added hroot
    · intro p hp
      rcases List.mem_cons.mp hp with rfl | hp
      · exact hsize'
      · exact hh.sized p hp
    · intro p hp hlg
      rcases List.mem_cons.mp hp with rfl | hp
      · exact hidx'
      · exact hh.indexed p hp hlg
    · exact fun k hk => by rw [filter_cons_other (fun he => hk (he.symm.trans hno))]
    · rw [filter_cons_same hno]
      exact (items_insert hroom).trans (hxs.cons _)

theorem binChunk_spec (h : Bins w.kmstate.bins w.mem B) (hx : Extents ((a, s) :: B))
    (hsize : getChunkSize w.mem a = s) (hacc : Accepts B s) :
    ∃ b m', binChunk w a = some (w.setBins b m') ∧ Bins b m' ((a, s) :: B) ∧
      Fields ((a, s) :: B) w.mem m' := by
  by_cases hs : s < minLargeSize
  · exact binChunk_small h hx hsize hs
  · exact binChunk_large h hx hsize (Nat.le_of_not_lt hs) hacc

-- ---------------------------------------------------------------------------
-- Unbinning
-- ---------------------------------------------------------------------------

theorem testBit_cleared {map i j head : Nat} (hi : i < 32) (hj : j < 32)
    (hbit : map.testBit i = true) :
    (if head = 0 then map &&& not32 (1 <<< i) else map).testBit j =
      if j = i then decide (head ≠ 0) else map.testBit j := by
  by_cases h0 : head = 0
  · rw [if_pos h0, testBit_clearBit map hi hj]
    by_cases hji : j = i
    · simp [hji, h0]
    · have hne : i ≠ j := fun he => hji he.symm
      simp [hji, hne]
  · rw [if_neg h0]
    by_cases hji : j = i
    · simp [hji, h0, hbit]
    · simp [hji]

theorem cleared_lt {map i head : Nat} (h : map < 4294967296) :
    (if head = 0 then map &&& not32 (1 <<< i) else map) < 4294967296 := by
  split
  · exact and_lt h
  · exact h

theorem filter_other (hp : B.Perm ((a, s) :: B')) (k : Nat) (hk : binNo s ≠ k) :
    (B.filter (binNo ·.2 = k)).Perm (B'.filter (binNo ·.2 = k)) := by
  have := hp.filter (binNo ·.2 = k)
  rwa [filter_cons_other hk] at this

theorem clearSbin_eq (w : World ε) (m : Memory) (i head : Nat) :
    clearSbin ((w.setMem m).setSbin i head) i = w.setBins { w.kmstate.bins with
      sbinmap := if head = 0 then w.kmstate.bins.sbinmap &&& not32 (1 <<< i) else
        w.kmstate.bins.sbinmap
      sbin := Function.update w.kmstate.bins.sbin i head } m := by
  have hhead : ((w.setMem m).setSbin i head).kmstate.sbin i = head := Function.update_self ..
  rw [clearSbin, hhead]
  split <;> rfl

theorem clearTbin_eq (w : World ε) (m : Memory) (i root : Nat) :
    clearTbin ((w.setMem m).setTbin i root) i = w.setBins { w.kmstate.bins with
      tbinmap := if root = 0 then w.kmstate.bins.tbinmap &&& not32 (1 <<< i) else
        w.kmstate.bins.tbinmap
      tbin := Function.update w.kmstate.bins.tbin i root } m := by
  have hroot : ((w.setMem m).setTbin i root).kmstate.tbin i = root := Function.update_self ..
  rw [clearTbin, hroot]
  split <;> rfl

theorem Bins.unlink_small {b : BinTables} {m m' : Memory} {post : List Nat} {head : Nat}
    (pre : List Nat) (h : Bins b m B)
    (hx : Extents B) (hp : B.Perm ((a, s) :: B')) (hs : s < minLargeSize)
    (hxs : ((pre ++ a :: post).map (·, 8 * smallIndex s)).Perm
      (B.filter (binNo ·.2 = smallIndex s)))
    (hbin : b.sbin (smallIndex s) ≠ 0) (hring : RingList m' head (pre ++ post))
    (hoff : SameOutside 16 (pre ++ a :: post) m m') :
    Bins { b with
        sbinmap := if head = 0 then b.sbinmap &&& not32 (1 <<< smallIndex s) else b.sbinmap
        sbin := Function.update b.sbin (smallIndex s) head } m' B' ∧ Fields B m m' := by
  have hi := smallIndex_lt hs
  have hno := binNo_small hs
  have hin : ∀ p ∈ B', p ∈ B := fun p hpm => hp.mem_iff.mpr (List.mem_cons_of_mem _ hpm)
  have hedit : EditOf (smallIndex s) 16 B (pre ++ a :: post) m m' :=
    ⟨hx, hoff, by omega, fun y hy => SmallBin.mem (fun _ hp => hp) hx hxs hy⟩
  refine ⟨h.replace_small hedit hi (fun _ hp => hp) hin (fun p hpm => h.sized p (hin p hpm))
    (fun p hpm => h.indexed p (hin p hpm))
      (fun k hk => filter_other hp k fun he => hk (he.symm.trans hno))
    ⟨pre ++ post, hring, ?_⟩ (cleared_lt h.sbinmap_lt) fun j hj =>
      testBit_cleared hi hj (by rw [h.sbinmap _ hi]; simpa using hbin),
      hedit.fields (.inl (Nat.le_refl _))⟩
  have hxa := hx.extent (a, s) (hp.mem_iff.mpr List.mem_cons_self)
  have hcons := hp.filter (binNo ·.2 = smallIndex s)
  rw [filter_cons_same hno] at hcons
  rw [size_of_smallIndex (s := s) hxa.align] at hxs ⊢
  refine List.Perm.cons_inv (a := (a, s)) (List.Perm.trans ?_ (hxs.trans hcons))
  rw [List.map_append, List.map_append, List.map_cons]
  exact List.perm_middle.symm

theorem unbinChunk_small (h : Bins w.kmstate.bins w.mem B) (hx : Extents B)
    (hp : B.Perm ((a, s) :: B')) (hs : s < minLargeSize) :
    ∃ b m', unbinChunk w a = some (w.setBins b m') ∧ Bins b m' B' ∧ Fields B w.mem m' := by
  have hi := smallIndex_lt hs
  have hmemB : (a, s) ∈ B := hp.mem_iff.mpr List.mem_cons_self
  have hxa := hx.extent _ hmemB
  obtain ⟨xs, hr, hxs⟩ := h.small (smallIndex s) hi
  have hax : a ∈ xs := by
    have hf : (a, s) ∈ B.filter (binNo ·.2 = smallIndex s) :=
      List.mem_filter.mpr ⟨hmemB, by simpa using binNo_small hs⟩
    obtain ⟨y, hy, he⟩ := List.mem_map.mp (hxs.mem_iff.mpr hf)
    obtain ⟨rfl, -⟩ := Prod.mk.inj he
    exact hy
  obtain ⟨pre, post, rfl⟩ := List.append_of_mem hax
  have hmem16 : ∀ y ∈ pre ++ a :: post, ∃ p ∈ B, p.1 = y ∧ 16 ≤ p.2 := fun y hy => by
    obtain ⟨p, hpm, he, -, hn⟩ := SmallBin.mem (fun _ hp => hp) hx hxs hy
    exact ⟨p, hpm, he, hn⟩
  have hbin : w.kmstate.bins.sbin (smallIndex s) ≠ 0 := by
    rw [hr.head]
    cases pre with
    | nil => exact hxa.pos
    | cons y pre => exact (hx.fits hmem16 y (by simp)).1
  obtain ⟨-, hring, hoff⟩ := kmallocDllistRemoveIntern_spec _ hr (hx.spaced hmem16) (hx.fits hmem16)
  generalize hrem : kmallocDllistRemoveIntern w.mem a (w.kmstate.bins.sbin (smallIndex s)) = r
    at hring hoff
  obtain ⟨hbins, hfields⟩ := h.unlink_small _ hx hp hs hxs hbin hring hoff
  refine ⟨_, r.2.1, ?_, hbins, hfields⟩
  rw [unbinChunk, h.sized _ hmemB]
  simp only [if_pos hs, guard, if_pos (show smallIndex s < nsbins from hi)]
  subst hrem
  exact congrArg some (clearSbin_eq ..)

theorem removeSchunk_spec {i : Nat} (h : Bins w.kmstate.bins w.mem B) (hx : Extents B) (hi : i < 32)
    (hne : w.kmstate.sbin i ≠ 0) :
    ∃ a b m' B', removeSchunk w i = (a, w.setBins b m') ∧ B.Perm ((a, 8 * i) :: B') ∧ Bins b m' B' ∧
      Fields B w.mem m' := by
  obtain ⟨xs, hr, hxs⟩ := h.small i hi
  cases xs with
  | nil => exact absurd hr.head hne
  | cons a post =>
    have hf := List.mem_filter.mp (hxs.mem_iff.mp (List.mem_map.mpr ⟨a, List.mem_cons_self, rfl⟩))
    obtain ⟨hmemB, hno⟩ := hf
    have hno : binNo (8 * i) = i := by simpa using hno
    have hs := small_of_binNo hi hno
    have hidx : smallIndex (8 * i) = i := (binNo_small hs).symm.trans hno
    have hp : B.Perm ((a, 8 * i) :: B.erase (a, 8 * i)) := List.perm_cons_erase hmemB
    have hmem16 : ∀ y ∈ a :: post, ∃ p ∈ B, p.1 = y ∧ 16 ≤ p.2 := fun y hy => by
      obtain ⟨p, hpm, he, -, hn⟩ := SmallBin.mem (fun _ hp => hp) hx hxs hy
      exact ⟨p, hpm, he, hn⟩
    obtain ⟨hfst, hring, hoff⟩ := kmallocDllistRemove_spec hr (hx.spaced hmem16) (hx.fits hmem16)
    generalize hrem : kmallocDllistRemove w.mem (w.kmstate.bins.sbin i) = r at hfst hring hoff
    have hxs' : (([] ++ a :: post).map (·, 8 * smallIndex (8 * i))).Perm
        (B.filter (binNo ·.2 = smallIndex (8 * i))) := by
      rw [hidx]
      exact hxs
    obtain ⟨hbins, hfields⟩ := h.unlink_small [] hx hp hs hxs' (by rw [hidx]; exact hne) hring hoff
    rw [hidx] at hbins
    refine ⟨a, _, r.2.1, _, ?_, hp, hbins, hfields⟩
    rw [removeSchunk]
    subst hrem
    exact Prod.ext hfst (clearSbin_eq ..)

theorem removeTchunk_spec (h : Bins w.kmstate.bins w.mem B) (hx : Extents B)
    (hp : B.Perm ((a, s) :: B')) (hs : minLargeSize ≤ s) :
    ∃ w' b m', removeTchunk w a (index w.mem a) = some w' ∧
      clearTbin w' (calcTbin s) = w.setBins b m' ∧
      w'.mem = m' ∧ index m' a = calcTbin s ∧ Bins b m' B' ∧ Fields B w.mem m' := by
  have hi := calcTbin_lt s
  have hno := binNo_large hs
  have hmemB : (a, s) ∈ B := hp.mem_iff.mpr List.mem_cons_self
  have hin : ∀ p ∈ B', p ∈ B := fun p hpm => hp.mem_iff.mpr (List.mem_cons_of_mem _ hpm)
  have hidx : index w.mem a = calcTbin s := h.indexed _ hmemB hs
  obtain ⟨t, hr, ht, hxs⟩ := h.tree (calcTbin s) hi
  have hat : (a, s) ∈ t.items :=
    hxs.mem_iff.mpr (List.mem_filter.mpr ⟨hmemB, by simpa using hno⟩)
  have hd : tbinDepth (calcTbin s) < 4294967296 := by
    rw [tbinDepth_eq]
    omega
  obtain ⟨m', root', t', hres, hrep, ht', hitems, hoff⟩ :=
    kmallocTreeRemove_spec hr ht hd (TreeBin.placed hx hxs) hat
  have hedit : EditOf (32 + calcTbin s) 28 B t.addrs w.mem m' :=
    ⟨hx, hoff, by omega, fun y hy => by
      obtain ⟨p, hpm, he, hb, hn⟩ := TreeBin.mem (fun _ hp => hp) hxs hy
      exact ⟨p, hpm, he, hb, by omega⟩⟩
  have hroot : w.kmstate.bins.tbin (calcTbin s) ≠ 0 := by
    intro h0
    rw [hr.null_iff.mp h0] at hat
    simp [RTree.items] at hat
  refine ⟨(w.setMem m').setTbin (calcTbin s) root', _, m', ?_, clearTbin_eq .., rfl,
    (hedit.indexed hmemB hs).trans hidx, ?_, hedit.fields (.inr (Nat.le_add_right ..))⟩
  · rw [removeTchunk, hidx]
    simp only [guard, if_pos (show calcTbin s < ntbins from hi)]
    have hres' : kmallocTreeRemove w.mem a (w.kmstate.tbin (calcTbin s)) = some (m', root') := hres
    simp [hres']
  · refine h.replace_tree hedit (fun _ hp => hp) hin (fun p hpm => h.sized p (hin p hpm))
      (fun p hpm => h.indexed p (hin p hpm))
        (fun k hk => filter_other hp k fun he => hk (he.symm.trans hno))
      ⟨t', hrep, ht', ?_⟩ (cleared_lt h.tbinmap_lt) fun j hj =>
        testBit_cleared hi hj (by rw [h.tbinmap _ hi]; simpa using hroot)
    have hcons := hp.filter (binNo ·.2 = 32 + calcTbin s)
    rw [filter_cons_same hno] at hcons
    exact List.Perm.cons_inv (a := (a, s)) (hitems.symm.trans (hxs.trans hcons))

theorem unbinChunk_spec (h : Bins w.kmstate.bins w.mem B) (hx : Extents B)
    (hp : B.Perm ((a, s) :: B')) :
    ∃ b m', unbinChunk w a = some (w.setBins b m') ∧ Bins b m' B' ∧ Fields B w.mem m' := by
  by_cases hs : s < minLargeSize
  · exact unbinChunk_small h hx hp hs
  · have hmemB : (a, s) ∈ B := hp.mem_iff.mpr List.mem_cons_self
    obtain ⟨w', b, m', hres, hclear, -, -, hbins, hfields⟩ :=
      removeTchunk_spec h hx hp (Nat.le_of_not_lt hs)
    refine ⟨b, m', ?_, hbins, hfields⟩
    rw [unbinChunk, h.sized _ hmemB]
    simp only [if_neg hs, hres]
    rw [h.indexed _ hmemB (Nat.le_of_not_lt hs), ← hclear]
    rfl

-- ---------------------------------------------------------------------------
-- Any state
-- ---------------------------------------------------------------------------

variable {w' : World ε} {i : Nat}

theorem removeTchunk_keeps (h : removeTchunk w a i = some w') :
    ∃ m head, w' = (w.setMem m).setTbin i head := by
  obtain ⟨-, -, h⟩ := Option.bind_eq_some_iff.mp h
  obtain ⟨r, -, h⟩ := Option.bind_eq_some_iff.mp h
  cases h
  exact ⟨_, _, rfl⟩

theorem unbinChunk_keeps (h : unbinChunk w a = some w') : ∃ b m, w' = w.setBins b m := by
  rw [unbinChunk] at h
  simp only at h
  split at h
  · obtain ⟨-, -, h⟩ := Option.bind_eq_some_iff.mp h
    cases h
    exact ⟨_, _, clearSbin_eq ..⟩
  · obtain ⟨w₁, h₁, h⟩ := Option.bind_eq_some_iff.mp h
    obtain ⟨m, head, rfl⟩ := removeTchunk_keeps h₁
    cases h
    exact ⟨_, _, clearTbin_eq ..⟩

theorem binChunk_keeps (h : binChunk w a = some w') : ∃ b m, w' = w.setBins b m := by
  rw [binChunk] at h
  simp only at h
  split at h
  · obtain ⟨-, -, h⟩ := Option.bind_eq_some_iff.mp h
    cases h
    exact ⟨⟨_, _, _, _⟩, _, rfl⟩
  · obtain ⟨-, -, h⟩ := Option.bind_eq_some_iff.mp h
    cases h
    exact ⟨⟨_, _, _, _⟩, _, rfl⟩

end

end ElcoOs.Kmalloc
