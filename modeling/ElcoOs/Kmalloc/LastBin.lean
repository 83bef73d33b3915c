import ElcoOs.Kmalloc.TreeRuns

/-!
# The last tree bin

Bin 31 takes all sizes from 0xC00000 on, but its tree sorts by the low 22 bits
only. A chunk goes in as long as the path of its size has at most 22 nodes or
meets the size; where 23 nodes are in the way, `kmalloc_tree_insert` shifts by
-1 and returns with the chunk nowhere.
-/

namespace ElcoOs.Kmalloc

open Word32 Ring RingTree

variable {ε : Type} {a s root size : Nat} {m m' : Memory} {B : List (Nat × Nat)}
  {t : RTree} {w : World ε}

-- ---------------------------------------------------------------------------
-- Shifts of an insertion
-- ---------------------------------------------------------------------------

/-- The shift counts in the loop of `kmalloc_tree_insert`, which are `depth - 1`. -/
def insertShifts (m : Memory) (size : Nat) : Nat → Nat → List Int
  | depth, cur =>
    if size = getChunkSize m cur then []
    else
      match depth with
      | 0 => [-1]
      | depth + 1 =>
        let child := if size &&& 1 <<< depth ≠ 0 then right m cur else left m cur
        (depth : Int) :: if child ≠ 0 then insertShifts m size depth child else []

/-- The shift counts of `kmalloc_tree_insert (chunk, &root, depth)`. -/
def treeInsertShifts (m : Memory) (chunk root depth : Nat) : List Int :=
  if depth = 0 ∨ chunk = 0 ∨ root = 0 then []
  else
    let m := setPrev m chunk chunk
    let m := setNext m chunk chunk
    let m := setRight m chunk 0
    let m := setLeft m chunk 0
    insertShifts m (getChunkSize m chunk) depth root

/-- The sizes of the nodes that the bits of `size` lead to. -/
def pathSizes (m : Memory) (size : Nat) : Nat → Nat → List Nat
  | depth, cur =>
    if cur = 0 then []
    else
      getChunkSize m cur ::
        match depth with
        | 0 => []
        | depth + 1 =>
          pathSizes m size depth (if size &&& 1 <<< depth ≠ 0 then right m cur else left m cur)

/-- The path of the size meets it or is not longer than the bits of the tree. -/
def HasPlace (m : Memory) (size root depth : Nat) : Prop :=
  size ∈ pathSizes m size depth root ∨ (pathSizes m size depth root).length ≤ depth

instance : Decidable (HasPlace m size root depth) := inferInstanceAs (Decidable (_ ∨ _))

theorem TreeRep.pathSizes_leaf {par d cur : Nat} (h : TreeRep (links m) par cur .leaf) :
    pathSizes m size d cur = [] := by
  obtain rfl : cur = 0 := h
  unfold pathSizes
  rw [if_pos rfl]

theorem hasPlace_iff_room {d par cur : Nat} (h : TreeRep (links m) par cur t)
    (hkey : Keyed m t) (ht : Trie d t) :
    HasPlace m size cur d ↔ Room size d t := by
  induction t generalizing d par cur with
  | leaf =>
    exact iff_of_true (by simp [HasPlace, TreeRep.pathSizes_leaf h]) (by cases d <;> trivial)
  | node head rest key l r ihl ihr =>
    obtain ⟨rfl, h0, -, -, -, hl, hr⟩ := h
    have hk : getChunkSize m cur = key := hkey (cur, key) (by simp [RTree.items])
    have hkl : Keyed m l := fun x hx => hkey x (by simp [RTree.items, hx])
    have hkr : Keyed m r := fun x hx => hkey x (by simp [RTree.items, hx])
    cases d with
    | zero =>
      unfold HasPlace pathSizes
      rw [if_neg h0, hk]
      simp [Room]
    | succ d =>
      have hcons : pathSizes m size (d + 1) cur = key :: pathSizes m size d
          (if size &&& 1 <<< d ≠ 0 then right m cur else left m cur) := by
        conv => lhs; unfold pathSizes
        rw [if_neg h0, hk]
      have hiff : HasPlace m size cur (d + 1) ↔
          size = key ∨ HasPlace m size (if size &&& 1 <<< d ≠ 0 then right m cur else
          left m cur) d := by
        rw [HasPlace, HasPlace, hcons, List.mem_cons, List.length_cons, Nat.succ_le_succ_iff]
        tauto
      rw [hiff]
      simp only [and_bit_ne_zero, Room]
      split
      · exact or_congr_right (ihr hr hkr ht.2.2.2.2.2)
      · exact or_congr_right (ihl hl hkl ht.2.2.2.2.1)

theorem insertShifts_iff {d par cur : Nat} (h : TreeRep (links m) par cur t) (h0 : cur ≠ 0)
    (hkey : Keyed m t)
    (ht : Trie d t) : (∀ n ∈ insertShifts m size d cur, 0 ≤ n) ↔ Room size d t := by
  induction t generalizing d par cur with
  | leaf => exact absurd h h0
  | node head rest key l r ihl ihr =>
    obtain ⟨rfl, -, -, -, -, hl, hr⟩ := h
    have hk : getChunkSize m cur = key := hkey (cur, key) (by simp [RTree.items])
    have hkl : Keyed m l := fun x hx => hkey x (by simp [RTree.items, hx])
    have hkr : Keyed m r := fun x hx => hkey x (by simp [RTree.items, hx])
    unfold insertShifts
    rw [hk]
    by_cases hsize : size = key
    · rw [if_pos hsize]
      exact iff_of_true (by simp) (by cases d with
        | zero => exact hsize
        | succ d => exact .inl hsize)
    rw [if_neg hsize]
    have below : ∀ {t : RTree} {child d : Nat}, TreeRep (links m) cur child t →
        (child ≠ 0 → ((∀ n ∈ insertShifts m size d child, 0 ≤ n) ↔ Room size d t)) →
        ((∀ n ∈ if child ≠ 0 then insertShifts m size d child else [], 0 ≤ n) ↔ Room size d t) := by
      intro t child d hrep ih
      by_cases hc : child = 0
      · obtain rfl : t = .leaf := hrep.null_iff.mp hc
        rw [if_neg (not_not_intro hc)]
        exact iff_of_true (by simp) (by cases d <;> trivial)
      · rw [if_pos hc]
        exact ih hc
    cases d with
    | zero => exact iff_of_false (by simp) hsize
    | succ d =>
      simp only [and_bit_ne_zero, Room, hsize, false_or, List.mem_cons, forall_eq_or_imp,
        Int.natCast_nonneg, true_and]
      split
      · exact below hr fun hc => ihr hr hc hkr ht.2.2.2.2.2
      · exact below hl fun hc => ihl hl hc hkl ht.2.2.2.2.1

theorem insertLoop_full {d par cur : Nat} (h : TreeRep (links m) par cur t) (h0 : cur ≠ 0)
    (hkey : Keyed m t) (hno : ¬ Room size d t) : kmallocTreeInsertLoop a size d m cur = m := by
  induction t generalizing d par cur with
  | leaf => exact absurd h h0
  | node head rest key l r ihl ihr =>
    obtain ⟨rfl, -, -, -, -, hl, hr⟩ := h
    have hk : getChunkSize m cur = key := hkey (cur, key) (by simp [RTree.items])
    unfold kmallocTreeInsertLoop
    rw [hk]
    cases d with
    | zero => rw [if_neg (show ¬ size = key from hno)]
    | succ d =>
      simp only [Room, not_or] at hno
      rw [if_neg hno.1]
      simp only [and_bit_ne_zero]
      cases hb : size.testBit d with
      | true =>
        simp only [hb, if_true] at hno ⊢
        have hc : right m cur ≠ 0 := fun he => by
          rw [hr.null_iff.mp he] at hno
          exact hno.2 (by cases d <;> trivial)
        rw [if_pos hc]
        exact ihr hr hc (fun x hx => hkey x (by simp [RTree.items, hx])) hno.2
      | false =>
        simp only [hb, Bool.false_eq_true, if_false] at hno ⊢
        have hc : left m cur ≠ 0 := fun he => by
          rw [hl.null_iff.mp he] at hno
          exact hno.2 (by cases d <;> trivial)
        rw [if_pos hc]
        exact ihl hl hc (fun x hx => hkey x (by simp [RTree.items, hx])) hno.2

theorem sameChunks_prepared (m : Memory) (hx : Extents ((a, s) :: B)) (hs : minLargeSize ≤ s) :
    SameChunks B m (setLeft (setRight (setNext (setPrev m a a) a a) a 0) a 0) := by
  intro p hp x hlo hhi
  have hlarge : 256 ≤ s := hs
  have hnotin := (List.nodup_cons.mp hx.nodup).1
  have hap := hx.apart (a, s) List.mem_cons_self p (List.mem_cons_of_mem _ hp) fun he =>
    hnotin (he ▸ hp)
  simp only [Apart] at hap
  simp only [setLeft, setRight, setNext, setPrev]
  rw [Memory.store32_apply (by omega), Memory.store32_apply (by omega),
    Memory.store32_apply (by omega),
    Memory.store32_apply (by omega)]

theorem getChunkSize_prepared (m : Memory) (a : Nat) :
    getChunkSize (setLeft (setRight (setNext (setPrev m a a) a a) a 0) a 0) a =
    getChunkSize m a := by
  refine getChunkSize_congr fun x _ _ => ?_
  simp only [setLeft, setRight, setNext, setPrev]
  rw [Memory.store32_apply (by omega), Memory.store32_apply (by omega),
    Memory.store32_apply (by omega),
    Memory.store32_apply (by omega)]

theorem SizedTree.shifts_iff {d : Nat} (h : SizedTree d m root B t) (hd : 0 < d)
    (hnot : a ∉ t.addrs) (hs : Spaced 32 (a :: t.addrs)) (ha : a ≠ 0) :
    (∀ n ∈ treeInsertShifts m a root d, 0 ≤ n) ↔ Room (getChunkSize m a) d t := by
  rw [treeInsertShifts]
  by_cases hroot : root = 0
  · obtain rfl : t = .leaf := h.rep.null_iff.mp hroot
    rw [if_pos (.inr (.inr hroot))]
    exact iff_of_true (by simp) (by cases d <;> trivial)
  · rw [if_neg (by omega)]
    have h' : SizedTree d (setLeft (setRight (setNext (setPrev m a a) a a) a 0) a 0) root B t := by
      refine h.congr fun y hy => ?_
      have hya := hs y (List.mem_cons_of_mem _ hy) a List.mem_cons_self
      have hne : y ≠ a := fun he => hnot (he ▸ hy)
      have hkeep : ∀ x, y + 4 ≤ x → x < y + 32 →
        setLeft (setRight (setNext (setPrev m a a) a a) a 0) a 0 x = m x := by
        intro x hlo hhi
        simp only [setLeft, setRight, setNext, setPrev]
        rw [Memory.store32_apply (by omega), Memory.store32_apply (by omega),
          Memory.store32_apply (by omega),
          Memory.store32_apply (by omega)]
      exact ⟨getChunkSize_congr fun x _ _ => hkeep x (by omega) (by omega),
        links_sameAt fun x _ _ => hkeep x (by omega) (by omega)⟩
    simp only [getChunkSize_prepared]
    exact insertShifts_iff h'.rep hroot h'.keyed h'.trie

theorem treeInsertShifts_iff {i : Nat} (h : BinTree i m root B t) (hx : Extents ((a, s) :: B))
    (hsize : getChunkSize m a = s) (hs : minLargeSize ≤ s) :
    (∀ n ∈ treeInsertShifts m a root (tbinDepth i), 0 ≤ n) ↔ Room s (tbinDepth i) t := by
  obtain ⟨hnd, hspaced, -⟩ := h.beside hx hs
  have hiff :=
    h.sizedTree.shifts_iff (tbinDepth_pos i)
      (List.nodup_cons.mp hnd).1 hspaced (hx.extent _ List.mem_cons_self).pos
  rwa [hsize] at hiff

theorem BinTree.insert_full {i : Nat} (h : BinTree i m root B t) (hx : Extents ((a, s) :: B))
    (hsize : getChunkSize m a = s) (hs : minLargeSize ≤ s) (hno : ¬ Room s (tbinDepth i) t) :
    BinTree i (kmallocTreeInsert m a root (tbinDepth i)).1
      (kmallocTreeInsert m a root (tbinDepth i)).2 B t := by
  have ha : a ≠ 0 := (hx.extent _ List.mem_cons_self).pos
  have hd := tbinDepth_pos i
  have hroot : root ≠ 0 := fun he => by
    rw [h.rep.null_iff.mp he] at hno
    exact hno (by cases tbinDepth i <;> trivial)
  have h' := h.congr (sameChunks_prepared m hx hs)
  rw [kmallocTreeInsert, if_neg (by omega)]
  simp only [getChunkSize_prepared, hsize, if_neg hroot]
  rw [insertLoop_full h'.rep hroot h'.keyed hno]
  exact h'

-- ---------------------------------------------------------------------------
-- Binning and unbinning
-- ---------------------------------------------------------------------------

/-- Bin 31 of the table holds the chunks `B`. -/
structure LastBin (w : World ε) (B : List (Nat × Nat)) (t : RTree) : Prop where
  tree : BinTree 31 w.mem (w.kmstate.tbin 31) B t
  indexed : ∀ p ∈ B, index w.mem p.1 = 31

theorem binChunk_last (h : 0xC00000 ≤ getChunkSize w.mem a) :
    ∃ w', binChunk w a = some w' ∧
      w'.mem = (kmallocTreeInsert (setIndex w.mem a 31) a (w.kmstate.tbin 31) 22).1 ∧
      w'.kmstate.tbin 31 =
      (kmallocTreeInsert (setIndex w.mem a 31) a (w.kmstate.tbin 31) 22).2 := by
  have hlarge : ¬ getChunkSize w.mem a < minLargeSize := by
    have : minLargeSize = 256 := rfl
    omega
  generalize hins : kmallocTreeInsert (setIndex w.mem a 31) a (w.kmstate.tbin 31) 22 = r
  refine ⟨((w.setMem r.1).setTbin 31 r.2).setTbinmap (w.kmstate.tbinmap ||| 1 <<< 31), ?_, rfl, ?_⟩
  · rw [binChunk, if_neg hlarge, calcTbin_eq_31.mpr h]
    subst hins
    rfl
  · exact Function.update_self (31 : Nat) r.2 w.kmstate.tbin

theorem unbinChunk_last {r : Memory × Nat} (h : 0xC00000 ≤ getChunkSize w.mem a)
    (hidx : index w.mem a = 31) (hres : kmallocTreeRemove w.mem a (w.kmstate.tbin 31) = some r) :
    ∃ w', unbinChunk w a = some w' ∧ w'.mem = r.1 ∧ w'.kmstate.tbin 31 = r.2 := by
  have hlarge : ¬ getChunkSize w.mem a < minLargeSize := by
    have : minLargeSize = 256 := rfl
    omega
  refine ⟨clearTbin ((w.setMem r.1).setTbin 31 r.2) 31, ?_, ?_, ?_⟩
  · rw [unbinChunk]
    simp only [if_neg hlarge, hidx, removeTchunk, hres]
    rfl
  · rw [clearTbin_eq]
    rfl
  · rw [clearTbin_eq]
    exact Function.update_self (31 : Nat) r.2 w.kmstate.tbin

theorem sameChunks_setIndex (m : Memory) (i : Nat) (hx : Extents ((a, s) :: B))
    (hs : minLargeSize ≤ s) :
    SameChunks B m (setIndex m a i) := by
  intro p hp x hlo hhi
  have hlarge : 256 ≤ s := hs
  have hnotin := (List.nodup_cons.mp hx.nodup).1
  have hap := hx.apart (a, s) List.mem_cons_self p (List.mem_cons_of_mem _ hp) fun he =>
    hnotin (he ▸ hp)
  simp only [Apart] at hap
  exact Memory.store32_apply (by omega)

theorem LastBin.bin (h : LastBin w B t) (hx : Extents ((a, s) :: B))
    (hsize : getChunkSize w.mem a = s) (hs : 0xC00000 ≤ s) :
    ∃ w', binChunk w a = some w' ∧ (Room s 22 t → LastBin w' ((a, s) :: B) (t.insert a s 22)) ∧
      (¬ Room s 22 t → BinTree 31 w'.mem (w'.kmstate.tbin 31) B t) := by
  have hlarge : minLargeSize ≤ s := Nat.le_trans (by decide) hs
  have h256 : 256 ≤ s := hlarge
  have h' := h.tree.congr (sameChunks_setIndex w.mem 31 hx hlarge)
  have hsize' : getChunkSize (setIndex w.mem a 31) a = s := by
    rw [← hsize]
    exact getChunkSize_congr fun x _ _ => Memory.store32_apply (by omega)
  obtain ⟨w', hres, hmem, hroot⟩ := binChunk_last (w := w) (a := a) (hsize ▸ hs)
  refine ⟨w', hres, fun hroom => ?_, fun hno => ?_⟩
  · obtain ⟨htree, hoff⟩ := h'.insert hx hsize' hlarge (calcTbin_eq_31.mpr hs) hroom
    have hspaced := (h'.beside hx hlarge).2.1
    -- the index is beyond the links
    have hkeep : ∀ y ∈ a :: t.addrs, index w'.mem y = index (setIndex w.mem a 31) y := by
      intro y hy
      rw [hmem]
      refine Memory.load32_congr fun x _ _ => hoff x fun b hb => ?_
      have := hspaced y hy b hb
      omega
    refine ⟨by rw [hmem, hroot]; exact htree, fun p hp => ?_⟩
    rcases List.mem_cons.mp hp with rfl | hp
    · rw [hkeep _ List.mem_cons_self]
      exact Memory.load32_store32_same (by decide)
    · have haddr : p.1 ∈ t.addrs := RTree.mem_addrs (h.tree.items.mem_iff.mpr hp)
      have hp256 : 256 ≤ p.2 := (h.tree.bin p hp).1
      rw [hkeep _ (List.mem_cons_of_mem _ haddr)]
      refine Eq.trans (Memory.load32_congr fun x _ _ => ?_) (h.indexed p hp)
      exact sameChunks_setIndex w.mem 31 hx hlarge p hp x (by omega) (by omega)
  · rw [hmem, hroot]
    exact h'.insert_full hx hsize' hlarge hno

theorem LastBin.unbin (h : LastBin w B t) (ha : (a, s) ∈ B) :
    ∃ w' t', unbinChunk w a = some w' ∧ LastBin w' (B.erase (a, s)) t' := by
  have hsize := h.tree.keyed (a, s) (h.tree.items.mem_iff.mpr ha)
  obtain ⟨m', root', t', hres, htree, hoff⟩ := h.tree.remove (by decide) ha
  obtain ⟨w', hunbin, hmem, hroot⟩ :=
    unbinChunk_last (hsize ▸ calcTbin_eq_31.mp (h.tree.bin _ ha).2) (h.indexed _ ha) hres
  refine ⟨w', t', hunbin, by rw [hmem, hroot]; exact htree, fun p hp => ?_⟩
  have haddr : p.1 ∈ t.addrs :=
    RTree.mem_addrs (h.tree.items.mem_iff.mpr (List.mem_of_mem_erase hp))
  rw [hmem, ← h.indexed p (List.mem_of_mem_erase hp)]
  refine Memory.load32_congr fun x _ _ => hoff x fun b hb => ?_
  have := h.tree.placed.spaced p.1 haddr b hb
  omega

-- ---------------------------------------------------------------------------
-- Runs of the last bin
-- ---------------------------------------------------------------------------

structure BinState (ε : Type) where
  world : World ε
  /-- the chunks that were binned and not yet unbinned -/
  chunks : List (Nat × Nat)

inductive BinAction where
  | bin (chunk : Nat)
  | unbin (chunk : Nat)
  /-- memory changes in between -/
  | other (mem : Memory)

def binStep (s : BinState ε) : BinAction → Option (BinState ε)
  | .bin chunk =>
    (binChunk s.world chunk).map (⟨·, (chunk, getChunkSize s.world.mem chunk) :: s.chunks⟩)
  | .unbin chunk =>
    (unbinChunk s.world chunk).map (⟨·, s.chunks.erase (chunk, getChunkSize s.world.mem chunk)⟩)
  | .other mem => some { s with world := s.world.setMem mem }

/-- Large chunks, apart from those that are there, are binned; chunks that are
there are unbinned; and none of them is written otherwise. -/
def BinMay (s : BinState ε) : BinAction → Prop
  | .bin chunk => 0xC00000 ≤ getChunkSize s.world.mem chunk ∧
      Extents ((chunk, getChunkSize s.world.mem chunk) :: s.chunks)
  | .unbin chunk => (chunk, getChunkSize s.world.mem chunk) ∈ s.chunks
  | .other mem => SameChunks s.chunks s.world.mem mem

def Placing (s : BinState ε) : BinAction → Prop
  | .bin chunk => HasPlace s.world.mem (getChunkSize s.world.mem chunk) (s.world.kmstate.tbin 31) 22
  | _ => True

def NoLargeChunks (s : BinState ε) : Prop := s.world.kmstate.tbin 31 = 0 ∧ s.chunks = []

def BinRun (s : BinState ε) : Prop := Reach NoLargeChunks binStep (fun s a _ => BinMay s a) s

def PlacingRun (s : BinState ε) : Prop :=
  Reach NoLargeChunks binStep (fun s a _ => BinMay s a ∧ Placing s a) s

/-- The chunk is reached from `kmstate.tbin[31]` by `left`, `right` and `next`. -/
def InLastBin (w : World ε) (chunk : Nat) : Prop := Linked (links w.mem) (w.kmstate.tbin 31) chunk

theorem BinTree.inLastBin_iff (h : BinTree 31 w.mem (w.kmstate.tbin 31) B t) : InLastBin w a ↔
    ∃ s, (a, s) ∈ B := by
  rw [InLastBin, h.rep.linked_iff]
  constructor
  · intro ha
    obtain ⟨p, hp, rfl⟩ := List.mem_map.mp ha
    exact ⟨p.2, h.items.mem_iff.mp hp⟩
  · rintro ⟨s, hs⟩
    exact RTree.mem_addrs (h.items.mem_iff.mpr hs)

theorem PlacingRun.lastBin {st : BinState ε} (h : PlacingRun st) :
    ∃ t, LastBin st.world st.chunks t := by
  refine Reach.invariant (p := fun st : BinState ε => ∃ t, LastBin st.world st.chunks t) ?_ ?_ h
  · rintro ⟨w, chunks⟩ ⟨hroot, hchunks⟩
    obtain rfl : chunks = [] := hchunks
    exact ⟨.leaf, (show w.kmstate.tbin 31 = 0 from hroot) ▸ .empty 31 w.mem, by simp⟩
  · rintro st a st' ⟨t, ht⟩ hstep ⟨hmay, hplace⟩
    cases a with
    | bin chunk =>
      obtain ⟨hlarge, hx⟩ := hmay
      obtain ⟨w', hres, hroom, -⟩ := ht.bin hx rfl hlarge
      simp only [binStep, hres, Option.map_some, Option.some.injEq] at hstep
      subst hstep
      exact ⟨_, hroom ((hasPlace_iff_room ht.tree.rep ht.tree.keyed ht.tree.trie).mp hplace)⟩
    | unbin chunk =>
      obtain ⟨w', t', hres, ht'⟩ := ht.unbin hmay
      simp only [binStep, hres, Option.map_some, Option.some.injEq] at hstep
      subst hstep
      exact ⟨t', ht'⟩
    | other mem =>
      cases hstep
      refine ⟨t, ht.tree.congr hmay, fun p hp => ?_⟩
      have hp256 : 256 ≤ p.2 := (ht.tree.bin p hp).1
      rw [← ht.indexed p hp]
      exact Memory.load32_congr fun x _ _ => hmay p hp x (by omega) (by omega)

/-- The next chunk keeps every chunk in the tree, and shifts by no negative number, exactly when
there is a place for it. -/
theorem PlacingRun.bin_iff {st : BinState ε} {a : Nat} (h : PlacingRun st)
    (hmay : BinMay st (.bin a)) :
    ∃ st', binStep st (.bin a) = some st' ∧
      ((∀ p ∈ st'.chunks, InLastBin st'.world p.1) ↔ Placing st (.bin a)) ∧
      ((∀ n ∈ treeInsertShifts (setIndex st.world.mem a 31) a (st.world.kmstate.tbin 31) 22,
      0 ≤ n) ↔
        Placing st (.bin a)) := by
  obtain ⟨t, ht⟩ := h.lastBin
  obtain ⟨hlarge, hx⟩ := hmay
  have hplace : Placing st (.bin a) ↔ Room (getChunkSize st.world.mem a) 22 t :=
    hasPlace_iff_room ht.tree.rep ht.tree.keyed ht.tree.trie
  have hminlarge : minLargeSize ≤ getChunkSize st.world.mem a := Nat.le_trans (by decide) hlarge
  obtain ⟨w', hres, hroom, hno⟩ := ht.bin hx rfl hlarge
  refine ⟨⟨w', (a, getChunkSize st.world.mem a) :: st.chunks⟩,
    by simp only [binStep, hres, Option.map_some], ?_, ?_⟩
  · rw [hplace]
    constructor
    · intro hall
      by_contra hfull
      obtain ⟨s, hs⟩ := (hno hfull).inLastBin_iff.mp (hall _ List.mem_cons_self)
      have heq := hx.eq_of_fst List.mem_cons_self (List.mem_cons_of_mem _ hs) rfl
      exact (List.nodup_cons.mp hx.nodup).1 (heq ▸ hs)
    · intro hr p hp
      exact (hroom hr).tree.inLastBin_iff.mpr ⟨p.2, hp⟩
  · rw [hplace]
    refine treeInsertShifts_iff (ht.tree.congr (sameChunks_setIndex st.world.mem 31 hx hminlarge))
      hx ?_ hminlarge
    exact getChunkSize_congr fun x _ _ => Memory.store32_apply (by omega)

/-- While there was a place for every chunk none is lost, and the next one is
lost, with a negative shift, exactly when there is none for it. -/
theorem lastBin_iff {st : BinState ε} (h : PlacingRun st) :
    (∀ p ∈ st.chunks, InLastBin st.world p.1) ∧
      ∀ a, BinMay st (.bin a) → ∃ st', binStep st (.bin a) = some st' ∧
        ((∀ p ∈ st'.chunks, InLastBin st'.world p.1) ↔ Placing st (.bin a)) ∧
        ((∀ n ∈ treeInsertShifts (setIndex st.world.mem a 31) a (st.world.kmstate.tbin 31) 22,
        0 ≤ n) ↔
          Placing st (.bin a)) := by
  obtain ⟨t, ht⟩ := h.lastBin
  exact ⟨fun p hp => ht.tree.inLastBin_iff.mpr ⟨p.2, hp⟩, fun a hmay => h.bin_iff hmay⟩

-- ---------------------------------------------------------------------------
-- Sizes that agree in all 22 bits
-- ---------------------------------------------------------------------------

def rampSize (n : Nat) : Nat := (3 + n) * 0x400000

def rampAddr : Nat → Nat
  | 0 => 0x400000
  | n + 1 => rampAddr n + rampSize n

/-- Chunks `0` to `n - 1` of the ramp. -/
def rampChunks : Nat → List (Nat × Nat)
  | 0 => []
  | n + 1 => (rampAddr n, rampSize n) :: rampChunks n

def emptyBin : BinState Unit where
  world :=
    { kmstate :=
        { heapStart := 0, heapSize := 0, initialHeapSize := 0, sbinmap := 0, tbinmap :=
        0, sbin := fun _ => 0,
          tbin := fun _ => 0, dVictim := 0, dVictimSize := 0, topChunk :=
            0, topChunkSize := 0, magic := 0 }
      mem := fun _ => 0
      env := ()
      trace := [] }
  chunks := []

def withHeader (s : BinState Unit) (n : Nat) : BinState Unit :=
  { s with world := s.world.setMem (setHeader s.world.mem (rampAddr n) (rampSize n ||| pinuse)) }

/-- The first `n` chunks of the ramp, binned one after the other. -/
def ramp : Nat → BinState Unit
  | 0 => emptyBin
  | n + 1 => (binStep (withHeader (ramp n) n) (.bin (rampAddr n))).getD emptyBin

theorem rampAddr_pos (n : Nat) : 0x400000 ≤ rampAddr n := by
  induction n with
  | zero => exact Nat.le_refl _
  | succ n ih =>
    rw [rampAddr]
    omega

theorem rampAddr_fits {n : Nat} (hn : n ≤ 24) : rampAddr n ≤ rampAddr 24 := by
  induction hn using Nat.decreasingInduction with
  | self => exact Nat.le_refl _
  | of_succ n _ ih =>
    rw [rampAddr] at ih
    omega

theorem rampChunks_below {n : Nat} {p : Nat × Nat} (h : p ∈ rampChunks n) :
    p.1 + p.2 ≤ rampAddr n ∧ p.2 < rampSize n ∧ p.2 % 0x400000 = 0 := by
  induction n with
  | zero => exact absurd h List.not_mem_nil
  | succ n ih =>
    rcases List.mem_cons.mp h with rfl | h
    · simp only [rampAddr, rampSize]
      omega
    · have := ih h
      simp only [rampAddr, rampSize] at this ⊢
      omega

theorem rampChunks_extents {n : Nat} (hn : n ≤ 24) : Extents (rampChunks n) := by
  induction n with
  | zero => exact ⟨by simp [rampChunks], List.nodup_nil, by simp [rampChunks]⟩
  | succ n ih =>
    have h := ih (by omega)
    have hfits : rampAddr (n + 1) ≤ rampAddr 24 := rampAddr_fits hn
    have hend : rampAddr 24 ≤ 4294967296 := by decide
    have hpos := rampAddr_pos n
    have hsize : 0xC00000 ≤ rampSize n ∧ rampSize n % 8 = 0 := by
      rw [rampSize]
      omega
    rw [rampAddr] at hfits
    refine ⟨fun p hp => ?_, List.nodup_cons.mpr ⟨fun hmem => ?_, h.nodup⟩, fun p hp q hq hne => ?_⟩
    · rcases List.mem_cons.mp hp with rfl | hp
      · exact ⟨by simp only; omega, by simp only; omega, by simp only; omega, hsize.2⟩
      · exact h.extent p hp
    · have := (rampChunks_below hmem).1
      simp only at this
      omega
    · rcases List.mem_cons.mp hp with rfl | hp
      · rcases List.mem_cons.mp hq with rfl | hq
        · exact absurd rfl hne
        · exact .inr (rampChunks_below hq).1
      · rcases List.mem_cons.mp hq with rfl | hq
        · exact .inl (rampChunks_below hp).1
        · exact h.apart p hp q hq hne

theorem length_rampChunks (n : Nat) : (rampChunks n).length = n := by
  induction n with
  | zero => rfl
  | succ n ih => rw [rampChunks, List.length_cons, ih]

theorem withHeader_spec {s : BinState Unit} {n : Nat} (hn : n < 24)
    (hchunks : s.chunks = rampChunks n) :
    SameChunks s.chunks s.world.mem (withHeader s n).world.mem ∧
      getChunkSize (withHeader s n).world.mem (rampAddr n) = rampSize n ∧
      BinMay (withHeader s n) (.bin (rampAddr n)) := by
  have hfits : rampAddr (n + 1) ≤ rampAddr 24 := rampAddr_fits hn
  have hend : rampAddr 24 ≤ 4294967296 := by decide
  have hsize : 0xC00000 ≤ rampSize n ∧ rampSize n % 8 = 0 := by
    rw [rampSize]
    omega
  have hpos := rampAddr_pos n
  rw [rampAddr] at hfits
  have hres : getChunkSize (withHeader s n).world.mem (rampAddr n) = rampSize n := by
    have hword : header (withHeader s n).world.mem (rampAddr n) = rampSize n ||| pinuse := ?_
    · rw [size_or_pinuse hsize.2] at hword
      exact getChunkSize_of_header (show _ = rampSize n + flags false true from hword) hsize.2
    refine Memory.load32_store32_same ?_
    rw [size_or_pinuse hsize.2]
    show rampSize n + 1 < 4294967296
    omega
  refine ⟨fun p hp x hlo hhi => ?_, hres, ?_⟩
  · rw [hchunks] at hp
    have := (rampChunks_below hp).1
    exact Memory.store32_apply (by omega)
  · refine ⟨by rw [hres]; exact hsize.1, ?_⟩
    rw [hres]
    show Extents ((rampAddr n, rampSize n) :: s.chunks)
    rw [hchunks]
    exact rampChunks_extents (n := n + 1) hn

theorem ramp_spec {n : Nat} (hn : n ≤ 23) : PlacingRun (ramp n) ∧
    (ramp n).chunks = rampChunks n := by
  induction n with
  | zero => exact ⟨.start ⟨rfl, rfl⟩, rfl⟩
  | succ n ih =>
    obtain ⟨hrun, hchunks⟩ := ih (by omega)
    obtain ⟨hsame, hsize, hmay⟩ := withHeader_spec (by omega) hchunks
    have hrun' : PlacingRun (withHeader (ramp n) n) :=
      .step (a := .other _) hrun rfl ⟨hsame, trivial⟩
    obtain ⟨t, ht⟩ := hrun'.lastBin
    have hroom : Room (rampSize n) 22 t := by
      refine room_of_length (Nat.le_trans t.length_keys_le ?_)
      rw [ht.tree.items.length_eq]
      show (ramp n).chunks.length ≤ 22
      rw [hchunks, length_rampChunks]
      omega
    have hplace : Placing (withHeader (ramp n) n) (.bin (rampAddr n)) := by
      rw [Placing, hsize]
      exact (hasPlace_iff_room ht.tree.rep ht.tree.keyed ht.tree.trie).mpr hroom
    obtain ⟨st', hres, -⟩ := hrun'.bin_iff hmay
    have hramp : ramp (n + 1) = st' := by rw [ramp, hres, Option.getD_some]
    rw [hramp]
    refine ⟨.step hrun' hres ⟨hmay, hplace⟩, ?_⟩
    obtain ⟨w', -, rfl⟩ := Option.map_eq_some_iff.mp hres
    show (rampAddr n, _) :: (ramp n).chunks = _
    rw [hsize, hchunks, rampChunks]

theorem lastBin_iff_ramp :
    (∀ p ∈ (ramp 23).chunks, InLastBin (ramp 23).world p.1) ∧
      ∀ a, BinMay (ramp 23) (.bin a) → ∃ st', binStep (ramp 23) (.bin a) = some st' ∧
        ((∀ p ∈ st'.chunks, InLastBin st'.world p.1) ↔ Placing (ramp 23) (.bin a)) ∧
        ((∀ n ∈ treeInsertShifts (setIndex (ramp 23).world.mem a 31) a
          ((ramp 23).world.kmstate.tbin 31) 22, 0 ≤ n) ↔
          Placing (ramp 23) (.bin a)) :=
  lastBin_iff (ramp_spec (Nat.le_refl 23)).1

theorem rampSizes_nodup (n : Nat) : ((rampChunks n).map Prod.snd).Nodup := by
  induction n with
  | zero => exact List.nodup_nil
  | succ n ih =>
    refine List.nodup_cons.mpr ⟨fun h => ?_, ih⟩
    obtain ⟨p, hp, he⟩ := List.mem_map.mp h
    have := (rampChunks_below hp).2.1
    omega

/-- The 24th chunk is 23 nodes down and has no 23rd bit to branch on. -/
theorem ramp_full : ¬ Placing (withHeader (ramp 23) 23) (.bin (rampAddr 23)) := by
  obtain ⟨hrun, hchunks⟩ := ramp_spec (Nat.le_refl 23)
  obtain ⟨hsame, hsize, -⟩ := withHeader_spec (by omega) hchunks
  have hrun' : PlacingRun (withHeader (ramp 23) 23) :=
    .step (a := .other _) hrun rfl ⟨hsame, trivial⟩
  obtain ⟨t, ht⟩ := hrun'.lastBin
  have hitems : t.items.Perm (rampChunks 23) := hchunks ▸ ht.tree.items
  have hkeys : ∀ k, k ∈ t.keys ↔ k ∈ (rampChunks 23).map Prod.snd := by
    intro k
    rw [RTree.mem_keys, List.mem_map]
    constructor
    · rintro ⟨a, ha⟩
      exact ⟨(a, k), hitems.mem_iff.mp ha, rfl⟩
    · rintro ⟨p, hp, rfl⟩
      exact ⟨p.1, hitems.mem_iff.mpr hp⟩
  have htrie : Trie 22 t := ht.tree.trie
  rw [Placing, hsize, hasPlace_iff_room ht.tree.rep ht.tree.keyed htrie]
  refine not_room_of_length htrie (fun hk => ?_) (fun k hk => ?_) ?_
  · obtain ⟨p, hp, he⟩ := List.mem_map.mp ((hkeys _).mp hk)
    have := (rampChunks_below hp).2.1
    omega
  · obtain ⟨p, hp, rfl⟩ := List.mem_map.mp ((hkeys _).mp hk)
    have := (rampChunks_below hp).2.2
    have hpow : (2 : Nat) ^ 22 = 0x400000 := by decide
    rw [hpow, rampSize]
    omega
  · have hlen :=
      (List.subperm_of_subset (rampSizes_nodup 23) fun k hk => (hkeys k).mpr hk).length_le
    rw [List.length_map, length_rampChunks] at hlen
    omega

theorem lastBin_loses :
    ¬∀ st : BinState Unit, BinRun st → (∀ p ∈ st.chunks, InLastBin st.world p.1) ∧
      ∀ a, BinMay st (.bin a) →
        ∀ n ∈ treeInsertShifts (setIndex st.world.mem a 31) a (st.world.kmstate.tbin 31) 22,
          0 ≤ n := by
  intro h
  obtain ⟨hrun, hchunks⟩ := ramp_spec (Nat.le_refl 23)
  obtain ⟨hsame, -, hmay⟩ := withHeader_spec (by omega) hchunks
  have hrun' : PlacingRun (withHeader (ramp 23) 23) :=
    .step (a := .other _) hrun rfl ⟨hsame, trivial⟩
  have hbin : BinRun (withHeader (ramp 23) 23) := hrun'.mono fun _ _ _ hm => hm.1
  obtain ⟨st', hres, hlost, -⟩ := hrun'.bin_iff hmay
  exact ramp_full (hlost.mp (h st' (.step hbin hres hmay)).1)

end ElcoOs.Kmalloc
