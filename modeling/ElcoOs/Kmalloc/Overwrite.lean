import ElcoOs.Kmalloc.BinOps
import ElcoOs.Kmalloc.Tiling

/-!
# Chunks that leave their bin with a word overwritten

`try_expand_chunk` writes the header of what remains of a free chunk into that
chunk while it is still in its bin. Most words of a chunk play no part there.
The back link does, but not for a chunk that is alone in its ring: its removal
is the same whatever the link says.
-/

namespace ElcoOs.Kmalloc

open Word32 Ring RingTree

variable {ε : Type}

-- ---------------------------------------------------------------------------
-- Two memories that differ in one back link
-- ---------------------------------------------------------------------------

/-- The same bytes but for the back link of `a`, where the second memory has those of `f`. -/
def OffPrev (a : Nat) (f m m' : Memory) : Prop := ∀ x, m' x = if a + 12 ≤ x ∧
    x < a + 16 then f x else m x

/-- The record does not reach into another that starts at `a`. -/
def Clear (a y : Nat) : Prop := y = a ∨ y + 32 ≤ a ∨ a + 32 ≤ y

section
variable {f m m' : Memory} {a b k v x y root d : Nat} {S : List Nat} {t : RTree}

theorem OffPrev.of_same (h : SameExcept (a + 12) (a + 16) m m') : OffPrev a m' m m' := by
  intro x
  split
  · rfl
  · exact h x (by omega)

theorem OffPrev.same (h : OffPrev a f m m') : SameExcept (a + 12) (a + 16) m m' := by
  intro x hx
  rw [h x, if_neg (by omega)]

theorem OffPrev.kept (h : OffPrev a f m m') (hlo : a + 12 ≤ x) (hhi : x < a + 16) : m' x = f x := by
  rw [h x, if_pos ⟨hlo, hhi⟩]

theorem OffPrev.store_both (h : OffPrev a f m m') (hx : x + 4 ≤ a + 12 ∨ a + 16 ≤ x) :
    OffPrev a f (m.store32 x v) (m'.store32 x v) := by
  intro y
  by_cases hy : a + 12 ≤ y ∧ y < a + 16
  · rw [if_pos hy, Memory.store32_apply (by omega), h.kept hy.1 hy.2]
  · rw [if_neg hy]
    simp only [Memory.store32, h y, if_neg hy]

theorem OffPrev.links (h : OffPrev a f m m') (hy : Clear a y) :
    left m' y = left m y ∧ right m' y = right m y ∧ parent m' y = parent m y := by
  refine ⟨?_, ?_, ?_⟩ <;>
    exact Memory.load32_congr fun z _ _ => h.same z (by rcases hy with rfl | hy | hy <;> omega)

theorem OffPrev.next (h : OffPrev a f m m') : next m' a = next m a :=
  Memory.load32_congr fun z _ _ => h.same z (by omega)

theorem OffPrev.leave (h : OffPrev a f m m') (hy : Clear a y) : ktchunkIsLeave m' y ↔
    ktchunkIsLeave m y := by
  obtain ⟨h1, h2, -⟩ := h.links hy
  rw [ktchunkIsLeave, h1, h2]
  rfl

theorem OffPrev.storeLeft (h : OffPrev a f m m') (hy : Clear a y) : OffPrev a f (setLeft m y v)
    (setLeft m' y v) :=
  h.store_both (by rcases hy with rfl | hy | hy <;> omega)

theorem OffPrev.storeRight (h : OffPrev a f m m') (hy : Clear a y) : OffPrev a f (setRight m y v)
    (setRight m' y v) :=
  h.store_both (by rcases hy with rfl | hy | hy <;> omega)

theorem OffPrev.storeParent (h : OffPrev a f m m') (hy : Clear a y) : OffPrev a f (setParent m y v)
    (setParent m' y v) :=
  h.store_both (by rcases hy with rfl | hy | hy <;> omega)

theorem OffPrev.updateParent (h : OffPrev a f m m') (hb : Clear a b) (hp : Clear a (parent m b)) :
    OffPrev a f (ktchunkUpdateParent m b v) (ktchunkUpdateParent m' b v) := by
  rw [ktchunkUpdateParent, ktchunkUpdateParent, (h.links hb).2.2, (h.links hp).1]
  split
  · exact h.storeLeft hp
  · exact h.storeRight hp

theorem OffPrev.adopt (h : OffPrev a f m m') (hv : v ≠ 0 → Clear a v) :
    OffPrev a f (if v ≠ 0 then setParent m v b else m) (if v ≠ 0 then
    setParent m' v b else m') := by
  split
  · exact h.storeParent (hv ‹_›)
  · exact h

theorem OffPrev.takeOver (h : OffPrev a f m m') (hb : Clear a b)
    (hl : left m a ≠ 0 → Clear a (left m a))
    (hr : right m a ≠ 0 → Clear a (right m a)) : OffPrev a f (ktchunkTakeOver m a b)
    (ktchunkTakeOver m' a b) := by
  have ha : Clear a a := .inl rfl
  unfold ktchunkTakeOver
  extract_lets m₁' m₂' m₃' m₄' m₁ m₂ m₃ m₄
  have h₁ : OffPrev a f m₁' m₁ := by
    show OffPrev a f (setLeft m b (left m a)) (setLeft m' b (left m' a))
    rw [(h.links ha).1]
    exact h.storeLeft hb
  have hl₁ : left m₁' b = left m a := Memory.load32_store32_same (Memory.load32_lt _ _)
  have h₂ : OffPrev a f m₂' m₂ := by
    show OffPrev a f (if left m₁' b ≠ 0 then setParent m₁' (left m₁' b) b else m₁')
      (if left m₁ b ≠ 0 then setParent m₁ (left m₁ b) b else m₁)
    rw [(h₁.links hb).1, hl₁]
    exact h₁.adopt hl
  have hr₁ : right m₁' a = right m a :=
    Memory.load32_store32_apart (by rcases hb with rfl | hb | hb <;> omega)
  have hr₂ : right m₂' a = right m a := by
    show right (if left m₁' b ≠ 0 then setParent m₁' (left m₁' b) b else m₁') a = _
    rw [hl₁]
    split
    · exact (Memory.load32_store32_apart (by rcases hl ‹_› with hc | hc | hc <;> omega)).trans hr₁
    · exact hr₁
  have h₃ : OffPrev a f m₃' m₃ := by
    show OffPrev a f (setRight m₂' b (right m₂' a)) (setRight m₂ b (right m₂ a))
    rw [(h₂.links ha).2.1]
    exact h₂.storeRight hb
  have hr₃ : right m₃' b = right m a :=
    (Memory.load32_store32_same (Memory.load32_lt _ _)).trans hr₂
  have h₄ : OffPrev a f m₄' m₄ := by
    show OffPrev a f (if right m₃' b ≠ 0 then setParent m₃' (right m₃' b) b else m₃')
      (if right m₃ b ≠ 0 then setParent m₃ (right m₃ b) b else m₃)
    rw [(h₃.links hb).2.1, hr₃]
    exact h₃.adopt hr
  show OffPrev a f (setParent m₄' b (parent m₄' a)) (setParent m₄ b (parent m₄ a))
  rw [(h₄.links ha).2.2]
  exact h₄.storeParent hb

theorem leftmostLeave_offPrev (fuel : Nat) (h : OffPrev a f m m') (hS : ∀ y ∈ S, Clear a y)
    (hclosed : ∀ y ∈ S, (left m y ≠ 0 → left m y ∈ S) ∧ (right m y ≠ 0 → right m y ∈ S))
    (hy : y ∈ S) :
    leftmostLeave m' fuel y = leftmostLeave m fuel y := by
  induction fuel generalizing y with
  | zero => rfl
  | succ fuel ih =>
    obtain ⟨hl, hr⟩ := hclosed y hy
    obtain ⟨h1, h2, -⟩ := h.links (hS y hy)
    rw [leftmostLeave, leftmostLeave, h1, h2]
    by_cases hleave : ktchunkIsLeave m y
    · rw [if_pos hleave, if_pos ((h.leave (hS y hy)).mpr hleave)]
    · rw [if_neg hleave, if_neg fun hl => hleave ((h.leave (hS y hy)).mp hl)]
      by_cases hz : left m y ≠ 0
      · rw [if_pos hz]
        exact ih (hl hz)
      · rw [if_neg hz]
        exact ih (hr fun hz' => hleave ⟨not_not.mp hz, hz'⟩)

/-- The removal of a record that is alone in its ring does not look at its back link. -/
theorem kmallocTreeRemove_offPrev (h : TreeRep (links m) 0 root t) (ht : Trie d t)
    (hd : d < 4294967296)
    (hp : Placed t.addrs) (ha : (a, k) ∈ t.items) (hself : next m a = a) (hoff : OffPrev a f m m') :
    ∃ m₁ m₁' r, kmallocTreeRemove m a root = some (m₁, r) ∧
      kmallocTreeRemove m' a root = some (m₁', r) ∧
      OffPrev a f m₁ m₁' := by
  have haddr : a ∈ t.addrs := List.mem_map.mpr ⟨_, ha, rfl⟩
  have hclear : ∀ y ∈ t.addrs, Clear a y := fun y hy => hp.spaced y hy a haddr
  have ha0 : a ≠ 0 := (hp.fits a haddr).1
  have hlist : ¬ktchunkIsInList m a := fun hi => hi.1 hself
  have hlist' : ¬ktchunkIsInList m' a := fun hi => hi.1 (hoff.next.trans hself)
  have hca : Clear a a := .inl rfl
  obtain ⟨h1, h2, h3⟩ := hoff.links hca
  by_cases hleave : ktchunkIsLeave m a
  · have hleave' := (hoff.leave hca).mpr hleave
    rw [kmallocTreeRemove, kmallocTreeRemove, if_neg ha0, if_neg ha0, if_neg hlist,
      if_neg hlist', if_pos hleave,
      if_pos hleave', h3]
    by_cases h0 : parent m a ≠ 0
    · rw [if_pos h0, if_pos h0]
      refine ⟨_, _, _, rfl, rfl, hoff.updateParent hca (hclear _ ?_)⟩
      rcases h.parent_mem haddr with hz | hz | hz
      · exact absurd hz h0
      · exact absurd hz h0
      · exact hz
    · rw [if_neg h0, if_neg h0]
      exact ⟨_, _, _, rfl, rfl, hoff⟩
  have hleave' : ¬ktchunkIsLeave m' a := fun hl => hleave ((hoff.leave hca).mp hl)
  -- the record is a node, with the leaf that takes its place below it
  obtain ⟨c, head, rest, l, r, rfl, hmem⟩ := exists_plug ha
  have hp' := hp.perm (addrs_plug c (.node head rest k l r))
  obtain ⟨par, p, -, hnode⟩ := rep_plug.mp h
  have hnd : (head :: rest).Nodup := by
    refine hp'.nodup.sublist ?_
    simp
  obtain ⟨rfl, -, -, hring, hout, hl, hr⟩ := id hnode
  have hhead : a = p ∧ rest = [] := by
    rcases List.mem_cons.mp hmem with rfl | hm
    · exact ⟨rfl, by simpa using (hring.next_eq_self hnd).mp hself⟩
    · obtain ⟨hz1, hz2, -⟩ := hout a hm
      exact absurd ⟨hz1, hz2⟩ hleave
  obtain ⟨rfl, rfl⟩ := hhead
  have hheight := ht.sub.height_le
  simp only [RTree.height] at hheight
  obtain ⟨c₃, b, restb, kb, dir, sib, heq, hb⟩ := exists_inner hnode
    (fun hl' => hleave ⟨hl.null_iff.mpr hl'.1, hr.null_iff.mpr hl'.2⟩) (by unfold loopFuel; omega)
  have hb' := leftmostLeave_offPrev loopFuel hoff hclear
    (fun y hy => ⟨(h.closed hy).1, (h.closed hy).2.1⟩) haddr
  rw [hb] at hb'
  rw [heq] at h hp'
  have hplaced := hp'.perm (innerAddrs_perm k kb a b restb c₃ dir sib c)
  have haS : a ∈ innerAddrs a b restb c₃ sib c := by simp [innerAddrs]
  have hbS : b ∈ innerAddrs a b restb c₃ sib c := by simp [innerAddrs]
  have hclear' : ∀ y ∈ innerAddrs a b restb c₃ sib c, Clear a y :=
    fun y hy => hplaced.spaced y hy a haS
  obtain ⟨hrepl, hmod, -, -, -⟩ := promoted h hplaced
  have hcut : OffPrev a f (ktchunkUpdateParent m b 0) (ktchunkUpdateParent m' b 0) :=
    hoff.updateParent (hclear' b hbS) (hclear' _ hrepl.parentLeaf)
  have hmod₁ :=
    (Models.refl _ m).updateParent (hplaced.spaced.mono (by omega)) hbS hrepl.parentLeaf (v :=
      0) (by omega)
  have htake := hcut.takeOver (hclear' b hbS)
    (fun hz => hclear' _ (hmod₁.left_eq haS ▸ hrepl.leftChild (hmod₁.left_eq haS ▸ hz)))
    (fun hz => hclear' _ (hmod₁.right_eq haS ▸ hrepl.rightChild (hmod₁.right_eq haS ▸ hz)))
  have hparb := (htake.links (hclear' b hbS)).2.2
  have hpara : parent (ktchunkTakeOver (ktchunkUpdateParent m b 0) a b) a = parent m a :=
    (hmod.parent_eq haS).trans hrepl.parentOld
  have hparb' : parent (ktchunkTakeOver (ktchunkUpdateParent m b 0) a b) b = parent m a :=
    (hmod.parent_eq hbS).trans hrepl.parentNew
  rw [kmallocTreeRemove_inner ha0 hlist hleave hb, kmallocTreeRemove_inner ha0 hlist' hleave' hb',
    hparb, hparb']
  by_cases h0 : parent m a ≠ 0
  · rw [if_pos h0, if_pos h0]
    refine ⟨_, _, _, rfl, rfl, htake.updateParent hca ?_⟩
    rw [hpara]
    exact hclear' _ (hrepl.parentMem fun hc => h0 (hrepl.parentNull.mpr hc))
  · rw [if_neg h0, if_neg h0]
    exact ⟨_, _, _, rfl, rfl, htake⟩

end

-- ---------------------------------------------------------------------------
-- Unbinning
-- ---------------------------------------------------------------------------

/-- The word at offset `d + 4` of the chunk plays no part when it leaves its bin. -/
def Unread (m : Memory) (a s d : Nat) : Prop :=
  32 ≤ d ∨ s < minLargeSize ∧ 16 ≤ d ∨ d = 8 ∧ next m a = a

section
variable {w : World ε} {f m' : Memory} {B B' : List (Nat × Nat)} {a s d : Nat}

theorem unbinChunk_offPrev (h : Bins w.kmstate.bins w.mem B) (hx : Extents B) (ha : (a, s) ∈ B)
    (hself : next w.mem a = a) (hoff : OffPrev a f w.mem m') :
    ∃ b m₁ m₁', unbinChunk w a = some (w.setBins b m₁) ∧
      unbinChunk (w.setMem m') a = some (w.setBins b m₁') ∧
      OffPrev a f m₁ m₁' := by
  have hsize := h.sized _ ha
  have hsize' : getChunkSize m' a = s :=
    (getChunkSize_congr fun x _ _ => hoff.same x (by omega)).trans hsize
  have ha0 := (hx.extent _ ha).pos
  by_cases hs : s < minLargeSize
  · have hi := smallIndex_lt hs
    have hrem : ∀ {m : Memory} {head : Nat}, next m a = a →
      kmallocDllistRemoveIntern m a head = (a, m, 0) := by
      intro m head hm
      rw [kmallocDllistRemoveIntern, if_neg ha0]
      simp [hm]
    obtain ⟨b, hb⟩ : ∃ b, ∀ m, clearSbin ((w.setMem m).setSbin (smallIndex s) 0)
      (smallIndex s) = w.setBins b m :=
      ⟨_, fun m => clearSbin_eq w m (smallIndex s) 0⟩
    refine ⟨b, w.mem, m', ?_, ?_, hoff⟩
    · rw [unbinChunk, hsize]
      simp only [if_pos hs, guard, if_pos (show smallIndex s < nsbins from hi), hrem hself]
      exact congrArg some (hb w.mem)
    · rw [unbinChunk, show (w.setMem m').mem = m' from rfl, hsize']
      simp only [if_pos hs, guard, if_pos (show smallIndex s < nsbins from hi),
        hrem (hoff.next.trans hself)]
      exact congrArg some (hb m')
  · have hlarge := Nat.le_of_not_lt hs
    have hi := calcTbin_lt s
    have hidx := h.indexed _ ha hlarge
    have hidx' : index m' a = calcTbin s :=
      (Memory.load32_congr fun x _ _ => hoff.same x (by omega)).trans hidx
    obtain ⟨t, hr, ht, hxs⟩ := h.tree (calcTbin s) hi
    have hat : (a, s) ∈ t.items :=
      hxs.mem_iff.mpr (List.mem_filter.mpr ⟨ha, by simpa using binNo_large hlarge⟩)
    have hd : tbinDepth (calcTbin s) < 4294967296 := by
      rw [tbinDepth_eq]
      omega
    obtain ⟨m₁, m₁', r, hres, hres', hoff'⟩ :=
      kmallocTreeRemove_offPrev hr ht hd (TreeBin.placed hx hxs) hat hself hoff
    have hres : kmallocTreeRemove w.mem a (w.kmstate.tbin (calcTbin s)) = some (m₁, r) := hres
    have hres' : kmallocTreeRemove m' a (w.kmstate.tbin (calcTbin s)) = some (m₁', r) := hres'
    obtain ⟨b, hb⟩ : ∃ b, ∀ m, clearTbin ((w.setMem m).setTbin (calcTbin s) r)
      (calcTbin s) = w.setBins b m :=
      ⟨_, fun m => clearTbin_eq w m (calcTbin s) r⟩
    refine ⟨b, m₁, m₁', ?_, ?_, hoff'⟩
    · rw [unbinChunk, hsize]
      simp only [if_neg hs, hidx, removeTchunk, guard, if_pos (show calcTbin s < ntbins from hi)]
      simp only [Option.bind_eq_bind, Option.bind_some, hres]
      exact congrArg some (hb m₁)
    · rw [unbinChunk, show (w.setMem m').mem = m' from rfl, hsize']
      simp only [if_neg hs, hidx', removeTchunk, guard, if_pos (show calcTbin s < ntbins from hi)]
      simp only [Option.bind_eq_bind, Option.bind_some, show (w.setMem m').kmstate =
        w.kmstate from rfl,
        show (w.setMem m').mem = m' from rfl, hres']
      exact congrArg some (hb m₁')

theorem unbinChunk_overwritten (h : Bins w.kmstate.bins w.mem B) (hx : Extents B)
    (hp : B.Perm ((a, s) :: B')) (hd : Unread w.mem a s d) (hfits : d + 8 ≤ s)
    (hm : SameExcept (a + d + 4) (a + d + 8) w.mem m') :
    ∃ b m₁, unbinChunk (w.setMem m') a = some (w.setBins b m₁) ∧ Bins b m₁ B' ∧ Inside B w.mem m₁ ∧
      ∀ x, a + d + 4 ≤ x → x < a + d + 8 → m₁ x = m' x := by
  have ha : (a, s) ∈ B := hp.mem_iff.mpr List.mem_cons_self
  have hmin : ∀ p ∈ B, 16 ≤ p.2 := fun p hp => (hx.extent p hp).min
  have hlarge : minLargeSize = 256 := rfl
  have h8 : 8 ≤ d := by
    rcases hd with hd | ⟨-, hd⟩ | ⟨hd, -⟩ <;> omega
  have hinside : ∀ {m m' : Memory}, SameExcept (a + d + 4) (a + d + 8) m m' → Inside B m m' := by
    intro m m' hm x hout
    have := hout _ ha
    simp only at this
    exact hm x (by omega)
  have hapart : ∀ p ∈ B, p ≠ (a, s) → p.1 + p.2 ≤ a ∨ a + s ≤ p.1 :=
    fun p hpm hne => hx.apart p hpm _ ha hne
  by_cases h16 : 16 ≤ d
  · -- the word is in no link
    have hbins : Bins w.kmstate.bins m' B := by
      refine h.congr_fields fun p hpm x hlo hhi => hm x ?_
      have hpmin := hmin p hpm
      by_cases he : p = (a, s)
      · subst he
        simp only at hlo hhi
        rcases hd with hd | ⟨hd, -⟩ | ⟨hd, -⟩ <;> omega
      · have := hapart p hpm he
        omega
    obtain ⟨b, m₁, hres, hbins', hfields⟩ := unbinChunk_spec (w := w.setMem m') hbins hx hp
    refine ⟨b, m₁, hres, hbins', (hinside hm).trans (hfields.inside hmin),
      fun x hlo hhi => hfields x fun p hpm => ?_⟩
    have hpmin := hmin p hpm
    by_cases he : p = (a, s)
    · subst he
      rcases hd with hd | ⟨hd, -⟩ | ⟨hd, -⟩ <;> simp only <;> omega
    · have := hapart p hpm he
      omega
  · -- it is the back link of a chunk alone in its ring
    obtain ⟨rfl, hself⟩ : d = 8 ∧ next w.mem a = a := by
      rcases hd with hd | ⟨-, hd⟩ | hd
      · omega
      · omega
      · exact hd
    obtain ⟨b, m₁, m₁', hres, hres', hoff⟩ := unbinChunk_offPrev h hx ha hself (OffPrev.of_same hm)
    obtain ⟨b', m₂, hres₂, hbins, hfields⟩ := unbinChunk_spec h hx hp
    have heq := Option.some.inj (hres.symm.trans hres₂)
    have hb : b = b' := congrArg (fun w => w.kmstate.bins) heq
    have hm₂ : m₁ = m₂ := congrArg World.mem heq
    subst hb hm₂
    have hoff' : SameExcept (a + 8 + 4) (a + 8 + 8) m₁ m₁' := hoff.same
    refine ⟨b, m₁', hres', hbins.congr (fun p hpm x hlo hhi => hoff' x ?_) fun p hpm => ?_,
      (hfields.inside hmin).trans (hinside hoff'), fun x hlo hhi => hoff.kept hlo hhi⟩
    · have hmem := hp.mem_iff.mpr (List.mem_cons_of_mem _ hpm)
      have hpmin := hmin p hmem
      have := hapart p hmem fun he => (List.nodup_cons.mp (hp.nodup_iff.mp hx.nodup)).1 (he ▸ hpm)
      omega
    · exact hx.extent p (hp.mem_iff.mpr (List.mem_cons_of_mem _ hpm))

end

end ElcoOs.Kmalloc
