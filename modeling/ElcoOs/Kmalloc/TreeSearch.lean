import ElcoOs.Kmalloc.TreeInsert

/-!
# Search in a bin tree

Both searches return a record of the tree. The best fit goes down along the
bits of the size, so that what lies to the right of its path is larger, and
comes back up to the first node with something on its right.
-/

namespace ElcoOs.Kmalloc

open Ring RingTree

variable {m : Memory}

-- ---------------------------------------------------------------------------
-- Smallest
-- ---------------------------------------------------------------------------

theorem getSmallestLoop_spec {t : RTree} {par cur fuel : Nat} (sc ss : Nat)
    (h : TreeRep (links m) par cur t) (ht : t ≠ .leaf) (hf : t.height ≤ fuel) :
    ∃ a, kmallocTreeGetSmallestLoop m fuel cur sc ss = some a ∧ (a = sc ∨ a ∈ t.addrs) := by
  induction t generalizing par cur sc ss fuel with
  | leaf => exact absurd rfl ht
  | node head rest key l r ihl ihr =>
    obtain ⟨rfl, -, -, -, -, hl, hr⟩ := h
    obtain _ | fuel := fuel
    · simp [RTree.height] at hf
    simp only [RTree.height, Nat.add_le_add_iff_right, Nat.max_le] at hf
    rw [kmallocTreeGetSmallestLoop]
    by_cases hleave : ktchunkIsLeave m cur
    · exact ⟨sc, by rw [if_pos hleave], .inl rfl⟩
    rw [if_neg hleave]
    -- the child taken is the root of one of the two subtrees
    have side : ∀ (t : RTree) (child : Nat), child ∈ t.addrs →
      (∀ a ∈ t.addrs, a ∈ (RTree.node cur rest key l r).addrs) →
        (∀ sc ss, ∃ a, kmallocTreeGetSmallestLoop m fuel child sc ss = some a ∧
        (a = sc ∨ a ∈ t.addrs)) →
        ∃ a, (if getChunkSize m child < ss then
          kmallocTreeGetSmallestLoop m fuel child child (getChunkSize m child)
          else kmallocTreeGetSmallestLoop m fuel child sc ss) = some a ∧
          (a = sc ∨ a ∈ (RTree.node cur rest key l r).addrs) := by
      intro t child hchild hsub ih
      split
      · obtain ⟨a, ha, hmem⟩ := ih child (getChunkSize m child)
        refine ⟨a, ha, .inr (hsub a ?_)⟩
        rcases hmem with rfl | hmem
        · exact hchild
        · exact hmem
      · obtain ⟨a, ha, hmem⟩ := ih sc ss
        exact ⟨a, ha, hmem.imp_right (hsub a)⟩
    by_cases hlz : left m cur = 0
    · have hrz : right m cur ≠ 0 := fun he => hleave ⟨hlz, he⟩
      rw [show (if left m cur ≠ 0 then left m cur else right m cur) = right m cur from
        if_neg fun hn => hn hlz]
      exact side r _ (hr.root_mem hrz) (by simp +contextual)
        (fun sc ss => ihr sc ss hr (fun he => hrz (hr.null_iff.mpr he)) hf.2)
    · rw [show (if left m cur ≠ 0 then left m cur else right m cur) = left m cur from if_pos hlz]
      exact side l _ (hl.root_mem hlz) (by simp +contextual)
        (fun sc ss => ihl sc ss hl (fun he => hlz (hl.null_iff.mpr he)) hf.1)

theorem kmallocTreeGetSmallest_spec {t : RTree} {par root : Nat} (h : TreeRep (links m) par root t)
    (ht : t ≠ .leaf)
    (hf : t.height ≤ loopFuel) : ∃ a, kmallocTreeGetSmallest m root = some a ∧ a ∈ t.addrs := by
  have h0 : root ≠ 0 := fun he => ht (h.null_iff.mp he)
  rw [kmallocTreeGetSmallest, if_neg h0]
  obtain ⟨a, ha, hmem⟩ := getSmallestLoop_spec root (getChunkSize m root) h ht hf
  exact ⟨a, ha, hmem.elim (fun he => he ▸ h.root_mem h0) id⟩

-- ---------------------------------------------------------------------------
-- Down
-- ---------------------------------------------------------------------------

/-- What a context that follows the bits of `size` says about the subtrees
beside it. `D` is the number of bits of the whole trie. -/
structure Guided (D size : Nat) (c : Ctx) : Prop where
  right : ∀ f ∈ c, f.dir = false → ∀ k ∈ f.sib.keys, size < k
  left : ∀ f ∈ c, f.dir = true → ∀ k ∈ f.sib.keys, k / 2 ^ D = size / 2 ^ D → k < size
  key : ∀ f ∈ c, f.key ≠ size
  height : ∀ f ∈ c, f.sib.height ≤ D + 1

/-- The node on the path that is remembered: the last one seen to be large
enough, or none when all are too small. -/
structure Remembered (size sc : Nat) (c : Ctx) : Prop where
  found : sc ≠ 0 → ∃ f ∈ c, f.head = sc ∧ size < f.key
  none : sc = 0 → ∀ f ∈ c, f.key < size

/-- The keys of a subtree that agree with `size` above `D` bits do so above `d`. -/
def Near (D d size : Nat) (t : RTree) : Prop := ∀ k ∈ t.keys, k / 2 ^ D = size / 2 ^ D →
    k / 2 ^ d = size / 2 ^ d

/-- How the way down ends: at the size itself, or below a node with no child
on its side. -/
def DescentOk (m : Memory) (D size root : Nat) (t : RTree) : Descent → Prop
  | .exact a => (a, size) ∈ t.items
  | .stop cur parent sc => ∃ f fs, t = plug (f :: fs) .leaf ∧ cur = 0 ∧ parent = f.head ∧
      CtxRep (links m) (f :: fs) root parent cur ∧ Guided D size (f :: fs) ∧
      Remembered size sc (f :: fs) ∧
      (f :: fs).length ≤ D + 1

theorem Guided.cons {D size : Nat} {f : Frame} {c : Ctx} (h : Guided D size c)
    (hr : f.dir = false → ∀ k ∈ f.sib.keys, size < k)
    (hl : f.dir = true → ∀ k ∈ f.sib.keys, k / 2 ^ D = size / 2 ^ D → k < size) (hk : f.key ≠ size)
    (hh : f.sib.height ≤ D + 1) : Guided D size (f :: c) := by
  refine ⟨fun g hg => ?_, fun g hg => ?_, fun g hg => ?_, fun g hg => ?_⟩
  all_goals rcases List.mem_cons.mp hg with rfl | hg
  · exact hr
  · exact h.right g hg
  · exact hl
  · exact h.left g hg
  · exact hk
  · exact h.key g hg
  · exact hh
  · exact h.height g hg

theorem Remembered.cons {size sc : Nat} {f : Frame} {c : Ctx} (h : Remembered size sc c)
    (h0 : f.head ≠ 0) (hne : f.key ≠ size) {ss : Nat} :
    Remembered size (if f.key > size ∧ (sc = 0 ∨ f.key < ss) then f.head else sc) (f :: c) := by
  split
  · rename_i hs
    exact ⟨fun _ => ⟨f, List.mem_cons_self, rfl, hs.1⟩, fun he => absurd he h0⟩
  · rename_i hs
    refine ⟨fun hsc => ?_, fun hsc => ?_⟩
    · obtain ⟨g, hg, hres⟩ := h.found hsc
      exact ⟨g, List.mem_cons_of_mem _ hg, hres⟩
    · intro g hg
      rcases List.mem_cons.mp hg with rfl | hg
      · have : ¬ g.key > size := fun hgt => hs ⟨hgt, .inl hsc⟩
        omega
      · exact h.none hsc g hg

theorem Near.child {D d : Nat} {head key : Nat} {rest : List Nat} {l r : RTree}
    (h : Near D (d + 1) size (.node head rest key l r))
    (ht : Trie (d + 1) (.node head rest key l r)) :
    if size.testBit d then Near D d size r else Near D d size l := by
  split
  · rename_i hb
    exact fun k hk he => agrees_below (h k (by simp [RTree.keys, hk]) he)
      ((ht.2.1 k hk).trans hb.symm)
  · rename_i hb
    have hb : size.testBit d = false := by simpa using hb
    exact fun k hk he => agrees_below (h k (by simp [RTree.keys, hk]) he)
      ((ht.1 k hk).trans hb.symm)

theorem bestFitDescend_exact {t : RTree} {d size par cur : Nat} (sc ss : Nat)
    (h : TreeRep (links m) par cur t) (ht : Trie d t) (hkey : Keyed m t) (hmem : size ∈ t.keys) :
    ∃ a, bestFitDescend m size d cur sc ss = .exact a ∧ (a, size) ∈ t.items := by
  induction t generalizing d par cur sc ss with
  | leaf => simp [RTree.keys] at hmem
  | node head rest key l r ihl ihr =>
    obtain ⟨rfl, -, -, -, -, hl, hr⟩ := h
    have hk : getChunkSize m cur = key := hkey (cur, key) (by simp [RTree.items])
    unfold bestFitDescend
    rw [hk]
    by_cases hsize : size = key
    · exact ⟨cur, by rw [if_pos hsize], by simp [RTree.items, hsize]⟩
    rw [if_neg hsize]
    simp only [RTree.keys, List.mem_cons, List.mem_append] at hmem
    have hmem := hmem.resolve_left hsize
    cases d with
    | zero =>
      obtain ⟨rfl, rfl⟩ := ht
      simp [RTree.keys] at hmem
    | succ d =>
      simp only [Word32.and_bit_ne_zero]
      cases hb : size.testBit d with
      | true =>
        have hmr : size ∈ r.keys := hmem.resolve_left fun hml => by simp [ht.1 size hml] at hb
        have hrz : right m cur ≠ 0 := fun he => by
          rw [hr.null_iff.mp he] at hmr
          simp [RTree.keys] at hmr
        simp only [if_true, if_pos hrz]
        obtain ⟨a, ha, hitem⟩ :=
          ihr _ _ hr ht.2.2.2.2.2 (fun x hx => hkey x (by simp [RTree.items, hx])) hmr
        exact ⟨a, ha, by simp [RTree.items, hitem]⟩
      | false =>
        have hml : size ∈ l.keys := hmem.resolve_right fun hmr => by simp [ht.2.1 size hmr] at hb
        have hlz : left m cur ≠ 0 := fun he => by
          rw [hl.null_iff.mp he] at hml
          simp [RTree.keys] at hml
        simp only [Bool.false_eq_true, if_false, if_pos hlz]
        obtain ⟨a, ha, hitem⟩ :=
          ihl _ _ hl ht.2.2.2.2.1 (fun x hx => hkey x (by simp [RTree.items, hx])) hml
        exact ⟨a, ha, by simp [RTree.items, hitem]⟩

theorem kmallocTreeGetBestFit_exact {t : RTree} {d size root : Nat} (h : TreeRep (links m) 0 root t)
    (ht : Trie d t) (h0 : 0 < d) (hkey : Keyed m t) (hmem : size ∈ t.keys) :
    ∃ a, kmallocTreeGetBestFit m size root d = some a ∧ (a, size) ∈ t.items := by
  have hroot : root ≠ 0 := fun he => by
    rw [h.null_iff.mp he] at hmem
    simp [RTree.keys] at hmem
  obtain ⟨a, ha, hitem⟩ := bestFitDescend_exact 0 0xFFFFFFFF h ht hkey hmem
  exact ⟨a, by rw [kmallocTreeGetBestFit, if_neg (by omega), ha], hitem⟩

theorem bestFitDescend_spec {t : RTree} {d size root par cur : Nat} (D sc ss : Nat) {c : Ctx}
    (h : TreeRep (links m) par cur t)
    (hctx : CtxRep (links m) c root par cur) (h0 : cur ≠ 0) (hkey : Keyed m t) (ht : Trie d t)
    (hal : AtLeast d size t) (hnear : Near D d size t) (hg : Guided D size c)
    (hr : Remembered size sc c) (hlen : c.length + d ≤ D) :
    DescentOk m D size root (plug c t) (bestFitDescend m size d cur sc ss) := by
  induction t generalizing d par cur sc ss c with
  | leaf => exact absurd h h0
  | node head rest key l r ihl ihr =>
    have hnode := h
    obtain ⟨rfl, hcur, hpar, hring, hrest, hl, hrr⟩ := h
    have hk : getChunkSize m cur = key := hkey (cur, key) (by simp [RTree.items])
    unfold bestFitDescend
    rw [hk]
    by_cases hsize : size = key
    · subst hsize
      rw [if_pos rfl]
      exact (items_plug c _).mem_iff.mpr (List.mem_append_left _ (by simp [RTree.items]))
    rw [if_neg hsize]
    -- the frame of this node, seen from the side taken
    have hframe : ∀ f : Frame, f.head = cur → f.rest = rest → f.key = key →
        (f.dir = false → ∀ k ∈ f.sib.keys, size < k) →
        (f.dir = true → ∀ k ∈ f.sib.keys, k / 2 ^ D = size / 2 ^ D → k < size) →
        f.sib.height ≤ D + 1 →
        TreeRep (links m) cur ((links m).child (!f.dir) cur) f.sib →
        CtxRep (links m) (f :: c) root cur ((links m).child f.dir cur) ∧ Guided D size (f :: c) ∧
          Remembered size (if key > size ∧ (sc = 0 ∨ key < ss) then cur else sc) (f :: c) := by
      rintro f rfl rfl rfl hfr hfl hh hsib
      exact ⟨⟨rfl, hcur, hring, hrest, rfl, hsib, hpar.symm ▸ hctx⟩,
        hg.cons hfr hfl (fun he => hsize he.symm) hh, hr.cons hcur fun he => hsize he.symm⟩
    cases d with
    | zero =>
      obtain ⟨rfl, rfl⟩ := ht
      obtain ⟨hc', hg', hr'⟩ := hframe ⟨cur, rest, key, true, .leaf⟩ rfl rfl rfl (by simp)
        (by simp [RTree.keys])
        (by simp [RTree.height]) hl
      have hz : (if size &&& 1 <<< 31 ≠ 0 then right m cur else left m cur) = 0 := by
        split
        · exact hrr
        · exact hl
      refine ⟨_, _, rfl, hz, rfl, ?_, hg', hr', by simpa using hlen⟩
      rw [hz]
      rwa [show (links m).child true cur = 0 from hrr] at hc'
    | succ d =>
      simp only [Word32.and_bit_ne_zero]
      have hnear' := hnear.child ht
      cases hb : size.testBit d with
      | true =>
        rw [hb, if_pos rfl] at hnear'
        obtain ⟨hc', hg', hr'⟩ := hframe ⟨cur, rest, key, true, l⟩ rfl rfl rfl (by simp)
          (fun _ k hkl he => ht.left_lt hb hkl (hnear k (by simp [RTree.keys, hkl]) he))
          (by have := ht.2.2.2.2.1.height_le; simp only; omega) hl
        simp only [if_true]
        by_cases hz : right m cur = 0
        · rw [if_neg (by simpa using hz)]
          obtain rfl : r = .leaf := hrr.null_iff.mp hz
          refine ⟨_, _, rfl, hz, rfl, ?_, hg', hr', by simp only [List.length_cons]; omega⟩
          exact hc'
        · rw [if_pos hz]
          exact ihr _ _ (c := ⟨cur, rest, key, true, l⟩ :: c) hrr hc' hz
            (fun x hx => hkey x (by simp [RTree.items, hx])) ht.2.2.2.2.2
              (hal.right ht) hnear' hg' hr'
            (by simp only [List.length_cons]; omega)
      | false =>
        rw [hb, if_neg (by simp)] at hnear'
        obtain ⟨hc', hg', hr'⟩ := hframe ⟨cur, rest, key, false, r⟩ rfl rfl rfl
          (fun _ k hkr => hal.lt_right ht hb hkr) (by simp)
          (by have := ht.2.2.2.2.2.height_le; simp only; omega) hrr
        simp only [Bool.false_eq_true, if_false]
        by_cases hz : left m cur = 0
        · rw [if_neg (by simpa using hz)]
          obtain rfl : l = .leaf := hl.null_iff.mp hz
          refine ⟨_, _, rfl, hz, rfl, ?_, hg', hr', by simp only [List.length_cons]; omega⟩
          exact hc'
        · rw [if_pos hz]
          exact ihl _ _ (c := ⟨cur, rest, key, false, r⟩ :: c) hl hc' hz
            (fun x hx => hkey x (by simp [RTree.items, hx])) ht.2.2.2.2.1
              (hal.left hb) hnear' hg' hr'
            (by simp only [List.length_cons]; omega)

-- ---------------------------------------------------------------------------
-- Up
-- ---------------------------------------------------------------------------

theorem head_mem_items {c : Ctx} {f : Frame} (hf : f ∈ c) : (f.head, f.key) ∈ Ctx.items c :=
  List.mem_flatMap.mpr ⟨f, hf, by simp [Frame.items]⟩

theorem frame_eq_of_head {c : Ctx} {f g : Frame} (hnd : ((Ctx.items c).map Prod.fst).Nodup)
    (hf : f ∈ c) (hg : g ∈ c) (hh : f.head = g.head) : f = g := by
  induction c with
  | nil => simp at hf
  | cons e c ih =>
    rw [show Ctx.items (e :: c) = e.items ++ Ctx.items c from rfl, List.map_append,
      List.nodup_append] at hnd
    obtain ⟨-, hndc, hdisj⟩ := hnd
    have hapart : ∀ x ∈ c, e.head ≠ x.head := fun x hx =>
      hdisj e.head (by simp [Frame.items]) x.head (List.mem_map.mpr ⟨_, head_mem_items hx, rfl⟩)
    rcases List.mem_cons.mp hf with rfl | hf' <;> rcases List.mem_cons.mp hg with rfl | hg'
    · rfl
    · exact absurd hh (hapart g hg')
    · exact absurd hh.symm (hapart f hf')
    · exact ih hndc hf' hg'

theorem climb_test {f : Frame} {fs : Ctx} {root cur : Nat}
    (h : CtxRep (links m) (f :: fs) root f.head cur) (hcur : cur = 0 ∨ cur ∉ f.sib.addrs) :
    (right m f.head = 0 ∨ right m f.head = cur) ↔ (f.dir = false → f.sib = .leaf) := by
  obtain ⟨-, -, -, -, hchild, hsib, -⟩ := h
  cases hd : f.dir with
  | true =>
    rw [hd] at hchild
    exact iff_of_true (.inr hchild) (by simp)
  | false =>
    rw [hd] at hsib
    have hnull : right m f.head = 0 ↔ f.sib = .leaf := hsib.null_iff
    constructor
    · rintro (hz | hz) -
      · exact hnull.mp hz
      · by_contra hne
        have hr0 : right m f.head ≠ 0 := fun he => hne (hnull.mp he)
        have hmem : right m f.head ∈ f.sib.addrs := hsib.root_mem hr0
        rcases hcur with hc | hc
        · exact hr0 (hz.trans hc)
        · exact hc (hz ▸ hmem)
    · exact fun hl => .inl (hnull.mpr (hl rfl))

/-- From below a node, up to a record that is larger; null only where neither
the remembered node nor anything to the right of the path is there. -/
theorem bestFitClimb_spec {f : Frame} {fs : Ctx} {D size root cur : Nat} (sc fuel : Nat)
    (h : CtxRep (links m) (f :: fs) root f.head cur) (hg : Guided D size (f :: fs))
    (hD : D + 1 ≤ loopFuel)
    (hnd : ((Ctx.items (f :: fs)).map Prod.fst).Nodup) (h0 : ∀ x ∈ Ctx.items (f :: fs), x.1 ≠ 0)
    (hcur : cur = 0 ∨ cur ∉ f.sib.addrs) (hfuel : (f :: fs).length ≤ fuel)
    (hsc : ∀ g ∈ f :: fs, g.head = sc → size < g.key) :
    ∃ a, bestFitClimb m sc fuel cur f.head = some a ∧
      (a = 0 ∨ ∃ k, (a, k) ∈ Ctx.items (f :: fs) ∧ size < k) ∧
      (a = 0 → ∀ g ∈ f :: fs, (g.dir = false → g.sib = .leaf) ∧ g.head ≠ sc) := by
  induction fuel generalizing f fs cur with
  | zero => simp at hfuel
  | succ fuel ih =>
    have htest := climb_test h hcur
    obtain ⟨-, -, -, -, -, hsib, hfs⟩ := h
    rw [bestFitClimb]
    by_cases hup : f.dir = false → f.sib = .leaf
    · rw [if_pos (htest.mpr hup)]
      by_cases hhit : f.head = sc
      · rw [if_pos hhit]
        have hmem : (f.head, f.key) ∈ Ctx.items (f :: fs) := by simp [Ctx.items, Frame.items]
        exact ⟨f.head, rfl, .inr ⟨f.key, hmem, hsc f (by simp) hhit⟩,
          fun he => absurd he (h0 _ hmem)⟩
      rw [if_neg hhit]
      cases fs with
      | nil =>
        rw [if_pos (show parent m f.head = 0 from hfs.1)]
        exact ⟨0, rfl, .inl rfl, fun _ g hgm => List.mem_singleton.mp hgm ▸ ⟨hup, hhit⟩⟩
      | cons f' fs =>
        have hpar : parent m f.head = f'.head := hfs.1
        have hitems : Ctx.items (f :: f' :: fs) = f.items ++ Ctx.items (f' :: fs) := rfl
        have hf' : f'.head ≠ 0 := hfs.2.1
        have hnot : f.head ∉ f'.sib.addrs := by
          intro hm
          rw [hitems, List.map_append, List.nodup_append] at hnd
          exact hnd.2.2 f.head (by simp [Frame.items]) f.head
            (by simp only [Ctx.items, List.flatMap_cons, Frame.items,
            List.map_append, List.mem_append]
                exact .inl (.inr hm)) rfl
        rw [if_neg (show ¬ parent m f.head = 0 from hpar ▸ hf'), hpar]
        obtain ⟨a, ha, hmem, hnull⟩ := ih (hpar ▸ hfs)
          ⟨fun g hgm => hg.right g (.tail _ hgm), fun g hgm => hg.left g (.tail _ hgm),
            fun g hgm => hg.key g (.tail _ hgm), fun g hgm => hg.height g (.tail _ hgm)⟩
          (by rw [hitems, List.map_append, List.nodup_append] at hnd
              exact hnd.2.1)
          (fun x hx => h0 x (hitems ▸ List.mem_append_right _ hx)) (.inr hnot)
          (by simpa using hfuel) fun g hgm => hsc g (.tail _ hgm)
        refine ⟨a, ha, ?_, fun he g hgm => ?_⟩
        · rcases hmem with hz | ⟨k, hk, hlt⟩
          · exact .inl hz
          · exact .inr ⟨k, hitems ▸ List.mem_append_right _ hk, hlt⟩
        · rcases List.mem_cons.mp hgm with rfl | hgm
          · exact ⟨hup, hhit⟩
          · exact hnull he g hgm
    · rw [if_neg fun hc => hup (htest.mp hc)]
      obtain ⟨hd, hne⟩ := Classical.not_imp.mp hup
      rw [hd] at hsib
      obtain ⟨a, ha, hmem⟩ := kmallocTreeGetSmallest_spec hsib hne
        (Nat.le_trans (hg.height f List.mem_cons_self) hD)
      obtain ⟨⟨a', k⟩, hk, rfl⟩ := List.mem_map.mp hmem
      have hin : (a', k) ∈ Ctx.items (f :: fs) := by simp [Ctx.items, Frame.items, hk]
      exact ⟨a', ha,
        .inr ⟨k, hin, hg.right f List.mem_cons_self hd k (RTree.mem_keys.mpr ⟨a', hk⟩)⟩,
        fun he => absurd he (h0 _ hin)⟩

-- ---------------------------------------------------------------------------
-- Best fit
-- ---------------------------------------------------------------------------

/-- The result is in the tree and large enough, if no key is below the size
from bit `d` on; and it is null only where no key that agrees with the size
from bit `d` on reaches it. -/
theorem kmallocTreeGetBestFit_spec {t : RTree} {d size root : Nat} (h : TreeRep (links m) 0 root t)
    (ht : Trie d t) (h0 : 0 < d) (hd : d < 4294967296) (hkey : Keyed m t) (hp : Placed t.addrs)
    (hal : AtLeast d size t) :
    ∃ a, kmallocTreeGetBestFit m size root d = some a ∧ (a = 0 ∨ ∃ k, (a, k) ∈ t.items ∧ size ≤ k) ∧
      (a = 0 → (∀ k ∈ t.keys, k / 2 ^ d = size / 2 ^ d → k < size) ∧
        (t = .leaf ∨ ∃ k ∈ t.keys, k < size)) := by
  rw [kmallocTreeGetBestFit]
  by_cases hroot : root = 0
  · obtain rfl : t = .leaf := h.null_iff.mp hroot
    rw [if_pos (.inr hroot)]
    exact ⟨0, rfl, .inl rfl, fun _ => ⟨by simp [RTree.keys], .inl rfl⟩⟩
  rw [if_neg (by omega)]
  have hdesc := bestFitDescend_spec d 0 0xFFFFFFFF (c := []) h ⟨rfl, rfl⟩ hroot hkey ht hal
    (fun k _ he => he) ⟨by simp, by simp, by simp, by simp⟩ ⟨by simp, by simp⟩ (by simp)
  rw [show plug [] t = t from rfl] at hdesc
  cases hb : bestFitDescend m size d root 0 0xFFFFFFFF with
  | exact a =>
    rw [hb] at hdesc
    have hmem : (a, size) ∈ t.items := hdesc
    exact ⟨a, rfl, .inr ⟨size, hmem, Nat.le_refl _⟩,
      fun he => absurd he (hp.fits a (RTree.mem_addrs hmem)).1⟩
  | stop cur par sc =>
    rw [hb] at hdesc
    obtain ⟨f, fs, rfl, rfl, rfl, hctx, hg, hr, hlen⟩ := hdesc
    have hitems := items_plug (f :: fs) .leaf
    have haddrs := addrs_plug (f :: fs) .leaf
    have hkeys := keys_plug (f :: fs) .leaf
    simp only [RTree.items, RTree.addrs_leaf, RTree.keys, List.nil_append] at hitems haddrs hkeys
    have hzero : ∀ x ∈ Ctx.items (f :: fs), x.1 ≠ 0 := fun x hx =>
      (hp.fits x.1 (haddrs.mem_iff.mpr (List.mem_map.mpr ⟨x, hx, rfl⟩))).1
    have hnd := haddrs.nodup_iff.mp hp.nodup
    have hlarge : ∀ g ∈ f :: fs, g.head = sc → size < g.key := by
      intro g hgm hgh
      have hg0 : g.head ≠ 0 := hzero (g.head, g.key) (head_mem_items hgm)
      obtain ⟨g', hgm', hgh', hlt⟩ := hr.found (hgh ▸ hg0)
      rwa [frame_eq_of_head hnd hgm hgm' (hgh.trans hgh'.symm)]
    obtain ⟨a, ha, hmem, hnull⟩ := bestFitClimb_spec sc loopFuel hctx hg
      (by unfold loopFuel; omega) hnd hzero (.inl rfl) (by unfold loopFuel; omega) hlarge
    · refine ⟨a, ha, ?_, fun he => ?_⟩
      · rcases hmem with hz | ⟨k, hk, hlt⟩
        · exact .inl hz
        · exact .inr ⟨k, hitems.mem_iff.mpr hk, Nat.le_of_lt hlt⟩
      have hsc : sc = 0 := by
        by_contra hne
        obtain ⟨g, hgm, hgh, -⟩ := hr.found hne
        exact (hnull he g hgm).2 hgh
      refine ⟨fun k hk hag => ?_, .inr ⟨f.key, ?_, hr.none hsc f List.mem_cons_self⟩⟩
      · rw [hkeys.mem_iff] at hk
        obtain ⟨g, hgm, hk⟩ := List.mem_flatMap.mp hk
        rcases List.mem_cons.mp hk with rfl | hk
        · exact hr.none hsc g hgm
        · cases hdir : g.dir with
          | true => exact hg.left g hgm hdir k hk hag
          | false =>
            rw [(hnull he g hgm).1 hdir] at hk
            simp [RTree.keys] at hk
      · rw [hkeys.mem_iff]
        simp [Ctx.keys]

end ElcoOs.Kmalloc
