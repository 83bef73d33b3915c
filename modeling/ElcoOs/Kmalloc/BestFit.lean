import ElcoOs.Kmalloc.Bins
import ElcoOs.Lib.Reach
import ElcoOs.Lib.TriePath

/-!
# Is it the best fit?

`kmalloc_tree_get_best_fit` remembers the smallest node of the path that is
large enough, but returns it only when the climb meets it before a subtree on
its right. Where such a subtree comes first, its smallest chunk is returned,
also when the remembered one is smaller.
-/

namespace ElcoOs.Kmalloc

open Word32 Ring RingTree

variable {m : Memory}

-- ---------------------------------------------------------------------------
-- Smallest
-- ---------------------------------------------------------------------------

/-- The smallest key of a trie is on the way down that prefers the left. -/
theorem getSmallestLoop_least {t : RTree} {d par cur fuel : Nat} (sc ss : Nat)
    (h : TreeRep (links m) par cur t)
    (ht : t ≠ .leaf) (htrie : Trie d t) (hu : Uniform d t) (hkey : Keyed m t) (hf : t.height ≤ fuel)
    (hss : ss ≤ getChunkSize m cur) :
    ∃ a, kmallocTreeGetSmallestLoop m fuel cur sc ss = some a ∧
      ((a = sc ∧ ∀ k ∈ t.keys, ss ≤ k) ∨ ∃ k, (a, k) ∈ t.items ∧ k < ss ∧
      ∀ k' ∈ t.keys, k ≤ k') := by
  induction t generalizing d par cur sc ss fuel with
  | leaf => exact absurd rfl ht
  | node head rest key l r ihl ihr =>
    obtain ⟨rfl, -, -, -, -, hl, hr⟩ := h
    have hk : getChunkSize m cur = key := hkey (cur, key) (by simp [RTree.items])
    rw [hk] at hss
    obtain _ | fuel := fuel
    · simp [RTree.height] at hf
    simp only [RTree.height, Nat.add_le_add_iff_right, Nat.max_le] at hf
    rw [kmallocTreeGetSmallestLoop]
    by_cases hleave : ktchunkIsLeave m cur
    · obtain rfl : l = .leaf := hl.null_iff.mp hleave.1
      obtain rfl : r = .leaf := hr.null_iff.mp hleave.2
      rw [if_pos hleave]
      exact ⟨sc, rfl, .inl ⟨rfl, by simpa [RTree.keys] using hss⟩⟩
    rw [if_neg hleave]
    obtain _ | d := d
    · obtain ⟨rfl, rfl⟩ := htrie
      exact absurd ⟨hl, hr⟩ hleave
    -- the child taken, and that nothing on the other side is smaller than what is below it
    have side : ∀ (t : RTree) (child : Nat), (child, getChunkSize m child) ∈ t.items →
        (∀ x ∈ t.items, x ∈ (RTree.node cur rest key l r).items) →
        (∀ k ∈ (RTree.node cur rest key l r).keys, k = key ∨ k ∈ t.keys ∨ ∀ k' ∈ t.keys, k' ≤ k) →
        (∀ sc ss, ss ≤ getChunkSize m child →
        ∃ a, kmallocTreeGetSmallestLoop m fuel child sc ss = some a ∧
          ((a = sc ∧ ∀ k ∈ t.keys, ss ≤ k) ∨ ∃ k, (a, k) ∈ t.items ∧ k < ss ∧
          ∀ k' ∈ t.keys, k ≤ k')) →
        ∃ a, (if getChunkSize m child < ss then
          kmallocTreeGetSmallestLoop m fuel child child (getChunkSize m child)
          else kmallocTreeGetSmallestLoop m fuel child sc ss) = some a ∧
          ((a = sc ∧ ∀ k ∈ (RTree.node cur rest key l r).keys, ss ≤ k) ∨
            ∃ k, (a, k) ∈ (RTree.node cur rest key l r).items ∧ k < ss ∧
              ∀ k' ∈ (RTree.node cur rest key l r).keys, k ≤ k') := by
      intro t child hchild hsub hother ih
      have hck : getChunkSize m child ∈ t.keys := RTree.mem_keys.mpr ⟨child, hchild⟩
      -- below all keys of the subtree is below all keys
      have hall : ∀ n, n ≤ key → (∀ k ∈ t.keys, n ≤ k) → ∀ k ∈ (RTree.node cur rest key l r).keys,
        n ≤ k := by
        intro n hn hle k hk
        rcases hother k hk with rfl | hk | hk
        · exact hn
        · exact hle k hk
        · exact Nat.le_trans (hle _ hck) (hk _ hck)
      by_cases hlt : getChunkSize m child < ss
      · rw [if_pos hlt]
        obtain ⟨a, ha, ⟨rfl, hle⟩ | ⟨k, hk, hks, hle⟩⟩ :=
          ih child (getChunkSize m child) (Nat.le_refl _)
        · exact ⟨a, ha, .inr ⟨_, hsub _ hchild, hlt, hall _ (by omega) hle⟩⟩
        · exact ⟨a, ha, .inr ⟨k, hsub _ hk, by omega, hall _ (by omega) hle⟩⟩
      · rw [if_neg hlt]
        obtain ⟨a, ha, ⟨rfl, hle⟩ | ⟨k, hk, hks, hle⟩⟩ := ih sc ss (Nat.le_of_not_lt hlt)
        · exact ⟨a, ha, .inl ⟨rfl, hall _ hss hle⟩⟩
        · exact ⟨a, ha, .inr ⟨k, hsub _ hk, hks, hall _ (by omega) hle⟩⟩
    have hkeyl : Keyed m l := fun x hx => hkey x (by simp [RTree.items, hx])
    have hkeyr : Keyed m r := fun x hx => hkey x (by simp [RTree.items, hx])
    have hroot : ∀ {t : RTree} {child : Nat}, TreeRep (links m) cur child t →
      Keyed m t → child ≠ 0 →
        (child, getChunkSize m child) ∈ t.items := by
      intro t child hrep hkt h0
      obtain ⟨⟨a, k⟩, hx, rfl⟩ := List.mem_map.mp (hrep.root_mem h0)
      rwa [hkt _ hx]
    by_cases hlz : left m cur = 0
    · have hrz : right m cur ≠ 0 := fun he => hleave ⟨hlz, he⟩
      obtain rfl : l = .leaf := hl.null_iff.mp hlz
      rw [show (if left m cur ≠ 0 then left m cur else right m cur) = right m cur from
        if_neg fun hn => hn hlz]
      refine side r _ (hroot hr hkeyr hrz) (fun x hx => by simp [RTree.items, hx]) (fun k hk => ?_)
        (fun sc ss hle => ihr sc ss hr (fun he => hrz (hr.null_iff.mpr he)) htrie.2.2.2.2.2
          (hu.right htrie) hkeyr hf.2 hle)
      simp only [RTree.keys, List.nil_append, List.mem_cons] at hk
      exact hk.imp_right .inl
    · rw [show (if left m cur ≠ 0 then left m cur else right m cur) = left m cur from if_pos hlz]
      refine side l _ (hroot hl hkeyl hlz) (fun x hx => by simp [RTree.items, hx]) (fun k hk => ?_)
        (fun sc ss hle => ihl sc ss hl (fun he => hlz (hl.null_iff.mpr he)) htrie.2.2.2.2.1
          (hu.left htrie) hkeyl hf.1 hle)
      simp only [RTree.keys, List.mem_cons, List.mem_append] at hk
      rcases hk with hk | hk | hk
      · exact .inl hk
      · exact .inr (.inl hk)
      · exact .inr (.inr fun k' hk' => Nat.le_of_lt (hu.left_lt_right htrie hk' hk))

theorem getSmallest_least {t : RTree} {d par root : Nat} (h : TreeRep (links m) par root t)
    (ht : t ≠ .leaf)
    (htrie : Trie d t) (hu : Uniform d t) (hkey : Keyed m t) (hd : d < 4294967296) :
    ∃ a k, kmallocTreeGetSmallest m root = some a ∧ (a, k) ∈ t.items ∧ ∀ k' ∈ t.keys, k ≤ k' := by
  have h0 : root ≠ 0 := fun he => ht (h.null_iff.mp he)
  have hfuel : t.height ≤ loopFuel := by
    have := htrie.height_le
    unfold loopFuel
    omega
  rw [kmallocTreeGetSmallest, if_neg h0]
  obtain ⟨a, ha, ⟨rfl, hle⟩ | ⟨k, hk, -, hle⟩⟩ :=
    getSmallestLoop_least root (getChunkSize m root) h ht htrie hu hkey
    hfuel (Nat.le_refl _)
  · obtain ⟨⟨b, k⟩, hx, hb⟩ := List.mem_map.mp (h.root_mem h0)
    obtain rfl : b = a := hb
    have hsize : getChunkSize m b = k := hkey _ hx
    exact ⟨b, k, ha, hx, fun k' hk' => hsize ▸ hle k' hk'⟩
  · exact ⟨a, k, ha, hk, hle⟩

-- ---------------------------------------------------------------------------
-- Down
-- ---------------------------------------------------------------------------

/-- `sc` is the node of the path with the smallest key above `size`, which is
`ss`, or null where there is none. -/
def Least (size sc ss : Nat) (c : Ctx) : Prop :=
  sc = 0 ∧ (∀ g ∈ c, g.key ≤ size) ∨
    ∃ f ∈ c, f.head = sc ∧ f.key = ss ∧ size < f.key ∧ ∀ g ∈ c, size < g.key → f.key ≤ g.key

theorem Least.cons {size sc ss : Nat} {f : Frame} {c : Ctx}
    (h : Least size sc ss c) (h0 : f.head ≠ 0) (hc : ∀ g ∈ c, g.head ≠ 0) (hne : size ≠ f.key) :
    Least size (if f.key > size ∧ (sc = 0 ∨ f.key < ss) then f.head else sc)
      (if f.key > size ∧ (sc = 0 ∨ f.key < ss) then f.key else ss) (f :: c) := by
  have hself : f ∈ f :: c := List.mem_cons_self
  by_cases hnew : f.key > size ∧ (sc = 0 ∨ f.key < ss)
  · rw [if_pos hnew, if_pos hnew]
    refine .inr ⟨f, hself, rfl, rfl, hnew.1, fun g hg hlt => ?_⟩
    rcases List.mem_cons.mp hg with rfl | hg
    · exact Nat.le_refl _
    · rcases h with ⟨-, hle⟩ | ⟨e, he, hesc, hess, -, hmin⟩
      · exact absurd (hle g hg) (Nat.not_le.mpr hlt)
      · have hss : f.key < ss := hnew.2.resolve_left (hesc ▸ hc e he)
        have := hmin g hg hlt
        omega
  · rw [if_neg hnew, if_neg hnew]
    rcases h with ⟨rfl, hle⟩ | ⟨e, he, hesc, hess, hlt, hmin⟩
    · refine .inl ⟨rfl, fun g hg => ?_⟩
      rcases List.mem_cons.mp hg with rfl | hg
      · exact Nat.le_of_not_lt fun hlt => hnew ⟨hlt, .inl rfl⟩
      · exact hle g hg
    · refine .inr ⟨e, List.mem_cons_of_mem _ he, hesc, hess, hlt, fun g hg hg' => ?_⟩
      rcases List.mem_cons.mp hg with rfl | hg
      · exact Nat.le_of_not_lt fun hc => hnew ⟨hg', .inr (hess ▸ hc)⟩
      · exact hmin g hg hg'

/-- A size that is not in the tree is followed to the end of its path. -/
theorem bestFitDescend_path {t : RTree} {d size par cur : Nat} (sc ss : Nat) {c : Ctx}
    (h : TreeRep (links m) par cur t)
    (h0 : cur ≠ 0) (ht : Trie d t) (hkey : Keyed m t) (hno : size ∉ t.keys)
    (hc : ∀ g ∈ c, g.head ≠ 0) (hl : Least size sc ss c) :
    ∃ f fs sc' ss', path size d t c = f :: fs ∧ bestFitDescend m size d cur sc ss =
      .stop 0 f.head sc' ∧
      Least size sc' ss' (f :: fs) := by
  induction t generalizing d par cur sc ss c with
  | leaf => exact absurd h h0
  | node head rest key l r ihl ihr =>
    obtain ⟨rfl, -, -, -, -, hleft, hright⟩ := h
    have hk : getChunkSize m cur = key := hkey (cur, key) (by simp [RTree.items])
    simp only [RTree.keys, List.mem_cons, List.mem_append, not_or] at hno
    obtain ⟨hne, hnol, hnor⟩ := hno
    unfold bestFitDescend
    rw [hk, if_neg hne]
    have hnew : ∀ f : Frame, f.head = cur → f.key = key → (∀ g ∈ f :: c, g.head ≠ 0) ∧
        Least size (if key > size ∧ (sc = 0 ∨ key < ss) then cur else sc)
          (if key > size ∧ (sc = 0 ∨ key < ss) then key else ss) (f :: c) := by
      rintro f rfl rfl
      refine ⟨fun g hg => ?_, hl.cons h0 hc hne⟩
      rcases List.mem_cons.mp hg with rfl | hg
      · exact h0
      · exact hc g hg
    cases d with
    | zero =>
      obtain ⟨rfl, rfl⟩ := ht
      have hz : (if size &&& 1 <<< 31 ≠ 0 then right m cur else left m cur) = 0 := by
        split
        · exact hright
        · exact hleft
      exact ⟨_, _, _, _, rfl, by rw [hz], (hnew ⟨cur, rest, key, true, .leaf⟩ rfl rfl).2⟩
    | succ d =>
      simp only [Word32.and_bit_ne_zero, path]
      cases hb : size.testBit d with
      | true =>
        obtain ⟨hc', hl'⟩ := hnew ⟨cur, rest, key, true, l⟩ rfl rfl
        simp only [if_true]
        by_cases hz : right m cur = 0
        · obtain rfl : r = .leaf := hright.null_iff.mp hz
          rw [if_neg (by simpa using hz), hz]
          exact ⟨_, _, _, _, by cases d <;> rfl, rfl, hl'⟩
        · rw [if_pos hz]
          exact ihr _ _ hright hz ht.2.2.2.2.2 (fun x hx => hkey x (by simp [RTree.items, hx]))
            hnor hc' hl'
      | false =>
        obtain ⟨hc', hl'⟩ := hnew ⟨cur, rest, key, false, r⟩ rfl rfl
        simp only [Bool.false_eq_true, if_false]
        by_cases hz : left m cur = 0
        · obtain rfl : l = .leaf := hleft.null_iff.mp hz
          rw [if_neg (by simpa using hz), hz]
          exact ⟨_, _, _, _, by cases d <;> rfl, rfl, hl'⟩
        · rw [if_pos hz]
          exact ihl _ _ hleft hz ht.2.2.2.2.1 (fun x hx => hkey x (by simp [RTree.items, hx]))
            hnol hc' hl'

-- ---------------------------------------------------------------------------
-- Up
-- ---------------------------------------------------------------------------

def Frame.Passed (sc : Nat) (f : Frame) : Prop := ¬ f.Turns ∧ f.head ≠ sc

/-- The climb ends at the first turn, with the smallest chunk there; at the
remembered node, if that comes first; or above the root. -/
theorem bestFitClimb_cases {f : Frame} {fs : Ctx} {root cur fuel : Nat} (sc : Nat)
    (h : CtxRep (links m) (f :: fs) root f.head cur)
    (hnd : ((Ctx.items (f :: fs)).map Prod.fst).Nodup)
    (hcur : cur = 0 ∨ cur ∉ f.sib.addrs) (hfuel : (f :: fs).length ≤ fuel) :
    (∃ c₁ g c₂, f :: fs = c₁ ++ g :: c₂ ∧ (∀ e ∈ c₁, Frame.Passed sc e) ∧ g.Turns ∧
        TreeRep (links m) g.head (right m g.head) g.sib ∧
        bestFitClimb m sc fuel cur f.head = kmallocTreeGetSmallest m (right m g.head)) ∨
      (∃ c₁ g c₂, f :: fs = c₁ ++ g :: c₂ ∧ (∀ e ∈ c₁, Frame.Passed sc e) ∧
      ¬ g.Turns ∧ g.head = sc ∧
        bestFitClimb m sc fuel cur f.head = some sc) ∨
      (∀ e ∈ f :: fs, Frame.Passed sc e) ∧ bestFitClimb m sc fuel cur f.head = some 0 := by
  induction fuel generalizing f fs cur with
  | zero => simp at hfuel
  | succ fuel ih =>
    have htest := climb_test h hcur
    obtain ⟨-, -, -, -, -, hsib, hfs⟩ := h
    rw [bestFitClimb]
    by_cases hup : f.dir = false → f.sib = .leaf
    · rw [if_pos (htest.mpr hup)]
      have hno : ¬ f.Turns := fun ht => ht.2 (hup ht.1)
      by_cases hhit : f.head = sc
      · rw [if_pos hhit]
        exact .inr (.inl ⟨[], f, fs, rfl, by simp, hno, hhit, by rw [hhit]⟩)
      rw [if_neg hhit]
      cases fs with
      | nil =>
        rw [if_pos (show parent m f.head = 0 from hfs.1)]
        exact .inr (.inr ⟨fun e he => List.mem_singleton.mp he ▸ ⟨hno, hhit⟩, rfl⟩)
      | cons f' fs =>
        have hpar : parent m f.head = f'.head := hfs.1
        have hitems : Ctx.items (f :: f' :: fs) = f.items ++ Ctx.items (f' :: fs) := rfl
        have hf' : f'.head ≠ 0 := hfs.2.1
        have hnot : f.head ∉ f'.sib.addrs := by
          intro hm
          rw [hitems, List.map_append, List.nodup_append] at hnd
          exact hnd.2.2 f.head (by simp [Frame.items]) f.head
            (by simp only [Ctx.items, List.flatMap_cons, Frame.items,
            List.map_append, List.mem_append]
                exact .inl (.inr hm)) rfl
        rw [if_neg (show ¬ parent m f.head = 0 from hpar ▸ hf'), hpar]
        have hcons : ∀ {c₁ : Ctx}, (∀ e ∈ c₁, Frame.Passed sc e) → ∀ e ∈ f :: c₁,
          Frame.Passed sc e := by
          intro c₁ hc e he
          rcases List.mem_cons.mp he with rfl | he
          · exact ⟨hno, hhit⟩
          · exact hc e he
        have hfs' : CtxRep (links m) (f' :: fs) root f'.head f.head := by
          rw [← hpar]
          exact hfs
        rcases ih hfs' (by rw [hitems, List.map_append, List.nodup_append] at hnd; exact hnd.2.1)
          (.inr hnot)
          (by simpa using hfuel) with ⟨c₁, g, c₂, he, hpass, hrest⟩ | ⟨c₁, g, c₂, he, hpass,
          hrest⟩ | ⟨hpass, hrest⟩
        · exact .inl ⟨f :: c₁, g, c₂, by rw [he]; rfl, hcons hpass, hrest⟩
        · exact .inr (.inl ⟨f :: c₁, g, c₂, by rw [he]; rfl, hcons hpass, hrest⟩)
        · exact .inr (.inr ⟨hcons hpass, hrest⟩)
    · rw [if_neg fun hc => hup (htest.mp hc)]
      obtain ⟨hd, hne⟩ := Classical.not_imp.mp hup
      rw [hd] at hsib
      exact .inl ⟨[], f, fs, rfl, by simp, ⟨hd, hne⟩, hsib, rfl⟩

-- ---------------------------------------------------------------------------
-- Best fit
-- ---------------------------------------------------------------------------

/-- Null when all are too small, and otherwise the smallest that is large enough. -/
def BestFit (B : List (Nat × Nat)) (size a : Nat) : Prop :=
  (a = 0 ↔ ∀ p ∈ B, p.2 < size) ∧
    (a ≠ 0 → ∃ s, (a, s) ∈ B ∧ size ≤ s ∧ ∀ p ∈ B, size ≤ p.2 → s ≤ p.2)

/-- `k` is the smallest key that is large enough. -/
def LeastFit (t : RTree) (size k : Nat) : Prop := k ∈ t.keys ∧ size ≤ k ∧ ∀ k' ∈ t.keys,
    size ≤ k' → k ≤ k'

/-- The search finds the best fit: nothing is large enough; the size itself is
there; the best fit is on the path of the size and the path does not turn from
there on; or it was left behind at the last turn. -/
def Reached (size d : Nat) (t : RTree) : Prop :=
  (∀ k ∈ t.keys, k < size) ∨ size ∈ t.keys ∨
    (∃ c₁ f c₂, path size d t [] = c₁ ++ f :: c₂ ∧ (∀ e ∈ c₁, ¬ e.Turns) ∧ ¬ f.Turns ∧
    LeastFit t size f.key) ∨
    ∃ c₁ g c₂ k, path size d t [] = c₁ ++ g :: c₂ ∧ (∀ e ∈ c₁, ¬ e.Turns) ∧
      g.Turns ∧ k ∈ g.sib.keys ∧
      LeastFit t size k

section
variable {t : RTree} {d size root : Nat}

theorem LeastFit.unique {k k' : Nat} (h : LeastFit t size k) (h' : LeastFit t size k') : k = k' :=
  Nat.le_antisymm (h.2.2 k' h'.1 h'.2.1) (h'.2.2 k h.1 h.2.1)

theorem bestFit_of_leastFit {a k : Nat} (h : LeastFit t size k)
    (ha : (a, k) ∈ t.items) (h0 : a ≠ 0) :
    BestFit t.items size a := by
  refine ⟨iff_of_false h0 fun hall => ?_, fun _ => ⟨k, ha, h.2.1, fun p hp hle => ?_⟩⟩
  · exact absurd (hall _ ha) (Nat.not_lt.mpr h.2.1)
  · exact h.2.2 p.2 (RTree.mem_keys.mpr ⟨p.1, hp⟩) hle

theorem BestFit.leastFit {a k : Nat} (h : BestFit t.items size a)
    (ha : (a, k) ∈ t.items) (h0 : a ≠ 0) (hkey : Keyed m t) : LeastFit t size k := by
  obtain ⟨s, hs, hle, hmin⟩ := h.2 h0
  obtain rfl : s = k := (hkey _ hs).symm.trans (hkey _ ha)
  refine ⟨RTree.mem_keys.mpr ⟨a, ha⟩, hle, fun k' hk' hle' => ?_⟩
  obtain ⟨b, hb⟩ := RTree.mem_keys.mp hk'
  exact hmin _ hb hle'

theorem frame_eq_of_key {c : Ctx} {f g : Frame} (hnd : (Ctx.keys c).Nodup) (hf : f ∈ c) (hg : g ∈ c)
    (hk : f.key = g.key) : f = g := by
  induction c with
  | nil => simp at hf
  | cons e c ih =>
    rw [show Ctx.keys (e :: c) = (e.key :: e.sib.keys) ++ Ctx.keys c from rfl,
      List.nodup_append] at hnd
    obtain ⟨-, hndc, hdisj⟩ := hnd
    have hmem : ∀ x ∈ c, x.key ∈ Ctx.keys c := fun x hx => List.mem_flatMap.mpr ⟨x, hx, by simp⟩
    rcases List.mem_cons.mp hf with rfl | hf' <;> rcases List.mem_cons.mp hg with rfl | hg'
    · rfl
    · exact absurd hk (hdisj f.key (by simp) g.key (hmem g hg'))
    · exact absurd hk.symm (hdisj g.key (by simp) f.key (hmem f hf'))
    · exact ih hndc hf' hg'

theorem split_unique {α : Type} {P : α → Prop} {c₁ c₁' c₂ c₂' : List α} {a b : α}
    (he : c₁ ++ a :: c₂ = c₁' ++ b :: c₂') (h : ∀ x ∈ c₁, P x) (h' : ∀ x ∈ c₁', P x)
    (ha : ¬ P a) (hb : ¬ P b) :
    c₁ = c₁' ∧ a = b := by
  induction c₁ generalizing c₁' with
  | nil =>
    cases c₁' with
    | nil => exact ⟨rfl, (List.cons.inj he).1⟩
    | cons x c₁' => exact absurd ((List.cons.inj he).1 ▸ h' x (by simp)) ha
  | cons x c₁ ih =>
    cases c₁' with
    | nil => exact absurd ((List.cons.inj he).1 ▸ h x (by simp)) hb
    | cons y c₁' =>
      obtain ⟨rfl, he'⟩ := List.cons.inj he
      obtain ⟨rfl, hab⟩ := ih he' (fun z hz => h z (by simp [hz])) fun z hz => h' z (by simp [hz])
      exact ⟨rfl, hab⟩

/-- What comes at the end of a stretch of `P` comes before the first that is not `P`. -/
theorem mem_of_first {α : Type} {P : α → Prop} {c₁ c₁' c₂ c₂' : List α} {a b : α}
    (he : c₁ ++ a :: c₂ = c₁' ++ b :: c₂') (h' : ∀ x ∈ c₁', P x) (hb : P b)
    (ha : ¬ P a) : b ∈ c₁ := by
  rcases List.append_eq_append_iff.mp he with ⟨as, rfl, hs⟩ | ⟨as, rfl, hs⟩
  · cases as with
    | nil => exact absurd ((List.cons.inj hs).1 ▸ hb) ha
    | cons x as => exact absurd ((List.cons.inj hs).1 ▸ h' x (by simp)) ha
  · cases as with
    | nil => exact absurd ((List.cons.inj hs).1 ▸ hb) ha
    | cons x as =>
      rw [(List.cons.inj hs).1]
      simp

/-- The search returns the best fit exactly when it is reached, where sizes of
the tree differ in the bits of the trie only and the size either agrees with
them above or is below all of them. -/
theorem bestFit_iff_reached (h : TreeRep (links m) 0 root t) (ht : Trie d t) (h0 : 0 < d)
    (hd : d < 4294967296) (hkey : Keyed m t) (hp : Placed t.addrs) (hu : Uniform d t)
    (hag : Agrees d size t ∨ ∀ k ∈ t.keys, size < k) :
    ∃ a, kmallocTreeGetBestFit m size root d = some a ∧
      (BestFit t.items size a ↔ Reached size d t) := by
  have hnz : ∀ a k, (a, k) ∈ t.items → a ≠ 0 := fun a k ha => (hp.fits a (RTree.mem_addrs ha)).1
  by_cases hmem : size ∈ t.keys
  · obtain ⟨a, ha, hitem⟩ := kmallocTreeGetBestFit_exact h ht h0 hkey hmem
    exact ⟨a, ha, iff_of_true
      (bestFit_of_leastFit ⟨hmem, Nat.le_refl _, fun _ _ hle => hle⟩ hitem (hnz _ _ hitem))
        (.inr (.inl hmem))⟩
  rw [kmallocTreeGetBestFit]
  by_cases hroot : root = 0
  · obtain rfl : t = .leaf := h.null_iff.mp hroot
    rw [if_pos (.inr hroot)]
    exact ⟨0, rfl, iff_of_true (by simp [BestFit, RTree.items]) (.inl (by simp [RTree.keys]))⟩
  rw [if_neg (by omega)]
  obtain ⟨f, fs, sc, ss, hpath, hres, hleast⟩ :=
    bestFitDescend_path 0 0xFFFFFFFF (c := []) h hroot ht hkey
    hmem (by simp) (.inl ⟨rfl, by simp⟩)
  rw [hres]
  have hplug : plug (f :: fs) .leaf = t := by
    rw [← hpath, plug_path ht]
    rfl
  obtain ⟨par, p, hctx, rfl⟩ := rep_plug.mp (hplug.symm ▸ h)
  obtain rfl : par = f.head := hctx.1
  have haddrs := addrs_plug (f :: fs) .leaf
  have hkeys := keys_plug (f :: fs) .leaf
  have hitems := items_plug (f :: fs) .leaf
  rw [hplug] at haddrs hkeys hitems
  simp only [RTree.items, RTree.addrs_leaf, RTree.keys, List.nil_append] at hitems haddrs hkeys
  have hndk := hkeys.nodup_iff.mp ht.keys_nodup
  have hrise := path_rising (k := size) (c := []) ht hu (by simp [Above]) List.Pairwise.nil
  rw [hpath] at hrise
  -- what the path leaves on its right is too large, never too small
  have hright : ∀ g ∈ f :: fs, g.dir = false → ∀ k ∈ g.sib.keys, size < k := by
    intro g hg hdir k hk
    rcases hag with hag | hall
    · have := path_sides (c := []) ht hag (by simp) g (hpath ▸ hg) k hk
      simpa [hdir] using this
    · exact hall k (hkeys.mem_iff.mpr (List.mem_flatMap.mpr ⟨g, hg, by simp [hk]⟩))
  have hfkey : ∀ g ∈ f :: fs, g.key ∈ t.keys := fun g hg =>
    hkeys.mem_iff.mpr (List.mem_flatMap.mpr ⟨g, hg, by simp⟩)
  have hfitem : ∀ g ∈ f :: fs, (g.head, g.key) ∈ t.items :=
    fun g hg => hitems.mem_iff.mpr (head_mem_items hg)
  have hfne : ∀ g ∈ f :: fs, g.head ≠ 0 := fun g hg => hnz _ _ (hfitem g hg)
  have hhead : ∀ {g e : Frame}, g ∈ f :: fs → e ∈ f :: fs → g.head = e.head → g = e := fun hg he =>
    frame_eq_of_head (haddrs.nodup_iff.mp hp.nodup) hg he
  simp only [Reached, hpath, hmem, false_or]
  have hfuel : (f :: fs).length ≤ loopFuel := by
    have := length_path (k := size) (d := d) (t := t) (c := [])
    rw [hpath, List.length_nil] at this
    unfold loopFuel
    omega
  rcases bestFitClimb_cases sc hctx (haddrs.nodup_iff.mp hp.nodup) (.inl rfl) hfuel with
    ⟨c₁, g, c₂, hsplit, hpass, hturn, hrep, hclimb⟩ | ⟨c₁, g, c₂, hsplit, hpass, hturn, hsc,
    hclimb⟩ | ⟨hpass, hclimb⟩
  · -- a subtree to the right comes first
    have hg : g ∈ f :: fs := by rw [hsplit]; simp
    obtain ⟨e, he, htrie, huni⟩ := path_sibs (k := size) (c := []) ht hu (Nat.le_refl d)
      (by simp) g (hpath ▸ hg)
    have hkeyg : Keyed m g.sib := fun x hx =>
      hkey x (hitems.mem_iff.mpr (List.mem_flatMap.mpr ⟨g, hg, by simp [Frame.items, hx]⟩))
    obtain ⟨a, k, hsmall, hak, hmin⟩ := getSmallest_least hrep hturn.2 htrie huni hkeyg (by omega)
    have hkg : k ∈ g.sib.keys := RTree.mem_keys.mpr ⟨a, hak⟩
    have hitem : (a, k) ∈ t.items :=
      hitems.mem_iff.mpr (List.mem_flatMap.mpr ⟨g, hg, by simp [Frame.items, hak]⟩)
    have hlt := hright g hg hturn.1 k hkg
    refine ⟨a, hclimb.trans hsmall, fun hbest => ?_, fun hreach => ?_⟩
    · exact .inr (.inr ⟨c₁, g, c₂, k, hsplit, fun e he => (hpass e he).1, hturn, hkg,
        hbest.leastFit hitem (hnz _ _ hitem) hkey⟩)
    · rcases hreach with hall | ⟨c₁', f', c₂', hs, hno, hf', hfit⟩ | ⟨c₁', g', c₂', k', hs,
        hno, hg', hk', hfit⟩
      · exact absurd (hall k (RTree.mem_keys.mpr ⟨a, hitem⟩)) (by omega)
      · have hfm : f' ∈ f :: fs := by rw [hs]; simp
        have hne : size ≠ f'.key := fun he => hmem (he ▸ hfit.1)
        have hfc : f' ∈ c₁ :=
          mem_of_first (P := fun e => ¬ e.Turns)
            (hsplit.symm.trans hs) hno hf' (not_not_intro hturn)
        rcases hleast with ⟨-, hle⟩ | ⟨e, hem, hesc, -, helt, hemin⟩
        · have := hle f' hfm
          have := hfit.2.1
          omega
        · have hee : e = f' := frame_eq_of_key hndk hem hfm (Nat.le_antisymm
            (hemin f' hfm (by have := hfit.2.1; omega)) (hfit.2.2 _ (hfkey e hem) (by omega)))
          exact absurd (hee ▸ hesc) (hpass f' hfc).2
      · obtain ⟨-, rfl⟩ := split_unique (P := fun e => ¬ e.Turns) (hsplit.symm.trans hs)
          (fun e he => (hpass e he).1) hno
          (not_not_intro hturn) (not_not_intro hg')
        have hkk : k = k' :=
          Nat.le_antisymm (hmin k' hk') (hfit.2.2 k (RTree.mem_keys.mpr ⟨a, hitem⟩) (by omega))
        exact bestFit_of_leastFit (hkk ▸ hfit) hitem (hnz _ _ hitem)
  · -- the remembered node comes first
    have hg : g ∈ f :: fs := by rw [hsplit]; simp
    obtain ⟨hlt, hmin⟩ : size < g.key ∧ ∀ e ∈ f :: fs, size < e.key → g.key ≤ e.key := by
      rcases hleast with ⟨h0', -⟩ | ⟨e, hem, hesc, -, helt, hemin⟩
      · exact absurd (hsc.trans h0') (hfne g hg)
      · obtain rfl : e = g := hhead hem hg (hesc.trans hsc.symm)
        exact ⟨helt, hemin⟩
    have hitem : (sc, g.key) ∈ t.items := hsc ▸ hfitem g hg
    refine ⟨sc, hclimb, fun hbest => ?_, fun hreach => ?_⟩
    · exact .inr (.inl ⟨c₁, g, c₂, hsplit, fun e he => (hpass e he).1, hturn,
        hbest.leastFit hitem (hnz _ _ hitem) hkey⟩)
    · refine bestFit_of_leastFit ?_ hitem (hnz _ _ hitem)
      rcases hreach with hall | ⟨c₁', f', c₂', hs, -, -, hfit⟩ | ⟨c₁', g', c₂', k', hs,
        -, hg', hk', hfit⟩
      · exact absurd (hall _ (hfkey g hg)) (by omega)
      · have hfm : f' ∈ f :: fs := by rw [hs]; simp
        have hne : size ≠ f'.key := fun he => hmem (he ▸ hfit.1)
        have := hmin f' hfm (by have := hfit.2.1; omega)
        have hkk : g.key = f'.key := Nat.le_antisymm this (hfit.2.2 _ (hfkey g hg) (by omega))
        exact hkk ▸ hfit
      · -- what the turn leaves behind is above the node, which lies deeper
        have hgc : g ∈ c₁' := mem_of_first (P := fun e => ¬ e.Turns) (hs.symm.trans hsplit)
          (fun e he => (hpass e he).1) hturn (not_not_intro hg')
        rw [hs] at hrise
        have hlow :=
          ((List.pairwise_append.mp hrise).2.2 g hgc g' List.mem_cons_self hg'.1 k' hk').1
        exact absurd (hfit.2.2 _ (hfkey g hg) (by omega)) (by omega)
  · -- neither is there
    have hsmall : ∀ e ∈ f :: fs, e.key < size := by
      intro e he
      have hne : size ≠ e.key := fun heq => hmem (heq ▸ hfkey e he)
      rcases hleast with ⟨-, hle⟩ | ⟨e', hem, hesc, -⟩
      · have := hle e he
        omega
      · exact absurd hesc (hpass e' hem).2
    refine ⟨0, hclimb, fun hbest => .inl fun k hk => ?_,
      fun hreach => ⟨iff_of_true rfl fun p hp => ?_, fun h => absurd rfl h⟩⟩
    · obtain ⟨b, hb⟩ := RTree.mem_keys.mp hk
      exact hbest.1.mp rfl _ hb
    · rcases hreach with hall | ⟨c₁', f', c₂', hs, -, -, hfit⟩ | ⟨c₁', g', c₂', k', hs, -, hg', -⟩
      · exact hall _ (RTree.mem_keys.mpr ⟨p.1, hp⟩)
      · have hfm : f' ∈ f :: fs := by rw [hs]; simp
        exact absurd (hsmall f' hfm) (Nat.not_lt.mpr hfit.2.1)
      · have hgm : g' ∈ f :: fs := by rw [hs]; simp
        exact absurd hg' (hpass g' hgm).1

end

end ElcoOs.Kmalloc
