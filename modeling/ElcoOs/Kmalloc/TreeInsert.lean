import ElcoOs.Kmalloc.Tree
import ElcoOs.Lib.Trie

/-!
# Insertion into a bin tree

Read through the links in memory, a bin tree is a `RingTree.RTree`, and
`kmalloc_tree_insert` is `RTree.insert` on it.
-/

namespace ElcoOs.Kmalloc

open Ring RingTree

def links (m : Memory) : Links := ⟨next m, prev m, left m, right m, parent m⟩

theorem links_sameAt (h : ∀ x, a + 8 ≤ x → x < a + 28 → m' x = m x) :
    (links m).SameAt (links m') a := by
  constructor <;> exact Memory.load32_congr fun x _ _ => h x (by omega) (by omega)

theorem SameOutside.sameAt {xs : List Nat} (h : SameOutside 28 xs m m')
    (ha : ∀ b ∈ xs, a + 28 ≤ b ∨ b + 28 ≤ a) : (links m).SameAt (links m') a := by
  refine links_sameAt fun x _ _ => h x fun b hb => ?_
  have := ha b hb
  omega

def Keyed (m : Memory) (t : RTree) : Prop := ∀ x ∈ t.items, getChunkSize m x.1 = x.2

theorem getChunkSize_congr (h : ∀ x, a + 4 ≤ x → x < a + 8 → m' x = m x) :
    getChunkSize m' a = getChunkSize m a := by
  unfold getChunkSize header
  rw [Memory.load32_congr fun x _ _ => h x (by omega) (by omega)]

theorem SameOutside.getChunkSize {xs : List Nat} (h : SameOutside n xs m m')
    (ha : ∀ b ∈ xs, a = b ∨ a + 8 ≤ b ∨ b + n ≤ a) : getChunkSize m' a = getChunkSize m a := by
  refine getChunkSize_congr fun x _ _ => h x fun b hb => ?_
  have := ha b hb
  omega

structure Placed (xs : List Nat) : Prop where
  nodup : xs.Nodup
  spaced : Spaced 32 xs
  fits : Fits 32 xs

theorem Placed.perm {xs ys : List Nat} (h : Placed xs) (hp : xs.Perm ys) : Placed ys :=
  ⟨hp.nodup_iff.mp h.nodup, h.spaced.sub fun _ ha => hp.mem_iff.mpr ha,
  fun a ha => h.fits a (hp.mem_iff.mpr ha)⟩

theorem Placed.sublist {xs ys : List Nat} (h : Placed xs) (hs : ys.Sublist xs) : Placed ys :=
  ⟨h.nodup.sublist hs, h.spaced.sub fun _ ha => hs.subset ha, fun a ha => h.fits a (hs.subset ha)⟩

section
variable {m : Memory} {chunk size : Nat}

structure Fresh (m : Memory) (chunk : Nat) : Prop where
  next : next m chunk = chunk
  prev : prev m chunk = chunk
  left : left m chunk = 0
  right : right m chunk = 0

theorem insert_same_size {par head key : Nat} {rest : List Nat} {l r : RTree}
    (h : TreeRep (links m) par head (.node head rest key l r)) (hfresh : Fresh m chunk)
    (hnd : (chunk :: (RTree.node head rest key l r).addrs).Nodup)
    (hs : Spaced 32 (chunk :: (RTree.node head rest key l r).addrs))
    (hf : Fits 32 (chunk :: (RTree.node head rest key l r).addrs)) :
    TreeRep (links (kmallocDllistAddEnd (setParent m chunk 0) chunk head)) par head
        (.node head (rest ++ [chunk]) key l r) ∧
      SameOutside 28 (chunk :: (RTree.node head rest key l r).addrs) m
        (kmallocDllistAddEnd (setParent m chunk 0) chunk head) := by
  obtain ⟨-, h0, hpar, hring, hrest, hl, hr⟩ := h
  simp only [RTree.addrs_node] at hnd hs hf ⊢
  have hring_sub : ∀ a ∈ chunk :: head :: rest, a ∈ chunk :: head ::
    (rest ++ (l.addrs ++ r.addrs)) := by
    intro a ha
    simp only [List.mem_cons, List.mem_append] at ha ⊢
    tauto
  have hnd' := hnd
  rw [List.nodup_cons] at hnd'
  have hcb := hf chunk List.mem_cons_self
  have hfirst :
    SameOutside 28 (chunk :: head :: (rest ++ (l.addrs ++ r.addrs))) m (setParent m chunk 0) :=
    (SameOutside.refl _ _ _).store List.mem_cons_self (by omega) (by omega)
  have hother : ∀ a ∈ head :: (rest ++ (l.addrs ++ r.addrs)),
    (links m).SameAt (links (setParent m chunk 0)) a := by
    intro a ha
    have hac := hs a (List.mem_cons_of_mem _ ha) chunk List.mem_cons_self
    have hne : a ≠ chunk := fun he => hnd'.1 (he ▸ ha)
    refine links_sameAt fun x _ _ => Memory.store32_apply (by omega)
  have hrl : RingList (setParent m chunk 0) head (head :: rest) := by
    refine ⟨rfl, ?_, ?_⟩
    · refine hnd'.2.sublist ?_
      exact (List.sublist_append_left rest (l.addrs ++ r.addrs)).cons_cons head
    · refine hring.congr ?_ ?_
      · exact fun a ha =>
          (hother a (by simp only [List.mem_cons, List.mem_append] at ha ⊢; tauto)).next
      · exact fun a ha =>
          (hother a (by simp only [List.mem_cons, List.mem_append] at ha ⊢; tauto)).prev
  have hmem : chunk ∉ head :: rest := fun hm =>
    hnd'.1 (by simp only [List.mem_cons, List.mem_append] at hm ⊢; tauto)
  obtain ⟨hres, hsame⟩ := kmallocDllistAddEnd_spec hrl hmem ((hs.sub hring_sub).mono (by omega))
    (fun a ha => ⟨(hf a (hring_sub a ha)).1, by have := (hf a (hring_sub a ha)).2; omega⟩)
  generalize kmallocDllistAddEnd (setParent m chunk 0) chunk head = m' at hres hsame ⊢
  -- beyond the two ring links nothing changes but the parent of the chunk
  have hfield : ∀ a ∈ chunk :: head :: (rest ++ (l.addrs ++ r.addrs)), ∀ x,
    a + 16 ≤ x → x < a + 32 →
      m' x = setParent m chunk 0 x := by
    intro a ha x hlo hhi
    refine hsame x fun b hb => ?_
    have := hs a ha b (hring_sub b hb)
    omega
  have hleft : ∀ a ∈ chunk :: head :: (rest ++ (l.addrs ++ r.addrs)),
    left m' a = left (setParent m chunk 0) a :=
    fun a ha => Memory.load32_congr fun x _ _ => hfield a ha x (by omega) (by omega)
  have hright : ∀ a ∈ chunk :: head :: (rest ++ (l.addrs ++ r.addrs)),
    right m' a = right (setParent m chunk 0) a :=
    fun a ha => Memory.load32_congr fun x _ _ => hfield a ha x (by omega) (by omega)
  have hparent : ∀ a ∈ chunk :: head :: (rest ++ (l.addrs ++ r.addrs)),
      parent m' a = parent (setParent m chunk 0) a :=
    fun a ha => Memory.load32_congr fun x _ _ => hfield a ha x (by omega) (by omega)
  have hhead : head ∈ chunk :: head :: (rest ++ (l.addrs ++ r.addrs)) := by simp
  have hsub : ∀ a ∈ l.addrs ++ r.addrs, (links m).SameAt (links m') a := by
    intro a ha
    have hin : a ∈ head :: (rest ++ (l.addrs ++ r.addrs)) := by
      simp only [List.mem_cons, List.mem_append] at ha ⊢
      tauto
    refine (hother a hin).trans (links_sameAt fun x _ _ => hsame x fun b hb => ?_)
    have hab := hs a (List.mem_cons_of_mem _ hin) b (hring_sub b hb)
    have hne : a ≠ b := by
      rintro rfl
      rcases List.mem_cons.mp hb with rfl | hb
      · exact hnd'.1 hin
      · have hd := hnd'.2
        rw [← List.cons_append, List.nodup_append] at hd
        exact hd.2.2 a hb a ha rfl
    omega
  refine ⟨⟨rfl, h0, ?_, hres.ring, ?_, ?_, ?_⟩, hfirst.trans (hsame.mono (by omega) hring_sub)⟩
  · exact (hparent head hhead).trans ((hother head List.mem_cons_self).parent.trans hpar)
  · intro a ha
    rcases List.mem_append.mp ha with ha | ha
    · have hin : a ∈ head :: (rest ++ (l.addrs ++ r.addrs)) := by simp [ha]
      have hin' := List.mem_cons_of_mem chunk hin
      obtain ⟨h1, h2, h3⟩ := hrest a ha
      exact ⟨(hleft a hin').trans ((hother a hin).left.trans h1),
        (hright a hin').trans ((hother a hin).right.trans h2),
        (hparent a hin').trans ((hother a hin).parent.trans h3)⟩
    · obtain rfl := List.mem_singleton.mp ha
      refine ⟨(hleft a List.mem_cons_self).trans ?_, (hright a List.mem_cons_self).trans ?_,
        (hparent a List.mem_cons_self).trans ?_⟩
      · refine Eq.trans ?_ hfresh.left
        simp (disch := omega) only [left, setParent, Memory.load32_store32_apart]
      · refine Eq.trans ?_ hfresh.right
        simp (disch := omega) only [right, setParent, Memory.load32_store32_apart]
      · simp (disch := omega) only [parent, setParent, Memory.load32_store32_same]
  · show TreeRep (links m') head (left m' head) l
    rw [hleft head hhead, show left (setParent m chunk 0) head = left m head from
      (hother head List.mem_cons_self).left]
    exact hl.congr fun a ha => hsub a (by simp [ha])
  · show TreeRep (links m') head (right m' head) r
    rw [hright head hhead, show right (setParent m chunk 0) head = right m head from
      (hother head List.mem_cons_self).right]
    exact hr.congr fun a ha => hsub a (by simp [ha])

/-- The child links written by a descent that goes to the side `dir`. -/
def setChild (m : Memory) (dir : Bool) (a v : Nat) : Memory :=
  if dir then setRight m a v else setLeft m a v

theorem insert_leaf {par p : Nat} {f : Frame} (h : TreeRep (links m) par p (f.fill .leaf))
    (hfresh : Fresh m chunk) (hnd : (chunk :: (f.fill .leaf).addrs).Nodup)
    (hs : Spaced 32 (chunk :: (f.fill .leaf).addrs))
    (hf : Fits 32 (chunk :: (f.fill .leaf).addrs)) :
    TreeRep (links (setChild (setParent m chunk f.head) f.dir f.head chunk)) par p
        (f.fill (.node chunk [] size .leaf .leaf)) ∧
      SameOutside 28 (chunk :: (f.fill .leaf).addrs) m
        (setChild (setParent m chunk f.head) f.dir f.head chunk) := by
  have haddrs : ∀ a, a ∈ (f.fill .leaf).addrs ↔ a = f.head ∨ a ∈ f.rest ++ f.sib.addrs := by
    intro a
    unfold Frame.fill
    split <;> simp
  have hhead : f.head ∈ chunk :: (f.fill .leaf).addrs :=
    List.mem_cons_of_mem _ ((haddrs _).mpr (.inl rfl))
  have hne : ∀ a ∈ (f.fill .leaf).addrs, a ≠ chunk :=
    fun a ha he => (List.nodup_cons.mp hnd).1 (he ▸ ha)
  have hch := hs f.head hhead chunk List.mem_cons_self
  have hchne := hne f.head ((haddrs _).mpr (.inl rfl))
  have hcb := hf chunk List.mem_cons_self
  have hhb := hf f.head hhead
  have hfill := rep_fill.mp h
  refine ⟨h.fill_congr ?_ ?_ ?_ ?_ ?_ ?_, ?_⟩
  · obtain ⟨h1, h2, h3, h4⟩ := hfresh
    have hchild :
      (links (setChild (setParent m chunk f.head) f.dir f.head chunk)).child f.dir f.head =
      chunk := by
      unfold setChild Links.child links
      split <;> simp (disch := omega) only [left, right, setLeft, setRight,
        Memory.load32_store32_same]
    rw [hchild]
    refine ⟨rfl, hcb.1, ?_, ⟨?_, ?_⟩, by simp, ?_, ?_⟩
    all_goals unfold setChild links
    · split <;> simp (disch := omega) only [parent, setParent, setLeft, setRight,
        Memory.load32_store32_apart,
        Memory.load32_store32_same]
    · refine Eq.trans ?_ h1
      split <;> simp (disch := omega) only [next, setParent, setLeft, setRight,
        Memory.load32_store32_apart]
    · refine Eq.trans ?_ h2
      split <;> simp (disch := omega) only [prev, setParent, setLeft, setRight,
        Memory.load32_store32_apart]
    · refine Eq.trans ?_ h3
      split <;> simp (disch := omega) only [left, setParent, setLeft, setRight,
        Memory.load32_store32_apart]
    · refine Eq.trans ?_ h4
      split <;> simp (disch := omega) only [right, setParent, setLeft, setRight,
        Memory.load32_store32_apart]
  · unfold setChild links
    split <;> simp (disch := omega) only [next, setParent, setLeft, setRight,
      Memory.load32_store32_apart]
  · unfold setChild links
    split <;> simp (disch := omega) only [prev, setParent, setLeft, setRight,
      Memory.load32_store32_apart]
  · unfold setChild links
    split <;> simp (disch := omega) only [parent, setParent, setLeft, setRight,
      Memory.load32_store32_apart]
  · unfold setChild links Links.child
    cases f.dir <;> simp (disch := omega) only [Bool.not_false, Bool.not_true, if_true, if_false,
      Bool.false_eq_true, left, right, setParent, setLeft, setRight, Memory.load32_store32_apart]
  · intro a ha
    have hin : a ∈ chunk :: (f.fill .leaf).addrs :=
      List.mem_cons_of_mem _ ((haddrs a).mpr (.inr ha))
    have hac := hs a hin chunk List.mem_cons_self
    have hah := hs a hin f.head hhead
    have hne' := hne a ((haddrs a).mpr (.inr ha))
    have hnh : a ≠ f.head := by
      rintro rfl
      have hd := (List.nodup_cons.mp hnd).2
      unfold Frame.fill at hd
      split at hd <;> simp at hd <;> simp at ha <;> tauto
    refine links_sameAt fun x _ _ => ?_
    unfold setChild
    split
    · exact (Memory.store32_apply (by omega)).trans (Memory.store32_apply (by omega))
    · exact (Memory.store32_apply (by omega)).trans (Memory.store32_apply (by omega))
  · have hfirst : SameOutside 28 (chunk :: (f.fill .leaf).addrs) m (setParent m chunk f.head) :=
      (SameOutside.refl _ _ _).store List.mem_cons_self (by omega) (by omega)
    unfold setChild
    split
    · exact hfirst.store hhead (by omega) (by omega)
    · exact hfirst.store hhead (by omega) (by omega)

theorem mem_addrs_fill {f : Frame} {t : RTree} :
    a ∈ (f.fill t).addrs ↔ a = f.head ∨ a ∈ f.rest ++ f.sib.addrs ∨ a ∈ t.addrs := by
  unfold Frame.fill
  split <;> simp <;> tauto

theorem addrs_fill_nodup {f : Frame} {t : RTree} (h : (f.fill t).addrs.Nodup) :
    t.addrs.Nodup ∧ ∀ a, a = f.head ∨ a ∈ f.rest ++ f.sib.addrs → a ∉ t.addrs := by
  have hd := (f.addrs_fill t).nodup_iff.mp h
  rw [List.nodup_append] at hd
  exact ⟨hd.1, fun a ha hm => hd.2.2 a hm a (List.mem_cons.mpr ha) rfl⟩

/-- An edit of the subtree below a node that writes only to it and to the new
record is one of the whole. -/
theorem insert_below {m' : Memory} {par p : Nat} {f : Frame} {t t' : RTree}
    (h : TreeRep (links m) par p (f.fill t)) (hnd : (chunk :: (f.fill t).addrs).Nodup)
    (hs : Spaced 32 (chunk :: (f.fill t).addrs))
    (hrep : TreeRep (links m') f.head ((links m).child f.dir f.head) t')
    (hsame : SameOutside 28 (chunk :: t.addrs) m m') :
    TreeRep (links m') par p (f.fill t') ∧ SameOutside 28 (chunk :: (f.fill t).addrs) m m' := by
  obtain ⟨hcn, hfn⟩ := List.nodup_cons.mp hnd
  obtain ⟨-, hdisj⟩ := addrs_fill_nodup hfn
  have hsub : ∀ a ∈ chunk :: t.addrs, a ∈ chunk :: (f.fill t).addrs := by
    intro a ha
    rcases List.mem_cons.mp ha with rfl | ha
    · exact List.mem_cons_self
    · exact List.mem_cons_of_mem _ (mem_addrs_fill.mpr (.inr (.inr ha)))
  have hout : ∀ a, a = f.head ∨ a ∈ f.rest ++ f.sib.addrs → (links m).SameAt (links m') a := by
    intro a ha
    have hin : a ∈ (f.fill t).addrs := mem_addrs_fill.mpr (ha.imp_right .inl)
    refine hsame.sameAt fun b hb => ?_
    have hab := hs a (List.mem_cons_of_mem _ hin) b (hsub b hb)
    have hne : a ≠ b := by
      rintro rfl
      rcases List.mem_cons.mp hb with rfl | hb
      · exact hcn hin
      · exact hdisj a ha hb
    omega
  have hh := hout f.head (.inl rfl)
  refine ⟨h.fill_congr ?_ hh.next hh.prev hh.parent (hh.child _) fun a ha => hout a (.inr ha),
    hsame.mono (by omega) hsub⟩
  rw [hh.child]
  exact hrep

theorem kmallocTreeInsertLoop_spec {t : RTree} {d par cur : Nat} (h : TreeRep (links m) par cur t)
    (h0 : cur ≠ 0) (hkey : Keyed m t) (hroom : Room size d t) (hfresh : Fresh m chunk)
    (hnd : (chunk :: t.addrs).Nodup)
    (hs : Spaced 32 (chunk :: t.addrs)) (hf : Fits 32 (chunk :: t.addrs)) :
    TreeRep (links (kmallocTreeInsertLoop chunk size d m cur)) par cur (t.insert chunk size d) ∧
      SameOutside 28 (chunk :: t.addrs) m (kmallocTreeInsertLoop chunk size d m cur) := by
  induction t generalizing d par cur with
  | leaf => exact absurd h h0
  | node head rest key l r ihl ihr =>
    obtain rfl : cur = head := h.1
    have hk : getChunkSize m cur = key := hkey (cur, key) (by simp [RTree.items])
    unfold kmallocTreeInsertLoop
    rw [hk]
    by_cases hsize : size = key
    · subst hsize
      rw [if_pos rfl]
      have hins : (RTree.node cur rest size l r).insert chunk size d =
        .node cur (rest ++ [chunk]) size l r := by
        cases d <;> simp [RTree.insert]
      rw [hins]
      exact insert_same_size h hfresh hnd hs hf
    rw [if_neg hsize]
    cases d with
    | zero => exact absurd hroom hsize
    | succ d =>
      have hroom := hroom.resolve_left hsize
      simp only [RTree.insert, if_neg hsize, Word32.and_bit_ne_zero]
      -- the same step on either side, seen through the frame of the node
      have side : ∀ (f : Frame) (t : RTree), f.head = cur → f.fill t = .node cur rest key l r →
          (∀ {par cur}, TreeRep (links m) par cur t → cur ≠ 0 → Keyed m t →
          (chunk :: t.addrs).Nodup →
            Spaced 32 (chunk :: t.addrs) → Fits 32 (chunk :: t.addrs) →
            TreeRep (links (kmallocTreeInsertLoop chunk size d m cur)) par cur
              (t.insert chunk size d) ∧
              SameOutside 28 (chunk :: t.addrs) m (kmallocTreeInsertLoop chunk size d m cur)) →
          ∃ m', m' = (if (links m).child f.dir cur ≠ 0 then
              kmallocTreeInsertLoop chunk size d m ((links m).child f.dir cur)
            else setChild (setParent m chunk cur) f.dir cur chunk) ∧
            TreeRep (links m') par cur (f.fill (t.insert chunk size d)) ∧
            SameOutside 28 (chunk :: (RTree.node cur rest key l r).addrs) m m' := by
        intro f t hcur hfill ih
        subst hcur
        rw [← hfill] at h hnd hs hf hkey ⊢
        obtain ⟨-, -, -, -, -, ht, -⟩ := rep_fill.mp h
        refine ⟨_, rfl, ?_⟩
        by_cases hc : (links m).child f.dir f.head = 0
        · obtain rfl : t = .leaf := ht.null_iff.mp hc
          rw [if_neg (by simpa using hc)]
          have hins : RTree.leaf.insert chunk size d = .node chunk [] size .leaf .leaf := by
            cases d <;> rfl
          rw [hins]
          exact insert_leaf h hfresh hnd hs hf
        · rw [if_pos hc]
          obtain ⟨hcn, hfn⟩ := List.nodup_cons.mp hnd
          have hsub : ∀ a ∈ chunk :: t.addrs, a ∈ chunk :: (f.fill t).addrs := by
            intro a ha
            rcases List.mem_cons.mp ha with rfl | ha
            · exact List.mem_cons_self
            · exact List.mem_cons_of_mem _ (mem_addrs_fill.mpr (.inr (.inr ha)))
          obtain ⟨hrep, hsame⟩ := ih ht hc
            (fun x hx => hkey x ((f.items_fill t).mem_iff.mpr (List.mem_append_left _ hx)))
            (List.nodup_cons.mpr ⟨fun hm => hcn (mem_addrs_fill.mpr (.inr (.inr hm))),
              (addrs_fill_nodup hfn).1⟩) (hs.sub hsub) fun a ha => hf a (hsub a ha)
          exact insert_below h hnd hs hrep hsame
      cases hb : size.testBit d with
      | true =>
        simp only [hb, if_true] at hroom ⊢
        obtain ⟨_, rfl, hres⟩ := side ⟨cur, rest, key, true, l⟩ r rfl rfl
          fun h1 h2 h3 h4 h5 h6 => ihr h1 h2 h3 hroom h4 h5 h6
        exact hres
      | false =>
        simp only [hb, if_false, Bool.false_eq_true] at hroom ⊢
        obtain ⟨_, rfl, hres⟩ := side ⟨cur, rest, key, false, r⟩ l rfl rfl
          fun h1 h2 h3 h4 h5 h6 => ihl h1 h2 h3 hroom h4 h5 h6
        exact hres

theorem kmallocTreeInsert_spec {t : RTree} {d root : Nat} (chunk : Nat)
    (h : TreeRep (links m) 0 root t) (hd : 0 < d)
    (hkey : Keyed m t) (hroom : Room (getChunkSize m chunk) d t) (hnd : (chunk :: t.addrs).Nodup)
    (hs : Spaced 32 (chunk :: t.addrs)) (hf : Fits 32 (chunk :: t.addrs)) :
    TreeRep (links (kmallocTreeInsert m chunk root d).1) 0 (kmallocTreeInsert m chunk root d).2
        (t.insert chunk (getChunkSize m chunk) d) ∧
      SameOutside 28 (chunk :: t.addrs) m (kmallocTreeInsert m chunk root d).1 := by
  have hcb := hf chunk List.mem_cons_self
  unfold kmallocTreeInsert
  rw [if_neg (by omega)]
  dsimp only
  have hinit : SameOutside 28 [chunk] m
      (setLeft (setRight (setNext (setPrev m chunk chunk) chunk chunk) chunk 0) chunk 0) :=
    ((((SameOutside.refl _ _ _).store List.mem_cons_self (by omega) (by omega)).store
      List.mem_cons_self (by omega) (by omega)).store List.mem_cons_self (by omega)
        (by omega)).store
      List.mem_cons_self (by omega) (by omega)
  have hfresh :
    Fresh (setLeft (setRight (setNext (setPrev m chunk chunk) chunk chunk) chunk 0) chunk 0)
      chunk := by
    constructor <;> simp (disch := omega) only [next, prev, left, right, setNext, setPrev, setLeft,
      setRight, Memory.load32_store32_apart, Memory.load32_store32_same]
  generalize setLeft (setRight (setNext (setPrev m chunk chunk) chunk chunk) chunk 0) chunk 0 = m₁
    at hinit hfresh ⊢
  have hapart : ∀ a ∈ t.addrs, a + 32 ≤ chunk ∨ chunk + 32 ≤ a := by
    intro a ha
    have hac := hs a (List.mem_cons_of_mem _ ha) chunk List.mem_cons_self
    have hne : a ≠ chunk := fun he => (List.nodup_cons.mp hnd).1 (he ▸ ha)
    omega
  have hsize : ∀ a ∈ chunk :: t.addrs, getChunkSize m₁ a = getChunkSize m a := by
    intro a ha
    refine hinit.getChunkSize fun b hb => ?_
    obtain rfl := List.mem_singleton.mp hb
    have := hs a ha b List.mem_cons_self
    omega
  rw [hsize chunk List.mem_cons_self]
  by_cases hroot : root = 0
  · obtain rfl : t = .leaf := h.null_iff.mp hroot
    rw [if_pos hroot]
    have hins : RTree.leaf.insert chunk (getChunkSize m chunk) d =
        .node chunk [] (getChunkSize m chunk) .leaf .leaf := by
      cases d <;> rfl
    rw [hins]
    obtain ⟨h1, h2, -, -⟩ := hfresh
    refine ⟨⟨rfl, hcb.1, ?_, ⟨?_, ?_⟩, by simp, ?_, ?_⟩, ?_⟩
    all_goals try unfold links
    · simp (disch := omega) only [parent, setParent, Memory.load32_store32_same]
    · refine Eq.trans ?_ h1
      simp (disch := omega) only [next, setParent, setLeft, setRight, Memory.load32_store32_apart]
    · refine Eq.trans ?_ h2
      simp (disch := omega) only [prev, setParent, setLeft, setRight, Memory.load32_store32_apart]
    · simp (disch := omega) only [TreeRep, left, setParent, setLeft, Memory.load32_store32_apart,
        Memory.load32_store32_same]
    · simp (disch := omega) only [TreeRep, right, setParent, setLeft, setRight,
        Memory.load32_store32_apart,
        Memory.load32_store32_same]
    · exact hinit.trans
        ((((SameOutside.refl _ _ _).store List.mem_cons_self (by omega) (by omega)).store
        List.mem_cons_self (by omega) (by omega)).store List.mem_cons_self (by omega) (by omega))
  · rw [if_neg hroot]
    have hrep : TreeRep (links m₁) 0 root t := h.congr fun a ha => hinit.sameAt fun b hb => by
      obtain rfl := List.mem_singleton.mp hb
      have := hapart a ha
      omega
    have hkey₁ : Keyed m₁ t := fun x hx =>
      (hsize x.1 (List.mem_cons_of_mem _ (RTree.mem_addrs hx))).trans (hkey x hx)
    obtain ⟨hres, hsame⟩ := kmallocTreeInsertLoop_spec hrep hroot hkey₁ hroom hfresh hnd hs hf
    exact ⟨hres, (hinit.mono (by omega) (by simp)).trans hsame⟩

end

end ElcoOs.Kmalloc
