import ElcoOs.Lib.TriePath

/-!
# The nodes of a trie

A node is named by the turns that lead to it from the root. In a trie the turns
are the top bits of its key, so a key names at most one node; read through the
links, the tree is then determined by the records that are in it.
-/

namespace RingTree

variable {L : Links} {t l r : RTree} {a b c d k root par head key : Nat} {p q rest : List Nat}

-- ---------------------------------------------------------------------------
-- Subtrees
-- ---------------------------------------------------------------------------

/-- What hangs at the end of the turns, `true` for right. -/
def RTree.subtree : List Bool → RTree → RTree
  | [], t => t
  | _ :: _, .leaf => .leaf
  | dir :: p, .node _ _ _ l r => if dir then r.subtree p else l.subtree p

@[simp] theorem subtree_nil : t.subtree [] = t := by cases t <;> rfl

@[simp] theorem subtree_leaf (p : List Bool) : RTree.leaf.subtree p = .leaf := by cases p <;> rfl

theorem mem_node_items (h : a ∈ head :: rest) : (a, k) ∈ (RTree.node head rest k l r).items :=
  List.mem_append_left _ (List.mem_map.mpr ⟨a, h, rfl⟩)

theorem subtree_sublist (p : List Bool) : (t.subtree p).items.Sublist t.items := by
  induction t generalizing p with
  | leaf => simp
  | node head rest key l r ihl ihr =>
    rcases p with _ | ⟨_ | _, p⟩
    · exact List.Sublist.refl _
    · exact (ihl p).trans ((List.sublist_append_left _ _).trans (List.sublist_append_right _ _))
    · exact (ihr p).trans ((List.sublist_append_right _ _).trans (List.sublist_append_right _ _))

theorem subtree_keys {p : List Bool} (hk : k ∈ (t.subtree p).keys) : k ∈ t.keys := by
  obtain ⟨a, ha⟩ := RTree.mem_keys.mp hk
  exact RTree.mem_keys.mpr ⟨a, (subtree_sublist p).subset ha⟩

theorem subtree_key {p : List Bool} (h : t.subtree p = .node head rest k l r) : k ∈ t.keys :=
  by
  have hk : k ∈ (t.subtree p).keys := by simp [h, RTree.keys]
  exact subtree_keys hk

theorem exists_subtree (h : (a, k) ∈ t.items) :
    ∃ p head rest l r, t.subtree p = .node head rest k l r ∧ a ∈ head :: rest := by
  induction t with
  | leaf => simp [RTree.items] at h
  | node head rest key l r ihl ihr =>
    simp only [RTree.items, List.mem_append, List.mem_map, Prod.mk.injEq] at h
    rcases h with ⟨b, hb, rfl, rfl⟩ | h | h
    · exact ⟨[], head, rest, l, r, rfl, hb⟩
    · obtain ⟨p, hp⟩ := ihl h
      exact ⟨false :: p, hp⟩
    · obtain ⟨p, hp⟩ := ihr h
      exact ⟨true :: p, hp⟩

theorem Trie.subtree {p : List Bool} (h : Trie d t) (hne : t.subtree p ≠ .leaf) :
    p.length ≤ d ∧ Trie (d - p.length) (t.subtree p) ∧
      ∀ k ∈ (t.subtree p).keys, ∀ j (hj : j < p.length), k.testBit (d - 1 - j) = p[j] := by
  induction t generalizing d p with
  | leaf => simp at hne
  | node head rest key l r ihl ihr =>
    cases p with
    | nil => exact ⟨Nat.zero_le d, h, by simp⟩
    | cons dir p =>
      cases d with
      | zero =>
        obtain ⟨rfl, rfl⟩ := h
        cases dir <;> simp [RTree.subtree] at hne
      | succ d =>
        obtain ⟨hl, hr, -, -, htl, htr⟩ := h
        -- the first turn is bit `d`, the others are those of the subtree
        have step : ∀ t : RTree, t.subtree p ≠ .leaf → (∀ k ∈ t.keys, k.testBit d = dir) →
            (p.length ≤ d ∧ Trie (d - p.length) (t.subtree p) ∧
              ∀ k ∈ (t.subtree p).keys, ∀ j (hj : j < p.length), k.testBit (d - 1 - j) = p[j]) →
            (dir :: p).length ≤ d + 1 ∧ Trie (d + 1 - (dir :: p).length) (t.subtree p) ∧
              ∀ k ∈ (t.subtree p).keys, ∀ j (hj : j < (dir :: p).length),
                k.testBit (d + 1 - 1 - j) = (dir :: p)[j] := by
          rintro t - hdir ⟨hlen, htrie, hbits⟩
          refine ⟨Nat.succ_le_succ hlen,
            by rwa [List.length_cons, Nat.add_sub_add_right], fun k hk j hj => ?_⟩
          cases j with
          | zero => exact hdir k (subtree_keys hk)
          | succ j =>
            have hj' : j < p.length := Nat.lt_of_succ_lt_succ hj
            rw [List.getElem_cons_succ, ← hbits k hk j hj']
            congr 1
            omega
        cases dir with
        | false => exact step l hne hl (ihl htl hne)
        | true => exact step r hne hr (ihr htr hne)

theorem Uniform.subtree {p : List Bool} (h : Uniform d t) (ht : Trie d t) : Uniform (d - p.length)
    (t.subtree p) := by
  induction t generalizing d p with
  | leaf => simp [Uniform, RTree.keys]
  | node head rest key l r ihl ihr =>
    cases p with
    | nil => exact h
    | cons dir p =>
      cases d with
      | zero =>
        obtain ⟨rfl, rfl⟩ := ht
        cases dir <;> simp [RTree.subtree, Uniform, RTree.keys]
      | succ d =>
        rw [List.length_cons, Nat.add_sub_add_right]
        cases dir with
        | false => exact ihl (h.left ht) ht.2.2.2.2.1
        | true => exact ihr (h.right ht) ht.2.2.2.2.2

theorem Trie.subtree_unique {p q : List Bool} {head' : Nat} {rest' : List Nat}
    {l' r' : RTree} (h : Trie d t)
    (hp : t.subtree p = .node head rest k l r) (hq : t.subtree q = .node head' rest' k l' r') :
    p = q := by
  induction t generalizing d p q with
  | leaf => simp at hp
  | node h0 xs key x y ihl ihr =>
    obtain _ | d := d
    · obtain ⟨rfl, rfl⟩ := h
      rcases p with _ | ⟨_ | _, p⟩ <;> rcases q with _ | ⟨_ | _, q⟩
        <;> simp [RTree.subtree] at hp hq ⊢
    obtain ⟨hl, hr, hkl, hkr, htl, htr⟩ := h
    rcases p with _ | ⟨_ | _, p⟩ <;> rcases q with _ | ⟨_ | _, q⟩ <;>
      simp only [RTree.subtree, RTree.node.injEq, if_true, Bool.false_eq_true, if_false] at hp hq
    · rfl
    · exact absurd (subtree_key hq) (hp.2.2.1 ▸ hkl)
    · exact absurd (subtree_key hq) (hp.2.2.1 ▸ hkr)
    · exact absurd (subtree_key hp) (hq.2.2.1 ▸ hkl)
    · rw [ihl htl hp hq]
    · exact absurd (hr k (subtree_key hq)) (by simp [hl k (subtree_key hp)])
    · exact absurd (subtree_key hp) (hq.2.2.1 ▸ hkr)
    · exact absurd (hr k (subtree_key hp)) (by simp [hl k (subtree_key hq)])
    · rw [ihr htr hp hq]

theorem room_of_few {e : Nat} (h : Trie d t) (he : e ≤ d)
    (hfew : ∀ ks : List Nat, ks.Nodup → (∀ k' ∈ ks, k' ∈ t.keys ∧ ∀ j, e ≤ j → j < d →
    k'.testBit j = k.testBit j) →
      ks.length ≤ e) : Room k d t := by
  induction t generalizing d with
  | leaf => cases d <;> trivial
  | node head rest key l r ihl ihr =>
    by_cases hd : e = d
    · subst hd
      exact room_of_length (hfew _ h.keys_nodup fun k' hk' =>
        ⟨hk', fun j h1 h2 => absurd h1 (Nat.not_le.mpr h2)⟩)
    obtain _ | d := d
    · omega
    obtain ⟨hl, hr, -, -, htl, htr⟩ := h
    -- the keys on the side of `k` have bit `d` in common with it
    have side : ∀ t : RTree, (∀ k' ∈ t.keys, k' ∈ (RTree.node head rest key l r).keys ∧
      k'.testBit d = k.testBit d) →
        ∀ ks : List Nat, ks.Nodup → (∀ k' ∈ ks, k' ∈ t.keys ∧ ∀ j, e ≤ j → j < d →
          k'.testBit j = k.testBit j) →
          ks.length ≤ e := by
      intro t ht ks hnd hks
      refine hfew ks hnd fun k' hk' => ?_
      obtain ⟨hmem, hbits⟩ := hks k' hk'
      obtain ⟨hin, htop⟩ := ht k' hmem
      refine ⟨hin, fun j h1 h2 => ?_⟩
      rcases Nat.lt_succ_iff_lt_or_eq.mp h2 with h2 | rfl
      · exact hbits j h1 h2
      · exact htop
    refine .inr ?_
    split
    · rename_i hb
      exact ihr htr (by omega)
        (side r fun k' hk' => ⟨by simp [RTree.keys, hk'], (hr k' hk').trans hb.symm⟩)
    · rename_i hb
      have hb : k.testBit d = false := by simpa using hb
      exact ihl htl (by omega)
        (side l fun k' hk' => ⟨by simp [RTree.keys, hk'], (hl k' hk').trans hb.symm⟩)

-- ---------------------------------------------------------------------------
-- Turns along the links
-- ---------------------------------------------------------------------------

/-- From `a` the turns lead down to `b`. -/
inductive AtPath (L : Links) : Nat → List Bool → Nat → Prop where
  | here {a : Nat} (h : a ≠ 0) : AtPath L a [] a
  | down {a b : Nat} {dir : Bool} {p : List Bool} (h : a ≠ 0) (hp :
    AtPath L (L.child dir a) p b) : AtPath L a (dir :: p) b

theorem AtPath.ne_zero {p : List Bool} (h : AtPath L a p b) : a ≠ 0 ∧ b ≠ 0 := by
  induction h with
  | here h => exact ⟨h, h⟩
  | down h _ ih => exact ⟨h, ih.2⟩

theorem AtPath.trans {p q : List Bool} (h : AtPath L a p b) (hq : AtPath L b q c) :
    AtPath L a (p ++ q) c := by
  induction h with
  | here => exact hq
  | down h _ ih => exact .down h (ih hq)

theorem AtPath.last {p : List Bool} (h : AtPath L a p b) (hne : p ≠ []) :
    ∃ q dir c, p = q ++ [dir] ∧ AtPath L a q c ∧ L.child dir c = b := by
  induction h with
  | here => exact absurd rfl hne
  | @down a b dir p h0 hp ih =>
    cases p with
    | nil =>
      cases hp
      exact ⟨[], dir, a, rfl, .here h0, rfl⟩
    | cons dir' p =>
      obtain ⟨q, dir'', c, hq, hpath, hc⟩ := ih (by simp)
      exact ⟨dir :: q, dir'', c, by rw [hq, List.cons_append], .down h0 hpath, hc⟩

theorem TreeRep.atPath {p : List Bool} (h : TreeRep L par a t) (hp : AtPath L a p b) :
    ∃ par' rest key l r, t.subtree p = .node b rest key l r ∧ TreeRep L par' b (t.subtree p) := by
  induction t generalizing par a p with
  | leaf => exact absurd h hp.ne_zero.1
  | node head rest key l r ihl ihr =>
    have hnode := h
    obtain ⟨rfl, -, -, -, -, hl, hr⟩ := h
    cases hp with
    | here => exact ⟨par, rest, key, l, r, rfl, hnode⟩
    | @down _ _ dir p _ hp =>
      cases dir with
      | false => exact ihl hl hp
      | true => exact ihr hr hp

theorem TreeRep.path {p : List Bool} (h : TreeRep L par a t)
    (hp : t.subtree p = .node b rest k l r) :
    AtPath L a p b := by
  induction t generalizing par a p with
  | leaf => simp at hp
  | node head rest key x y ihl ihr =>
    obtain ⟨rfl, h0, -, -, -, hl, hr⟩ := h
    rcases p with _ | ⟨_ | _, p⟩
    · obtain ⟨rfl, -⟩ := RTree.node.inj hp
      exact .here h0
    · exact .down h0 (ihl hl hp)
    · exact .down h0 (ihr hr hp)

-- ---------------------------------------------------------------------------
-- A trie by its links
-- ---------------------------------------------------------------------------

/-- The records `recs` form a trie on `d` bits of their keys, with the records
of a key in a ring of which one is a node. -/
structure WellLinked (L : Links) (key : Nat → Nat) (d root : Nat) (recs : List Nat) : Prop where
  rootParent : root ≠ 0 → L.parent root = 0
  parentOfChild : ∀ p a dir, AtPath L root p a → L.child dir a ≠ 0 → L.parent (L.child dir a) = a
  childOfParent : ∀ p a, AtPath L root p a → a ≠ root →
    ∃ q dir, p = q ++ [dir] ∧ AtPath L root q (L.parent a) ∧ L.child dir (L.parent a) = a
  bits : ∀ p a, AtPath L root p a → p.length ≤ d ∧ ∀ j (hj : j < p.length),
    (key a).testBit (d - 1 - j) = p[j]
  distinct : ∀ p q a b, AtPath L root p a → AtPath L root q b → key a = key b → p = q ∧ a = b
  rings : ∀ a ∈ recs, ∃ p n rest, AtPath L root p n ∧ Ring.IsRing L.next L.prev (n :: rest) ∧
    (n :: rest).Nodup ∧
    (∀ b, b ∈ n :: rest ↔ b ∈ recs ∧ key b = key a) ∧ ∀ b ∈ rest, L.Outside b ∧
    ∀ q, ¬ AtPath L root q b
  reachable : ∀ a, Linked L root a ↔ a ∈ recs

theorem WellLinked.perm {f : Nat → Nat} {xs ys : List Nat} (h : WellLinked L f d root xs)
    (hp : xs.Perm ys) :
    WellLinked L f d root ys where
  rootParent := h.rootParent
  parentOfChild := h.parentOfChild
  childOfParent := h.childOfParent
  bits := h.bits
  distinct := h.distinct
  rings a ha := by
    simpa only [hp.mem_iff] using h.rings a (hp.mem_iff.mpr ha)
  reachable a := (h.reachable a).trans hp.mem_iff

theorem TreeRep.child_parent {dir : Bool} (h : TreeRep L par a (.node head rest key l r))
    (h0 : L.child dir a ≠ 0) :
    L.parent (L.child dir a) = a := by
  obtain ⟨rfl, -, -, -, -, hl, hr⟩ := h
  have below : ∀ {t : RTree} {c : Nat}, TreeRep L a c t → c ≠ 0 → L.parent c = a := by
    intro t c ht hc
    cases t with
    | leaf => exact absurd ht hc
    | node => exact ht.1 ▸ ht.2.2.1
  cases dir with
  | false => exact below hl h0
  | true => exact below hr h0

theorem TreeRep.wellLinked {f : Nat → Nat} (h : TreeRep L 0 root t) (ht : Trie d t)
    (hkey : ∀ x ∈ t.items, f x.1 = x.2) (hnd : t.addrs.Nodup) : WellLinked L f d root t.addrs := by
  -- the node at the end of the turns, with its key
  have node : ∀ p a, AtPath L root p a → ∃ par rest l r, t.subtree p = .node a rest (f a) l r ∧
      TreeRep L par a (.node a rest (f a) l r) := by
    intro p a hp
    obtain ⟨par, rest, key, l, r, hsub, hrep⟩ := h.atPath hp
    have hfa : f a = key :=
      hkey (a, key) ((subtree_sublist p).subset (hsub ▸ mem_node_items List.mem_cons_self))
    rw [hsub] at hrep
    exact ⟨par, rest, l, r, hfa ▸ hsub, hfa ▸ hrep⟩
  have parentOfChild : ∀ p a dir, AtPath L root p a → L.child dir a ≠ 0 →
    L.parent (L.child dir a) = a := by
    intro p a dir hp h0
    obtain ⟨par, rest, l, r, -, hrep⟩ := node p a hp
    exact hrep.child_parent h0
  have distinct : ∀ p q a b, AtPath L root p a → AtPath L root q b → f a = f b → p = q ∧ a = b := by
    intro p q a b hp hq he
    obtain ⟨-, rest, l, r, hsub, -⟩ := node p a hp
    obtain ⟨-, rest', l', r', hsub', -⟩ := node q b hq
    rw [he] at hsub
    obtain rfl := ht.subtree_unique hsub hsub'
    rw [hsub] at hsub'
    exact ⟨rfl, (RTree.node.inj hsub').1⟩
  refine ⟨fun h0 => ?_, parentOfChild, fun p a hp hne => ?_, fun p a hp => ?_,
    distinct, fun a ha => ?_,
    fun a => h.linked_iff⟩
  · cases t with
    | leaf => exact absurd h h0
    | node => exact h.1 ▸ h.2.2.1
  · have hne' : p ≠ [] := by
      rintro rfl
      cases hp
      exact hne rfl
    obtain ⟨q, dir, c, rfl, hq, rfl⟩ := hp.last hne'
    have hpar := parentOfChild q c dir hq hp.ne_zero.2
    rw [hpar]
    exact ⟨q, dir, rfl, hq, rfl⟩
  · obtain ⟨-, rest, l, r, hsub, -⟩ := node p a hp
    obtain ⟨hlen, -, hbits⟩ := ht.subtree (p := p) (by simp [hsub])
    exact ⟨hlen, fun j hj => hbits (f a) (by simp [hsub, RTree.keys]) j hj⟩
  · obtain ⟨⟨a', k⟩, hx, rfl⟩ := List.mem_map.mp ha
    obtain ⟨p, n, rest, l, r, hsub, hmem⟩ := exists_subtree hx
    have hp := h.path hsub
    obtain ⟨par, -, -, -, -, -, hrep⟩ := h.atPath hp
    rw [hsub] at hrep
    obtain ⟨-, -, -, hring, hout, -, -⟩ := hrep
    have hfa : f a' = k := hkey (a', k) hx
    have hitem : ∀ b ∈ n :: rest, (b, k) ∈ t.items := fun b hb =>
      (subtree_sublist p).subset (hsub ▸ mem_node_items hb)
    have hfb : ∀ b ∈ n :: rest, f b = k := fun b hb => hkey (b, k) (hitem b hb)
    have hnodup : (n :: rest).Nodup := by
      refine (hnd.sublist ((subtree_sublist p).map Prod.fst)).sublist ?_
      rw [hsub]
      show (n :: rest).Sublist (RTree.node n rest k l r).addrs
      rw [RTree.addrs_node]
      exact (List.sublist_append_left rest _).cons_cons n
    refine ⟨p, n, rest, hp, hring, hnodup, fun b => ⟨fun hb => ?_, fun hb => ?_⟩,
      fun b hb => ⟨hout b hb, fun q hq => ?_⟩⟩
    · exact ⟨RTree.mem_addrs (hitem b hb), (hfb b hb).trans hfa.symm⟩
    · obtain ⟨⟨b', k'⟩, hx', rfl⟩ := List.mem_map.mp hb.1
      obtain rfl : k' = k := (hkey (b', k') hx').symm.trans (hb.2.trans hfa)
      obtain ⟨q, n', rest', l', r', hsub', hmem'⟩ := exists_subtree hx'
      obtain rfl := ht.subtree_unique hsub hsub'
      obtain ⟨rfl, rfl, -⟩ := RTree.node.inj (hsub.symm.trans hsub')
      exact hmem'
    · have hbn :=
        (distinct q p b n hq hp
          ((hfb b (List.mem_cons_of_mem _ hb)).trans (hfb n List.mem_cons_self).symm)).2
      exact (List.nodup_cons.mp hnodup).1 (hbn ▸ hb)

end RingTree
