import ElcoOs.Lib.Ring
import Mathlib.Data.List.Perm.Basic
import Mathlib.Logic.Function.Basic

/-!
# Trees of rings

A binary tree linked through `left`, `right` and `parent`, each of whose
nodes is the head of a ring of records of the same key. Only the head takes
part in the tree; the other members of its ring have null tree links. `TreeRep`
reads such a tree off the five link functions. A context is the path from a
subtree up to the root, so that an edit of a subtree is one of the tree.
-/

namespace RingTree

open Ring

/-- The link fields of every record; address 0 is the null pointer. -/
structure Links where
  next : Nat → Nat
  prev : Nat → Nat
  left : Nat → Nat
  right : Nat → Nat
  parent : Nat → Nat

def Links.child (L : Links) (dir : Bool) (a : Nat) : Nat := if dir then L.right a else L.left a

structure Links.SameAt (L L' : Links) (a : Nat) : Prop where
  next : L'.next a = L.next a
  prev : L'.prev a = L.prev a
  left : L'.left a = L.left a
  right : L'.right a = L.right a
  parent : L'.parent a = L.parent a

theorem Links.SameAt.child {L L' : Links} (h : L.SameAt L' a) (dir : Bool) :
    L'.child dir a = L.child dir a := by
  cases dir
  · exact h.left
  · exact h.right

theorem Links.SameAt.refl (L : Links) (a : Nat) : L.SameAt L a := ⟨rfl, rfl, rfl, rfl, rfl⟩

theorem Links.SameAt.trans {L L' L'' : Links} (h : L.SameAt L' a) (h' : L'.SameAt L'' a) :
    L.SameAt L'' a :=
  ⟨h'.next.trans h.next, h'.prev.trans h.prev, h'.left.trans h.left, h'.right.trans h.right,
    h'.parent.trans h.parent⟩

inductive RTree where
  | leaf
  | node (head : Nat) (rest : List Nat) (key : Nat) (left right : RTree)

def RTree.items : RTree → List (Nat × Nat)
  | .leaf => []
  | .node head rest key left right => (head :: rest).map (·, key) ++ (left.items ++ right.items)

def RTree.addrs (t : RTree) : List Nat := t.items.map Prod.fst

def RTree.keys : RTree → List Nat
  | .leaf => []
  | .node _ _ key left right => key :: (left.keys ++ right.keys)

@[simp] theorem RTree.addrs_leaf : RTree.leaf.addrs = [] := rfl

@[simp] theorem RTree.addrs_node :
    (RTree.node head rest key l r).addrs = head :: (rest ++ (l.addrs ++ r.addrs)) := by
  simp [RTree.addrs, RTree.items, Function.comp_def]

theorem RTree.mem_keys {t : RTree} : k ∈ t.keys ↔ ∃ a, (a, k) ∈ t.items := by
  induction t with
  | leaf => simp [RTree.keys, RTree.items]
  | node head rest key l r ihl ihr =>
    simp only [RTree.keys, RTree.items, List.mem_cons, List.mem_append, ihl, ihr, List.map_cons,
      List.mem_map, Prod.mk.injEq]
    constructor
    · rintro (rfl | ⟨a, h⟩ | ⟨a, h⟩)
      · exact ⟨head, .inl (.inl ⟨rfl, rfl⟩)⟩
      · exact ⟨a, .inr (.inl h)⟩
      · exact ⟨a, .inr (.inr h)⟩
    · rintro ⟨a, (⟨-, rfl⟩ | ⟨_, -, -, rfl⟩) | h | h⟩
      · exact .inl rfl
      · exact .inl rfl
      · exact .inr (.inl ⟨a, h⟩)
      · exact .inr (.inr ⟨a, h⟩)

theorem RTree.length_keys_le (t : RTree) : t.keys.length ≤ t.items.length := by
  induction t with
  | leaf => exact Nat.le_refl _
  | node head rest key l r ihl ihr =>
    simp only [RTree.keys, RTree.items, List.length_cons, List.length_append, List.length_map]
    omega

theorem RTree.mem_addrs {t : RTree} (h : (a, k) ∈ t.items) : a ∈ t.addrs :=
  List.mem_map.mpr ⟨_, h, rfl⟩

def Links.Outside (L : Links) (a : Nat) : Prop := L.left a = 0 ∧ L.right a = 0 ∧ L.parent a = 0

/-- The links hold this tree, rooted at `p` below `par`. -/
def TreeRep (L : Links) : Nat → Nat → RTree → Prop
  | _, p, .leaf => p = 0
  | par, p, .node head rest _ l r =>
    p = head ∧ head ≠ 0 ∧ L.parent head = par ∧ IsRing L.next L.prev (head :: rest) ∧
      (∀ a ∈ rest, L.Outside a) ∧ TreeRep L head (L.left head) l ∧ TreeRep L head (L.right head) r

theorem TreeRep.congr {L L' : Links} {t : RTree} {par p : Nat} (h : TreeRep L par p t)
    (hs : ∀ a ∈ t.addrs, L.SameAt L' a) : TreeRep L' par p t := by
  induction t generalizing par p with
  | leaf => exact h
  | node head rest key l r ihl ihr =>
    obtain ⟨hp, h0, hpar, hring, hrest, hl, hr⟩ := h
    simp only [RTree.addrs_node] at hs
    have hhead := hs head List.mem_cons_self
    have hmem : ∀ a ∈ head :: rest, L.SameAt L' a := by
      intro a ha
      refine hs a ?_
      simp only [List.mem_cons, List.mem_append] at ha ⊢
      tauto
    refine ⟨hp, h0, hhead.parent.trans hpar,
      hring.congr (fun a ha => (hmem a ha).next) (fun a ha => (hmem a ha).prev), ?_, ?_, ?_⟩
    · intro a ha
      have hsa := hmem a (List.mem_cons_of_mem _ ha)
      obtain ⟨h1, h2, h3⟩ := hrest a ha
      exact ⟨hsa.left.trans h1, hsa.right.trans h2, hsa.parent.trans h3⟩
    · rw [hhead.left]
      exact ihl hl fun a ha => hs a (by simp [ha])
    · rw [hhead.right]
      exact ihr hr fun a ha => hs a (by simp [ha])

theorem TreeRep.null_iff {L : Links} {t : RTree} {par p : Nat} (h : TreeRep L par p t) :
    p = 0 ↔ t = .leaf := by
  cases t with
  | leaf => exact iff_of_true h rfl
  | node => exact iff_of_false (fun hp => h.2.1 (h.1 ▸ hp)) (by simp)

theorem TreeRep.root_mem {L : Links} {t : RTree} {par p : Nat} (h : TreeRep L par p t)
    (h0 : p ≠ 0) : p ∈ t.addrs := by
  cases t with
  | leaf => exact absurd h h0
  | node => simp [h.1]

theorem TreeRep.parent_mem {L : Links} {t : RTree} {par p a : Nat} (h : TreeRep L par p t)
    (ha : a ∈ t.addrs) : L.parent a = par ∨ L.parent a = 0 ∨ L.parent a ∈ t.addrs := by
  induction t generalizing par p with
  | leaf => simp at ha
  | node head rest key l r ihl ihr =>
    obtain ⟨rfl, -, hpar, -, hout, hl, hr⟩ := h
    simp only [RTree.addrs_node, List.mem_cons, List.mem_append] at ha ⊢
    rcases ha with rfl | ha | ha | ha
    · exact .inl hpar
    · exact .inr (.inl (hout a ha).2.2)
    · rcases ihl hl ha with h3 | h3 | h3
      · exact .inr (.inr (.inl h3))
      · exact .inr (.inl h3)
      · exact .inr (.inr (.inr (.inr (.inl h3))))
    · rcases ihr hr ha with h3 | h3 | h3
      · exact .inr (.inr (.inl h3))
      · exact .inr (.inl h3)
      · exact .inr (.inr (.inr (.inr (.inr h3))))

theorem TreeRep.parent_ne {L : Links} {t : RTree} {par p a : Nat} (h : TreeRep L par p t)
    (hnd : t.addrs.Nodup) (hpar : par ∉ t.addrs) (ha : a ∈ t.addrs) (ha0 : a ≠ 0) :
    L.parent a ≠ a := by
  induction t generalizing par p with
  | leaf => simp at ha
  | node head rest key l r ihl ihr =>
    obtain ⟨rfl, -, hparent, -, hout, hl, hr⟩ := h
    simp only [RTree.addrs_node, List.nodup_cons, List.nodup_append, List.mem_cons,
      List.mem_append, not_or] at hnd hpar ha
    rcases ha with rfl | ha | ha | ha
    · rw [hparent]
      exact hpar.1
    · rw [(hout a ha).2.2]
      exact ha0.symm
    · exact ihl hl hnd.2.2.1.1 hnd.1.2.1 ha
    · exact ihr hr hnd.2.2.1.2.1 hnd.1.2.2 ha

-- ---------------------------------------------------------------------------
-- Reachability
-- ---------------------------------------------------------------------------

/-- The records found from the root down the tree and along the rings. -/
inductive Linked (L : Links) (root : Nat) : Nat → Prop where
  | root (h : root ≠ 0) : Linked L root root
  | left {a : Nat} (h : Linked L root a) (hl : L.left a ≠ 0) : Linked L root (L.left a)
  | right {a : Nat} (h : Linked L root a) (hr : L.right a ≠ 0) : Linked L root (L.right a)
  | next {a : Nat} (h : Linked L root a) : Linked L root (L.next a)

theorem TreeRep.closed {L : Links} {t : RTree} {par p a : Nat} (h : TreeRep L par p t)
    (ha : a ∈ t.addrs) :
    (L.left a ≠ 0 → L.left a ∈ t.addrs) ∧ (L.right a ≠ 0 → L.right a ∈ t.addrs) ∧
    L.next a ∈ t.addrs := by
  induction t generalizing par p with
  | leaf => simp at ha
  | node head rest key l r ihl ihr =>
    obtain ⟨rfl, -, -, hring, hrest, hl, hr⟩ := h
    have hl' : ∀ x ∈ l.addrs, x ∈ (RTree.node p rest key l r).addrs := fun x hx => by simp [hx]
    have hr' : ∀ x ∈ r.addrs, x ∈ (RTree.node p rest key l r).addrs := fun x hx => by simp [hx]
    have hself : ∀ x ∈ p :: rest, L.next x ∈ (RTree.node p rest key l r).addrs := by
      intro x hx
      have := (hring.links_mem hx).1
      simp only [RTree.addrs_node, List.mem_cons, List.mem_append] at this ⊢
      tauto
    rw [RTree.addrs_node, List.mem_cons, List.mem_append, List.mem_append] at ha
    rcases ha with rfl | ha | ha | ha
    · exact ⟨fun h0 => hl' _ (hl.root_mem h0), fun h0 => hr' _ (hr.root_mem h0),
        hself _ List.mem_cons_self⟩
    · obtain ⟨h1, h2, -⟩ := hrest a ha
      exact ⟨fun h0 => absurd h1 h0, fun h0 => absurd h2 h0, hself a (List.mem_cons_of_mem _ ha)⟩
    · obtain ⟨h1, h2, h3⟩ := ihl hl ha
      exact ⟨fun h0 => hl' _ (h1 h0), fun h0 => hl' _ (h2 h0), hl' _ h3⟩
    · obtain ⟨h1, h2, h3⟩ := ihr hr ha
      exact ⟨fun h0 => hr' _ (h1 h0), fun h0 => hr' _ (h2 h0), hr' _ h3⟩

theorem Seg.linked {L : Links} {root a b : Nat} {xs : List Nat} (h : Seg L.next L.prev a xs b)
    (ha : Linked L root a) : ∀ x ∈ xs, Linked L root x := by
  induction xs generalizing a with
  | nil => simp
  | cons y ys ih =>
    have hy : Linked L root y := h.1.1 ▸ ha.next
    intro x hx
    rcases List.mem_cons.mp hx with rfl | hx
    · exact hy
    · exact ih h.2 hy x hx

theorem TreeRep.linked {L : Links} {t : RTree} {root par p a : Nat} (h : TreeRep L par p t)
    (hp : p ≠ 0 → Linked L root p) (ha : a ∈ t.addrs) : Linked L root a := by
  induction t generalizing par p with
  | leaf => simp at ha
  | node head rest key l r ihl ihr =>
    obtain ⟨rfl, h0, -, hring, -, hl, hr⟩ := h
    have hself := hp h0
    rw [RTree.addrs_node, List.mem_cons, List.mem_append, List.mem_append] at ha
    rcases ha with rfl | ha | ha | ha
    · exact hself
    · exact Seg.linked hring hself a ha
    · exact ihl hl (fun h0 => hself.left h0) ha
    · exact ihr hr (fun h0 => hself.right h0) ha

theorem TreeRep.linked_iff {L : Links} {t : RTree} {par root a : Nat} (h : TreeRep L par root t) :
    Linked L root a ↔ a ∈ t.addrs := by
  refine ⟨fun hl => ?_, fun ha => h.linked (fun h0 => .root h0) ha⟩
  induction hl with
  | root h0 => exact h.root_mem h0
  | left _ h0 ih => exact (h.closed ih).1 h0
  | right _ h0 ih => exact (h.closed ih).2.1 h0
  | next _ ih => exact (h.closed ih).2.2

-- ---------------------------------------------------------------------------
-- Contexts
-- ---------------------------------------------------------------------------

/-- One step from a subtree up: the node above it, on which side it hangs
(`true` for the right), and the subtree on the other side. -/
structure Frame where
  head : Nat
  rest : List Nat
  key : Nat
  dir : Bool
  sib : RTree

def Frame.fill (f : Frame) (t : RTree) : RTree :=
  if f.dir then .node f.head f.rest f.key f.sib t else .node f.head f.rest f.key t f.sib

def Frame.items (f : Frame) : List (Nat × Nat) := (f.head :: f.rest).map (·, f.key) ++ f.sib.items

abbrev Ctx := List Frame

def plug : Ctx → RTree → RTree
  | [], t => t
  | f :: fs, t => plug fs (f.fill t)

theorem plug_append (c c' : Ctx) (t : RTree) : plug (c ++ c') t = plug c' (plug c t) := by
  induction c generalizing t with
  | nil => rfl
  | cons f fs ih => exact ih (f.fill t)

def Ctx.items (c : Ctx) : List (Nat × Nat) := c.flatMap Frame.items

theorem Frame.items_fill (f : Frame) (t : RTree) : (f.fill t).items.Perm (t.items ++ f.items) := by
  unfold Frame.fill Frame.items
  split
  · simp only [RTree.items]
    exact (List.append_assoc ..).symm ▸ List.perm_append_comm
  · simp only [RTree.items]
    exact ((List.perm_append_comm : (t.items ++ _).Perm _).append_left _).trans
      ((List.append_assoc ..).symm ▸ List.perm_append_comm)

theorem Frame.addrs_fill (f : Frame) (t : RTree) :
    (f.fill t).addrs.Perm (t.addrs ++ f.head :: (f.rest ++ f.sib.addrs)) := by
  have h := (f.items_fill t).map Prod.fst
  simpa [Frame.items, RTree.addrs, Function.comp_def] using h

theorem items_plug (c : Ctx) (t : RTree) : (plug c t).items.Perm (t.items ++ Ctx.items c) := by
  induction c generalizing t with
  | nil => simp [plug, Ctx.items]
  | cons f fs ih =>
    refine (ih (f.fill t)).trans ?_
    simp only [Ctx.items, List.flatMap_cons, ← List.append_assoc]
    exact (f.items_fill t).append_right _

theorem addrs_plug (c : Ctx) (t : RTree) :
    (plug c t).addrs.Perm (t.addrs ++ (Ctx.items c).map Prod.fst) := by
  simpa [RTree.addrs] using (items_plug c t).map Prod.fst

theorem mem_addrs_plug {c : Ctx} {t : RTree} :
    a ∈ (plug c t).addrs ↔ a ∈ t.addrs ∨ a ∈ (Ctx.items c).map Prod.fst := by
  rw [(addrs_plug c t).mem_iff, List.mem_append]

theorem exists_plug {t : RTree} (h : (a, k) ∈ t.items) :
    ∃ c head rest l r, t = plug c (.node head rest k l r) ∧ a ∈ head :: rest := by
  suffices hs : ∀ c, ∃ c' head rest l r, plug c t = plug c' (.node head rest k l r) ∧
    a ∈ head :: rest
    from hs []
  induction t with
  | leaf => simp [RTree.items] at h
  | node head rest key l r ihl ihr =>
    intro c
    simp only [RTree.items, List.mem_append, List.mem_map, Prod.mk.injEq] at h
    rcases h with ⟨b, hb, rfl, rfl⟩ | h | h
    · exact ⟨c, head, rest, l, r, rfl, hb⟩
    · exact ihl h (⟨head, rest, key, false, r⟩ :: c)
    · exact ihr h (⟨head, rest, key, true, l⟩ :: c)

/-- The links hold the context, with `p` hanging in its hole below `par`. -/
def CtxRep (L : Links) : Ctx → Nat → Nat → Nat → Prop
  | [], root, par, p => par = 0 ∧ root = p
  | f :: fs, root, par, p =>
    par = f.head ∧ f.head ≠ 0 ∧ IsRing L.next L.prev (f.head :: f.rest) ∧
      (∀ a ∈ f.rest, L.Outside a) ∧ L.child f.dir f.head = p ∧
      TreeRep L f.head (L.child (!f.dir) f.head) f.sib ∧ CtxRep L fs root (L.parent f.head) f.head

theorem rep_fill {L : Links} {f : Frame} {t : RTree} {par p : Nat} :
    TreeRep L par p (f.fill t) ↔ p = f.head ∧ L.parent f.head = par ∧ f.head ≠ 0 ∧
      IsRing L.next L.prev (f.head :: f.rest) ∧ (∀ a ∈ f.rest, L.Outside a) ∧
      TreeRep L f.head (L.child f.dir f.head) t ∧
      TreeRep L f.head (L.child (!f.dir) f.head) f.sib := by
  unfold Frame.fill
  cases hd : f.dir <;> simp only [TreeRep, Links.child, Bool.not_false, Bool.not_true, if_true,
    Bool.false_eq_true, if_false] <;> tauto

theorem TreeRep.fill_congr {L L' : Links} {f : Frame} {t t' : RTree} {par p : Nat}
    (h : TreeRep L par p (f.fill t))
    (ht : TreeRep L' f.head (L'.child f.dir f.head) t') (hn : L'.next f.head = L.next f.head)
    (hv : L'.prev f.head = L.prev f.head) (hq : L'.parent f.head = L.parent f.head)
    (hother : L'.child (!f.dir) f.head = L.child (!f.dir) f.head)
    (hs : ∀ a ∈ f.rest ++ f.sib.addrs, L.SameAt L' a) : TreeRep L' par p (f.fill t') := by
  obtain ⟨hp, hpar, h0, hring, hrest, -, hsib⟩ := rep_fill.mp h
  refine rep_fill.mpr ⟨hp, hq.trans hpar, h0, hring.congr ?_ ?_, ?_, ht, ?_⟩
  · intro a ha
    rcases List.mem_cons.mp ha with rfl | ha
    · exact hn
    · exact (hs a (List.mem_append_left _ ha)).next
  · intro a ha
    rcases List.mem_cons.mp ha with rfl | ha
    · exact hv
    · exact (hs a (List.mem_append_left _ ha)).prev
  · intro a ha
    have hsa := hs a (List.mem_append_left _ ha)
    obtain ⟨h1, h2, h3⟩ := hrest a ha
    exact ⟨hsa.left.trans h1, hsa.right.trans h2, hsa.parent.trans h3⟩
  · rw [hother]
    exact hsib.congr fun a ha => hs a (List.mem_append_right _ ha)

theorem rep_plug {L : Links} {c : Ctx} {t : RTree} {root : Nat} :
    TreeRep L 0 root (plug c t) ↔ ∃ par p, CtxRep L c root par p ∧ TreeRep L par p t := by
  induction c generalizing t with
  | nil =>
    constructor
    · exact fun h => ⟨0, root, ⟨rfl, rfl⟩, h⟩
    · rintro ⟨par, p, ⟨rfl, rfl⟩, h⟩
      exact h
  | cons f fs ih =>
    simp only [plug, ih, rep_fill, CtxRep]
    constructor
    · rintro ⟨par, p, hc, rfl, rfl, h0, hring, hrest, ht, hs⟩
      exact ⟨_, _, ⟨rfl, h0, hring, hrest, rfl, hs, hc⟩, ht⟩
    · rintro ⟨par, p, ⟨rfl, h0, hring, hrest, rfl, hs, hc⟩, ht⟩
      exact ⟨_, _, hc, rfl, rfl, h0, hring, hrest, ht, hs⟩

theorem CtxRep.congr {L L' : Links} {c : Ctx} {root par p : Nat} (h : CtxRep L c root par p)
    (hs : ∀ x ∈ Ctx.items c, L.SameAt L' x.1) : CtxRep L' c root par p := by
  induction c generalizing par p with
  | nil => exact h
  | cons f fs ih =>
    obtain ⟨hpar, h0, hring, hrest, hp, hsib, hc⟩ := h
    have hf : ∀ a ∈ f.head :: f.rest, L.SameAt L' a := fun a ha =>
      hs (a, f.key) (by simp only [Ctx.items, List.flatMap_cons, Frame.items, List.mem_append]
                        exact .inl (.inl (List.mem_map.mpr ⟨a, ha, rfl⟩)))
    have hhead := hf f.head List.mem_cons_self
    refine ⟨hpar, h0, hring.congr (fun a ha => (hf a ha).next) (fun a ha => (hf a ha).prev), ?_,
      (hhead.child _).trans hp, ?_, ?_⟩
    · intro a ha
      have hsa := hf a (List.mem_cons_of_mem _ ha)
      obtain ⟨h1, h2, h3⟩ := hrest a ha
      exact ⟨hsa.left.trans h1, hsa.right.trans h2, hsa.parent.trans h3⟩
    · rw [hhead.child]
      refine hsib.congr fun a ha => ?_
      obtain ⟨x, hx, rfl⟩ := List.mem_map.mp ha
      exact hs x (by simp [Ctx.items, Frame.items, hx])
    · rw [hhead.parent]
      refine ih hc fun x hx => hs x ?_
      simp only [Ctx.items, List.flatMap_cons, List.mem_append] at hx ⊢
      exact .inr hx

/-- The hole of a context redirected from `p` to `p'` by the one link that
points at it, the child link of the node above. -/
theorem CtxRep.redirect {L L' : Links} {f : Frame} {fs : Ctx} {root par p p' : Nat}
    (h : CtxRep L (f :: fs) root par p) (hlink : L'.child f.dir f.head = p')
    (hother : L'.child (!f.dir) f.head = L.child (!f.dir) f.head)
    (hn : L'.next f.head = L.next f.head) (hv : L'.prev f.head = L.prev f.head)
    (hq : L'.parent f.head = L.parent f.head)
    (hs : ∀ x ∈ Ctx.items (f :: fs), x.1 ≠ f.head → L.SameAt L' x.1)
    (hnd : ((Ctx.items (f :: fs)).map Prod.fst).Nodup) : CtxRep L' (f :: fs) root par p' := by
  obtain ⟨hpar, h0, hring, hrest, -, hsib, hc⟩ := h
  have hitems : Ctx.items (f :: fs) =
      (f.head, f.key) :: (f.rest.map (·, f.key) ++ (f.sib.items ++ Ctx.items fs)) := by
    simp [Ctx.items, Frame.items]
  rw [hitems, List.map_cons, List.nodup_cons] at hnd
  have hs' : ∀ x ∈ f.rest.map (·, f.key) ++ (f.sib.items ++ Ctx.items fs), L.SameAt L' x.1 := by
    intro x hx
    refine hs x (hitems ▸ List.mem_cons_of_mem _ hx) ?_
    rintro he
    exact hnd.1 (List.mem_map.mpr ⟨x, hx, he⟩)
  have hr : ∀ a ∈ f.rest, L.SameAt L' a := fun a ha => hs' (a, f.key) (by simp [ha])
  refine ⟨hpar, h0, hring.congr ?_ ?_, ?_, hlink, ?_, ?_⟩
  · intro a ha
    rcases List.mem_cons.mp ha with rfl | ha
    · exact hn
    · exact (hr a ha).next
  · intro a ha
    rcases List.mem_cons.mp ha with rfl | ha
    · exact hv
    · exact (hr a ha).prev
  · intro a ha
    obtain ⟨h1, h2, h3⟩ := hrest a ha
    exact ⟨(hr a ha).left.trans h1, (hr a ha).right.trans h2, (hr a ha).parent.trans h3⟩
  · rw [hother]
    refine hsib.congr fun a ha => ?_
    obtain ⟨x, hx, rfl⟩ := List.mem_map.mp ha
    exact hs' x (by simp [hx])
  · rw [hq]
    exact hc.congr fun x hx => hs' x (by simp [hx])

theorem CtxRep.update {L L' : Links} {c : Ctx} {root par p p' : Nat} (h : CtxRep L c root par p)
    (hnd : ((Ctx.items c).map Prod.fst).Nodup)
    (hlink : ∀ f fs, c = f :: fs → L'.child f.dir f.head = p' ∧
      L'.child (!f.dir) f.head = L.child (!f.dir) f.head ∧ L'.next f.head = L.next f.head ∧
      L'.prev f.head = L.prev f.head ∧ L'.parent f.head = L.parent f.head)
    (hs : ∀ x ∈ Ctx.items c, (∀ f fs, c = f :: fs → x.1 ≠ f.head) → L.SameAt L' x.1) :
    CtxRep L' c (if c = [] then p' else root) par p' := by
  cases c with
  | nil => exact ⟨h.1, rfl⟩
  | cons f fs =>
    obtain ⟨hl, ho, hn, hv, hq⟩ := hlink f fs rfl
    rw [if_neg (by simp)]
    refine h.redirect hl ho hn hv hq (fun x hx hne => hs x hx ?_) hnd
    rintro f' fs' he
    obtain ⟨rfl, rfl⟩ := List.cons.inj he
    exact hne

theorem CtxRep.child_ne {L : Links} {f : Frame} {fs : Ctx} {root par p : Nat}
    (h : CtxRep L (f :: fs) root par p) (hp : p ≠ 0) (hnot : p ∉ f.sib.addrs) :
    L.child (!f.dir) f.head ≠ p := by
  obtain ⟨-, -, -, -, -, hsib, -⟩ := h
  rintro rfl
  exact hnot (hsib.root_mem hp)

-- ---------------------------------------------------------------------------
-- Replacing a node
-- ---------------------------------------------------------------------------

theorem TreeRep.reparent {L L' : Links} {t : RTree} {par par' p : Nat} (h : TreeRep L par p t)
    (hnd : t.addrs.Nodup)
    (hn : ∀ a ∈ t.addrs, L'.next a = L.next a ∧ L'.prev a = L.prev a ∧ L'.left a = L.left a ∧
      L'.right a = L.right a)
    (hq : ∀ a ∈ t.addrs, a ≠ p → L'.parent a = L.parent a) (hp : p ≠ 0 → L'.parent p = par') :
    TreeRep L' par' p t := by
  cases t with
  | leaf => exact h
  | node head rest key l r =>
    obtain ⟨rfl, h0, hpar, hring, hrest, hl, hr⟩ := h
    simp only [RTree.addrs_node] at hn hq hnd
    rw [List.nodup_cons] at hnd
    have hne : ∀ a ∈ rest ++ (l.addrs ++ r.addrs), a ≠ p := fun a ha he => hnd.1 (he ▸ ha)
    have hsame : ∀ a ∈ rest ++ (l.addrs ++ r.addrs), L.SameAt L' a := by
      intro a ha
      obtain ⟨h1, h2, h3, h4⟩ := hn a (List.mem_cons_of_mem _ ha)
      exact ⟨h1, h2, h3, h4, hq a (List.mem_cons_of_mem _ ha) (hne a ha)⟩
    obtain ⟨-, -, hleft, hright⟩ := hn p List.mem_cons_self
    refine ⟨rfl, h0, hp h0, hring.congr ?_ ?_, ?_, ?_, ?_⟩
    · exact fun a ha => (hn a (by simp only [List.mem_cons, List.mem_append] at ha ⊢; tauto)).1
    · exact fun a ha => (hn a (by simp only [List.mem_cons, List.mem_append] at ha ⊢; tauto)).2.1
    · intro a ha
      have hsa := hsame a (by simp [ha])
      obtain ⟨h1, h2, h3⟩ := hrest a ha
      exact ⟨hsa.left.trans h1, hsa.right.trans h2, hsa.parent.trans h3⟩
    · rw [hleft]
      exact hl.congr fun a ha => hsame a (by simp [ha])
    · rw [hright]
      exact hr.congr fun a ha => hsame a (by simp [ha])

theorem TreeRep.promote {L L' : Links} {l r : RTree} {rest : List Nat} {a b par pl pr : Nat}
    (hl : TreeRep L a pl l) (hr : TreeRep L a pr r) (hndl : l.addrs.Nodup)
    (hndr : r.addrs.Nodup) (hb : b ≠ 0)
    (hring : IsRing L'.next L'.prev (b :: rest)) (hrest : ∀ x ∈ rest, L'.Outside x)
    (hpar : L'.parent b = par) (hlb : L'.left b = pl) (hrb : L'.right b = pr)
    (hpl : pl ≠ 0 → L'.parent pl = b) (hpr : pr ≠ 0 → L'.parent pr = b)
    (hn : ∀ x ∈ l.addrs ++ r.addrs, L'.next x = L.next x ∧ L'.prev x = L.prev x ∧
    L'.left x = L.left x ∧
      L'.right x = L.right x)
    (hql : ∀ x ∈ l.addrs, x ≠ pl → L'.parent x = L.parent x)
    (hqr : ∀ x ∈ r.addrs, x ≠ pr → L'.parent x = L.parent x) :
    TreeRep L' par b (.node b rest key l r) := by
  refine ⟨rfl, hb, hpar, hring, hrest, ?_, ?_⟩
  · rw [hlb]
    exact hl.reparent hndl (fun x hx => hn x (by simp [hx])) hql hpl
  · rw [hrb]
    exact hr.reparent hndr (fun x hx => hn x (by simp [hx])) hqr hpr

end RingTree
