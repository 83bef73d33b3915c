import ElcoOs.Kmalloc.TreeInsert

/-!
# Removal from a bin tree

`kmalloc_tree_remove` edits the links of a few records. The edit is followed
on the link functions, where each write is a `Function.update`; `Models` keeps
memory and link functions in step.
-/

namespace RingTree

open Ring

-- ---------------------------------------------------------------------------
-- Edits of link functions
-- ---------------------------------------------------------------------------

def Links.setNext (L : Links) (a v : Nat) : Links := { L with next := Function.update L.next a v }
def Links.setPrev (L : Links) (a v : Nat) : Links := { L with prev := Function.update L.prev a v }
def Links.setLeft (L : Links) (a v : Nat) : Links := { L with left := Function.update L.left a v }
def Links.setRight (L : Links) (a v : Nat) : Links :=
  { L with right := Function.update L.right a v }
def Links.setParent (L : Links) (a v : Nat) : Links :=
  { L with parent := Function.update L.parent a v }

def Links.field (L : Links) (o : Nat) : Nat → Nat :=
  if o = 8 then L.next else if o = 12 then L.prev else if o = 16 then L.left else if o = 20 then
    L.right else L.parent

/-- `ktchunk_update_parent` -/
def Links.updateParent (L : Links) (a v : Nat) : Links :=
  if L.left (L.parent a) = a then L.setLeft (L.parent a) v else L.setRight (L.parent a) v

def Links.adoptChild (L : Links) (child a : Nat) : Links :=
  { L with parent := if child = 0 then L.parent else Function.update L.parent child a }

/-- `ktchunk_replace_head` -/
def Links.replaceHead (L : Links) (old new : Nat) : Links :=
  let L := L.setParent new (L.parent old)
  let L := L.setLeft new (L.left old)
  let L := L.setRight new (L.right old)
  let L := L.setPrev new (L.prev old)
  let L := L.setNext (L.prev old) new
  let L := L.adoptChild (L.left new) new
  L.adoptChild (L.right new) new

/-- The writes by which the left-most leaf takes over the place of `old`. -/
def Links.takeOver (L : Links) (old new : Nat) : Links :=
  let L := L.setLeft new (L.left old)
  let L := L.adoptChild (L.left new) new
  let L := L.setRight new (L.right old)
  let L := L.adoptChild (L.right new) new
  L.setParent new (L.parent old)

/-- `b` has the tree links of `a`, and the children of `a` know. -/
structure Adopts (L L' : Links) (a b : Nat) : Prop where
  left : L'.left b = L.left a
  right : L'.right b = L.right a
  parent : L'.parent b = L.parent a
  leftChild : L.left a ≠ 0 → L'.parent (L.left a) = b
  rightChild : L.right a ≠ 0 → L'.parent (L.right a) = b
  same : ∀ x, x ≠ b → L'.left x = L.left x ∧ L'.right x = L.right x
  sameParent : ∀ x, x ≠ b → (x = L.left a → x = 0) → (x = L.right a → x = 0) →
    L'.parent x = L.parent x

theorem replaceHead_adopts {L : Links} {a b : Nat} (hab : a ≠ b) (hl : L.left a ≠ b)
    (hr : L.right a ≠ b) :
    Adopts L (L.replaceHead a b) a b := by
  have hl' := hl.symm
  have hr' := hr.symm
  constructor
  all_goals
    simp only [Links.replaceHead, Links.adoptChild, Links.setParent, Links.setLeft, Links.setRight,
      Links.setPrev, Links.setNext, Function.update_self, Function.update_of_ne hab, ne_eq]
  case same => exact fun x hx => ⟨Function.update_of_ne hx _ _, Function.update_of_ne hx _ _⟩
  all_goals split_ifs <;> simp_all [Function.update_apply]

theorem replaceHead_ring {L : Links} {a b : Nat} (hab : a ≠ b) :
    (L.replaceHead a b).next = Function.update L.next (L.prev a) b ∧
      (L.replaceHead a b).prev = Function.update L.prev b (L.prev a) := by
  simp only [Links.replaceHead, Links.adoptChild, Links.setParent, Links.setLeft, Links.setRight,
    Links.setPrev, Links.setNext, Function.update_of_ne hab, and_self]

theorem takeOver_adopts {L : Links} {a b : Nat} (hl : L.left a ≠ b) (hr : L.right a ≠ b)
    (hla : L.left a ≠ a) (hra : L.right a ≠ a) : Adopts L (L.takeOver a b) a b := by
  have hl' := hl.symm
  have hr' := hr.symm
  have hla' := hla.symm
  have hra' := hra.symm
  constructor
  all_goals
    simp only [Links.takeOver, Links.adoptChild, Links.setParent, Links.setLeft, Links.setRight,
      Function.update_self, ne_eq]
  case same => exact fun x hx => ⟨Function.update_of_ne hx _ _, Function.update_of_ne hx _ _⟩
  all_goals split_ifs <;> simp_all [Function.update_apply]

theorem takeOver_ring {L : Links} {a b : Nat} :
    (L.takeOver a b).next = L.next ∧ (L.takeOver a b).prev = L.prev := ⟨rfl, rfl⟩

-- ---------------------------------------------------------------------------
-- Their effect on the tree
-- ---------------------------------------------------------------------------

theorem CtxRep.parent_eq_zero {L : Links} {c : Ctx} {root par p : Nat} (h : CtxRep L c root par p) :
    par = 0 ↔ c = [] := by
  cases c with
  | nil => exact iff_of_true h.1 rfl
  | cons f fs => exact iff_of_false (fun he => h.2.1 (h.1 ▸ he)) (by simp)

theorem CtxRep.root_mem {L : Links} {c : Ctx} {root par p : Nat} (h : CtxRep L c root par p)
    (hc : c ≠ []) :
    root ∈ (Ctx.items c).map Prod.fst := by
  induction c generalizing par p with
  | nil => exact absurd rfl hc
  | cons f fs ih =>
    obtain ⟨-, -, -, -, -, -, hfs⟩ := h
    have hitems : (Ctx.items (f :: fs)).map Prod.fst =
        f.items.map Prod.fst ++ (Ctx.items fs).map Prod.fst := by
      simp [Ctx.items]
    rw [hitems]
    by_cases h0 : fs = []
    · subst h0
      rw [hfs.2]
      exact List.mem_append_left _ (by simp [Frame.items])
    · exact List.mem_append_right _ (ih hfs h0)

/-- The link that leads to a node set to `v`, whatever the node itself now
says: only the node above is written. -/
theorem CtxRep.updateParent {L : Links} {c : Ctx} {root a v : Nat}
    (h : CtxRep L c root (L.parent a) a)
    (ha : a ≠ 0) (hout : a ∉ (Ctx.items c).map Prod.fst) (hnd : ((Ctx.items c).map Prod.fst).Nodup)
    (hc : c ≠ []) : CtxRep (L.updateParent a v) c root (L.parent a) v := by
  cases c with
  | nil => exact absurd rfl hc
  | cons f fs =>
    have hpar := h.1
    have hchild : L.child f.dir f.head = a := h.2.2.2.2.1
    have hsib : a ∉ f.sib.addrs := fun hm => hout (by
      simp only [Ctx.items, List.flatMap_cons, Frame.items, List.map_append, List.mem_append]
      exact .inl (.inr hm))
    have hne := h.child_ne ha hsib
    have hupd : L.updateParent a v = if f.dir then L.setRight f.head v else L.setLeft f.head v := by
      unfold Links.updateParent
      rw [hpar]
      cases hd : f.dir with
      | true =>
        rw [hd] at hne
        rw [if_neg (show L.left f.head ≠ a from hne), if_pos rfl]
      | false =>
        rw [hd] at hchild
        rw [if_pos (show L.left f.head = a from hchild), if_neg (by simp)]
    rw [hupd]
    refine h.redirect ?_ ?_ ?_ ?_ ?_ ?_ hnd
    · cases f.dir <;> simp [Links.child, Links.setLeft, Links.setRight]
    · cases f.dir <;> simp [Links.child, Links.setLeft, Links.setRight]
    · split <;> rfl
    · split <;> rfl
    · split <;> rfl
    · intro x _ hx
      split <;> constructor <;> simp [Links.setLeft, Links.setRight, hx]

theorem updateParent_other (L : Links) (a v : Nat) : (L.updateParent a v).next = L.next ∧
    (L.updateParent a v).prev = L.prev ∧ (L.updateParent a v).parent = L.parent := by
  unfold Links.updateParent
  split <;> exact ⟨rfl, rfl, rfl⟩

theorem updateParent_sameAt {L : Links} {a v x : Nat} (hx : x ≠ L.parent a) :
    L.SameAt (L.updateParent a v) x := by
  unfold Links.updateParent
  split <;> constructor <;> simp [Links.setLeft, Links.setRight, hx]

theorem CtxRep.head_mem {L : Links} {c : Ctx} {root par p : Nat} (h : CtxRep L c root par p)
    (hc : c ≠ []) :
    par ∈ (Ctx.items c).map Prod.fst := by
  cases c with
  | nil => exact absurd rfl hc
  | cons f fs => simp [h.1, Ctx.items, Frame.items]

/-- `b` put in the place of `a`: the tree links of `a` adopted, then the link
from the node above redirected. -/
theorem rep_adopt {L L₁ : Links} {c : Ctx} {rest rest' : List Nat} {l r : RTree}
    {root a b k : Nat} (k' : Nat) (h : TreeRep L 0 root (plug c (.node a rest k l r)))
    (hnd : ((RTree.node a rest k l r).addrs ++ (Ctx.items c).map Prod.fst).Nodup)
    (h0 : ∀ x ∈ l.addrs ++ r.addrs ++ (Ctx.items c).map Prod.fst, x ≠ 0)
    (hb0 : b ≠ 0) (hb : ∀ x ∈ l.addrs ++ r.addrs, x ≠ b)
    (hbc : ∀ x ∈ b :: rest', x ∉ (Ctx.items c).map Prod.fst)
    (hadopt : Adopts L L₁ a b) (hring : IsRing L₁.next L₁.prev (b :: rest'))
    (hrest : ∀ x ∈ rest', L₁.Outside x) (hpar : L₁.parent a = L.parent a)
    (hlinks : ∀ x ∈ l.addrs ++ r.addrs ++ (Ctx.items c).map Prod.fst,
      L₁.next x = L.next x ∧ L₁.prev x = L.prev x) :
    TreeRep (if c = [] then L₁ else L₁.updateParent a b) 0 (if c = [] then b else root)
      (plug c (.node b rest' k' l r)) := by
  obtain ⟨par, p, hctx, rfl, ha0, hpa, -, -, hl, hr⟩ := rep_plug.mp h
  simp only [RTree.addrs_node, List.cons_append, List.append_assoc] at hnd
  obtain ⟨ha, hnd⟩ := List.nodup_cons.mp hnd
  rw [List.nodup_append] at hnd
  obtain ⟨-, hnd, -⟩ := hnd
  obtain ⟨hndl, hnd, hdl⟩ := List.nodup_append.mp hnd
  obtain ⟨hndr, hndc, hdr⟩ := List.nodup_append.mp hnd
  have hnode : TreeRep L₁ par b (.node b rest' k' l r) := by
    refine hl.promote hr hndl hndr hb0 hring hrest (hadopt.parent.trans hpa)
      hadopt.left hadopt.right
      hadopt.leftChild hadopt.rightChild ?_ ?_ ?_
    · intro x hx
      obtain ⟨h1, h2⟩ := hlinks x (List.mem_append_left _ hx)
      obtain ⟨h3, h4⟩ := hadopt.same x (hb x hx)
      exact ⟨h1, h2, h3, h4⟩
    · intro x hx hne
      have hx0 : x ≠ 0 := h0 x (by simp [hx])
      refine hadopt.sameParent x (hb x (by simp [hx])) (fun he => absurd he hne) fun he => ?_
      have hm := hr.root_mem (he ▸ hx0)
      exact absurd rfl (hdl x hx x (List.mem_append_left _ (he ▸ hm)))
    · intro x hx hne
      have hx0 : x ≠ 0 := h0 x (by simp [hx])
      refine hadopt.sameParent x (hb x (by simp [hx])) (fun he => ?_) fun he => absurd he hne
      have hm := hl.root_mem (he ▸ hx0)
      exact absurd rfl (hdl x (he ▸ hm) x (List.mem_append_left _ hx))
  have hctx₁ : CtxRep L₁ c root par p := by
    refine hctx.congr fun x hx => ?_
    have hxc : x.1 ∈ (Ctx.items c).map Prod.fst := List.mem_map.mpr ⟨x, hx, rfl⟩
    have hx0 : x.1 ≠ 0 := h0 x.1 (List.mem_append_right _ hxc)
    have hxb : x.1 ≠ b := fun he => hbc b List.mem_cons_self (he ▸ hxc)
    obtain ⟨h1, h2⟩ := hlinks x.1 (List.mem_append_right _ hxc)
    obtain ⟨h3, h4⟩ := hadopt.same x.1 hxb
    refine ⟨h1, h2, h3, h4, hadopt.sameParent x.1 hxb (fun he => ?_) fun he => ?_⟩
    · have hm := hl.root_mem (he ▸ hx0)
      exact absurd rfl (hdl x.1 (he ▸ hm) x.1 (List.mem_append_right _ hxc))
    · have hm := hr.root_mem (he ▸ hx0)
      exact absurd rfl (hdr x.1 (he ▸ hm) x.1 hxc)
  by_cases hc : c = []
  · subst hc
    obtain rfl : par = 0 := hctx.1
    simpa [plug] using hnode
  · rw [if_neg hc, if_neg hc]
    have hpa₁ : L₁.parent p = par := hpar.trans hpa
    have hpc : p ∉ (Ctx.items c).map Prod.fst := fun hm => ha (by simp [hm])
    refine rep_plug.mpr ⟨par, b, ?_, ?_⟩
    · have hupd := CtxRep.updateParent (v := b) (hpa₁.symm ▸ hctx₁) ha0 hpc hndc hc
      rwa [hpa₁] at hupd
    · refine hnode.congr fun x hx => updateParent_sameAt ?_
      rintro rfl
      have hm := hctx.head_mem hc
      rw [← hpa₁] at hm
      simp only [RTree.addrs_node, List.mem_cons, List.mem_append] at hx
      rcases hx with hx | hx | hx | hx
      · exact hbc b List.mem_cons_self (hx ▸ hm)
      · exact hbc _ (List.mem_cons_of_mem _ hx) hm
      · exact hdl _ hx _ (List.mem_append_right _ hm) rfl
      · exact hdr _ hx _ hm rfl

theorem rep_cut {L : Links} {c : Ctx} {rest : List Nat} {root a k : Nat}
    (h : TreeRep L 0 root (plug c (.node a rest k .leaf .leaf)))
    (hout : a ∉ (Ctx.items c).map Prod.fst) (hnd : ((Ctx.items c).map Prod.fst).Nodup)
    (hc : c ≠ []) :
    TreeRep (L.updateParent a 0) 0 root (plug c .leaf) := by
  obtain ⟨par, p, hctx, rfl, ha0, rfl, -⟩ := rep_plug.mp h
  exact rep_plug.mpr ⟨_, _, hctx.updateParent ha0 hout hnd hc, rfl⟩

end RingTree

namespace ElcoOs.Kmalloc

open Ring RingTree

-- ---------------------------------------------------------------------------
-- Memory and link functions in step
-- ---------------------------------------------------------------------------

/-- Memory holds these links at the records of `S`; since `m₀` nothing but
link words of those records was written. -/
structure Models (S : List Nat) (m₀ : Memory) (L : Links) (m : Memory) : Prop where
  at_ : ∀ x ∈ S, L.SameAt (links m) x
  off : SameOutside 28 S m₀ m

theorem Models.refl (S : List Nat) (m : Memory) : Models S m (links m) m :=
  ⟨fun x _ => Links.SameAt.refl _ x, SameOutside.refl _ _ _⟩

section
variable {S : List Nat} {m₀ m : Memory} {L : Links} {a v v' : Nat}

theorem sameAt_iff_field {x : Nat} :
    L.SameAt (links m) x ↔ ∀ o ∈ [8, 12, 16, 20, 24], m.load32 (x + o) = L.field o x := by
  simp only [List.forall_mem_cons, List.not_mem_nil, false_implies, implies_true, and_true]
  exact ⟨fun ⟨h1, h2, h3, h4, h5⟩ => ⟨h1, h2, h3, h4, h5⟩,
    fun ⟨h1, h2, h3, h4, h5⟩ => ⟨h1, h2, h3, h4, h5⟩⟩

theorem Models.setField {L' : Links} {o : Nat} (h : Models S m₀ L m) (hs : Spaced 28 S) (ha : a ∈ S)
    (hv : v < 4294967296) (ho : o ∈ [8, 12, 16, 20, 24])
    (hL : ∀ p ∈ [8, 12, 16, 20, 24], L'.field p = if p = o then Function.update (L.field o) a v else
    L.field p) :
    Models S m₀ L' (m.store32 (a + o) v) := by
  have hword : ∀ p ∈ [8, 12, 16, 20, 24], p % 4 = 0 ∧ 8 ≤ p ∧ p ≤ 24 := by decide
  obtain ⟨ho4, hlo, hhi⟩ := hword o ho
  refine ⟨fun x hx => sameAt_iff_field.mpr fun p hp => ?_, h.off.store ha (by omega) (by omega)⟩
  obtain ⟨hp4, -, hp24⟩ := hword p hp
  have hxa := hs x hx a ha
  have hold := sameAt_iff_field.mp (h.at_ x hx) p hp
  rw [hL p hp]
  by_cases hpo : p = o
  · subst hpo
    rw [if_pos rfl]
    by_cases hne : x = a
    · rw [hne, Function.update_self]
      exact Memory.load32_store32_same hv
    · rw [Function.update_of_ne hne]
      exact (Memory.load32_store32_apart (by omega)).trans hold
  · rw [if_neg hpo]
    exact (Memory.load32_store32_apart (by omega)).trans hold

theorem Models.setNext (h : Models S m₀ L m) (hs : Spaced 28 S) (ha : a ∈ S) (hv : v < 4294967296)
    (he : v = v') : Models S m₀ (L.setNext a v') (setNext m a v) := by
  subst he
  exact h.setField hs ha hv (o := 8) (by decide) (by simp [Links.field, Links.setNext])

theorem Models.setPrev (h : Models S m₀ L m) (hs : Spaced 28 S) (ha : a ∈ S) (hv : v < 4294967296)
    (he : v = v') : Models S m₀ (L.setPrev a v') (setPrev m a v) := by
  subst he
  exact h.setField hs ha hv (o := 12) (by decide) (by simp [Links.field, Links.setPrev])

theorem Models.setLeft (h : Models S m₀ L m) (hs : Spaced 28 S) (ha : a ∈ S) (hv : v < 4294967296)
    (he : v = v') : Models S m₀ (L.setLeft a v') (setLeft m a v) := by
  subst he
  exact h.setField hs ha hv (o := 16) (by decide) (by simp [Links.field, Links.setLeft])

theorem Models.setRight (h : Models S m₀ L m) (hs : Spaced 28 S) (ha : a ∈ S) (hv : v < 4294967296)
    (he : v = v') : Models S m₀ (L.setRight a v') (setRight m a v) := by
  subst he
  exact h.setField hs ha hv (o := 20) (by decide) (by simp [Links.field, Links.setRight])

theorem Models.setParent (h : Models S m₀ L m) (hs : Spaced 28 S) (ha : a ∈ S) (hv : v < 4294967296)
    (he : v = v') : Models S m₀ (L.setParent a v') (setParent m a v) := by
  subst he
  exact h.setField hs ha hv (o := 24) (by decide) (by simp [Links.field, Links.setParent])

theorem Models.next_eq (h : Models S m₀ L m) (ha : a ∈ S) : next m a = L.next a := (h.at_ a ha).next
theorem Models.prev_eq (h : Models S m₀ L m) (ha : a ∈ S) : prev m a = L.prev a := (h.at_ a ha).prev
theorem Models.left_eq (h : Models S m₀ L m) (ha : a ∈ S) : left m a = L.left a := (h.at_ a ha).left
theorem Models.right_eq (h : Models S m₀ L m) (ha : a ∈ S) : right m a = L.right a :=
  (h.at_ a ha).right
theorem Models.parent_eq (h : Models S m₀ L m) (ha : a ∈ S) : parent m a = L.parent a :=
  (h.at_ a ha).parent

theorem Models.adoptChild (h : Models S m₀ L m) (hs : Spaced 28 S) (ha : a < 4294967296)
    (hc : v ≠ 0 → v ∈ S) (he : v' = v) :
    Models S m₀ (L.adoptChild v a) (if v' ≠ 0 then Kmalloc.setParent m v' a else m) := by
  subst he
  by_cases h0 : v' = 0
  · have hL : L.adoptChild v' a = L := by simp [Links.adoptChild, h0]
    rw [hL, if_neg (by simpa using h0)]
    exact h
  · have hL : L.adoptChild v' a = L.setParent v' a :=
      by simp [Links.adoptChild, Links.setParent, h0]
    rw [hL, if_pos h0]
    exact h.setParent hs (hc h0) ha rfl

theorem Models.updateParent (h : Models S m₀ L m) (hs : Spaced 28 S) (ha : a ∈ S)
    (hp : L.parent a ∈ S)
    (hv : v < 4294967296) : Models S m₀ (L.updateParent a v) (ktchunkUpdateParent m a v) := by
  unfold ktchunkUpdateParent Links.updateParent
  rw [h.parent_eq ha, h.left_eq hp]
  split
  · exact h.setLeft hs hp hv rfl
  · exact h.setRight hs hp hv rfl

variable {old new : Nat}

theorem Models.replaceHead (h : Models S m₀ L m) (hs : Spaced 28 S) (ho : old ∈ S) (hn : new ∈ S)
    (hne : old ≠ new) (hv : new < 4294967296) (hp : L.prev old ∈ S)
    (hl : L.left old ≠ 0 → L.left old ∈ S) (hr : L.right old ≠ 0 → L.right old ∈ S) :
    Models S m₀ (L.replaceHead old new) (ktchunkReplaceHead m old new) := by
  unfold Links.replaceHead ktchunkReplaceHead
  extract_lets L₁ L₂ L₃ L₄ L₅ L₆ m₁ m₂ m₃ m₄ m₅ m₆
  have h₁ : Models S m₀ L₁ m₁ := h.setParent hs hn (Memory.load32_lt _ _) (h.parent_eq ho)
  have h₂ : Models S m₀ L₂ m₂ := h₁.setLeft hs hn (Memory.load32_lt _ _) (h₁.left_eq ho)
  have h₃ : Models S m₀ L₃ m₃ := h₂.setRight hs hn (Memory.load32_lt _ _) (h₂.right_eq ho)
  have h₄ : Models S m₀ L₄ m₄ := h₃.setPrev hs hn (Memory.load32_lt _ _) (h₃.prev_eq ho)
  have hprev : L₄.prev old = L.prev old := Function.update_of_ne hne _ _
  have hm₅ : m₅ = Kmalloc.setNext m₄ (L₄.prev old) new := by rw [← h₄.prev_eq ho]
  have h₅ : Models S m₀ L₅ m₅ := hm₅ ▸ h₄.setNext hs (hprev.symm ▸ hp) hv rfl
  have hleft : L₅.left new = L.left old := Function.update_self ..
  have h₆ : Models S m₀ L₆ m₆ := h₅.adoptChild hs hv (hleft.symm ▸ hl) (h₅.left_eq hn)
  have hright : L₆.right new = L.right old := Function.update_self ..
  exact h₆.adoptChild hs hv (hright.symm ▸ hr) (h₆.right_eq hn)

/-- The writes that put the left-most leaf in the place of `old`. -/
def ktchunkTakeOver (m : Memory) (old new : Nat) : Memory :=
  let m := Kmalloc.setLeft m new (left m old)
  let m := if left m new ≠ 0 then Kmalloc.setParent m (left m new) new else m
  let m := Kmalloc.setRight m new (right m old)
  let m := if right m new ≠ 0 then Kmalloc.setParent m (right m new) new else m
  Kmalloc.setParent m new (parent m old)

theorem Models.takeOver (h : Models S m₀ L m) (hs : Spaced 28 S) (ho : old ∈ S) (hn : new ∈ S)
    (hv : new < 4294967296)
    (hl : L.left old ≠ 0 → L.left old ∈ S) (hr : L.right old ≠ 0 → L.right old ∈ S) :
    Models S m₀ (L.takeOver old new) (ktchunkTakeOver m old new) := by
  unfold Links.takeOver ktchunkTakeOver
  extract_lets L₁ L₂ L₃ L₄ m₁ m₂ m₃ m₄
  have h₁ : Models S m₀ L₁ m₁ := h.setLeft hs hn (Memory.load32_lt _ _) (h.left_eq ho)
  have hleft : L₁.left new = L.left old := Function.update_self ..
  have h₂ : Models S m₀ L₂ m₂ := h₁.adoptChild hs hv (hleft.symm ▸ hl) (h₁.left_eq hn)
  have h₃ : Models S m₀ L₃ m₃ := h₂.setRight hs hn (Memory.load32_lt _ _) (h₂.right_eq ho)
  have hright : L₃.right new = L.right old := Function.update_self ..
  have h₄ : Models S m₀ L₄ m₄ := h₃.adoptChild hs hv (hright.symm ▸ hr) (h₃.right_eq hn)
  exact h₄.setParent hs hn (Memory.load32_lt _ _) (h₄.parent_eq ho)

end

-- ---------------------------------------------------------------------------
-- Removal
-- ---------------------------------------------------------------------------

section
variable {m : Memory} {root : Nat} {c : Ctx} {l r : RTree} {rest : List Nat} {a k : Nat}

theorem root_eq_iff {L : Links} (h : TreeRep L 0 root (plug c (.node a rest k l r)))
    (hout : a ∉ (Ctx.items c).map Prod.fst) : a = root ↔ c = [] := by
  obtain ⟨par, p, hctx, rfl, -⟩ := rep_plug.mp h
  constructor
  · intro he
    by_contra hc
    exact hout (he ▸ hctx.root_mem hc)
  · rintro rfl
    exact hctx.2.symm

theorem ring_edit_tree_links {m' : Memory} {xs S : List Nat} (h : SameOutside 16 xs m m')
    (hs : Spaced 32 S) (hsub : ∀ b ∈ xs, b ∈ S) (hx : a ∈ S) :
    left m' a = left m a ∧ right m' a = right m a ∧ parent m' a = parent m a := by
  have hsame : ∀ x, a + 16 ≤ x → x < a + 32 → m' x = m x := by
    intro x _ _
    refine h x fun b hb => ?_
    have := hs a hx b (hsub b hb)
    omega
  refine ⟨?_, ?_, ?_⟩ <;> exact Memory.load32_congr fun x _ _ => hsame x (by omega) (by omega)

theorem ring_edit_sameAt {m' : Memory} {xs S : List Nat} (h : SameOutside 16 xs m m')
    (hs : Spaced 32 S)
    (hsub : ∀ b ∈ xs, b ∈ S) (hx : a ∈ S) (hne : a ∉ xs) : (links m).SameAt (links m') a := by
  refine links_sameAt fun x _ _ => h x fun b hb => ?_
  have hab := hs a hx b (hsub b hb)
  have : a ≠ b := fun he => hne (he ▸ hb)
  omega

theorem remove_member {pre post : List Nat} {b : Nat}
    (h : TreeRep (links m) 0 root (plug c (.node b (pre ++ a :: post) k l r)))
    (hp : Placed ((RTree.node b (pre ++ a :: post) k l r).addrs ++ (Ctx.items c).map Prod.fst)) :
    kmallocTreeRemove m a root = some (unlink m a, root) ∧
      TreeRep (links (unlink m a)) 0 root (plug c (.node b (pre ++ post) k l r)) ∧
      SameOutside 28 ((RTree.node b (pre ++ a :: post) k l r).addrs ++ (Ctx.items c).map Prod.fst) m
        (unlink m a) := by
  obtain ⟨par, p, hctx, rfl, hb0, hpar, hring, hrest, hl, hr⟩ := rep_plug.mp h
  generalize hS : (RTree.node p (pre ++ a :: post) k l r).addrs ++
    (Ctx.items c).map Prod.fst = S at hp ⊢
  have hmem : ∀ x, x ∈ S ↔ x ∈ p :: (pre ++ a :: post) ∨
    x ∈ l.addrs ++ r.addrs ++ (Ctx.items c).map Prod.fst := by
    intro x
    simp only [← hS, RTree.addrs_node, List.cons_append, List.mem_cons, List.mem_append, or_assoc]
  have hdisj : ∀ x ∈ l.addrs ++ r.addrs ++ (Ctx.items c).map Prod.fst,
    x ∉ p :: (pre ++ a :: post) := by
    have hnd := hp.nodup
    have hperm : S = (p :: (pre ++ a :: post)) ++
      (l.addrs ++ r.addrs ++ (Ctx.items c).map Prod.fst) := by
      simp [← hS]
    rw [hperm, List.nodup_append] at hnd
    exact fun x hx hm => hnd.2.2 x hm x hx rfl
  have hringS : ∀ x ∈ p :: (pre ++ a :: post), x ∈ S := fun x hx => (hmem x).mpr (.inl hx)
  have hrnd : (p :: (pre ++ a :: post)).Nodup := by
    refine hp.nodup.sublist ?_
    rw [← hS]
    simp
  have ha : a ∈ p :: (pre ++ a :: post) := by simp
  have hperm : (p :: (pre ++ a :: post)).Perm (a :: (post ++ p :: pre)) :=
    (List.perm_middle : ((p :: pre) ++ a :: post).Perm (a :: (p :: pre ++ post))).trans
      (List.perm_append_comm.cons a)
  have hrot : IsRing (next m) (prev m) (a :: (post ++ p :: pre)) := ring_rotate (p :: pre) hring
  have hrotnd := hperm.nodup_iff.mp hrnd
  have hnext : next m a ≠ a := fun he => by simpa using (hrot.next_eq_self hrotnd).mp he
  have hprev : prev m a ≠ a := fun he => by simpa using (hrot.prev_eq_self hrotnd).mp he
  have ha0 := hp.fits a (hringS a ha)
  have hpv := hp.spaced a (hringS a ha) (prev m a) (hringS _ (hring.links_mem ha).2)
  have hpb := hp.fits _ (hringS _ (hring.links_mem ha).2)
  obtain ⟨hla, hra, hpa⟩ := hrest a (by simp)
  have hedit := unlink_sameOutside hring ha
  have hsame : ∀ x ∈ l.addrs ++ r.addrs ++ (Ctx.items c).map Prod.fst,
    (links m).SameAt (links (unlink m a)) x :=
    fun x hx => ring_edit_sameAt hedit hp.spaced hringS ((hmem x).mpr (.inr hx)) (hdisj x hx)
  have htree : ∀ x ∈ p :: (pre ++ a :: post), left (unlink m a) x = left m x ∧
      right (unlink m a) x = right m x ∧ parent (unlink m a) x = parent m x :=
    fun x hx => ring_edit_tree_links hedit hp.spaced hringS (hringS x hx)
  refine ⟨?_, rep_plug.mpr ⟨par, p, ?_, rfl, hb0, ?_, ?_, ?_, ?_, ?_⟩, hedit.mono (by omega) hringS⟩
  · have hroot : a ≠ root := by
      rintro rfl
      by_cases hc : c = []
      · subst hc
        have hap : a = p := hctx.2
        subst hap
        simp at hrnd
      · exact hdisj _ (List.mem_append_right _ (hctx.root_mem hc)) ha
    have htest : ¬ ktchunkIsInTree m a := by
      rintro (h1 | h1 | h1)
      · exact h1 hla
      · exact h1 hra
      · exact h1 hpa
    rw [kmallocTreeRemove, if_neg ha0.1, if_pos ⟨hnext, hprev⟩, if_neg hroot, if_neg htest]
    dsimp only
    have h1 : next (setNext m (prev m a) (next m a)) a = next m a :=
      Memory.load32_store32_apart (by omega)
    have h2 : prev (setNext m (prev m a) (next m a)) a = prev m a :=
      Memory.load32_store32_apart (by omega)
    rw [h1, h2, unlink]
  · exact hctx.congr fun x hx =>
      hsame x.1 (List.mem_append_right _ (List.mem_map.mpr ⟨x, hx, rfl⟩))
  · exact (htree p List.mem_cons_self).2.2.trans hpar
  · exact unlink_erase (p :: pre) hring hrnd ((hp.spaced.sub hringS).mono (by omega))
      (fun x hx => ⟨(hp.fits x (hringS x hx)).1, by have := (hp.fits x (hringS x hx)).2; omega⟩)
        (by simp)
  · intro x hx
    have hx' : x ∈ pre ++ a :: post := by
      simp only [List.mem_append, List.mem_cons] at hx ⊢
      tauto
    obtain ⟨h1, h2, h3⟩ := hrest x hx'
    obtain ⟨g1, g2, g3⟩ := htree x (List.mem_cons_of_mem _ hx')
    exact ⟨g1.trans h1, g2.trans h2, g3.trans h3⟩
  · show TreeRep (links (unlink m a)) p (left (unlink m a) p) l
    rw [(htree p List.mem_cons_self).1]
    exact hl.congr fun x hx => hsame x (by simp [hx])
  · show TreeRep (links (unlink m a)) p (right (unlink m a) p) r
    rw [(htree p List.mem_cons_self).2.1]
    exact hr.congr fun x hx => hsame x (by simp [hx])

theorem remove_head {b : Nat} (h : TreeRep (links m) 0 root (plug c (.node a (b :: rest) k l r)))
    (hp : Placed ((RTree.node a (b :: rest) k l r).addrs ++ (Ctx.items c).map Prod.fst)) :
    ∃ m' root', kmallocTreeRemove m a root = some (m', root') ∧
      TreeRep (links m') 0 root' (plug c (.node b rest k l r)) ∧
      SameOutside 28 ((RTree.node a (b :: rest) k l r).addrs ++
      (Ctx.items c).map Prod.fst) m m' := by
  obtain ⟨par, p, hctx, rfl, ha0, hpar, hring, hrest, hl, hr⟩ := rep_plug.mp h
  have hp' := hp
  generalize hS : (RTree.node p (b :: rest) k l r).addrs ++ (Ctx.items c).map Prod.fst = S at hp ⊢
  have hmem : ∀ x, x ∈ S ↔ x ∈ p :: b :: rest ∨
    x ∈ l.addrs ++ r.addrs ++ (Ctx.items c).map Prod.fst := by
    intro x
    simp only [← hS, RTree.addrs_node, List.cons_append, List.mem_cons, List.mem_append, or_assoc]
  have hperm : S = (p :: b :: rest) ++ (l.addrs ++ r.addrs ++ (Ctx.items c).map Prod.fst) := by
    simp [← hS]
  have hnd := hp.nodup
  rw [hperm, List.nodup_append] at hnd
  obtain ⟨hrnd, -, hdisj⟩ := hnd
  have hringS : ∀ x ∈ p :: b :: rest, x ∈ S := fun x hx => (hmem x).mpr (.inl hx)
  have hotherS : ∀ x ∈ l.addrs ++ r.addrs ++ (Ctx.items c).map Prod.fst, x ∈ S :=
    fun x hx => (hmem x).mpr (.inr hx)
  have haS : p ∈ S := hringS p List.mem_cons_self
  have hbS : b ∈ S := hringS b (by simp)
  have hab : p ≠ b := fun he => (List.nodup_cons.mp hrnd).1 (he ▸ List.mem_cons_self)
  have hsp : Spaced 28 S := hp.spaced.mono (by omega)
  have hpv := (hring.links_mem List.mem_cons_self).2
  have hlS : (links m).left p ≠ 0 → (links m).left p ∈ S :=
    fun h0 => hotherS _ (by simp [hl.root_mem h0])
  have hrS : (links m).right p ≠ 0 → (links m).right p ∈ S :=
    fun h0 => hotherS _ (by simp [hr.root_mem h0])
  have hbb := hp.fits b hbS
  have hchild : ∀ {x}, (x ≠ 0 → x ∈ l.addrs ++ r.addrs) → ∀ y ∈ p :: b :: rest, x ≠ y := by
    rintro x hx y hy rfl
    have hy0 := (hp.fits x (hringS x hy)).1
    exact hdisj x hy x (List.mem_append_left _ (hx hy0)) rfl
  have hlx := hchild (x := (links m).left p) fun h0 => List.mem_append_left _ (hl.root_mem h0)
  have hrx := hchild (x := (links m).right p) fun h0 => List.mem_append_right _ (hr.root_mem h0)
  have hmod := (Models.refl S m).replaceHead hsp haS hbS hab (by omega) (hringS _ hpv) hlS hrS
  have hadopt : Adopts (links m) ((links m).replaceHead p b) p b :=
    replaceHead_adopts hab (hlx b (by simp)) (hrx b (by simp))
  obtain ⟨hn, hv⟩ := replaceHead_ring (L := links m) hab
  have hpa : ((links m).replaceHead p b).parent p = (links m).parent p :=
    hadopt.sameParent p hab (fun he => absurd he.symm (hlx p (by simp)))
      fun he => absurd he.symm (hrx p (by simp))
  have hring' :
    IsRing ((links m).replaceHead p b).next ((links m).replaceHead p b).prev (b :: rest) := by
    rw [hn, hv]
    refine hring.unlink hrnd (Function.update_self ..) (Function.update_self ..) ?_ ?_
    · exact fun x _ hx => Function.update_of_ne hx _ _
    · exact fun x _ hx => Function.update_of_ne hx _ _
  have hrest' : ∀ x ∈ rest, ((links m).replaceHead p b).Outside x := by
    intro x hx
    have hxb : x ≠ b := fun he => (List.nodup_cons.mp (List.nodup_cons.mp hrnd).2).1 (he ▸ hx)
    obtain ⟨h1, h2, h3⟩ := hrest x (List.mem_cons_of_mem _ hx)
    obtain ⟨g1, g2⟩ := hadopt.same x hxb
    refine ⟨g1.trans h1, g2.trans h2,
      (hadopt.sameParent x hxb (fun he => ?_) fun he => ?_).trans h3⟩
    · exact absurd he.symm (hlx x (by simp [hx]))
    · exact absurd he.symm (hrx x (by simp [hx]))
  have hlinks : ∀ x ∈ l.addrs ++ r.addrs ++ (Ctx.items c).map Prod.fst,
      ((links m).replaceHead p b).next x = (links m).next x ∧
        ((links m).replaceHead p b).prev x = (links m).prev x := by
    intro x hx
    rw [hn, hv]
    refine ⟨Function.update_of_ne ?_ _ _, Function.update_of_ne ?_ _ _⟩
    · exact fun he => hdisj _ hpv x hx he.symm
    · exact fun he => hdisj b (by simp) x hx he.symm
  have hrep := rep_adopt k h (hS ▸ hp.nodup) (fun x hx => (hp.fits x (hotherS x hx)).1) hbb.1
    (fun x hx he => hdisj b (by simp) x (List.mem_append_left _ hx) he.symm)
    (fun x hx hm => hdisj x (List.mem_cons_of_mem _ hx) x (List.mem_append_right _ hm) rfl)
    hadopt hring' hrest' hpa hlinks
  have hpc : p ∉ (Ctx.items c).map Prod.fst := fun hm =>
    hdisj p List.mem_cons_self p (List.mem_append_right _ hm) rfl
  have hroot := root_eq_iff h hpc
  have hinlist : ktchunkIsInList m p := by
    refine ⟨fun he => ?_, fun he => ?_⟩
    · simpa using (hring.next_eq_self hrnd).mp he
    · simpa using (hring.prev_eq_self hrnd).mp he
  have hnext : next m p = b := hring.head_next
  have hplug : ∀ x ∈ (plug c (.node b rest k l r)).addrs, x ∈ S := by
    intro x hx
    rw [mem_addrs_plug] at hx
    simp only [RTree.addrs_node, List.mem_cons, List.mem_append] at hx
    rw [hperm]
    rcases hx with (rfl | hx | hx | hx) | hx
    · simp
    all_goals simp [hx]
  rw [kmallocTreeRemove, if_neg ha0, if_pos hinlist]
  by_cases hc : c = []
  · rw [if_pos (hroot.mpr hc), hnext]
    rw [if_pos hc, if_pos hc] at hrep
    exact ⟨_, _, rfl, hrep.congr fun x hx => hmod.at_ x (hplug x hx), hmod.off⟩
  · have hpar0 : par ≠ 0 := fun h0 => hc (hctx.parent_eq_zero.mp h0)
    have hintree : ktchunkIsInTree m p :=
      .inr (.inr fun h0 => hpar0 (hpar.symm.trans h0))
    rw [if_neg (fun he => hc (hroot.mp he)), if_pos hintree, hnext]
    rw [if_neg hc, if_neg hc] at hrep
    have hparS : ((links m).replaceHead p b).parent p ∈ S := by
      rw [hpa, hpar]
      exact hotherS _ (List.mem_append_right _ (hctx.head_mem hc))
    have hmod' := hmod.updateParent hsp haS hparS (v := b) (by omega)
    exact ⟨_, _, rfl, hrep.congr fun x hx => hmod'.at_ x (hplug x hx), hmod'.off⟩

theorem remove_leaf (h : TreeRep (links m) 0 root (plug c (.node a [] k .leaf .leaf)))
    (hp : Placed (a :: (Ctx.items c).map Prod.fst)) :
    ∃ m' root', kmallocTreeRemove m a root = some (m', root') ∧
      TreeRep (links m') 0 root' (plug c .leaf) ∧
      SameOutside 28 (a :: (Ctx.items c).map Prod.fst) m m' := by
  obtain ⟨par, p, hctx, rfl, ha0, hpar, ⟨hself, -⟩, -, hl, hr⟩ := rep_plug.mp h
  have hnotin : ¬ ktchunkIsInList m p := fun hi => hi.1 hself
  have hleave : ktchunkIsLeave m p := ⟨hl, hr⟩
  obtain ⟨hpc, hndc⟩ := List.nodup_cons.mp hp.nodup
  rw [kmallocTreeRemove, if_neg ha0, if_neg hnotin, if_pos hleave]
  by_cases hc : c = []
  · obtain rfl : par = 0 := hctx.parent_eq_zero.mpr hc
    rw [if_neg (fun h0 => h0 hpar)]
    subst hc
    exact ⟨m, 0, rfl, rfl, SameOutside.refl _ _ _⟩
  · have hpar0 : par ≠ 0 := fun h0 => hc (hctx.parent_eq_zero.mp h0)
    rw [if_pos (show parent m p ≠ 0 from fun h0 => hpar0 (hpar.symm.trans h0))]
    have hparS : (links m).parent p ∈ p :: (Ctx.items c).map Prod.fst := by
      rw [hpar]
      exact List.mem_cons_of_mem _ (hctx.head_mem hc)
    have hmod := (Models.refl _ m).updateParent (hp.spaced.mono (by omega)) List.mem_cons_self hparS
      (v := 0) (by omega)
    refine ⟨_, _, rfl, (rep_cut h hpc hndc hc).congr fun x hx => hmod.at_ x ?_, hmod.off⟩
    rw [mem_addrs_plug] at hx
    simp only [RTree.addrs_leaf, List.not_mem_nil, false_or] at hx
    exact List.mem_cons_of_mem _ hx

theorem exists_leftmost {t : RTree} {par p fuel : Nat} (h : TreeRep (links m) par p t)
    (ht : t ≠ .leaf) (hf : t.height ≤ fuel) :
    ∃ c b rest k, t = plug c (.node b rest k .leaf .leaf) ∧ leftmostLeave m fuel p = some b := by
  induction t generalizing par p fuel with
  | leaf => exact absurd rfl ht
  | node head rest key l r ihl ihr =>
    obtain ⟨rfl, -, -, -, -, hl, hr⟩ := h
    obtain _ | fuel := fuel
    · simp [RTree.height] at hf
    simp only [RTree.height, Nat.add_le_add_iff_right, Nat.max_le] at hf
    rw [leftmostLeave]
    by_cases hleave : ktchunkIsLeave m p
    · obtain rfl : l = .leaf := hl.null_iff.mp hleave.1
      obtain rfl : r = .leaf := hr.null_iff.mp hleave.2
      exact ⟨[], p, rest, key, rfl, by rw [if_pos hleave]⟩
    · rw [if_neg hleave]
      by_cases hlz : left m p = 0
      · have hrz : r ≠ .leaf := fun he => hleave ⟨hlz, hr.null_iff.mpr he⟩
        obtain ⟨c, b, rest', k, rfl, hb⟩ := ihr hr hrz hf.2
        refine ⟨c ++ [⟨p, rest, key, true, l⟩], b, rest', k, by rw [plug_append]; rfl, ?_⟩
        rwa [if_neg (by simpa using hlz)]
      · obtain ⟨c, b, rest', k, rfl, hb⟩ := ihl hl (fun he => hlz (hl.null_iff.mpr he)) hf.1
        refine ⟨c ++ [⟨p, rest, key, false, r⟩], b, rest', k, by rw [plug_append]; rfl, ?_⟩
        rwa [if_pos hlz]

theorem kmallocTreeRemove_inner {b : Nat} (ha : a ≠ 0) (hlist : ¬ ktchunkIsInList m a)
    (hleave : ¬ ktchunkIsLeave m a) (hb : leftmostLeave m loopFuel a = some b) :
    kmallocTreeRemove m a root =
      if parent (ktchunkTakeOver (ktchunkUpdateParent m b 0) a b) b ≠ 0 then
        some (ktchunkUpdateParent (ktchunkTakeOver (ktchunkUpdateParent m b 0) a b) a b, root)
      else some (ktchunkTakeOver (ktchunkUpdateParent m b 0) a b, b) := by
  rw [kmallocTreeRemove, if_neg ha, if_neg hlist, if_neg hleave, hb]
  rfl

theorem fill_eq (f : Frame) (t : RTree) :
    f.fill t = .node f.head f.rest f.key (if f.dir then f.sib else t) (if f.dir then
    t else f.sib) := by
  unfold Frame.fill
  split <;> rfl

end

-- ---------------------------------------------------------------------------
-- Removal of an inner node
-- ---------------------------------------------------------------------------

section
variable {L : Links} {root a b k kb : Nat} {c c₃ : Ctx} {restb : List Nat}
  {dir : Bool} {sib l r : RTree}

/-- The node `a` alone in its ring, with the leaf `b` somewhere below it. -/
def innerAddrs (a b : Nat) (restb : List Nat) (c₃ : Ctx) (sib : RTree) (c : Ctx) : List Nat :=
  b :: restb ++ ((Ctx.items c₃).map Prod.fst ++ a :: (sib.addrs ++ (Ctx.items c).map Prod.fst))

theorem innerAddrs_perm (k kb a b : Nat) (restb : List Nat) (c₃ : Ctx) (dir : Bool)
    (sib : RTree) (c : Ctx) :
    ((Frame.fill ⟨a, [], k, dir, sib⟩ (plug c₃ (.node b restb kb .leaf .leaf))).addrs ++
      (Ctx.items c).map Prod.fst).Perm (innerAddrs a b restb c₃ sib c) := by
  refine List.perm_iff_count.mpr fun x => ?_
  have h1 :=
    (Frame.addrs_fill ⟨a, [], k, dir, sib⟩ (plug c₃ (.node b restb kb .leaf .leaf))).count_eq x
  have h2 := (addrs_plug c₃ (.node b restb kb .leaf .leaf)).count_eq x
  simp only [innerAddrs, RTree.addrs_node, RTree.addrs_leaf, List.append_nil, List.nil_append,
    List.cons_append, List.count_append, List.count_cons] at h1 h2 ⊢
  omega

/-- The two subtrees of `a` once the leaf is cut off, against the rest. -/
structure CutOff (a b : Nat) (restb : List Nat) (c₃ : Ctx) (sib : RTree) (c : Ctx)
    (l r : RTree) : Prop where
  mem : ∀ x ∈ l.addrs ++ r.addrs, x ∈ (Ctx.items c₃).map Prod.fst ∨ x ∈ sib.addrs
  nodup : ∀ k, ((RTree.node a [] k l r).addrs ++ (Ctx.items c).map Prod.fst).Nodup
  fresh : ∀ x ∈ l.addrs ++ r.addrs ++ (Ctx.items c).map Prod.fst, x ∉ b :: restb

theorem cutOff_of_nodup (hnd : (innerAddrs a b restb c₃ sib c).Nodup)
    (hl : (if dir then sib else plug c₃ .leaf) = l)
    (hr : (if dir then plug c₃ .leaf else sib) = r) :
    CutOff a b restb c₃ sib c l r := by
  rw [innerAddrs, List.nodup_append] at hnd
  obtain ⟨-, hndc, hdisj⟩ := hnd
  have hmem : ∀ x ∈ l.addrs ++ r.addrs, x ∈ (Ctx.items c₃).map Prod.fst ∨ x ∈ sib.addrs := by
    intro x
    rw [← hl, ← hr]
    cases dir <;> simp [mem_addrs_plug, or_comm]
  refine ⟨hmem, fun k => (List.Perm.nodup_iff ?_).mp hndc, fun x hx hm => hdisj x hm x ?_ rfl⟩
  · rw [← hl, ← hr]
    have hc₃ := addrs_plug c₃ .leaf
    refine List.perm_iff_count.mpr fun x => ?_
    have := hc₃.count_eq x
    cases dir <;>
      simp only [Bool.false_eq_true, if_true, if_false, RTree.addrs_node,
        RTree.addrs_leaf, List.nil_append,
        List.count_append, List.count_cons] at this ⊢ <;>
      omega
  · rcases List.mem_append.mp hx with hx | hx
    · rcases hmem x hx with h | h <;> simp [h]
    · simp [hx]

/-- The leaf cut off and put in the place of `a`, on the link functions. -/
structure Replaced (L : Links) (root a b : Nat) (c : Ctx) (S : List Nat) (t : RTree) : Prop where
  rep : TreeRep (if c = [] then (L.updateParent b 0).takeOver a b
      else ((L.updateParent b 0).takeOver a b).updateParent a b) 0 (if c = [] then b else root) t
  parentLeaf : L.parent b ∈ S
  leftChild : (L.updateParent b 0).left a ≠ 0 → (L.updateParent b 0).left a ∈ S
  rightChild : (L.updateParent b 0).right a ≠ 0 → (L.updateParent b 0).right a ∈ S
  parentNew : ((L.updateParent b 0).takeOver a b).parent b = L.parent a
  parentOld : ((L.updateParent b 0).takeOver a b).parent a = L.parent a
  parentMem : c ≠ [] → L.parent a ∈ S
  parentNull : L.parent a = 0 ↔ c = []

theorem rep_replace_inner {S : List Nat} (hS : innerAddrs a b restb c₃ sib c = S)
    (h : TreeRep L 0 root
      (plug c (Frame.fill ⟨a, [], k, dir, sib⟩ (plug c₃ (.node b restb kb .leaf .leaf)))))
    (hnd : S.Nodup) (h0 : ∀ x ∈ S, x ≠ 0) :
    Replaced L root a b c S (plug c (Frame.fill ⟨b, restb, kb, dir, sib⟩ (plug c₃ .leaf))) := by
  have hcc : ∀ t, plug c (Frame.fill ⟨a, [], k, dir, sib⟩ (plug c₃ t)) =
      plug (c₃ ++ ⟨a, [], k, dir, sib⟩ :: c) t := fun t => by rw [plug_append]; rfl
  have hitems : (Ctx.items (c₃ ++ ⟨a, [], k, dir, sib⟩ :: c)).map Prod.fst =
      (Ctx.items c₃).map Prod.fst ++ a :: (sib.addrs ++ (Ctx.items c).map Prod.fst) := by
    simp [Ctx.items, Frame.items, RTree.addrs]
  have hmemS : ∀ x, x ∈ S ↔ x ∈ b :: restb ∨ x ∈ (Ctx.items c₃).map Prod.fst ++
      a :: (sib.addrs ++ (Ctx.items c).map Prod.fst) := fun x => by
        rw [← hS, innerAddrs, List.mem_append]
  have hS' := hnd
  rw [← hS, innerAddrs, List.nodup_append] at hS'
  obtain ⟨hndb, hndc, hdisj⟩ := hS'
  have hbS : b ∈ S := (hmemS b).mpr (.inl List.mem_cons_self)
  have hab : a ≠ b := fun he => hdisj b List.mem_cons_self a (by simp) he.symm
  -- the leaf is cut off first
  rw [hcc] at h
  obtain ⟨parb, q, hctxb, rfl, -, hparb, hringb, hrestb, -⟩ := rep_plug.mp h
  have hparb_mem := hctxb.head_mem (by simp)
  rw [hitems, ← hparb] at hparb_mem
  have hcut := rep_cut h (hitems ▸ fun hm => hdisj q List.mem_cons_self q hm rfl)
    (hitems ▸ hndc) (by simp)
  obtain ⟨hn₁, hv₁, hq₁⟩ := updateParent_other L q 0
  have hsame₁ : ∀ x, x ≠ L.parent q → L.SameAt (L.updateParent q 0) x :=
    fun x hx => updateParent_sameAt hx
  rw [← hcc, fill_eq] at hcut
  rw [fill_eq]
  dsimp only at hcut ⊢
  generalize hl : (if dir then sib else plug c₃ .leaf) = l at hcut ⊢
  generalize hr : (if dir then plug c₃ .leaf else sib) = r at hcut ⊢
  obtain ⟨hmem, hcutnd, hfresh⟩ := cutOff_of_nodup (hS ▸ hnd) hl hr
  have hsub : ∀ x ∈ l.addrs ++ r.addrs ++ (Ctx.items c).map Prod.fst, x ∈ S := by
    intro x hx
    refine (hmemS x).mpr (.inr ?_)
    rcases List.mem_append.mp hx with hx | hx
    · rcases hmem x hx with h | h <;> simp [h]
    · simp [hx]
  -- then it takes over the place of the node
  obtain ⟨para, p, hctxa, rfl, ha0, hpara, -, -, hla, hra⟩ := rep_plug.mp hcut
  have hchild : ∀ x, (x ≠ 0 → x ∈ l.addrs ++ r.addrs) →
      (x ≠ 0 → x ∈ S) ∧ x ≠ q ∧ x ≠ p ∧ ∀ y ∈ restb, y ≠ x := by
    intro x hx
    refine ⟨fun hz => hsub x (List.mem_append_left _ (hx hz)), ?_, ?_, ?_⟩
    · rintro rfl
      exact hfresh x (List.mem_append_left _ (hx (h0 x hbS))) List.mem_cons_self
    · rintro rfl
      have hnd := hcutnd k
      simp only [RTree.addrs_node, List.nil_append, List.cons_append] at hnd
      exact (List.nodup_cons.mp hnd).1 (List.mem_append_left _ (hx ha0))
    · rintro y hy rfl
      have hyS := (hmemS y).mpr (.inl (List.mem_cons_of_mem _ hy))
      exact hfresh y (List.mem_append_left _ (hx (h0 y hyS))) (List.mem_cons_of_mem _ hy)
  obtain ⟨hlS, hlq, hlp, hlb⟩ := hchild _ fun hz => List.mem_append_left _ (hla.root_mem hz)
  obtain ⟨hrS, hrq, hrp, hrb⟩ := hchild _ fun hz => List.mem_append_right _ (hra.root_mem hz)
  have hadopt := takeOver_adopts hlq hrq hlp hrp
  have hrest : ∀ x ∈ restb, ((L.updateParent q 0).takeOver p q).Outside x := by
    intro x hx
    have hxq : x ≠ q := fun he => (List.nodup_cons.mp hndb).1 (he ▸ hx)
    have hsx := hsame₁ x fun he => hdisj x (by simp [hx]) x (he ▸ hparb_mem) rfl
    obtain ⟨h1, h2, h3⟩ := hrestb x hx
    obtain ⟨g1, g2⟩ := hadopt.same x hxq
    exact ⟨g1.trans (hsx.left.trans h1), g2.trans (hsx.right.trans h2),
      (hadopt.sameParent x hxq (fun he => absurd he (hlb x hx)) fun he =>
      absurd he (hrb x hx)).trans
        (hsx.parent.trans h3)⟩
  have hpa := hadopt.sameParent p hab (fun he => absurd he.symm hlp) fun he => absurd he.symm hrp
  have hpar : L.parent p = para := by rw [← hq₁, hpara]
  refine ⟨?_, (hmemS _).mpr (.inr hparb_mem), hlS, hrS, ?_, ?_, fun hc => ?_, ?_⟩
  · refine rep_adopt _ hcut (hcutnd k) (fun x hx => h0 x (hsub x hx)) (h0 q hbS)
      (fun x hx he => hfresh x (List.mem_append_left _ hx) (he ▸ List.mem_cons_self))
      (fun x hx hm => hfresh x (List.mem_append_right _ hm) hx) hadopt ?_ hrest hpa fun x _ =>
      ⟨rfl, rfl⟩
    rw [takeOver_ring.1, takeOver_ring.2, hn₁, hv₁]
    exact hringb
  · rw [hadopt.parent, hq₁]
  · rw [hpa, hq₁]
  · exact hpar ▸ hsub _ (List.mem_append_right _ (hctxa.head_mem hc))
  · rw [hpar]
    exact hctxa.parent_eq_zero

variable {m : Memory}

/-- The writes that put the leaf in the place of the node, in memory and on the link functions. -/
structure Promoted (m : Memory) (root a b : Nat) (c : Ctx) (S : List Nat) (t : RTree) : Prop where
  replaced : Replaced (links m) root a b c S t
  models : Models S m (((links m).updateParent b 0).takeOver a b)
    (ktchunkTakeOver (ktchunkUpdateParent m b 0) a b)
  single : next m a = a
  inner : ¬ktchunkIsLeave m a
  ne_zero : a ≠ 0

theorem promoted (h : TreeRep (links m) 0 root (plug c (Frame.fill ⟨a, [], k, dir, sib⟩
      (plug c₃ (.node b restb kb .leaf .leaf))))) (hp : Placed (innerAddrs a b restb c₃ sib c)) :
    Promoted m root a b c (innerAddrs a b restb c₃ sib c)
      (plug c (Frame.fill ⟨b, restb, kb, dir, sib⟩ (plug c₃ .leaf))) := by
  have hrepl := rep_replace_inner rfl h hp.nodup fun x hx => (hp.fits x hx).1
  have haS : a ∈ innerAddrs a b restb c₃ sib c := by simp [innerAddrs]
  have hbS : b ∈ innerAddrs a b restb c₃ sib c := by simp [innerAddrs]
  have hsp : Spaced 28 (innerAddrs a b restb c₃ sib c) := hp.spaced.mono (by omega)
  have hbb := hp.fits b hbS
  have hmod₁ := (Models.refl _ m).updateParent hsp hbS hrepl.parentLeaf (v := 0) (by omega)
  obtain ⟨_, _, -, hrep⟩ := rep_plug.mp h
  obtain ⟨-, -, ha0, ⟨hself, -⟩, -, hsub, -⟩ := rep_fill.mp hrep
  have hne : plug c₃ (.node b restb kb .leaf .leaf) ≠ .leaf := by
    intro he
    have :=
      (mem_addrs_plug (a := b) (c := c₃) (t := .node b restb kb .leaf .leaf)).mpr (.inl (by simp))
    simp [he] at this
  refine ⟨hrepl, hmod₁.takeOver hsp haS hbS (by omega) hrepl.leftChild hrepl.rightChild,
    hself, ?_, ha0⟩
  rintro ⟨h1, h2⟩
  cases dir with
  | true => exact hne (hsub.null_iff.mp h2)
  | false => exact hne (hsub.null_iff.mp h1)

/-- A node alone in its ring gives its place to the left-most leaf below it,
which brings its own ring. -/
theorem remove_inner (h : TreeRep (links m) 0 root (plug c (Frame.fill ⟨a, [], k, dir, sib⟩
      (plug c₃ (.node b restb kb .leaf .leaf)))))
    (hp : Placed (innerAddrs a b restb c₃ sib c)) (hb : leftmostLeave m loopFuel a = some b) :
    ∃ m' root', kmallocTreeRemove m a root = some (m', root') ∧
      TreeRep (links m') 0 root' (plug c (Frame.fill ⟨b, restb, kb, dir, sib⟩ (plug c₃ .leaf))) ∧
      SameOutside 28 (innerAddrs a b restb c₃ sib c) m m' := by
  obtain ⟨hrepl, hmod₂, hself, hleave, ha0⟩ := promoted h hp
  have hplug : ∀ x ∈ (plug c (Frame.fill ⟨b, restb, kb, dir, sib⟩ (plug c₃ .leaf))).addrs,
      x ∈ innerAddrs a b restb c₃ sib c := by
    intro x hx
    rw [mem_addrs_plug, mem_addrs_fill, mem_addrs_plug] at hx
    simp only [List.mem_append, RTree.addrs_leaf, List.not_mem_nil, false_or] at hx
    rw [innerAddrs]
    rcases hx with (rfl | (hx | hx) | hx) | hx
    · simp
    all_goals simp [hx]
  have haS : a ∈ innerAddrs a b restb c₃ sib c := by simp [innerAddrs]
  have hbS : b ∈ innerAddrs a b restb c₃ sib c := by simp [innerAddrs]
  generalize innerAddrs a b restb c₃ sib c = S at *
  have hsp : Spaced 28 S := hp.spaced.mono (by omega)
  have hbb := hp.fits b hbS
  have hpar : parent (ktchunkTakeOver (ktchunkUpdateParent m b 0) a b) b = (links m).parent a :=
    (hmod₂.parent_eq hbS).trans hrepl.parentNew
  rw [kmallocTreeRemove_inner ha0 (fun hi => hi.1 hself) hleave hb, hpar]
  by_cases hc : c = []
  · rw [if_neg (by simpa using hrepl.parentNull.mpr hc)]
    have hres := hrepl.rep
    rw [if_pos hc, if_pos hc] at hres
    exact ⟨_, _, rfl, hres.congr fun x hx => hmod₂.at_ x (hplug x hx), hmod₂.off⟩
  · rw [if_pos fun h0 => hc (hrepl.parentNull.mp h0)]
    have hmod₃ := hmod₂.updateParent hsp haS (hrepl.parentOld ▸ hrepl.parentMem hc)
      (v := b) (by omega)
    have hres := hrepl.rep
    rw [if_neg hc, if_neg hc] at hres
    exact ⟨_, _, rfl, hres.congr fun x hx => hmod₃.at_ x (hplug x hx), hmod₃.off⟩

theorem exists_inner {par p : Nat} (h : TreeRep (links m) par p (.node a [] k l r))
    (hleaf : ¬ (l = .leaf ∧ r = .leaf)) (hf : l.height < loopFuel ∧ r.height < loopFuel) :
    ∃ c₃ b restb kb dir sib, RTree.node a [] k l r =
        Frame.fill ⟨a, [], k, dir, sib⟩ (plug c₃ (.node b restb kb .leaf .leaf)) ∧
      leftmostLeave m loopFuel a = some b := by
  obtain ⟨-, -, -, -, -, hl, hr⟩ := h
  have hleave : ¬ ktchunkIsLeave m a := fun hv => hleaf ⟨hl.null_iff.mp hv.1, hr.null_iff.mp hv.2⟩
  rw [show loopFuel = 8589934591 + 1 from rfl] at hf ⊢
  rw [leftmostLeave, if_neg hleave]
  by_cases hlz : left m a = 0
  · have hrz : r ≠ .leaf := fun he => hleave ⟨hlz, hr.null_iff.mpr he⟩
    obtain ⟨c₃, b, restb, kb, rfl, hb⟩ := exists_leftmost hr hrz (Nat.le_of_lt_succ hf.2)
    exact ⟨c₃, b, restb, kb, true, l, rfl, by rwa [if_neg (by simpa using hlz)]⟩
  · obtain ⟨c₃, b, restb, kb, rfl, hb⟩ := exists_leftmost hl (fun he => hlz (hl.null_iff.mpr he))
      (Nat.le_of_lt_succ hf.1)
    exact ⟨c₃, b, restb, kb, false, r, rfl, by rwa [if_pos hlz]⟩

theorem kmallocTreeRemove_spec {t : RTree} {d : Nat} (h : TreeRep (links m) 0 root t)
    (ht : Trie d t) (hd : d < 4294967296) (hp : Placed t.addrs) (ha : (a, k) ∈ t.items) :
    ∃ m' root' t', kmallocTreeRemove m a root = some (m', root') ∧ TreeRep (links m') 0 root' t' ∧
      Trie d t' ∧ t.items.Perm ((a, k) :: t'.items) ∧ SameOutside 28 t.addrs m m' := by
  obtain ⟨c, head, rest, l, r, rfl, hmem⟩ := exists_plug ha
  have haddrs := addrs_plug c (.node head rest k l r)
  have hp' := hp.perm haddrs
  have hoff : ∀ {m' : Memory} {xs : List Nat}, SameOutside 28 xs m m' →
      (∀ x ∈ xs, x ∈ (RTree.node head rest k l r).addrs ++ (Ctx.items c).map Prod.fst) →
      SameOutside 28 (plug c (.node head rest k l r)).addrs m m' :=
    fun hs hsub => hs.mono (Nat.le_refl _) fun x hx => haddrs.mem_iff.mpr (hsub x hx)
  have hitems := items_plug c (.node head rest k l r)
  have hsub := ht.sub
  -- the ring of a node plays no part in the order
  have hring : ∀ {b rest'}, Trie d (plug c (.node b rest' k l r)) :=
    ht.plug (by simp [RTree.keys]) (by cases hd : d - c.length <;> rw [hd] at hsub <;> exact hsub)
  rcases List.mem_cons.mp hmem with rfl | hmem
  · cases rest with
    | cons b rest =>
      obtain ⟨m', root', hres, hrep, hsame⟩ := remove_head h hp'
      exact ⟨m', root', _, hres, hrep, hring,
        hitems.trans ((items_plug c (.node b rest k l r)).symm.cons _), hoff hsame fun x hx => hx⟩
    | nil =>
      by_cases hleaf : l = .leaf ∧ r = .leaf
      · obtain ⟨rfl, rfl⟩ := hleaf
        obtain ⟨m', root', hres, hrep, hsame⟩ := remove_leaf h (by simpa using hp')
        exact ⟨m', root', _, hres, hrep, ht.plug (by simp [RTree.keys]) (Trie.leaf _),
          hitems.trans ((items_plug c .leaf).symm.cons _), hoff hsame (by simp)⟩
      · obtain ⟨par, p, -, hnode⟩ := rep_plug.mp h
        have hheight := hsub.height_le
        simp only [RTree.height] at hheight
        obtain ⟨c₃, b, restb, kb, dir, sib, heq, hb⟩ := exists_inner hnode hleaf
          (by unfold loopFuel; omega)
        rw [heq] at h ht hsub hitems ⊢
        have hperm := innerAddrs_perm k kb a b restb c₃ dir sib c
        obtain ⟨m', root', hres, hrep, hsame⟩ := remove_inner h
          (hp'.perm (by rw [heq]; exact hperm)) hb
        refine ⟨m', root', _, hres, hrep, ht.plug (fun k' => ?_) hsub.move_up, ?_, ?_⟩
        · simp only [Frame.keys_fill, (keys_plug c₃ _).mem_iff, RTree.keys,
            List.mem_append, List.mem_cons]
          tauto
        · refine hitems.trans (List.perm_iff_count.mpr fun x => ?_)
          have h1 :=
            (Frame.items_fill ⟨a, [], k, dir, sib⟩
              (plug c₃ (.node b restb kb .leaf .leaf))).count_eq x
          have h2 := (items_plug c₃ (.node b restb kb .leaf .leaf)).count_eq x
          have h3 := (items_plug c (Frame.fill ⟨b, restb, kb, dir, sib⟩ (plug c₃ .leaf))).count_eq x
          have h4 := (Frame.items_fill ⟨b, restb, kb, dir, sib⟩ (plug c₃ .leaf)).count_eq x
          have h5 := (items_plug c₃ .leaf).count_eq x
          simp only [Frame.items, RTree.items, List.map_cons, List.map_nil,
            List.append_nil, List.nil_append,
            List.cons_append, List.count_append, List.count_cons] at h1 h2 h3 h4 h5 ⊢
          omega
        · rw [heq] at hoff
          exact hoff hsame fun x hx => hperm.mem_iff.mpr hx
  · obtain ⟨pre, post, rfl⟩ := List.append_of_mem hmem
    obtain ⟨hres, hrep, hsame⟩ := remove_member h hp'
    refine ⟨_, _, _, hres, hrep, hring, hitems.trans ?_, hoff hsame fun x hx => hx⟩
    refine List.Perm.trans ?_ ((items_plug c (.node head (pre ++ post) k l r)).symm.cons _)
    rw [List.perm_iff_count]
    intro x
    simp only [RTree.items, List.map_cons, List.map_append, List.count_append, List.count_cons]
    omega

end

end ElcoOs.Kmalloc
