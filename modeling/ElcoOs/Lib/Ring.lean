import Mathlib.Data.List.Basic
import Mathlib.Data.List.Iterate
import Mathlib.Data.List.Nodup
import Mathlib.Logic.Function.Iterate

/-!
# Circular doubly-linked lists

A ring is a list of nodes whose links close on themselves: `nx` of each node
is the node after it and `pv` of that one is the node itself. The links are
any two functions, so a ring in memory is a ring over the two functions that
read its link fields. Insertion and removal are stated by what the new links
are at the nodes they touch; the order of the writes does not matter.
-/

namespace Ring

variable {α : Type*} {nx pv nx' pv' : α → α} {a b b' c h y : α} {xs ys t : List α}

/-- From `a` the links run through the list to `b`, forwards and back. -/
def Seg (nx pv : α → α) : α → List α → α → Prop
  | a, [], b => nx a = b ∧ pv b = a
  | a, x :: xs, b => (nx a = x ∧ pv x = a) ∧ Seg nx pv x xs b

def IsRing (nx pv : α → α) : List α → Prop
  | [] => True
  | x :: xs => Seg nx pv x xs x

theorem seg_append : Seg nx pv a (xs ++ y :: ys) b ↔ Seg nx pv a xs y ∧ Seg nx pv y ys b := by
  induction xs generalizing a with
  | nil => exact Iff.rfl
  | cons x xs ih => simp only [List.cons_append, Seg, ih, and_assoc]

theorem Seg.congr (h : Seg nx pv a xs b) (hn : ∀ y ∈ a :: xs, nx' y = nx y)
    (hp : ∀ y ∈ b :: xs, pv' y = pv y) : Seg nx' pv' a xs b := by
  induction xs generalizing a with
  | nil =>
    exact ⟨(hn a List.mem_cons_self).trans h.1, (hp b List.mem_cons_self).trans h.2⟩
  | cons x xs ih =>
    refine ⟨⟨(hn a List.mem_cons_self).trans h.1.1, (hp x (by simp)).trans h.1.2⟩, ih h.2 ?_ ?_⟩
    · exact fun y hy => hn y (List.mem_cons_of_mem _ hy)
    · intro y hy
      rcases List.mem_cons.mp hy with rfl | hy
      · exact hp y List.mem_cons_self
      · exact hp y (by simp [hy])

theorem IsRing.congr (h : IsRing nx pv xs) (hn : ∀ y ∈ xs, nx' y = nx y)
    (hp : ∀ y ∈ xs, pv' y = pv y) : IsRing nx' pv' xs := by
  cases xs with
  | nil => trivial
  | cons x xs => exact Seg.congr h hn hp

theorem ring_rotate (xs : List α) (h : IsRing nx pv (xs ++ ys)) : IsRing nx pv (ys ++ xs) := by
  cases xs with
  | nil => simpa using h
  | cons x xs =>
    cases ys with
    | nil => simpa using h
    | cons y ys =>
      have h : Seg nx pv x (xs ++ y :: ys) x := h
      rw [seg_append] at h
      show Seg nx pv y (ys ++ x :: xs) y
      exact seg_append.mpr ⟨h.2, h.1⟩

-- ---------------------------------------------------------------------------
-- Neighbours
-- ---------------------------------------------------------------------------

theorem ring_single : IsRing nx pv [a] ↔ nx a = a ∧ pv a = a := Iff.rfl

theorem Seg.prev_mem (h : Seg nx pv a xs b) : pv b ∈ a :: xs := by
  induction xs generalizing a with
  | nil => simp [h.2]
  | cons x xs ih => exact List.mem_cons_of_mem _ (ih h.2)

theorem IsRing.links_mem (h : IsRing nx pv xs) (ha : a ∈ xs) : nx a ∈ xs ∧ pv a ∈ xs := by
  obtain ⟨pre, post, rfl⟩ := List.append_of_mem ha
  have hr : Seg nx pv a (post ++ pre) a := ring_rotate pre h
  have hmem : ∀ y, y ∈ a :: (post ++ pre) → y ∈ pre ++ a :: post := by
    intro y hy
    simp only [List.mem_cons, List.mem_append] at hy ⊢
    tauto
  refine ⟨?_, hmem _ hr.prev_mem⟩
  cases hl : post ++ pre with
  | nil =>
    rw [hl] at hr
    exact hr.1.symm ▸ ha
  | cons y ys =>
    rw [hl] at hr
    exact hr.1.1.symm ▸ hmem y (by simp [hl])

theorem IsRing.inverse (h : IsRing nx pv xs) (ha : a ∈ xs) : pv (nx a) = a ∧ nx (pv a) = a := by
  obtain ⟨pre, post, rfl⟩ := List.append_of_mem ha
  have hr : Seg nx pv a (post ++ pre) a := ring_rotate pre h
  generalize post ++ pre = l at hr
  constructor
  · cases l with
    | nil => rw [hr.1, hr.2]
    | cons x l => rw [hr.1.1, hr.1.2]
  · rcases List.eq_nil_or_concat' l with rfl | ⟨l, z, rfl⟩
    · rw [hr.2, hr.1]
    · obtain ⟨-, hz, hp⟩ := seg_append.mp hr
      rw [hp, hz]

theorem Seg.iterate (h : Seg nx pv a xs b) :
    List.iterate nx a (xs.length + 1) = a :: xs ∧ nx^[xs.length + 1] a = b := by
  induction xs generalizing a with
  | nil => exact ⟨rfl, h.1⟩
  | cons x xs ih =>
    obtain ⟨hread, hend⟩ := ih h.2
    constructor
    · show a :: List.iterate nx (nx a) (xs.length + 1) = _
      rw [h.1.1, hread]
    · show nx^[xs.length + 1] (nx a) = b
      rw [h.1.1, hend]

theorem Seg.closed {p : α → Prop} (h : Seg nx pv a xs b) (ha : p a) (hp : ∀ y, p y → p (nx y)) :
    ∀ y ∈ xs, p y := by
  induction xs generalizing a with
  | nil => simp
  | cons x xs ih =>
    have hx : p x := h.1.1 ▸ hp a ha
    intro y hy
    rcases List.mem_cons.mp hy with rfl | hy
    · exact hx
    · exact ih h.2 hx y hy

theorem IsRing.next_eq_self (h : IsRing nx pv (a :: xs)) (hnd : (a :: xs).Nodup) :
    nx a = a ↔ xs = [] := by
  cases xs with
  | nil => simpa using h.1
  | cons x xs =>
    have hx : nx a = x := h.1.1
    have hne : a ≠ x := fun he => (List.nodup_cons.mp hnd).1 (he ▸ List.mem_cons_self)
    simp [hx, Ne.symm hne]

theorem IsRing.prev_eq_self (h : IsRing nx pv (a :: xs)) (hnd : (a :: xs).Nodup) :
    pv a = a ↔ xs = [] := by
  rcases List.eq_nil_or_concat' xs with rfl | ⟨ys, l, rfl⟩
  · simpa using h.2
  · have hl : pv a = l := by
      have h : Seg nx pv a (ys ++ [l]) a := h
      rw [seg_append] at h
      exact h.2.2
    have hne : a ≠ l := fun he => (List.nodup_cons.mp hnd).1 (by simp [he])
    simp [hl, Ne.symm hne]

theorem IsRing.head_next (h : IsRing nx pv (a :: b :: xs)) : nx a = b := h.1.1

-- ---------------------------------------------------------------------------
-- Insertion and removal
-- ---------------------------------------------------------------------------

/-- The end of a segment moved from `b` to `b'`: only the forward link of its
last node and the backward link of its new end change. -/
theorem Seg.relink (hs : Seg nx pv h t b) (hnd : (h :: t).Nodup)
    (hl : nx' (pv b) = b') (hb : pv' b' = pv b)
    (hn : ∀ a ∈ h :: t, a ≠ pv b → nx' a = nx a) (hp : ∀ a ∈ h :: t, a ≠ h → pv' a = pv a) :
    Seg nx' pv' h t b' := by
  rcases List.eq_nil_or_concat' t with rfl | ⟨t, l, rfl⟩
  · rw [hs.2] at hl hb
    exact ⟨hl, hb⟩
  · obtain ⟨hseg, -, hpl⟩ := seg_append.mp hs
    rw [hpl] at hl hb hn
    rw [List.nodup_cons, List.nodup_append] at hnd
    obtain ⟨hh, -, -, hdisj⟩ := hnd
    refine seg_append.mpr ⟨hseg.congr ?_ ?_, hl, hb⟩
    · intro y hy
      refine hn y (by simp only [List.mem_cons, List.mem_append] at hy ⊢; tauto) ?_
      rintro rfl
      rcases List.mem_cons.mp hy with rfl | hy
      · exact hh (by simp)
      · exact hdisj y hy y (by simp) rfl
    · intro y hy
      refine hp y (by simp only [List.mem_cons, List.mem_append] at hy ⊢; tauto) ?_
      rintro rfl
      exact hh (by simp only [List.mem_cons, List.mem_append] at hy ⊢; tauto)

theorem IsRing.insert (hr : IsRing nx pv (h :: t)) (hnd : (h :: t).Nodup)
    (hcn : nx' c = h) (hcp : pv' c = pv h) (hln : nx' (pv h) = c) (hhp : pv' h = c)
    (hn : ∀ a ∈ h :: t, a ≠ pv h → nx' a = nx a) (hp : ∀ a ∈ h :: t, a ≠ h → pv' a = pv a) :
    IsRing nx' pv' (c :: h :: t) :=
  ⟨⟨hcn, hhp⟩, Seg.relink hr hnd hln hcp hn hp⟩

theorem IsRing.unlink (hr : IsRing nx pv (c :: h :: t)) (hnd : (c :: h :: t).Nodup)
    (hln : nx' (pv c) = h) (hhp : pv' h = pv c)
    (hn : ∀ a ∈ h :: t, a ≠ pv c → nx' a = nx a) (hp : ∀ a ∈ h :: t, a ≠ h → pv' a = pv a) :
    IsRing nx' pv' (h :: t) :=
  Seg.relink hr.2 (List.nodup_cons.mp hnd).2 hln hhp hn hp

end Ring
