import Mathlib.Data.List.Perm.Basic
import Mathlib.Data.List.Pairwise

/-!
# Bubble sort

Passes over the list, each exchanging neighbours that stand the wrong way
round, until one pass exchanges nothing. The comparison is a strict order up to
equivalence; every pass that exchanges something leaves fewer inversions.
-/

namespace Bubble

variable {α : Type}

/-- One pass, with `prev` in hand, and whether it exchanged anything. -/
def pass (lt : α → α → Bool) (prev : α) : List α → List α × Bool
  | [] => ([prev], false)
  | x :: xs =>
    if lt x prev then
      let r := pass lt prev xs
      (x :: r.1, true)
    else
      let r := pass lt x xs
      (prev :: r.1, r.2)

/-- The passes. It fails when the list is not sorted after `fuel` of them. -/
def sort (lt : α → α → Bool) : Nat → List α → Option (List α)
  | 0, _ => none
  | _ + 1, [] => some []
  | fuel + 1, x :: xs =>
    let r := pass lt x xs
    if r.2 then sort lt fuel r.1 else some r.1

def inversions (lt : α → α → Bool) : List α → Nat
  | [] => 0
  | x :: xs => xs.countP (lt · x) + inversions lt xs

variable {lt : α → α → Bool}

theorem pass_perm (lt : α → α → Bool) (prev : α) (xs : List α) :
    (pass lt prev xs).1.Perm (prev :: xs) := by
  induction xs generalizing prev with
  | nil => exact List.Perm.refl _
  | cons x xs ih =>
    rw [pass]
    split
    · exact ((ih prev).cons x).trans (List.Perm.swap prev x xs)
    · exact (ih x).cons prev

theorem inversions_le (xs : List α) : inversions lt xs ≤ xs.length * xs.length := by
  induction xs with
  | nil => exact Nat.le_refl _
  | cons x xs ih =>
    have hcount : xs.countP (lt · x) ≤ xs.length := List.countP_le_length
    rw [inversions, List.length_cons, Nat.add_mul, Nat.mul_add]
    omega

section
variable (hasymm : ∀ a b, lt a b = true → lt b a = false)

include hasymm

theorem pass_inversions (prev : α) (xs : List α) :
    inversions lt (pass lt prev xs).1 ≤ inversions lt (prev :: xs) ∧
      ((pass lt prev xs).2 = true → inversions lt (pass lt prev xs).1 <
      inversions lt (prev :: xs)) := by
  induction xs generalizing prev with
  | nil => exact ⟨Nat.le_refl _, fun h => absurd h (by simp [pass])⟩
  | cons x xs ih =>
    rw [pass]
    split
    · rename_i hlt
      have hle := (ih prev).1
      have hcount := (pass_perm lt prev xs).countP_eq (lt · x)
      have hback := hasymm x prev hlt
      simp only [inversions, List.countP_cons, hlt, hback] at hle hcount ⊢
      simp only [if_true, Bool.false_eq_true, if_false] at hcount ⊢
      omega
    · have hle := ih x
      have hcount := (pass_perm lt x xs).countP_eq (lt · prev)
      simp only [inversions, List.countP_cons] at hle hcount ⊢
      refine ⟨by omega, fun h => ?_⟩
      have hstrict := hle.2 h
      omega

end

section
variable (htrans : ∀ a b c, lt b a = false → lt c b = false → lt c a = false)

include htrans

theorem pass_sorted (prev : α) (xs : List α) (h : (pass lt prev xs).2 = false) :
    (pass lt prev xs).1 = prev :: xs ∧ (prev :: xs).Pairwise fun a b => lt b a = false := by
  induction xs generalizing prev with
  | nil => exact ⟨rfl, List.pairwise_singleton _ _⟩
  | cons x xs ih =>
    rw [pass] at h ⊢
    split at h
    · cases h
    · rename_i hlt
      obtain ⟨heq, hsorted⟩ := ih x h
      have hhead : lt x prev = false := by simpa using hlt
      rw [if_neg hlt]
      refine ⟨congrArg (prev :: ·) heq, List.pairwise_cons.mpr ⟨fun y hy => ?_, hsorted⟩⟩
      rcases List.mem_cons.mp hy with rfl | hy
      · exact hhead
      · exact htrans _ _ _ hhead ((List.pairwise_cons.mp hsorted).1 y hy)

end

theorem sort_spec (hasymm : ∀ a b, lt a b = true → lt b a = false)
    (htrans : ∀ a b c, lt b a = false → lt c b = false → lt c a = false) {fuel : Nat} {xs : List α}
    (hfuel : inversions lt xs < fuel) :
    ∃ ys, sort lt fuel xs = some ys ∧ ys.Perm xs ∧ ys.Pairwise fun a b => lt b a = false := by
  induction fuel generalizing xs with
  | zero => exact absurd hfuel (Nat.not_lt_zero _)
  | succ fuel ih =>
    cases xs with
    | nil => exact ⟨[], rfl, List.Perm.refl _, List.Pairwise.nil⟩
    | cons x xs =>
      rw [sort]
      have hperm := pass_perm lt x xs
      cases hswap : (pass lt x xs).2 with
      | true =>
        have hless := (pass_inversions hasymm x xs).2 hswap
        have hfuel' : inversions lt (pass lt x xs).1 < fuel := by omega
        obtain ⟨ys, hys, hyperm, hsorted⟩ := ih hfuel'
        exact ⟨ys, by simpa [hswap] using hys, hyperm.trans hperm, hsorted⟩
      | false =>
        obtain ⟨heq, hsorted⟩ := pass_sorted htrans x xs hswap
        exact ⟨x :: xs, by simp [heq], List.Perm.refl _, hsorted⟩

end Bubble
