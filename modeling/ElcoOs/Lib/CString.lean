import ElcoOs.Lib.Memory
import Mathlib.Data.List.TakeWhile

/-!
# Strings that end at a zero byte

A string is read off the memory byte by byte up to the first zero. A scan
looks for the first byte of a kind; on a string its result is the length of
the longest prefix of bytes of the other kind.
-/

/-- The bytes `xs`, none of them zero, lie from `s` on, a zero behind them,
and all of it below the end of the address space. -/
def CString (m : Memory) : Nat → List UInt8 → Prop
  | s, [] => m s = 0 ∧ s < 4294967296
  | s, x :: xs => m s = x ∧ x ≠ 0 ∧ CString m (s + 1) xs

/-- The address of the first byte from `s` on that `stop` accepts, if it is
among the next `fuel` bytes. -/
def Memory.seek (m : Memory) (stop : UInt8 → Bool) : Nat → Nat → Option Nat
  | 0, _ => none
  | fuel + 1, s => if stop (m s) then some s else m.seek stop fuel (Word32.add s 1)

namespace CString

variable {m m' : Memory} {s i n : Nat} {x : UInt8} {xs ys : List UInt8} {p : UInt8 → Bool}

theorem lt (h : CString m s xs) : s + xs.length < 4294967296 := by
  induction xs generalizing s with
  | nil => exact h.2
  | cons x xs ih =>
    have := ih h.2.2
    rw [List.length_cons]
    omega

theorem nul (h : CString m s xs) : m (s + xs.length) = 0 := by
  induction xs generalizing s with
  | nil => exact h.1
  | cons x xs ih =>
    have hend := ih h.2.2
    rwa [List.length_cons, Nat.add_comm xs.length 1, ← Nat.add_assoc]

theorem nonzero (h : CString m s xs) : ∀ x ∈ xs, x ≠ 0 := by
  induction xs generalizing s with
  | nil => simp
  | cons x xs ih =>
    intro y hy
    rcases List.mem_cons.mp hy with rfl | hy
    · exact h.2.1
    · exact ih h.2.2 y hy

theorem byte (h : CString m s xs) (hi : i < xs.length) : m (s + i) = xs[i] := by
  induction xs generalizing s i with
  | nil => simp at hi
  | cons x xs ih =>
    cases i with
    | zero => exact h.1
    | succ i =>
      have hat := ih h.2.2 (Nat.lt_of_succ_lt_succ hi)
      rw [List.getElem_cons_succ, ← hat, Nat.add_assoc, Nat.add_comm 1 i]

theorem of_bytes (hbyte : ∀ i (hi : i < xs.length), m (s + i) = xs[i])
    (hnul : m (s + xs.length) = 0)
    (hne : ∀ x ∈ xs, x ≠ 0) (hlt : s + xs.length < 4294967296) : CString m s xs := by
  induction xs generalizing s with
  | nil => exact ⟨hnul, hlt⟩
  | cons x xs ih =>
    rw [List.length_cons] at hnul hlt
    refine ⟨hbyte 0 (Nat.succ_pos _), hne x List.mem_cons_self,
      ih (fun i hi => ?_) ?_ ?_ (by omega)⟩
    · have hat := hbyte (i + 1) (Nat.succ_lt_succ hi)
      rwa [List.getElem_cons_succ, Nat.add_comm i 1, ← Nat.add_assoc] at hat
    · rwa [Nat.add_assoc, Nat.add_comm 1]
    · exact fun y hy => hne y (List.mem_cons_of_mem _ hy)

theorem append (h : CString m s ys) (h' : CString m' (s + ys.length) xs)
    (hsame : ∀ a < s + ys.length, m' a = m a) :
    CString m' s (ys ++ xs) := by
  have hlt := h'.lt
  refine of_bytes (fun i hi => ?_) ?_ (fun x hmem => ?_) (by rw [List.length_append]; omega)
  · rw [List.length_append] at hi
    by_cases hin : i < ys.length
    · rw [List.getElem_append_left hin, hsame _ (by omega), h.byte hin]
    · rw [List.getElem_append_right (by omega), ← h'.byte (i := i - ys.length) (by omega)]
      congr 1
      omega
  · rw [List.length_append, ← Nat.add_assoc]
    exact h'.nul
  · rcases List.mem_append.mp hmem with hmem | hmem
    · exact h.nonzero x hmem
    · exact h'.nonzero x hmem

theorem congr (h : CString m s xs) (hm : ∀ a, s ≤ a → a ≤ s + xs.length → m' a = m a) :
    CString m' s xs := by
  refine of_bytes (fun i hi => ?_) ?_ h.nonzero h.lt
  · rw [hm _ (by omega) (by omega), h.byte hi]
  · rw [hm _ (by omega) (by omega), h.nul]

theorem drop (h : CString m s xs) (i : Nat) (hi : i ≤ xs.length) :
    CString m (s + i) (xs.drop i) := by
  induction i generalizing s xs with
  | zero => exact h
  | succ i ih =>
    cases xs with
    | nil => simp at hi
    | cons x xs =>
      have hrest := ih h.2.2 (Nat.le_of_succ_le_succ hi)
      rwa [Nat.add_assoc, Nat.add_comm 1 i] at hrest

theorem unique (h : CString m s xs) (h' : CString m s ys) : xs = ys := by
  induction xs generalizing s ys with
  | nil =>
    cases ys with
    | nil => rfl
    | cons y ys => exact absurd (h'.1.symm.trans h.1) h'.2.1
  | cons x xs ih =>
    cases ys with
    | nil => exact absurd (h.1.symm.trans h'.1) h.2.1
    | cons y ys => rw [ih h.2.2 h'.2.2, ← h.1, ← h'.1]

/-- A scan that stops at the zero passes the longest prefix of bytes that do
not stop it. -/
theorem seek (h : CString m s xs) (hzero : p 0 = true) (hfuel : xs.length < n) :
    m.seek p n s = some (s + (xs.takeWhile (!p ·)).length) := by
  induction xs generalizing s n with
  | nil =>
    obtain ⟨n, rfl⟩ := Nat.exists_eq_add_of_lt hfuel
    simp [Memory.seek, h.1, hzero]
  | cons x xs ih =>
    obtain ⟨n, rfl⟩ := Nat.exists_eq_add_of_lt hfuel
    have hlt := h.lt
    rw [List.length_cons] at hlt
    rw [Memory.seek, h.1, Word32.add_of_lt (by omega)]
    cases hx : p x with
    | true => simp [hx]
    | false =>
      rw [if_neg (by simp), ih h.2.2 (by rw [List.length_cons]; omega)]
      simp only [hx, List.takeWhile_cons, Bool.not_false, if_true, List.length_cons]
      rw [Nat.add_assoc, Nat.add_comm 1]

theorem seek_nul (h : CString m s xs) (hfuel : xs.length < n) :
    m.seek (· == 0) n s = some (s + xs.length) := by
  rw [h.seek rfl hfuel, List.takeWhile_eq_self_iff.mpr]
  intro x hx
  simpa using h.nonzero x hx

theorem seek_first (h : CString m s xs) (hzero : p 0 = true) (hfuel : xs.length < n) :
    ∃ k ≤ xs.length, m.seek p n s = some (s + k) ∧ p (m (s + k)) = true ∧
      ∀ j < k, p (m (s + j)) = false := by
  induction xs generalizing s n with
  | nil =>
    obtain ⟨n, rfl⟩ := Nat.exists_eq_add_of_lt hfuel
    have hstop : p (m s) = true := h.1 ▸ hzero
    exact ⟨0, Nat.le_refl 0,
      by simp [Memory.seek, hstop], hstop, fun _ hj => absurd hj (Nat.not_lt_zero _)⟩
  | cons x xs ih =>
    obtain ⟨n, rfl⟩ := Nat.exists_eq_add_of_lt hfuel
    have hlt := h.lt
    rw [List.length_cons] at hlt
    rw [Memory.seek, Word32.add_of_lt (by omega)]
    by_cases hx : p (m s) = true
    · exact ⟨0, Nat.zero_le _, if_pos hx, hx, fun _ hj => absurd hj (Nat.not_lt_zero _)⟩
    · obtain ⟨k, hk, hseek, hstop, hbefore⟩ := ih h.2.2 (n := (x :: xs).length + n)
        (by rw [List.length_cons]; omega)
      rw [Nat.add_assoc, Nat.add_comm 1] at hseek hstop
      refine ⟨k + 1, Nat.succ_le_succ hk, (if_neg hx).trans hseek, hstop, fun j hj => ?_⟩
      cases j with
      | zero => exact Bool.not_eq_true _ ▸ hx
      | succ j =>
        have hat := hbefore j (Nat.lt_of_succ_lt_succ hj)
        rwa [Nat.add_assoc, Nat.add_comm 1] at hat

theorem ne_zero (h : CString m s xs) (hi : i < xs.length) : m (s + i) ≠ 0 :=
  h.byte hi ▸ h.nonzero _ (List.getElem_mem hi)

theorem mem_iff (h : CString m s xs) : x ∈ xs ↔ ∃ i < xs.length, m (s + i) = x := by
  constructor
  · intro hx
    obtain ⟨i, hi, rfl⟩ := List.mem_iff_getElem.mp hx
    exact ⟨i, hi, h.byte hi⟩
  · rintro ⟨i, hi, rfl⟩
    rw [h.byte hi]
    exact List.getElem_mem hi

theorem cut (h : CString m s xs) (hpre : ys <+: xs) :
    CString (m.store8 (s + ys.length) 0) s ys := by
  obtain ⟨zs, rfl⟩ := hpre
  have hlt := h.lt
  rw [List.length_append] at hlt
  refine of_bytes (fun i hi => ?_) ?_ (fun x hx => h.nonzero x (List.mem_append_left _ hx))
    (by omega)
  · rw [Memory.store8, if_neg (by omega), h.byte (by rw [List.length_append]; omega),
      List.getElem_append_left hi]
  · rw [Memory.store8, if_pos rfl]

end CString
