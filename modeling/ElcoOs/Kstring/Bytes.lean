import ElcoOs.Kstring.Copy
import ElcoOs.Kstring.Search

/-!
# kmemset and kmemcpy

Both run upwards, one byte at a time. `kmemcpy` is the upward loop of
`kmemmove` whatever the two ranges are: a destination that begins inside of the
source repeats the bytes before it.
-/

namespace ElcoOs.Kstring

/-- `while (n--) *p++ = u;` -/
def fillUp (m : Memory) (p : Nat) (u : UInt8) : Nat → Memory
  | 0 => m
  | n + 1 => fillUp (m.store8 p u) (Word32.add p 1) u n

def kmemset (m : Memory) (s : Nat) (c : Int) (n : Nat) : Nat × Memory :=
  (s, fillUp m s (toChar c) n)

def kmemcpy (m : Memory) (s1 s2 n : Nat) : Nat × Memory := (s1, moveUp m s1 s2 n)

variable {m m₀ : Memory} {s s1 s2 n k i d p a : Nat} {u : UInt8} {c : Int}

theorem fillUp_apply (h : p + n ≤ 4294967296) : fillUp m p u n a = if p ≤ a ∧
    a < p + n then u else m a := by
  induction n generalizing m p with
  | zero => rw [fillUp, if_neg (by omega)]
  | succ n ih =>
    cases n with
    | zero =>
      rw [fillUp, fillUp, Memory.store8]
      by_cases ha : a = p
      · rw [if_pos ha, if_pos (by omega)]
      · rw [if_neg ha, if_neg (by omega)]
    | succ n =>
      rw [fillUp, Word32.add_of_lt (by omega), ih (by omega), Memory.store8]
      by_cases ha : a = p
      · rw [if_neg (by omega), if_pos ha, if_pos (by omega)]
      · by_cases hin : p + 1 ≤ a ∧ a < p + 1 + (n + 1)
        · rw [if_pos hin, if_pos (by omega)]
        · rw [if_neg hin, if_neg ha, if_neg (by omega)]

theorem kmemset_fills (m : Memory) (s : Nat) (c : Int) (n : Nat) (h : s + n ≤ 4294967296) :
    (∀ i < n, (kmemset m s c n).2 (s + i) = toChar c) ∧
      (∀ a, a < s ∨ s + n ≤ a → (kmemset m s c n).2 a = m a) ∧ (kmemset m s c n).1 = s := by
  refine ⟨fun i hi => ?_, fun a ha => ?_, rfl⟩
  · exact (fillUp_apply h).trans (if_pos ⟨by omega, by omega⟩)
  · exact (fillUp_apply h).trans (if_neg (by omega))

/-- The first `k` bytes of the destination repeat the `d` bytes before it. -/
structure Repeated (m₀ : Memory) (s2 d k : Nat) (m : Memory) : Prop where
  inside : ∀ i < k, m (s2 + d + i) = m₀ (s2 + i % d)
  outside : ∀ a, a < s2 + d ∨ s2 + d + k ≤ a → m a = m₀ a

/-- The source byte of the next round is already a repeated one, or one before the destination. -/
theorem Repeated.source (h : Repeated m₀ s2 d k m) (hd : 0 < d) : m (s2 + k) = m₀ (s2 + k % d) := by
  by_cases hk : k < d
  · rw [h.outside _ (by omega), Nat.mod_eq_of_lt hk]
  · have hin := h.inside (k - d) (by omega)
    rw [show s2 + d + (k - d) = s2 + k by omega] at hin
    rw [hin, ← Nat.mod_eq_sub_mod (by omega)]

theorem Repeated.step (h : Repeated m₀ s2 d k m) (hd : 0 < d) :
    Repeated m₀ s2 d (k + 1) (m.store8 (s2 + d + k) (m (s2 + k))) := by
  refine ⟨fun i hi => ?_, fun a ha => ?_⟩
  · rw [Memory.store8]
    by_cases hik : i = k
    · rw [if_pos (by omega), h.source hd, hik]
    · rw [if_neg (by omega), h.inside i (by omega)]
  · rw [Memory.store8, if_neg (by omega), h.outside a (by omega)]

theorem moveUp_repeated (hd : 0 < d) (h : Repeated m₀ s2 d k m)
    (hle : s2 + d + (k + n) ≤ 4294967296) :
    Repeated m₀ s2 d (k + n) (moveUp m (s2 + d + k) (s2 + k) n) := by
  induction n generalizing k m with
  | zero => exact h
  | succ n ih =>
    cases n with
    | zero => exact h.step hd
    | succ n =>
      have hrest := ih (h.step hd) (by omega)
      rw [moveUp, Word32.add_of_lt (by omega), Word32.add_of_lt (by omega)]
      rwa [show k + 1 + (n + 1) = k + (n + 1 + 1) by omega] at hrest

/-- A destination above the start of the source gets the bytes between the two starts, over
and over; one at or below it gets the bytes of the source. -/
theorem kmemcpy_bytes (m : Memory) (s1 s2 n : Nat) (h1 : s1 + n ≤ 4294967296)
    (h2 : s2 + n ≤ 4294967296) :
    (∀ i < n, (kmemcpy m s1 s2 n).2 (s1 + i) = m (s2 + if s2 < s1 then i % (s1 - s2) else i)) ∧
      (∀ a, a < s1 ∨ s1 + n ≤ a → (kmemcpy m s1 s2 n).2 a = m a) ∧ (kmemcpy m s1 s2 n).1 = s1 := by
  rcases Nat.lt_or_ge s2 s1 with hlt | hle
  · obtain ⟨d, rfl⟩ : ∃ d, s1 = s2 + d := ⟨s1 - s2, by omega⟩
    have hstart : Repeated m s2 d 0 m := ⟨fun _ hi => absurd hi (Nat.not_lt_zero _), fun _ _ => rfl⟩
    have hrep := moveUp_repeated (n := n) (show 0 < d by omega) hstart (by omega)
    rw [Nat.zero_add, Nat.add_zero, Nat.add_zero] at hrep
    simp only [if_pos hlt, Nat.add_sub_cancel_left]
    exact ⟨hrep.inside, hrep.outside, rfl⟩
  · simp only [if_neg (Nat.not_lt.mpr hle)]
    rcases Nat.lt_or_ge s1 s2 with hlt | hge
    · have hmoved :=
        moveUp_moved (n := n) hlt (Moved.refl m s1 s2 0) (by rw [Nat.zero_add]; exact h2)
      rw [Nat.zero_add] at hmoved
      exact ⟨fun i hi => hmoved.inside i (Nat.zero_le _) hi,
        fun a ha => hmoved.outside a (by omega), rfl⟩
    · -- onto itself
      obtain rfl : s1 = s2 := by omega
      have hself : ∀ n (m : Memory) s, moveUp m s s n = m := by
        intro n
        induction n with
        | zero => intros; rfl
        | succ n ih =>
          intro m s
          rw [moveUp, ih]
          funext a
          rw [Memory.store8]
          split
          · rw [‹a = s›]
          · rfl
      refine ⟨fun i _ => congrFun (hself n m s1) _, fun a _ => congrFun (hself n m s1) a, rfl⟩

/-- The plain copy does what `kmemmove` does unless the destination begins inside of the source
and the bytes that it would overwrite differ from those that it repeats. -/
theorem kmemcpy_eq_kmemmove_iff (m : Memory) (s1 s2 n : Nat) (h1 : s1 + n ≤ 4294967296)
    (h2 : s2 + n ≤ 4294967296) :
    kmemcpy m s1 s2 n = kmemmove m s1 s2 n ↔ ∀ i < n, s2 < s1 →
    m (s2 + i % (s1 - s2)) = m (s2 + i) := by
  obtain ⟨hin, hout, hres⟩ := kmemcpy_bytes m s1 s2 n h1 h2
  have hmoved := kmemmove_moved m s1 s2 n h1 h2
  constructor
  · intro heq i hi hlt
    have hat := hin i hi
    rw [heq, hmoved.inside i (Nat.zero_le i) hi, if_pos hlt] at hat
    exact hat.symm
  · intro hall
    refine Prod.ext (hres.trans (kmemmove_fst m s1 s2 n).symm) (funext fun a => ?_)
    by_cases ha : a < s1 ∨ s1 + n ≤ a
    · rw [hout a ha, hmoved.outside a (by omega)]
    · obtain ⟨i, rfl⟩ : ∃ i, a = s1 + i := ⟨a - s1, by omega⟩
      rw [hin i (by omega), hmoved.inside i (Nat.zero_le i) (by omega)]
      split
      · exact hall i (by omega) ‹_›
      · rfl

/-- Three bytes one place up: the first one is repeated. -/
theorem kmemcpy_eq_kmemmove_iff_up : kmemcpy (fun a => UInt8.ofNat a) 17 16 3 =
    kmemmove (fun a => UInt8.ofNat a) 17 16 3 ↔
    ∀ i < 3, 16 < 17 → UInt8.ofNat (16 + i % (17 - 16)) = UInt8.ofNat (16 + i) :=
  kmemcpy_eq_kmemmove_iff (fun a => UInt8.ofNat a) 17 16 3 (by decide) (by decide)

end ElcoOs.Kstring
