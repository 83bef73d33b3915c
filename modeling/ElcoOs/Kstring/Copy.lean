import ElcoOs.Lib.CString

/-!
# kmemmove, kstrncpy and kstrncat

The functions of `kstring.h` that write through `s1`. Pointers are 32-bit and
wrap: `d += n - 1` steps back by one when `n` is 0, and a pointer may leave
the object once its last byte is done. Each function returns `s1` and the
memory; `kstrncpy` keeps account of the addresses it reads through `s2`.
-/

namespace ElcoOs.Kstring

-- ---------------------------------------------------------------------------
-- kmemmove.c
-- ---------------------------------------------------------------------------

/-- `while (n--) *d++ = *s++;` -/
def moveUp (m : Memory) (d s : Nat) : Nat → Memory
  | 0 => m
  | n + 1 => moveUp (m.store8 d (m s)) (Word32.add d 1) (Word32.add s 1) n

/-- `while (n--) *d-- = *s--;` -/
def moveDown (m : Memory) (d s : Nat) : Nat → Memory
  | 0 => m
  | n + 1 => moveDown (m.store8 d (m s)) (Word32.sub d 1) (Word32.sub s 1) n

def kmemmove (m : Memory) (s1 s2 n : Nat) : Nat × Memory :=
  if s1 < s2 then (s1, moveUp m s1 s2 n)
  else (s1, moveDown m (Word32.add s1 (Word32.sub n 1)) (Word32.add s2 (Word32.sub n 1)) n)

variable {m m₀ : Memory} {d s s1 s2 n k i : Nat} {xs ys : List UInt8}

/-- The bytes `[lo, hi)` of the destination hold what the source held in
`m₀`, and nothing else has changed. -/
structure Moved (m₀ : Memory) (s1 s2 lo hi : Nat) (m : Memory) : Prop where
  inside : ∀ i, lo ≤ i → i < hi → m (s1 + i) = m₀ (s2 + i)
  outside : ∀ a, a < s1 + lo ∨ s1 + hi ≤ a → m a = m₀ a

theorem Moved.refl (m₀ : Memory) (s1 s2 k : Nat) : Moved m₀ s1 s2 k k m₀ :=
  ⟨fun _ _ _ => by omega, fun _ _ => rfl⟩

theorem Moved.up (h : Moved m₀ s1 s2 0 k m) (hlt : s1 < s2) :
    Moved m₀ s1 s2 0 (k + 1) (m.store8 (s1 + k) (m (s2 + k))) := by
  have hold : m (s2 + k) = m₀ (s2 + k) := h.outside _ (.inr (by omega))
  constructor
  · intro i _ hi
    unfold Memory.store8
    by_cases hik : i = k
    · rw [if_pos (by omega), hold, hik]
    · rw [if_neg (by omega), h.inside i (Nat.zero_le _) (by omega)]
  · intro a ha
    unfold Memory.store8
    rw [if_neg (by omega), h.outside a (by omega)]

theorem Moved.down (h : Moved m₀ s1 s2 (k + 1) n m) (hk : k < n) (hle : s2 ≤ s1) :
    Moved m₀ s1 s2 k n (m.store8 (s1 + k) (m (s2 + k))) := by
  have hold : m (s2 + k) = m₀ (s2 + k) := h.outside _ (.inl (by omega))
  constructor
  · intro i hlo hi
    unfold Memory.store8
    by_cases hik : i = k
    · rw [if_pos (by omega), hold, hik]
    · rw [if_neg (by omega), h.inside i (by omega) hi]
  · intro a ha
    unfold Memory.store8
    rw [if_neg (by omega), h.outside a (by omega)]

theorem moveUp_moved (hlt : s1 < s2) (h : Moved m₀ s1 s2 0 k m) (h2 : s2 + (k + n) ≤ 4294967296) :
    Moved m₀ s1 s2 0 (k + n) (moveUp m (s1 + k) (s2 + k) n) := by
  induction n generalizing k m with
  | zero => exact h
  | succ n ih =>
    cases n with
    | zero => exact h.up hlt
    | succ n =>
      have hrest := ih (h.up hlt) (by omega)
      rw [moveUp, Word32.add_of_lt (by omega), Word32.add_of_lt (by omega)]
      rwa [show k + 1 + (n + 1) = k + (n + 1 + 1) by omega] at hrest

theorem moveDown_moved (hle : s2 ≤ s1) (h : Moved m₀ s1 s2 (n + 1) k m) (hk : n < k)
    (h1 : s1 + k ≤ 4294967296) : Moved m₀ s1 s2 0 k (moveDown m (s1 + n) (s2 + n) (n + 1)) := by
  induction n generalizing m with
  | zero => exact h.down hk hle
  | succ n ih =>
    have hrest := ih (h.down hk hle) (by omega)
    rw [moveDown, Word32.sub_of_le (by omega) (by omega), Word32.sub_of_le (by omega) (by omega)]
    exact hrest

theorem kmemmove_moved (m : Memory) (s1 s2 n : Nat) (h1 : s1 + n ≤ 4294967296)
    (h2 : s2 + n ≤ 4294967296) :
    Moved m s1 s2 0 n (kmemmove m s1 s2 n).2 := by
  unfold kmemmove
  by_cases hlt : s1 < s2
  · rw [if_pos hlt]
    have hup := moveUp_moved (n := n) hlt (Moved.refl m s1 s2 0) (by omega)
    rwa [Nat.zero_add] at hup
  · rw [if_neg hlt]
    cases n with
    | zero => exact Moved.refl m s1 s2 0
    | succ n =>
      show Moved m s1 s2 0 (n + 1) (moveDown m _ _ (n + 1))
      have hlast : Word32.sub (n + 1) 1 = n := by
        unfold Word32.sub
        omega
      rw [hlast, Word32.add_of_lt (by omega), Word32.add_of_lt (by omega)]
      exact moveDown_moved (by omega) (Moved.refl m s1 s2 (n + 1)) (Nat.lt_succ_self n) h1

theorem kmemmove_fst (m : Memory) (s1 s2 n : Nat) : (kmemmove m s1 s2 n).1 = s1 := by
  unfold kmemmove
  split <;> rfl

/-- The destination holds the bytes the source had, however the two overlap,
and no other byte has changed. -/
theorem kmemmove_moves (m : Memory) (s1 s2 n : Nat) (h1 : s1 + n ≤ 4294967296)
    (h2 : s2 + n ≤ 4294967296) :
    (∀ i < n, (kmemmove m s1 s2 n).2 (s1 + i) = m (s2 + i)) ∧
      (∀ a, a < s1 ∨ s1 + n ≤ a → (kmemmove m s1 s2 n).2 a = m a) ∧
      (kmemmove m s1 s2 n).1 = s1 := by
  have hmoved := kmemmove_moved m s1 s2 n h1 h2
  exact ⟨fun i hi => hmoved.inside i (Nat.zero_le _) hi, fun a ha => hmoved.outside a (by omega),
    kmemmove_fst m s1 s2 n⟩

/-- Four bytes one place up, over themselves. -/
theorem kmemmove_moves_overlap : (∀ i < 4, (kmemmove (fun a => UInt8.ofNat a) 17 16 4).2 (17 + i) =
      UInt8.ofNat (16 + i)) ∧
    (∀ a, a < 17 ∨ 17 + 4 ≤ a → (kmemmove (fun a => UInt8.ofNat a) 17 16 4).2 a = UInt8.ofNat a) ∧
      (kmemmove (fun a => UInt8.ofNat a) 17 16 4).1 = 17 :=
  kmemmove_moves (fun a => UInt8.ofNat a) 17 16 4 (by decide) (by decide)

-- ---------------------------------------------------------------------------
-- kstrncpy.c
-- ---------------------------------------------------------------------------

/-- What the first loop of `kstrncpy` leaves: the memory, `d`, `n` and the
addresses read. -/
structure Copying where
  mem : Memory
  d : Nat
  n : Nat
  reads : List Nat

/-- `while ((n > 0) && ((*d++ = *s++) != '\0')) n--;` -/
def copyChars (m : Memory) (d s : Nat) (reads : List Nat) : Nat → Copying
  | 0 => ⟨m, d, 0, reads⟩
  | n + 1 =>
    let m' := m.store8 d (m s)
    if m s ≠ 0 then copyChars m' (Word32.add d 1) (Word32.add s 1) (reads ++ [s]) n
    else ⟨m', Word32.add d 1, n + 1, reads ++ [s]⟩

/-- `while (n-- > 1) *d++ = '\0';` -/
def padZeros (m : Memory) (d : Nat) : Nat → Memory
  | 0 => m
  | 1 => m
  | n + 2 => padZeros (m.store8 d 0) (Word32.add d 1) (n + 1)

structure Copied where
  result : Nat
  mem : Memory
  reads : List Nat

def kstrncpy (m : Memory) (s1 s2 n : Nat) : Copied :=
  let c := copyChars m s1 s2 [] n
  ⟨s1, padZeros c.mem c.d c.n, c.reads⟩

/-- What `kstrncpy` may read at `s2`: the characters `xs` and a NUL behind
them, of all this the first `n` bytes only. -/
structure Source (m : Memory) (s2 n : Nat) (xs : List UInt8) : Prop where
  chars : ∀ i (hi : i < xs.length), i < n → m (s2 + i) = xs[i]
  ends : xs.length < n → m (s2 + xs.length) = 0
  nonzero : ∀ x ∈ xs, x ≠ 0

theorem padZeros_apply (n : Nat) : ∀ {m : Memory} {d a : Nat}, d + n ≤ 4294967296 + 1 →
    padZeros m d n a = if d ≤ a ∧ a + 1 < d + n then 0 else m a := by
  induction n with
  | zero =>
    intro m d a _
    rw [padZeros, if_neg (by omega)]
  | succ n ih =>
    intro m d a hd
    cases n with
    | zero => rw [padZeros, if_neg (by omega)]
    | succ n =>
      cases n with
      | zero =>
        rw [padZeros, padZeros, Memory.store8]
        by_cases ha : a = d
        · rw [if_pos ha, if_pos (by omega)]
        · rw [if_neg ha, if_neg (by omega)]
      | succ n =>
        rw [padZeros, Word32.add_of_lt (by omega), ih (by omega), Memory.store8]
        by_cases hin : d + 1 ≤ a ∧ a + 1 < d + 1 + (n + 1 + 1)
        · rw [if_pos hin, if_pos (by omega)]
        · rw [if_neg hin]
          by_cases ha : a = d
          · rw [if_pos ha, if_pos (by omega)]
          · rw [if_neg ha, if_neg (by omega)]

theorem Source.tail {x v : UInt8} (h : Source m s (n + 1) (x :: xs))
    (hd : d < s ∨ s + min (n + 1) (xs.length + 2) ≤ d) : Source (m.store8 d v) (s + 1) n xs := by
  refine ⟨fun i hi hn => ?_, fun hn => ?_, fun y hy => h.nonzero y (List.mem_cons_of_mem _ hy)⟩
  · have hat := h.chars (i + 1) (Nat.succ_lt_succ hi) (by omega)
    rw [List.getElem_cons_succ] at hat
    rw [Memory.store8, if_neg (by omega), Nat.add_assoc, Nat.add_comm 1 i, hat]
  · have hat := h.ends (by rw [List.length_cons]; omega)
    rw [List.length_cons] at hat
    rw [Memory.store8, if_neg (by omega), Nat.add_assoc, Nat.add_comm 1, hat]

theorem copyChars_padZeros (n : Nat) : ∀ {m : Memory} {d s : Nat} {xs : List UInt8} {l : List Nat},
    Source m s n xs → d + n ≤ 4294967296 → s + min n (xs.length + 1) ≤ 4294967296 →
    d + n ≤ s ∨ s + min n (xs.length + 1) ≤ d →
    let c := copyChars m d s l n
    (∀ i < n, padZeros c.mem c.d c.n (d + i) = xs.getD i 0) ∧
      (∀ a, a < d ∨ d + n ≤ a → padZeros c.mem c.d c.n a = m a) ∧
      c.reads = l ++ List.range' s (min n (xs.length + 1)) := by
  induction n with
  | zero =>
    intro m d s xs l _ _ _ _
    simp [copyChars, padZeros]
  | succ n ih =>
    intro m d s xs l hsrc hd hs hapart
    cases xs with
    | nil =>
      have hnul : m s = 0 := hsrc.ends (Nat.succ_pos n)
      simp only [copyChars, hnul, ne_eq, not_true_eq_false, if_false,
        List.getD_nil, List.length_nil,
        Nat.zero_add]
      have hpad : ∀ a, padZeros (m.store8 d 0) (Word32.add d 1) (n + 1) a =
          if d ≤ a ∧ a < d + (n + 1) then 0 else m a := by
        intro a
        cases n with
        | zero =>
          rw [padZeros, Memory.store8]
          by_cases ha : a = d
          · rw [if_pos ha, if_pos (by omega)]
          · rw [if_neg ha, if_neg (by omega)]
        | succ n =>
          rw [Word32.add_of_lt (by omega), padZeros_apply _ (by omega), Memory.store8]
          by_cases ha : a = d
          · rw [if_neg (by omega), if_pos ha, if_pos (by omega)]
          · by_cases hin : d ≤ a ∧ a < d + (n + 1 + 1)
            · rw [if_pos (by omega), if_pos hin]
            · rw [if_neg (by omega), if_neg ha, if_neg hin]
      refine ⟨fun i hi => ?_, fun a ha => ?_, ?_⟩
      · rw [hpad, if_pos (by omega)]
      · rw [hpad, if_neg (by omega)]
      · rw [Nat.min_eq_right (by omega)]
        rfl
    | cons x xs =>
      have hx : m s = x := hsrc.chars 0 (Nat.succ_pos _) (Nat.succ_pos n)
      have hne : m s ≠ 0 := hx ▸ hsrc.nonzero x List.mem_cons_self
      rw [List.length_cons] at hs hapart
      cases n with
      | zero =>
        simp only [copyChars, hne, ne_eq, not_false_eq_true, if_true, padZeros]
        refine ⟨fun i hi => ?_, fun a ha => ?_, ?_⟩
        · rw [Nat.lt_one_iff.mp hi, Nat.add_zero, Memory.store8, if_pos rfl, hx]
          rfl
        · rw [Memory.store8, if_neg (by omega)]
        · rw [List.length_cons, Nat.min_eq_left (by omega)]
          rfl
      | succ n =>
        obtain ⟨hin, hout, hreads⟩ := ih (l := l ++ [s]) (hsrc.tail (v := m s) (d := d) (by omega))
          (show d + 1 + (n + 1) ≤ 4294967296 by omega) (by omega) (by omega)
        rw [copyChars, Word32.add_of_lt (by omega), Word32.add_of_lt (by omega)]
        simp only [hne, ne_eq, not_false_eq_true, if_true]
        refine ⟨fun i hi => ?_, fun a ha => ?_, ?_⟩
        · cases i with
          | zero =>
            have hfirst := hout d (.inl (Nat.lt_succ_self d))
            exact hfirst.trans ((if_pos rfl).trans hx)
          | succ i =>
            have hat := hin i (by omega)
            rwa [Nat.add_assoc, Nat.add_comm 1 i] at hat
        · rw [hout a (by omega), Memory.store8, if_neg (by omega)]
        · rw [hreads, List.length_cons, List.append_assoc,
            show min (n + 1 + 1) (xs.length + 1 + 1) = min (n + 1) (xs.length + 1) + 1 by omega,
            List.range'_succ]
          rfl

/-- `n` bytes are written, the characters and then NULs, and nothing of the
source is read behind its NUL or from index `n` on. -/
theorem kstrncpy_writes (m : Memory) (s1 s2 n : Nat) (xs : List UInt8) (hsrc : Source m s2 n xs)
    (h1 : s1 + n ≤ 4294967296) (h2 : s2 + min n (xs.length + 1) ≤ 4294967296)
    (hapart : s1 + n ≤ s2 ∨ s2 + min n (xs.length + 1) ≤ s1) :
    let r := kstrncpy m s1 s2 n
    (∀ i < n, r.mem (s1 + i) = (xs.take n ++ List.replicate (n - xs.length) 0).getD i 0) ∧
      (∀ a, a < s1 ∨ s1 + n ≤ a → r.mem a = m a) ∧
      (∀ a ∈ r.reads, ∃ i, a = s2 + i ∧ i < n ∧ i ≤ xs.length) ∧ r.result = s1 := by
  obtain ⟨hin, hout, hreads⟩ := copyChars_padZeros n (l := []) hsrc h1 h2 hapart
  refine ⟨fun i hi => (hin i hi).trans ?_, hout, fun a ha => ?_, rfl⟩
  · by_cases hix : i < xs.length
    · rw [List.getD_append _ _ _ _ (by rw [List.length_take]; omega)]
      simp [List.getD_eq_getElem?_getD, hi]
    · rw [List.getD_append_right _ _ _ _ (by rw [List.length_take]; omega)]
      rw [List.getD_eq_default _ _ (by omega), List.getD_eq_getElem?_getD,
        List.getElem?_getD_replicate_default_eq]
  · have ha : a ∈ (copyChars m s1 s2 [] n).reads := ha
    rw [hreads, List.nil_append, List.mem_range'_1] at ha
    exact ⟨a - s2, by omega, by omega, by omega⟩

def twoChars : Memory := fun a => if a = 64 then 97 else if a = 65 then 98 else 0

theorem twoChars_string : CString twoChars 64 [97, 98] := by
  simp [CString, twoChars]

theorem twoChars_source : Source twoChars 64 4 [97, 98] := by
  exact ⟨fun i hi _ => twoChars_string.byte hi, fun _ => twoChars_string.nul,
    twoChars_string.nonzero⟩

/-- Two characters into four bytes. -/
theorem kstrncpy_writes_short :
    let r := kstrncpy twoChars 16 64 4
    (∀ i < 4,
    r.mem (16 + i) = (([97, 98] : List UInt8).take 4 ++ List.replicate (4 - 2) 0).getD i 0) ∧
      (∀ a, a < 16 ∨ 16 + 4 ≤ a → r.mem a = twoChars a) ∧
      (∀ a ∈ r.reads, ∃ i, a = 64 + i ∧ i < 4 ∧ i ≤ 2) ∧ r.result = 16 :=
  kstrncpy_writes twoChars 16 64 4 [97, 98] twoChars_source (by decide) (by decide) (by decide)

-- ---------------------------------------------------------------------------
-- kstrncat.c
-- ---------------------------------------------------------------------------

/-- `while (*s != '\0' && (n-- > 1)) *d++ = *s++;` -/
def appendChars (m : Memory) (d s : Nat) : Nat → Memory × Nat
  | 0 => (m, d)
  | 1 => (m, d)
  | n + 2 =>
    if m s ≠ 0 then appendChars (m.store8 d (m s)) (Word32.add d 1) (Word32.add s 1) (n + 1)
    else (m, d)

/-- `none` when the walk to the end of `s1` does not end. -/
def kstrncat (m : Memory) (s1 s2 n : Nat) : Option (Nat × Memory) :=
  match m.seek (· == 0) 4294967296 s1 with
  | none => none
  | some d =>
    let r := appendChars m d s2 n
    some (s1, r.1.store8 r.2 0)

theorem appendChars_appends (n : Nat) : ∀ {m : Memory} {d s : Nat} {ys : List UInt8},
    CString m s ys → d + min (n - 1) ys.length < 4294967296 →
    d + min (n - 1) ys.length < s ∨ s + ys.length < d →
    (∀ i < min (n - 1) ys.length, (appendChars m d s n).1 (d + i) = ys.getD i 0) ∧
      (∀ a, a < d ∨ d + min (n - 1) ys.length ≤ a → (appendChars m d s n).1 a = m a) ∧
      (appendChars m d s n).2 = d + min (n - 1) ys.length := by
  induction n with
  | zero =>
    intro m d s ys _ _ _
    simp [appendChars]
  | succ n ih =>
    intro m d s ys hys hd hapart
    rw [Nat.add_sub_cancel] at hd hapart ⊢
    cases n with
    | zero => simp [appendChars]
    | succ n =>
      cases ys with
      | nil => simp [appendChars, hys.1]
      | cons y ys =>
        rw [List.length_cons] at hd hapart ⊢
        have hlt := hys.lt
        rw [List.length_cons] at hlt
        have hne : m s ≠ 0 := hys.1 ▸ hys.2.1
        have htail : CString (m.store8 d (m s)) (s + 1) ys := hys.2.2.congr fun a _ _ => by
          rw [Memory.store8, if_neg (by omega)]
        obtain ⟨hin, hout, hend⟩ := ih (d := d + 1) htail (by omega) (by omega)
        rw [Nat.add_sub_cancel] at hin hout hend
        rw [appendChars, if_pos hne, Word32.add_of_lt (by omega), Word32.add_of_lt (by omega)]
        refine ⟨fun i hi => ?_, fun a ha => ?_, by omega⟩
        · cases i with
          | zero => exact (hout d (.inl (Nat.lt_succ_self d))).trans ((if_pos rfl).trans hys.1)
          | succ i =>
            have hat := hin i (by omega)
            rwa [Nat.add_assoc, Nat.add_comm 1 i] at hat
        · rw [hout a (by omega), Memory.store8, if_neg (by omega)]

/-- The string at `s1` is `xs` with the first `k` characters of `ys` behind
it, and no other byte has changed. -/
structure Appended (m : Memory) (s1 : Nat) (xs ys : List UInt8) (k : Nat) (m' : Memory) : Prop where
  string : CString m' s1 (xs ++ ys.take k)
  outside : ∀ a, a < s1 + xs.length ∨ s1 + xs.length + min k ys.length < a → m' a = m a

theorem kstrncat_appends (h1 : CString m s1 xs) (h2 : CString m s2 ys)
    (hroom : s1 + xs.length + min (n - 1) ys.length < 4294967296)
    (hapart : s1 + xs.length + min (n - 1) ys.length < s2 ∨ s2 + ys.length < s1) :
    ∃ m', kstrncat m s1 s2 n = some (s1, m') ∧ Appended m s1 xs ys (n - 1) m' := by
  have hseek : m.seek (· == 0) 4294967296 s1 = some (s1 + xs.length) := by
    have hlt := h1.lt
    exact h1.seek_nul (by omega)
  obtain ⟨hin, hout, hend⟩ := appendChars_appends n (d := s1 + xs.length) h2 hroom (by omega)
  refine ⟨_, by rw [kstrncat, hseek], ?_, fun a ha => ?_⟩
  · apply CString.of_bytes
    · intro i hi
      rw [List.length_append, List.length_take] at hi
      rw [hend, Memory.store8, if_neg (by omega)]
      by_cases hix : i < xs.length
      · rw [hout _ (by omega), h1.byte hix, List.getElem_append_left hix]
      · have hat := hin (i - xs.length) (by omega)
        rw [show s1 + xs.length + (i - xs.length) = s1 + i by omega] at hat
        rw [hat, List.getElem_append_right (by omega), List.getElem_take,
          List.getD_eq_getElem _ _ (by omega)]
    · rw [hend, Memory.store8, if_pos (by rw [List.length_append, List.length_take]; omega)]
    · intro x hx
      rcases List.mem_append.mp hx with hx | hx
      · exact h1.nonzero x hx
      · exact h2.nonzero x (List.mem_of_mem_take hx)
    · rw [List.length_append, List.length_take]
      omega
  · rw [hend, Memory.store8, if_neg (by omega), hout a (by omega)]

/-- The first `n` characters are appended if and only if none of them is
lost: `n` is 0 or `ys` is shorter than `n`. -/
theorem kstrncat_iff (m : Memory) (s1 s2 n : Nat) (xs ys : List UInt8) (h1 : CString m s1 xs)
    (h2 : CString m s2 ys) (hroom : s1 + xs.length + min n ys.length < 4294967296)
    (hapart : s1 + xs.length + min n ys.length < s2 ∨ s2 + ys.length < s1) :
    (∃ m', kstrncat m s1 s2 n = some (s1, m') ∧ Appended m s1 xs ys n m') ↔ n = 0 ∨
    ys.length < n := by
  obtain ⟨m', hrun, happ⟩ := kstrncat_appends (n := n) h1 h2 (by omega) (by omega)
  have hsame : n = 0 ∨ ys.length < n → Appended m s1 xs ys n m' := by
    intro hn
    have htake : ys.take n = ys.take (n - 1) := by
      rcases hn with rfl | hn
      · rfl
      · rw [List.take_of_length_le (by omega), List.take_of_length_le (by omega)]
    have hmin : min n ys.length = min (n - 1) ys.length := by omega
    exact ⟨htake ▸ happ.string, fun a ha => happ.outside a (hmin ▸ ha)⟩
  constructor
  · rintro ⟨m'', hrun', happ'⟩
    obtain rfl : m' = m'' := by
      rw [hrun] at hrun'
      exact congrArg Prod.snd (Option.some.inj hrun')
    have hlen := congrArg List.length (happ.string.unique happ'.string)
    rw [List.length_append, List.length_append, List.length_take, List.length_take] at hlen
    omega
  · intro hn
    exact ⟨m', hrun, hsame hn⟩

/-- One character of two asked for, behind an empty string: none arrives. -/
theorem kstrncat_loses : CString twoChars 16 [] ∧ CString twoChars 64 [97, 98] ∧
    ¬∃ m', kstrncat twoChars 16 64 1 = some (16, m') ∧ Appended twoChars 16 [] [97, 98] 1 m' := by
  refine ⟨by simp [CString, twoChars], twoChars_string, ?_⟩
  rintro ⟨m', hrun, happ⟩
  have hzero : (kstrncat twoChars 16 64 1).map (fun r => r.2 16) = some 0 := by decide +kernel
  rw [hrun] at hzero
  have hchar : m' 16 = 97 := happ.string.1
  simp [hchar] at hzero

theorem kstrncat_iff_twoChars :
    (∃ m', kstrncat twoChars 16 64 3 = some (16, m') ∧ Appended twoChars 16 [] [97, 98] 3 m') ↔
      3 = 0 ∨ [97, 98].length < 3 :=
  kstrncat_iff twoChars 16 64 3 [] [97, 98] (by simp [CString, twoChars]) twoChars_string (by
    decide) (by decide)

end ElcoOs.Kstring
