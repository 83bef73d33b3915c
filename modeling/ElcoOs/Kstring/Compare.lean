import ElcoOs.Kstring.Search

/-!
# kmemcmp, kstrcmp and kstrncmp

All three subtract the first two bytes that differ, as `unsigned char`. So the
sign of the result is the order of the bytes as lists, a prefix before what it
is a prefix of.
-/

namespace ElcoOs.Kstring

/-- `*a - *b`, of bytes promoted to `int`. -/
def byteDiff (x y : UInt8) : Int := (x.toNat : Int) - y.toNat

def kmemcmp (m : Memory) : Nat → Nat → Nat → Int
  | _, _, 0 => 0
  | s1, s2, n + 1 =>
    let r := byteDiff (m s1) (m s2)
    if r ≠ 0 then r else kmemcmp m (Word32.add s1 1) (Word32.add s2 1) n

/-- The loop of `kstrcmp`, and what is returned after it. -/
def kstrcmpLoop (m : Memory) : Nat → Nat → Nat → Option Int
  | 0, _, _ => none
  | fuel + 1, a, b =>
    if m a ≠ 0 ∧ m a = m b then kstrcmpLoop m fuel (Word32.add a 1) (Word32.add b 1) else
      some (byteDiff (m a) (m b))

def kstrcmp (m : Memory) (s1 s2 : Nat) : Option Int := kstrcmpLoop m addressSpace s1 s2

def kstrncmp (m : Memory) : Nat → Nat → Nat → Int
  | _, _, 0 => 0
  | a, b, n + 1 =>
    if m a ≠ 0 ∧ m a = m b then kstrncmp m (Word32.add a 1) (Word32.add b 1) n else
      byteDiff (m a) (m b)

-- ---------------------------------------------------------------------------
-- The order
-- ---------------------------------------------------------------------------

/-- The `n` bytes from `s` on. -/
def bytes (m : Memory) : Nat → Nat → List UInt8
  | _, 0 => []
  | s, n + 1 => m s :: bytes m (s + 1) n

def text (m : Memory) (s n : Nat) : List UInt8 := (bytes m s n).takeWhile (· != 0)

/-- The first `n` characters at `s`, or all of a string, lie below the end of the address space. -/
def Readable (m : Memory) (s n : Nat) : Prop := s + n ≤ 4294967296 ∨ ∃ xs, CString m s xs

/-- The sign of `r` says how two lists compare. -/
structure Compares (r : Int) (xs ys : List UInt8) : Prop where
  less : r < 0 ↔ xs < ys
  equal : r = 0 ↔ xs = ys
  greater : 0 < r ↔ ys < xs

variable {m : Memory} {s s1 s2 n f : Nat} {x y : UInt8} {xs ys : List UInt8} {r : Int}

theorem byteDiff_lt : byteDiff x y < 0 ↔ x < y := by
  rw [UInt8.lt_iff_toNat_lt, byteDiff]
  omega

theorem byteDiff_eq : byteDiff x y = 0 ↔ x = y := by
  rw [← UInt8.toNat_inj, byteDiff]
  omega

theorem byteDiff_gt : 0 < byteDiff x y ↔ y < x := by
  rw [UInt8.lt_iff_toNat_lt, byteDiff]
  omega

theorem pos_of_ne_zero (h : x ≠ 0) : 0 < x := by
  rw [UInt8.lt_iff_toNat_lt]
  exact Nat.pos_of_ne_zero fun h0 => h (UInt8.toNat_inj.mp h0)

theorem Compares.nil : Compares 0 [] [] := ⟨by simp, by simp, by simp⟩

theorem Compares.cons (h : Compares r xs ys) : Compares r (x :: xs) (x :: ys) := by
  refine ⟨h.less.trans ?_, h.equal.trans ?_, h.greater.trans ?_⟩
  · simp
  · simp
  · simp

theorem Compares.differ (h : x ≠ y) : Compares (byteDiff x y) (x :: xs) (y :: ys) := by
  refine ⟨byteDiff_lt.trans ?_, byteDiff_eq.trans ?_, byteDiff_gt.trans ?_⟩
  · simp [List.cons_lt_cons_iff, h]
  · simp [h]
  · simp [List.cons_lt_cons_iff, h.symm]

theorem Compares.left_nil (h : y ≠ 0) : Compares (byteDiff 0 y) [] (y :: ys) := by
  have hpos := pos_of_ne_zero h
  refine ⟨byteDiff_lt.trans ?_, byteDiff_eq.trans ?_, byteDiff_gt.trans ?_⟩
  · simp [hpos]
  · simp [h.symm]
  · simp

theorem Compares.right_nil (h : x ≠ 0) : Compares (byteDiff x 0) (x :: xs) [] := by
  have hpos := pos_of_ne_zero h
  refine ⟨byteDiff_lt.trans ?_, byteDiff_eq.trans ?_, byteDiff_gt.trans ?_⟩
  · simp
  · simp [h]
  · simp [hpos]

-- ---------------------------------------------------------------------------
-- The functions
-- ---------------------------------------------------------------------------

theorem kmemcmp_compares (h1 : s1 + n ≤ 4294967296) (h2 : s2 + n ≤ 4294967296) :
    Compares (kmemcmp m s1 s2 n) (bytes m s1 n) (bytes m s2 n) := by
  induction n generalizing s1 s2 with
  | zero => exact .nil
  | succ n ih =>
    rw [kmemcmp, bytes, bytes]
    by_cases hxy : m s1 = m s2
    · rw [if_neg (fun hne => hne (byteDiff_eq.mpr hxy)), hxy]
      cases n with
      | zero => exact Compares.nil.cons
      | succ n =>
        rw [Word32.add_of_lt (by omega), Word32.add_of_lt (by omega)]
        exact (ih (by omega) (by omega)).cons
    · rw [if_pos (fun h0 => hxy (byteDiff_eq.mp h0))]
      exact .differ hxy

theorem text_succ : text m s (n + 1) = if m s ≠ 0 then m s :: text m (s + 1) n else [] := by
  rw [text, bytes, List.takeWhile_cons]
  by_cases h : m s = 0
  · simp [h]
  · simp [h, text]

/-- Where the bytes differ, or both are the terminator. -/
theorem compares_stop (h : ¬(x ≠ 0 ∧ x = y)) :
    Compares (byteDiff x y) (if x ≠ 0 then x :: xs else []) (if y ≠ 0 then y :: ys else []) := by
  by_cases hx : x = 0
  · subst hx
    by_cases hy : y = 0
    · subst hy
      exact .nil
    · rw [if_neg (by simp), if_pos hy]
      exact .left_nil hy
  · rw [if_pos hx]
    by_cases hy : y = 0
    · subst hy
      rw [if_neg (by simp)]
      exact .right_nil hx
    · rw [if_pos hy]
      exact .differ fun hxy => h ⟨hx, hxy⟩

theorem text_eq_take (h : CString m s xs) (n : Nat) : text m s n = xs.take n := by
  induction n generalizing s xs with
  | zero => rfl
  | succ n ih =>
    rw [text_succ]
    cases xs with
    | nil => rw [if_neg (not_not_intro h.1), List.take_nil]
    | cons x xs =>
      obtain ⟨hx, hne, hrest⟩ := h
      rw [hx, if_pos hne, ih hrest, List.take_succ_cons]

theorem Readable.next (h : Readable m s (n + 2)) (hne : m s ≠ 0) :
    Word32.add s 1 = s + 1 ∧ Readable m (s + 1) (n + 1) := by
  rcases h with hn | ⟨xs, hx⟩
  · exact ⟨Word32.add_of_lt (by omega), .inl (by omega)⟩
  · cases xs with
    | nil => exact absurd hx.1 hne
    | cons x xs =>
      have hlt := hx.lt
      rw [List.length_cons] at hlt
      exact ⟨Word32.add_of_lt (by omega), .inr ⟨xs, hx.2.2⟩⟩

theorem kstrncmp_compares (h1 : Readable m s1 n) (h2 : Readable m s2 n) :
    Compares (kstrncmp m s1 s2 n) (text m s1 n) (text m s2 n) := by
  induction n generalizing s1 s2 with
  | zero => exact .nil
  | succ n ih =>
    rw [kstrncmp, text_succ, text_succ]
    by_cases hgo : m s1 ≠ 0 ∧ m s1 = m s2
    · rw [if_pos hgo, if_pos hgo.1, if_pos (hgo.2 ▸ hgo.1), hgo.2]
      cases n with
      | zero => exact Compares.nil.cons
      | succ n =>
        obtain ⟨hadd1, hnext1⟩ := h1.next hgo.1
        obtain ⟨hadd2, hnext2⟩ := h2.next (hgo.2 ▸ hgo.1)
        rw [hadd1, hadd2]
        exact (ih hnext1 hnext2).cons
    · rw [if_neg hgo]
      exact compares_stop hgo

theorem kstrcmpLoop_compares (h1 : CString m s1 xs) (h2 : CString m s2 ys) (hfuel : xs.length < f) :
    ∃ r, kstrcmpLoop m f s1 s2 = some r ∧ Compares r xs ys := by
  induction xs generalizing s1 s2 ys f with
  | nil =>
    obtain ⟨f, rfl⟩ := Nat.exists_eq_add_of_lt hfuel
    refine ⟨_, if_neg fun hgo => hgo.1 h1.1, ?_⟩
    rw [h1.1]
    cases ys with
    | nil =>
      rw [h2.1]
      exact .nil
    | cons y ys =>
      rw [h2.1]
      exact .left_nil h2.2.1
  | cons x xs ih =>
    obtain ⟨f, rfl⟩ := Nat.exists_eq_add_of_lt hfuel
    have hlt1 := h1.lt
    have hlt2 := h2.lt
    rw [List.length_cons] at hlt1
    rw [kstrcmpLoop, h1.1]
    cases ys with
    | nil =>
      rw [h2.1, if_neg fun hgo => h1.2.1 hgo.2]
      exact ⟨_, rfl, .right_nil h1.2.1⟩
    | cons y ys =>
      rw [List.length_cons] at hlt2
      rw [h2.1]
      by_cases hxy : x = y
      · subst hxy
        rw [if_pos ⟨h1.2.1, rfl⟩, Word32.add_of_lt (by omega), Word32.add_of_lt (by omega)]
        obtain ⟨r, hr, hcompares⟩ := ih (f := xs.length + 1 + f) h1.2.2 h2.2.2 (by omega)
        exact ⟨r, hr, hcompares.cons⟩
      · rw [if_neg fun hgo => hxy hgo.2]
        exact ⟨_, rfl, .differ hxy⟩

/-- The three functions compare in the same order: that of `unsigned char`. -/
theorem comparisons (m : Memory) (s1 s2 : Nat) :
    (∀ n, s1 + n ≤ 4294967296 → s2 + n ≤ 4294967296 →
      Compares (kmemcmp m s1 s2 n) (bytes m s1 n) (bytes m s2 n)) ∧
      (∀ n, Readable m s1 n → Readable m s2 n →
      Compares (kstrncmp m s1 s2 n) (text m s1 n) (text m s2 n)) ∧
      ∀ xs ys, CString m s1 xs → CString m s2 ys → ∃ r, kstrcmp m s1 s2 = some r ∧
        Compares r xs ys := by
  refine ⟨fun n => kmemcmp_compares, fun n => kstrncmp_compares, fun xs ys hx hy => ?_⟩
  refine kstrcmpLoop_compares hx hy ?_
  have := hx.lt
  rw [addressSpace]
  omega

/-- A character of 233 against "b" with one behind it, of which any number may be asked for. -/
theorem comparisons_accented :
    Compares (kmemcmp accented 20 24 2) [233, 0] [98, 233] ∧
    Compares (kstrncmp accented 20 24 4294967295) [233] [98, 233] ∧
    ∃ r, kstrcmp accented 20 24 = some r ∧ Compares r [233] [98, 233] := by
  have h1 : CString accented 20 [233] := accented_strings.1.drop 4 (by decide)
  have h2 := accented_strings.2
  obtain ⟨hmem, hn, hstr⟩ := comparisons accented 20 24
  refine ⟨hmem 2 (by decide) (by decide), ?_, hstr _ _ h1 h2⟩
  have hall := hn 4294967295 (.inr ⟨_, h1⟩) (.inr ⟨_, h2⟩)
  rwa [text_eq_take h1, text_eq_take h2] at hall

end ElcoOs.Kstring
