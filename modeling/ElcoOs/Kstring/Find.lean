import ElcoOs.Kstring.Search

/-!
# kmemchr, kstrpbrk and kstrstr

Searches that return the first place. `kmemchr` compares as `unsigned char`
and `kstrpbrk` and `kstrstr` compare two `char`s, so none of them has the
trouble of `kstrchr` with bytes from 128 on.
-/

namespace ElcoOs.Kstring

def kmemchr (m : Memory) (s : Nat) (c : Int) : Nat → Option Nat
  | 0 => none
  | n + 1 => if m s = toChar c then some s else kmemchr m (Word32.add s 1) c n

/-- The outer loop of `kstrpbrk`; the inner one looks for `*s1` in `s2`. -/
def kstrpbrkLoop (m : Memory) (s2 : Nat) : Nat → Nat → Option (Option Nat)
  | 0, _ => none
  | fuel + 1, s1 =>
    if m s1 ≠ 0 then
      match m.seek (fun b => b == 0 || b == m s1) addressSpace s2 with
      | none => none
      | some k => if m k ≠ 0 then some (some s1) else kstrpbrkLoop m s2 fuel (Word32.add s1 1)
    else some none

def kstrpbrk (m : Memory) (s1 s2 : Nat) : Option (Option Nat) := kstrpbrkLoop m s2 addressSpace s1

/-- The inner loop of `kstrstr`: where in `s2` it ends. -/
def matchLoop (m : Memory) : Nat → Nat → Nat → Option Nat
  | 0, _, _ => none
  | fuel + 1, s, n =>
    if m s ≠ 0 ∧ m n ≠ 0 ∧ m s = m n then matchLoop m fuel (Word32.add s 1) (Word32.add n 1) else
      some n

def kstrstrLoop (m : Memory) (s2 : Nat) : Nat → Nat → Option (Option Nat)
  | 0, _ => none
  | fuel + 1, p =>
    if m p ≠ 0 then
      match matchLoop m addressSpace p s2 with
      | none => none
      | some n => if m n = 0 then some (some p) else kstrstrLoop m s2 fuel (Word32.add p 1)
    else some none

def kstrstr (m : Memory) (s1 s2 : Nat) : Option (Option Nat) :=
  if m s2 = 0 then some (some s1) else kstrstrLoop m s2 addressSpace s1

-- ---------------------------------------------------------------------------
-- First places
-- ---------------------------------------------------------------------------

/-- `r` is the address of the first of the places `0, ..., n - 1` from `s` on at which `p` holds,
and `NULL` if there is none. -/
def FirstPlace (s n : Nat) (p : Nat → Prop) : Option Nat → Prop
  | some a => ∃ i < n, a = s + i ∧ p i ∧ ∀ j < i, ¬p j
  | none => ∀ i < n, ¬p i

variable {m : Memory} {s n a f k : Nat} {c : Int} {p : Nat → Prop} {xs ys ds : List UInt8}
  {x : UInt8} {r : Option Nat}

theorem FirstPlace.here (hn : 0 < n) (h : p 0) : FirstPlace s n p (some s) :=
  ⟨0, hn, rfl, h, fun _ hj => absurd hj (Nat.not_lt_zero _)⟩

theorem FirstPlace.later (hno : ¬p 0) (h : FirstPlace (s + 1) n (fun i => p (i + 1)) r) :
    FirstPlace s (n + 1) p r := by
  cases r with
  | none =>
    intro i hi
    cases i with
    | zero => exact hno
    | succ i => exact h i (by omega)
  | some a =>
    obtain ⟨i, hi, ha, hp, hbefore⟩ := h
    refine ⟨i + 1, by omega, by omega, hp, fun j hj => ?_⟩
    cases j with
    | zero => exact hno
    | succ j => exact hbefore j (by omega)

theorem FirstPlace.congr {q : Nat → Prop} (h : FirstPlace s n p r) (hpq : ∀ i < n, p i ↔ q i) :
    FirstPlace s n q r := by
  cases r with
  | none => exact fun i hi hq => h i hi ((hpq i hi).mpr hq)
  | some a =>
    obtain ⟨i, hi, ha, hp, hbefore⟩ := h
    exact ⟨i, hi, ha, (hpq i hi).mp hp, fun j hj hq => hbefore j hj ((hpq j (by omega)).mpr hq)⟩

-- ---------------------------------------------------------------------------
-- The functions
-- ---------------------------------------------------------------------------

theorem kmemchr_first (h : s + n ≤ 4294967296) : FirstPlace s n (fun i => m (s + i) = toChar c)
    (kmemchr m s c n) := by
  induction n generalizing s with
  | zero => exact fun i hi => absurd hi (Nat.not_lt_zero _)
  | succ n ih =>
    rw [kmemchr]
    by_cases heq : m s = toChar c
    · rw [if_pos heq]
      exact .here (Nat.succ_pos _) heq
    · rw [if_neg heq]
      refine .later heq ?_
      cases n with
      | zero => exact fun i hi => absurd hi (Nat.not_lt_zero _)
      | succ n =>
        rw [Word32.add_of_lt (by omega)]
        refine (ih (by omega)).congr fun i _ => ?_
        rw [Nat.add_assoc, Nat.add_comm 1 i]

theorem kstrpbrkLoop_first (h : CString m s xs) (hd : CString m n ds) (hfuel : xs.length < f) :
    ∃ r, kstrpbrkLoop m n f s = some r ∧ FirstPlace s xs.length (fun i => m (s + i) ∈ ds) r := by
  induction xs generalizing s f with
  | nil =>
    obtain ⟨f, rfl⟩ := Nat.exists_eq_add_of_lt hfuel
    exact ⟨none, if_neg (fun hne => hne h.1), fun i hi => absurd hi (Nat.not_lt_zero _)⟩
  | cons x xs ih =>
    obtain ⟨f, rfl⟩ := Nat.exists_eq_add_of_lt hfuel
    have hlt := h.lt
    rw [List.length_cons] at hlt
    have hne : m s ≠ 0 := h.1 ▸ h.2.1
    obtain ⟨k, hseek, hk⟩ := seek_delimiter hd hne
    rw [kstrpbrkLoop, if_pos hne, hseek]
    by_cases hin : m s ∈ ds
    · have hk' : m k ≠ 0 := fun h0 => hk.mp h0 hin
      exact ⟨some s, if_pos hk', .here (Nat.succ_pos _) hin⟩
    · obtain ⟨r, hr, hfirst⟩ := ih (f := xs.length + 1 + f) h.2.2 (by omega)
      refine ⟨r, ?_, .later hin (hfirst.congr fun i _ => ?_)⟩
      · rw [← hr, ← Word32.add_of_lt (show s + 1 < 4294967296 by omega)]
        exact if_neg fun hk' => hk' (hk.mpr hin)
      · rw [Nat.add_assoc, Nat.add_comm 1 i]

theorem matchLoop_prefix (h : CString m s xs) (hy : CString m n ys) (hfuel : xs.length < f) :
    ∃ k, matchLoop m f s n = some k ∧ (m k = 0 ↔ ys <+: xs) := by
  induction xs generalizing s n ys f with
  | nil =>
    obtain ⟨f, rfl⟩ := Nat.exists_eq_add_of_lt hfuel
    refine ⟨n, if_neg fun hgo => hgo.1 h.1, ?_⟩
    cases ys with
    | nil => simp [hy.1]
    | cons y ys => simp [hy.1, hy.2.1]
  | cons x xs ih =>
    obtain ⟨f, rfl⟩ := Nat.exists_eq_add_of_lt hfuel
    have hlt := h.lt
    have hlt' := hy.lt
    rw [List.length_cons] at hlt
    rw [matchLoop, h.1]
    cases ys with
    | nil => exact ⟨n, if_neg fun hgo => hgo.2.1 hy.1, by simp [hy.1]⟩
    | cons y ys =>
      rw [List.length_cons] at hlt'
      rw [hy.1]
      by_cases hxy : x = y
      · subst hxy
        rw [if_pos ⟨h.2.1, h.2.1, rfl⟩, Word32.add_of_lt (by omega), Word32.add_of_lt (by omega)]
        obtain ⟨k, hk, hiff⟩ := ih (f := xs.length + 1 + f) h.2.2 hy.2.2 (by omega)
        exact ⟨k, hk, hiff.trans (by simp)⟩
      · refine ⟨n, if_neg fun hgo => hxy hgo.2.2, ?_⟩
        rw [hy.1]
        simp [hy.2.1, Ne.symm hxy]

theorem kstrstrLoop_first (h : CString m s xs) (hy : CString m n ys) (hne : ys ≠ [])
    (hfuel : xs.length < f) :
    ∃ r, kstrstrLoop m n f s = some r ∧
      FirstPlace s (xs.length + 1) (fun i => ys <+: xs.drop i) r := by
  induction xs generalizing s f with
  | nil =>
    obtain ⟨f, rfl⟩ := Nat.exists_eq_add_of_lt hfuel
    refine ⟨none, if_neg (fun hn => hn h.1), fun i _ hpre => hne (List.prefix_nil.mp ?_)⟩
    rwa [← List.drop_nil (i := i)]
  | cons x xs ih =>
    obtain ⟨f, rfl⟩ := Nat.exists_eq_add_of_lt hfuel
    have hlt := h.lt
    rw [List.length_cons] at hlt
    obtain ⟨k, hk, hiff⟩ :=
      matchLoop_prefix h hy (f := addressSpace) (by rw [List.length_cons, addressSpace]; omega)
    rw [kstrstrLoop, if_pos (h.1 ▸ h.2.1), hk]
    by_cases hpre : ys <+: x :: xs
    · exact ⟨some s, if_pos (hiff.mpr hpre), .here (Nat.succ_pos _) hpre⟩
    · obtain ⟨r, hr, hfirst⟩ := ih (f := xs.length + 1 + f) h.2.2 (by omega)
      refine ⟨r, ?_, .later hpre hfirst⟩
      rw [← hr, ← Word32.add_of_lt (show s + 1 < 4294967296 by omega)]
      exact if_neg fun h0 => hpre (hiff.mp h0)

theorem kstrstr_first (h : CString m s xs) (hy : CString m n ys) :
    ∃ r, kstrstr m s n = some r ∧ FirstPlace s (xs.length + 1) (fun i => ys <+: xs.drop i) r := by
  have hlt := h.lt
  rw [kstrstr]
  cases ys with
  | nil => exact ⟨some s, if_pos hy.1, .here (Nat.succ_pos _) (List.nil_prefix)⟩
  | cons y ys =>
    rw [if_neg (by rw [hy.1]; exact hy.2.1)]
    exact kstrstrLoop_first h hy (List.cons_ne_nil _ _) (by rw [addressSpace]; omega)

/-- The three searches find the first place, whatever the bytes are. -/
theorem searches (m : Memory) (s1 s2 : Nat) (xs ys : List UInt8) (c : Int) (n : Nat)
    (h1 : CString m s1 xs) (h2 : CString m s2 ys) (hn : s1 + n ≤ 4294967296) :
    FirstPlace s1 n (fun i => m (s1 + i) = toChar c) (kmemchr m s1 c n) ∧
      (∃ r, kstrpbrk m s1 s2 = some r ∧ FirstPlace s1 xs.length (fun i => m (s1 + i) ∈ ys) r) ∧
      ∃ r, kstrstr m s1 s2 = some r ∧
        FirstPlace s1 (xs.length + 1) (fun i => ys <+: xs.drop i) r := by
  have hlt := h1.lt
  exact ⟨kmemchr_first hn, kstrpbrkLoop_first h1 h2 (by rw [addressSpace]; omega),
    kstrstr_first h1 h2⟩

/-- A byte of 233, one of the other string, and that string itself. -/
theorem searches_accented :
    FirstPlace 16 5 (fun i => accented (16 + i) = toChar 233) (kmemchr accented 16 233 5) ∧
    (∃ r, kstrpbrk accented 16 24 = some r ∧
    FirstPlace 16 5 (fun i => accented (16 + i) ∈ [98, 233]) r) ∧
    (∃ r, kstrstr accented 16 24 = some r ∧
    FirstPlace 16 6 (fun i => [98, 233] <+: [97, 98, 97, 98, (233 : UInt8)].drop i) r) ∧
    kmemchr accented 16 233 5 = some 20 ∧ kstrpbrk accented 16 24 = some (some 17) ∧
    kstrstr accented 16 24 = some (some 19) := by
  obtain ⟨hchr, hpbrk, hstr⟩ :=
    searches accented 16 24 [97, 98, 97, 98, 233] [98, 233] 233 5 accented_strings.1
    accented_strings.2 (by decide)
  exact ⟨hchr, hpbrk, hstr, by decide +kernel, by decide +kernel, by decide +kernel⟩

end ElcoOs.Kstring
