import ElcoOs.Lib.CString

/-!
# kstrlen, kstrchr, kstrrchr, kstrspn and kstrcspn

The functions of `kstring.h` that only read. A `char *` is `none` for `NULL`.
`char` is signed: where a comparison promotes one to `int`, a byte from 128
on counts as negative.
-/

namespace ElcoOs.Kstring

def addressSpace : Nat := 4294967296

/-- A `char` promoted to `int`. -/
def charToInt (b : UInt8) : Int := if b.toNat < 128 then b.toNat else b.toNat - 256

/-- `(char) c`, and `(unsigned char) c`, as a byte. -/
def toChar (c : Int) : UInt8 := UInt8.ofNat (c % 256).toNat

def kstrlen (m : Memory) (s : Nat) : Option Nat :=
  match m.seek (· == 0) addressSpace s with
  | none => none
  | some p => some (Word32.sub p s)

-- ---------------------------------------------------------------------------
-- kstrchr.c and kstrrchr.c
-- ---------------------------------------------------------------------------

def kstrchr (m : Memory) (s : Nat) (c : Int) : Option (Option Nat) :=
  let v : Nat := (toChar c).toNat
  match m.seek (fun b => b == 0 || charToInt b == v) addressSpace s with
  | none => none
  | some s => some (if m s ≠ 0 ∨ v = 0 then some s else none)

/-- The loop of `kstrrchr`, to the terminator and the last match before it. -/
def kstrrchrLoop (m : Memory) (v : Nat) : Nat → Nat → Option Nat → Option (Nat × Option Nat)
  | 0, _, _ => none
  | fuel + 1, s, result =>
    if m s ≠ 0 then kstrrchrLoop m v fuel (Word32.add s 1) (if charToInt (m s) = v then
      some s else result)
    else some (s, result)

def kstrrchr (m : Memory) (s : Nat) (c : Int) : Option (Option Nat) :=
  let v : Nat := (toChar c).toNat
  match kstrrchrLoop m v addressSpace s none with
  | none => none
  | some (s, result) => some (if v = 0 then some s else result)

variable {m : Memory} {s i n v f : Nat} {xs ds : List UInt8} {c : Int} {r : Option Nat}

/-- `r` is the address of the first of the bytes `0, ..., n` at `s` that is
`b`, and `NULL` if there is none. -/
def PointsToFirst (m : Memory) (s n : Nat) (b : UInt8) : Option Nat → Prop
  | some p => ∃ i ≤ n, p = s + i ∧ m (s + i) = b ∧ ∀ j < i, m (s + j) ≠ b
  | none => ∀ i ≤ n, m (s + i) ≠ b

def PointsToLast (m : Memory) (s n : Nat) (b : UInt8) : Option Nat → Prop
  | some p => ∃ i ≤ n, p = s + i ∧ m (s + i) = b ∧ ∀ j ≤ n, i < j → m (s + j) ≠ b
  | none => ∀ i ≤ n, m (s + i) ≠ b

theorem toChar_toNat (c : Int) : ((toChar c).toNat : Int) = c % 256 := by
  have h0 := Int.emod_nonneg c (show (256 : Int) ≠ 0 by decide)
  have h1 := Int.emod_lt_of_pos c (show (0 : Int) < 256 by decide)
  rw [toChar, UInt8.toNat_ofNat', Nat.mod_eq_of_lt (by omega)]
  omega

/-- The comparison in the two loops: never true of a byte from 128 on. -/
theorem charToInt_eq_iff (b a : UInt8) : charToInt b = a.toNat ↔ b = a ∧ b.toNat < 128 := by
  rw [← UInt8.toNat_inj]
  have := b.toNat_lt
  unfold charToInt
  split <;> omega

theorem kstrlen_string (h : CString m s xs) : kstrlen m s = some xs.length := by
  have hlt := h.lt
  rw [kstrlen, h.seek_nul (by rw [addressSpace]; omega)]
  simp only [Option.some.injEq]
  rw [Word32.sub_of_le (by omega) (by omega)]
  omega

/-- Whether the comparison with `c` can be true of a byte: not when it is one
from 128 on. -/
def Found (c : Int) (b : UInt8) : Prop := b = toChar c ∧ b.toNat < 128

theorem kstrchr_string (h : CString m s xs) (c : Int) :
    ∃ k ≤ xs.length, (m (s + k) = 0 ∨ Found c (m (s + k))) ∧ (∀ j < k, ¬Found c (m (s + j))) ∧
      kstrchr m s c = some (if m (s + k) ≠ 0 ∨ (toChar c).toNat = 0 then
      some (s + k) else none) := by
  have hlt := h.lt
  obtain ⟨k, hk, hseek, hstop, hbefore⟩ := h.seek_first (n := addressSpace)
    (p := fun b => b == 0 || charToInt b == (toChar c).toNat) rfl (by rw [addressSpace]; omega)
  refine ⟨k, hk, ?_, fun j hj hfound => ?_, by rw [kstrchr, hseek]⟩
  · rw [Bool.or_eq_true, beq_iff_eq, beq_iff_eq, charToInt_eq_iff] at hstop
    exact hstop
  · have hpass := hbefore j hj
    rw [Bool.or_eq_false_iff, beq_eq_false_iff_ne, beq_eq_false_iff_ne, Ne, Ne,
      charToInt_eq_iff] at hpass
    exact hpass.2 hfound

theorem kstrrchrLoop_string (h : CString m s xs) (c : Int) (hfuel : xs.length < f) :
    ∃ r', kstrrchrLoop m (toChar c).toNat f s r = some (s + xs.length, r') ∧
      ((r' = r ∧ ∀ j < xs.length, ¬Found c (m (s + j))) ∨
        ∃ i < xs.length, r' = some (s + i) ∧ Found c (m (s + i)) ∧
          ∀ j < xs.length, i < j → ¬Found c (m (s + j))) := by
  induction xs generalizing s f r with
  | nil =>
    obtain ⟨f, rfl⟩ := Nat.exists_eq_add_of_lt hfuel
    exact ⟨r, by simp [kstrrchrLoop, h.1], .inl ⟨rfl, fun _ hj => absurd hj (Nat.not_lt_zero _)⟩⟩
  | cons x xs ih =>
    obtain ⟨f, rfl⟩ := Nat.exists_eq_add_of_lt hfuel
    have hlt := h.lt
    rw [List.length_cons] at hlt ⊢
    have hne : m s ≠ 0 := h.1 ▸ h.2.1
    rw [kstrrchrLoop, if_pos hne, Word32.add_of_lt (by omega)]
    obtain ⟨r', hloop, hr⟩ := ih (f := xs.length + 1 + f) h.2.2
      (r := if charToInt (m s) = (toChar c).toNat then some s else r) (by omega)
    have hshift : ∀ j, s + 1 + j = s + (j + 1) := fun j => by omega
    simp only [hshift] at hloop hr
    refine ⟨r', hloop, ?_⟩
    rcases hr with ⟨hr', hnone⟩ | ⟨i, hi, hr', hfound, hlast⟩
    · by_cases hx : charToInt (m s) = (toChar c).toNat
      · rw [if_pos hx] at hr'
        refine .inr ⟨0, Nat.succ_pos _, hr', (charToInt_eq_iff _ _).mp hx, fun j hj hpos => ?_⟩
        obtain ⟨j, rfl⟩ := Nat.exists_eq_succ_of_ne_zero (Nat.ne_of_gt hpos)
        exact hnone j (by omega)
      · rw [if_neg hx] at hr'
        refine .inl ⟨hr', fun j hj => ?_⟩
        cases j with
        | zero => exact fun hfound => hx ((charToInt_eq_iff _ _).mpr hfound)
        | succ j => exact hnone j (by omega)
    · refine .inr ⟨i + 1, by omega, hr', hfound, fun j hj hij => ?_⟩
      obtain ⟨j, rfl⟩ :=
        Nat.exists_eq_succ_of_ne_zero (Nat.ne_of_gt (Nat.lt_of_le_of_lt (Nat.zero_le _) hij))
      exact hlast j (by omega) (by omega)

/-- Where the character is ASCII or does not occur, the comparison is the
right one. -/
theorem found_iff (h : CString m s xs) (hc : (toChar c).toNat < 128 ∨ toChar c ∉ xs)
    (hi : i < xs.length) :
    Found c (m (s + i)) ↔ m (s + i) = toChar c := by
  constructor
  · exact fun hfound => hfound.1
  · intro heq
    rcases hc with hc | hc
    · exact ⟨heq, heq ▸ hc⟩
    · exact absurd (h.mem_iff.mpr ⟨i, hi, heq⟩) hc

theorem nul_eq_iff (h : CString m s xs) : m (s + xs.length) = toChar c ↔ (toChar c).toNat = 0 := by
  rw [h.nul, ← UInt8.toNat_inj, UInt8.toNat_zero]
  exact eq_comm

/-- A character from 128 on is never found. -/
theorem not_found (hc : ¬(toChar c).toNat < 128) (b : UInt8) : ¬Found c b :=
  fun hfound => hc (hfound.1 ▸ hfound.2)

theorem kstrchr_first (h : CString m s xs) (hc : (toChar c).toNat < 128 ∨ toChar c ∉ xs) :
    ∃ r, kstrchr m s c = some r ∧ PointsToFirst m s xs.length (toChar c) r := by
  obtain ⟨k, hk, hstop, hbefore, hrun⟩ := kstrchr_string h c
  have hpass : ∀ j < k, m (s + j) ≠ toChar c := fun j hj heq =>
    hbefore j hj ((found_iff h hc (by omega)).mpr heq)
  refine ⟨_, hrun, ?_⟩
  by_cases hkn : k < xs.length
  · have hfound : Found c (m (s + k)) := hstop.resolve_left (h.ne_zero hkn)
    rw [if_pos (.inl (h.ne_zero hkn))]
    exact ⟨k, hk, rfl, hfound.1, hpass⟩
  · obtain rfl : k = xs.length := by omega
    by_cases hnul : (toChar c).toNat = 0
    · rw [if_pos (.inr hnul)]
      exact ⟨_, hk, rfl, (nul_eq_iff h).mpr hnul, hpass⟩
    · rw [if_neg (by simp [h.nul, hnul])]
      intro i hi
      by_cases hin : i < xs.length
      · exact hpass i hin
      · rw [show i = xs.length by omega, Ne, nul_eq_iff h]
        exact hnul

theorem kstrrchr_last (h : CString m s xs) (hc : (toChar c).toNat < 128 ∨ toChar c ∉ xs) :
    ∃ r, kstrrchr m s c = some r ∧ PointsToLast m s xs.length (toChar c) r := by
  have hlt := h.lt
  obtain ⟨r, hloop, hr⟩ := kstrrchrLoop_string (r := none) h c (f := addressSpace)
    (by rw [addressSpace]; omega)
  refine ⟨_, by rw [kstrrchr, hloop], ?_⟩
  by_cases hnul : (toChar c).toNat = 0
  · rw [if_pos hnul]
    exact ⟨_, Nat.le_refl _, rfl, (nul_eq_iff h).mpr hnul, fun j hj hlt => by omega⟩
  · have hend : ∀ j ≤ xs.length, ¬j < xs.length → m (s + j) ≠ toChar c := fun j hj hjn => by
      rw [show j = xs.length by omega, Ne, nul_eq_iff h]
      exact hnul
    rw [if_neg hnul]
    rcases hr with ⟨rfl, hnone⟩ | ⟨i, hi, rfl, hfound, hlast⟩
    · intro j hj
      by_cases hjn : j < xs.length
      · exact fun heq => hnone j hjn ((found_iff h hc hjn).mpr heq)
      · exact hend j hj hjn
    · refine ⟨i, Nat.le_of_lt hi, rfl, hfound.1, fun j hj hij => ?_⟩
      by_cases hjn : j < xs.length
      · exact fun heq => hlast j hjn hij ((found_iff h hc hjn).mpr heq)
      · exact hend j hj hjn

/-- Both functions find every character in the string but one from 128 on. -/
theorem search_iff (m : Memory) (s : Nat) (xs : List UInt8) (c : Int) (h : CString m s xs) :
    ((∃ r, kstrchr m s c = some r ∧ PointsToFirst m s xs.length (toChar c) r) ↔
      c % 256 < 128 ∨ toChar c ∉ xs) ∧
    ((∃ r, kstrrchr m s c = some r ∧ PointsToLast m s xs.length (toChar c) r) ↔
      c % 256 < 128 ∨ toChar c ∉ xs) := by
  have hlt : c % 256 < 128 ↔ (toChar c).toNat < 128 := by
    rw [← toChar_toNat]
    omega
  rw [hlt]
  refine ⟨⟨?_, kstrchr_first h⟩, ⟨?_, kstrrchr_last h⟩⟩
  · rintro ⟨r, hrun, hpoints⟩
    by_contra hc
    obtain ⟨hbig, hmem⟩ := not_or.mp hc
    obtain ⟨i, hi, heq⟩ := h.mem_iff.mp (Classical.not_not.mp hmem)
    obtain ⟨k, hk, hstop, hbefore, hrun'⟩ := kstrchr_string h c
    have hnul : m (s + k) = 0 := hstop.resolve_right (not_found hbig _)
    rw [if_neg (by simp only [hnul, ne_eq, not_true_eq_false, false_or]; omega)] at hrun'
    obtain rfl : r = none := Option.some.inj (hrun.symm.trans hrun')
    exact hpoints i (Nat.le_of_lt hi) heq
  · rintro ⟨r, hrun, hpoints⟩
    by_contra hc
    obtain ⟨hbig, hmem⟩ := not_or.mp hc
    obtain ⟨i, hi, heq⟩ := h.mem_iff.mp (Classical.not_not.mp hmem)
    obtain ⟨r', hloop, hr⟩ := kstrrchrLoop_string (r := none) h c (f := addressSpace)
      (by have := h.lt; rw [addressSpace]; omega)
    have hnone : r' = none := by
      rcases hr with ⟨hr', -⟩ | ⟨j, -, -, hfound, -⟩
      · exact hr'
      · exact absurd hfound (not_found hbig _)
    rw [kstrrchr, hloop] at hrun
    obtain rfl : r = none := by
      rw [← Option.some.inj hrun, if_neg (by omega), hnone]
    exact hpoints i (Nat.le_of_lt hi) heq

/-- Memory of zeros but for one byte of 233 at 16. -/
def oneByte : Memory := fun a => if a = 16 then 233 else 0

/-- 233 in the string of this one character. -/
theorem search_misses : CString oneByte 16 [233] ∧
    ¬(∃ r, kstrchr oneByte 16 233 = some r ∧ PointsToFirst oneByte 16 1 (toChar 233) r) ∧
    ¬(∃ r, kstrrchr oneByte 16 233 = some r ∧ PointsToLast oneByte 16 1 (toChar 233) r) := by
  have hchr : kstrchr oneByte 16 233 = some none := by decide +kernel
  have hrchr : kstrrchr oneByte 16 233 = some none := by decide +kernel
  refine ⟨by simp [CString, oneByte], ?_, ?_⟩
  · rintro ⟨r, hrun, hpoints⟩
    obtain rfl : r = none := Option.some.inj (hrun.symm.trans hchr)
    exact hpoints 0 (by decide) (by decide)
  · rintro ⟨r, hrun, hpoints⟩
    obtain rfl : r = none := Option.some.inj (hrun.symm.trans hrchr)
    exact hpoints 0 (by decide) (by decide)

def accented : Memory := fun a => if a < 16 then 0 else
    [97, 98, 97, 98, 233, 0, 0, 0, 98, 233].getD (a - 16) 0

theorem accented_strings : CString accented 16 [97, 98, 97, 98, 233] ∧
    CString accented 24 [98, 233] := by
  constructor <;> simp [CString, accented]

/-- The first "b" and the last one. -/
theorem search_iff_accented :
    (∃ r, kstrchr accented 16 98 = some r ∧ PointsToFirst accented 16 5 98 r) ∧
    (∃ r, kstrrchr accented 16 98 = some r ∧ PointsToLast accented 16 5 98 r) ∧
    kstrchr accented 16 98 = some (some 17) ∧ kstrrchr accented 16 98 = some (some 19) := by
  obtain ⟨hfirst, hlast⟩ := search_iff accented 16 [97, 98, 97, 98, 233] 98 accented_strings.1
  exact ⟨hfirst.mpr (.inl (by decide)), hlast.mpr (.inl (by decide)),
    by decide +kernel, by decide +kernel⟩

-- ---------------------------------------------------------------------------
-- kstrspn.c and kstrcspn.c
-- ---------------------------------------------------------------------------

/-- The loop of both functions. The inner scan looks for `*s1` in `s2`;
`kstrspn` goes on where it is found, `kstrcspn` where it is not. -/
def spanLoop (m : Memory) (s2 : Nat) (found : Bool) : Nat → Nat → Nat → Option Nat
  | 0, _, _ => none
  | fuel + 1, s1, result =>
    if m s1 ≠ 0 then
      match m.seek (fun b => b == 0 || b == m s1) addressSpace s2 with
      | none => none
      | some k =>
        if (m k != 0) = found then spanLoop m s2 found fuel (Word32.add s1 1) (Word32.add result 1)
        else some result
    else some result

def kstrspn (m : Memory) (s1 s2 : Nat) : Option Nat := spanLoop m s2 true addressSpace s1 0

def kstrcspn (m : Memory) (s1 s2 : Nat) : Option Nat := spanLoop m s2 false addressSpace s1 0

theorem seek_delimiter (h : CString m s ds) {x : UInt8} (hx : x ≠ 0) :
    ∃ k, m.seek (fun b => b == 0 || b == x) addressSpace s = some k ∧ (m k = 0 ↔ x ∉ ds) := by
  have hlt := h.lt
  obtain ⟨k, hk, hseek, hstop, hbefore⟩ := h.seek_first (n := addressSpace)
    (p := fun b => b == 0 || b == x) rfl (by rw [addressSpace]; omega)
  refine ⟨s + k, hseek, ?_⟩
  rw [Bool.or_eq_true, beq_iff_eq, beq_iff_eq] at hstop
  constructor
  · intro hzero hmem
    obtain ⟨i, hi, heq⟩ := h.mem_iff.mp hmem
    have hki : k ≤ i := by
      by_contra hik
      have hpass := hbefore i (Nat.lt_of_not_le hik)
      simp [heq] at hpass
    exact h.ne_zero (Nat.lt_of_le_of_lt hki hi) hzero
  · intro hnot
    refine hstop.resolve_right fun heq => hnot (h.mem_iff.mpr ⟨k, ?_, heq⟩)
    by_contra hkn
    exact hx (heq.symm.trans (show k = ds.length by omega ▸ h.nul))

theorem spanLoop_string (h1 : CString m s xs) (h2 : CString m n ds) (found : Bool)
    (hfuel : xs.length < f) (hi : i + xs.length < 4294967296) :
    spanLoop m n found f s i =
    some (i + (xs.takeWhile fun x => decide (x ∈ ds) == found).length) := by
  induction xs generalizing s f i with
  | nil =>
    obtain ⟨f, rfl⟩ := Nat.exists_eq_add_of_lt hfuel
    simp [spanLoop, h1.1]
  | cons x xs ih =>
    obtain ⟨f, rfl⟩ := Nat.exists_eq_add_of_lt hfuel
    have hlt := h1.lt
    rw [List.length_cons] at hlt hi
    have hne : m s ≠ 0 := h1.1 ▸ h1.2.1
    obtain ⟨k, hseek, hk⟩ := seek_delimiter h2 hne
    have hfound : (m k != 0) = decide (x ∈ ds) := by
      rw [h1.1] at hk
      by_cases hx : x ∈ ds
      · simp [hx, hk]
      · simp [hx, hk.mpr hx]
    rw [spanLoop, if_pos hne, hseek]
    simp only [hfound, List.takeWhile_cons]
    by_cases hx : decide (x ∈ ds) = found
    · rw [if_pos hx, Word32.add_of_lt (by omega), Word32.add_of_lt (by omega),
        ih h1.2.2 (by rw [List.length_cons]; omega) (by omega), if_pos (beq_iff_eq.mpr hx),
        List.length_cons,
        Nat.add_assoc, Nat.add_comm 1]
    · rw [if_neg hx, if_neg (fun heq => hx (beq_iff_eq.mp heq)), List.length_nil, Nat.add_zero]

theorem kstrspn_string (h1 : CString m s xs) (h2 : CString m n ds) :
    kstrspn m s n = some (xs.takeWhile (· ∈ ds)).length := by
  have hlt := h1.lt
  rw [kstrspn, spanLoop_string h1 h2 true (by rw [addressSpace]; omega) (by omega), Nat.zero_add]
  simp only [beq_true]

theorem kstrcspn_string (h1 : CString m s xs) (h2 : CString m n ds) :
    kstrcspn m s n = some (xs.takeWhile (· ∉ ds)).length := by
  have hlt := h1.lt
  rw [kstrcspn, spanLoop_string h1 h2 false (by rw [addressSpace]; omega) (by omega), Nat.zero_add]
  simp only [beq_false, decide_not]

end ElcoOs.Kstring
