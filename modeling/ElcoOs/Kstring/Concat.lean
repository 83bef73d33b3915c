import ElcoOs.Kstring.Search

/-!
# kstrcpy and kstrcat

One loop copies up to the terminator. A destination inside of the string that
is copied overwrites the terminator before it is read: then there is no end.
-/

namespace ElcoOs.Kstring

/-- `while (*s != '\0') *d++ = *s++; *d = '\0';` -/
def copyLoop (m : Memory) : Nat → Nat → Nat → Option Memory
  | 0, _, _ => none
  | fuel + 1, d, s =>
    if m s ≠ 0 then copyLoop (m.store8 d (m s)) fuel (Word32.add d 1) (Word32.add s 1) else
      some (m.store8 d 0)

def kstrcpy (m : Memory) (s1 s2 : Nat) : Option (Nat × Memory) :=
  (copyLoop m addressSpace s1 s2).map fun m => (s1, m)

def kstrcat (m : Memory) (s1 s2 : Nat) : Option (Nat × Memory) :=
  (m.seek (· == 0) addressSpace s1).bind fun d =>
  (copyLoop m addressSpace d s2).map fun m => (s1, m)

variable {m : Memory} {s d f k n s1 s2 : Nat} {xs ys : List UInt8}

theorem copyLoop_copies (h : CString m s xs) (hd : d + xs.length < 4294967296)
    (hout : d ≤ s ∨ s + xs.length < d) (hfuel : xs.length < f) :
    ∃ m', copyLoop m f d s = some m' ∧ CString m' d xs ∧ ∀ a, a < d ∨
      d + xs.length < a → m' a = m a := by
  induction xs generalizing m s d f with
  | nil =>
    obtain ⟨f, rfl⟩ := Nat.exists_eq_add_of_lt hfuel
    refine ⟨m.store8 d 0, if_neg fun hne => hne h.1, ⟨if_pos rfl, hd⟩, fun a ha => if_neg ?_⟩
    rw [List.length_nil] at ha
    omega
  | cons x xs ih =>
    obtain ⟨f, rfl⟩ := Nat.exists_eq_add_of_lt hfuel
    have hlt := h.lt
    rw [List.length_cons] at hlt hd hout
    have hne : m s ≠ 0 := h.1 ▸ h.2.1
    have hrest : CString (m.store8 d (m s)) (s + 1) xs :=
      h.2.2.congr fun a hlo hhi => if_neg (by omega)
    obtain ⟨m', hres, hstring, hsame⟩ := ih (f := xs.length + 1 + f) hrest (d := d + 1) (by omega)
      (by omega) (by omega)
    have hfirst : m' d = x := by
      rw [hsame d (.inl (Nat.lt_succ_self d)), Memory.store8, if_pos rfl]
      exact h.1
    refine ⟨m', ?_, ⟨hfirst, h.2.1, hstring⟩, fun a ha => ?_⟩
    · rw [← hres, ← Word32.add_of_lt (show d + 1 < 4294967296 by omega),
        ← Word32.add_of_lt (show s + 1 < 4294967296 by omega)]
      exact if_pos hne
    · rw [List.length_cons] at ha
      rw [hsame a (by omega), Memory.store8, if_neg (by omega)]

/-- As long as the next bytes up to the destination are no terminators, the loop goes on: it puts
another one in front of itself. -/
theorem copyLoop_endless (hk : 0 < k) (h : ∀ j < k, m (Word32.add s j) ≠ 0) (hs : s < 4294967296)
    (hd : d = Word32.add s k) : copyLoop m f d s = none := by
  induction f generalizing m s d with
  | zero => rfl
  | succ f ih =>
    have hfirst : m s ≠ 0 := by
      have := h 0 hk
      rwa [Word32.add, Nat.add_zero, Nat.mod_eq_of_lt hs] at this
    have hadd : ∀ i j, Word32.add (Word32.add s i) j = Word32.add s (i + j) := fun i j => by
      simp only [Word32.add]
      omega
    refine (if_pos hfirst).trans (ih (fun j hj => ?_) (Nat.mod_lt _ (by decide)) ?_)
    · rw [hadd, Memory.store8]
      split
      · exact hfirst
      · rename_i hne
        refine h (1 + j) ?_
        by_contra hge
        exact hne (by rw [hd, show 1 + j = k by omega])
    · rw [hd, hadd, hadd, Nat.add_comm]

theorem copyLoop_iff (h : CString m s xs) (hd : d + xs.length < 4294967296) :
    (copyLoop m addressSpace d s ≠ none ↔ d ≤ s ∨ s + xs.length < d) ∧
      ∀ m', copyLoop m addressSpace d s = some m' →
        CString m' d xs ∧ ∀ a, a < d ∨ d + xs.length < a → m' a = m a := by
  have hlt := h.lt
  by_cases hout : d ≤ s ∨ s + xs.length < d
  · obtain ⟨m', hres, hcopied⟩ :=
      copyLoop_copies h hd hout (f := addressSpace) (by rw [addressSpace]; omega)
    refine ⟨⟨fun _ => hout, fun _ => by rw [hres]; simp⟩, fun m₁ hm₁ => ?_⟩
    cases hres.symm.trans hm₁
    exact hcopied
  · have hnone : copyLoop m addressSpace d s = none := by
      refine copyLoop_endless (k := d - s) (by omega) (fun j hj => ?_) (by omega) ?_
      · rw [Word32.add_of_lt (by omega)]
        exact h.ne_zero (by omega)
      · rw [Word32.add_of_lt (by omega)]
        omega
    exact ⟨⟨fun hne => absurd hnone hne, fun h => absurd h hout⟩,
      fun m' hm' => by rw [hnone] at hm'; cases hm'⟩

/-- `kstrcpy` and `kstrcat` end unless the place they copy to is inside of the string they copy,
behind its first byte. When they end, the copy is right, and they have written nothing else. -/
theorem copies_end_iff (m : Memory) (s1 s2 : Nat) (xs : List UInt8) (hx : CString m s2 xs) :
    (s1 + xs.length < 4294967296 →
      ((∃ r, kstrcpy m s1 s2 = some r) ↔ s1 ≤ s2 ∨ s2 + xs.length < s1) ∧
        ∀ r, kstrcpy m s1 s2 = some r → r.1 = s1 ∧ CString r.2 s1 xs ∧
          ∀ a, a < s1 ∨ s1 + xs.length < a → r.2 a = m a) ∧
      ∀ ys, CString m s1 ys → s1 + ys.length + xs.length < 4294967296 →
        ((∃ r, kstrcat m s1 s2 = some r) ↔ s1 + ys.length ≤ s2 ∨ s2 + xs.length < s1 + ys.length) ∧
          ∀ r, kstrcat m s1 s2 = some r → r.1 = s1 ∧ CString r.2 s1 (ys ++ xs) ∧
            ∀ a, a < s1 + ys.length ∨ s1 + ys.length + xs.length < a → r.2 a = m a := by
  have hends : ∀ o : Option Memory, (∃ r, (o.map fun m => (s1, m)) = some r) ↔
    o ≠ none := fun o => by
    cases o <;> simp
  refine ⟨fun hfit => ?_, fun ys hy hfit => ?_⟩
  · obtain ⟨hcpy, hcopied⟩ := copyLoop_iff (d := s1) hx hfit
    rw [kstrcpy, hends]
    refine ⟨hcpy, fun r hr => ?_⟩
    obtain ⟨m', hm', rfl⟩ := Option.map_eq_some_iff.mp hr
    exact ⟨rfl, hcopied m' hm'⟩
  · obtain ⟨hcat, hcopied⟩ := copyLoop_iff (d := s1 + ys.length) hx hfit
    have hseek : m.seek (· == 0) addressSpace s1 = some (s1 + ys.length) :=
      hy.seek_nul (by have := hy.lt; rw [addressSpace]; omega)
    rw [kstrcat, hseek, Option.bind_some, hends]
    refine ⟨hcat, fun r hr => ?_⟩
    obtain ⟨m', hm', rfl⟩ := Option.map_eq_some_iff.mp hr
    obtain ⟨hstring, hsame⟩ := hcopied m' hm'
    exact ⟨rfl, hy.append hstring fun a ha => hsame a (.inl ha), hsame⟩

/-- One place up over itself the copy of a string has no end. Elsewhere, and behind another string,
it has one. -/
theorem copies_end_iff_accented :
    (¬∃ r, kstrcpy accented 17 16 = some r) ∧ (∃ r, kstrcpy accented 40 16 = some r) ∧
    ∃ r, kstrcat accented 24 16 = some r ∧ CString r.2 24 [98, 233, 97, 98, 97, 98, 233] := by
  obtain ⟨hcpy, -⟩ := copies_end_iff accented 17 16 [97, 98, 97, 98, 233] accented_strings.1
  obtain ⟨hcpy', -⟩ := copies_end_iff accented 40 16 [97, 98, 97, 98, 233] accented_strings.1
  obtain ⟨-, hcat⟩ := copies_end_iff accented 24 16 [97, 98, 97, 98, 233] accented_strings.1
  obtain ⟨hends, hcopied⟩ := hcat _ accented_strings.2 (by decide)
  obtain ⟨r, hr⟩ := hends.mpr (by decide)
  exact ⟨fun hr => absurd ((hcpy (by decide)).1.mp hr) (by decide),
    (hcpy' (by decide)).1.mpr (by decide),
    r, hr, (hcopied r hr).2.1⟩

end ElcoOs.Kstring
