import ElcoOs.Kmalloc.Chunk

/-!
# Sizes, headers and bin numbers

What the macros compute, in arithmetic: a header is a multiple of eight plus
two flags, a request is rounded up to a chunk size unless it overflows, and
the sizes of a tree bin agree above the bits its trie sorts by. The last bin
is open: nothing bounds its sizes from above.
-/

namespace ElcoOs.Kmalloc

open Word32

-- ---------------------------------------------------------------------------
-- Headers
-- ---------------------------------------------------------------------------

def flags (used prevUsed : Bool) : Nat :=
  (if used then cinuse else 0) + (if prevUsed then pinuse else 0)

section
variable {m : Memory} {a s : Nat} {used prevUsed : Bool}

theorem flags_lt : flags used prevUsed < 8 := by cases used <;> cases prevUsed <;> decide

theorem add_flags (hs : s % 8 = 0) : s + flags used prevUsed = s ||| flags used prevUsed :=
  (or_low 3 hs flags_lt).symm

theorem or_pinuse (hs : s % 8 = 0) : (s + flags used prevUsed) ||| pinuse =
    s + flags used true := by
  rw [add_flags hs, add_flags hs, Nat.or_assoc]
  congr 1
  cases used <;> cases prevUsed <;> rfl

theorem or_cinuse (hs : s % 8 = 0) : (s + flags used prevUsed) ||| cinuse =
    s + flags true prevUsed := by
  rw [add_flags hs, add_flags hs, Nat.or_assoc]
  congr 1
  cases used <;> cases prevUsed <;> rfl

theorem size_or_pinuse (hs : s % 8 = 0) : s ||| pinuse = s + flags false true :=
  or_low 3 hs (by decide)

theorem size_or_both (hs : s % 8 = 0) : s ||| pinuse ||| cinuse = s + flags true true := by
  rw [size_or_pinuse hs, or_cinuse hs]

theorem and_not_pinuse (hs : s % 8 = 0) (hlt : s < 4294967288) :
    (s + flags used prevUsed) &&& not32 pinuse = s + flags used false := by
  have hf : flags used prevUsed < 8 := flags_lt
  rw [pinuse, and_not32_one (by omega)]
  cases used <;> cases prevUsed
    <;> simp only [flags, cinuse, pinuse, if_true, Bool.false_eq_true, if_false] <;>
    omega

theorem or_kept (hs : s % 8 = 0) (hh : header m a = s' + flags used prevUsed) (hs' : s' % 8 = 0) :
    s ||| cinuse ||| (header m a &&& pinuse) = s + flags true prevUsed := by
  have hand : header m a &&& pinuse = if prevUsed then pinuse else 0 := by
    rw [hh, pinuse, and_one]
    cases used <;> cases prevUsed
      <;> simp only [flags, cinuse, pinuse, if_true, Bool.false_eq_true, if_false] <;>
      omega
  rw [hand, Nat.or_assoc, add_flags hs]
  congr 1
  cases prevUsed <;> rfl

theorem getChunkSize_of_header (hh : header m a = s + flags used prevUsed) (hs : s % 8 = 0) :
    getChunkSize m a = s := by
  have hlt := Memory.load32_lt m (a + 4)
  have hf : flags used prevUsed < 8 := flags_lt
  rw [show m.load32 (a + 4) = s + flags used prevUsed from hh] at hlt
  rw [getChunkSize, hh, flagMask, and_not32_seven hlt]
  omega

theorem isInuse_of_header (hh : header m a = s + flags used prevUsed) (hs : s % 8 = 0) :
    isInuse m a ↔ used = true := by
  rw [isInuse, hh, cinuse, and_two]
  cases used <;> cases prevUsed <;>
    simp only [flags, cinuse, pinuse, if_true, Bool.false_eq_true, if_false, iff_true,
      iff_false, not_not] <;>
    omega

theorem prevInuse_of_header (hh : header m a = s + flags used prevUsed) (hs : s % 8 = 0) :
    prevInuse m a ↔ prevUsed = true := by
  rw [prevInuse, hh, pinuse, and_one]
  cases used <;> cases prevUsed <;>
    simp only [flags, cinuse, pinuse, if_true, Bool.false_eq_true, if_false, iff_true,
      iff_false, not_not] <;>
    omega

theorem getChunkSize_mod (m : Memory) (a : Nat) : getChunkSize m a % 8 = 0 := by
  rw [getChunkSize, flagMask, and_not32_seven (a := header m a) (Memory.load32_lt m (a + 4))]
  omega

end

-- ---------------------------------------------------------------------------
-- Requests
-- ---------------------------------------------------------------------------

section
variable {n : Nat}

theorem chunkSizeAlign_of_lt (h : n + 7 < 4294967296) : chunkSizeAlign n = (n + 7) / 8 * 8 := by
  rw [chunkSizeAlign, add_of_lt h, and_not32_seven h]

theorem requestOverflow_iff (hn : n < 4294967296) : requestOverflow n ↔ 4294967284 < n := by
  unfold requestOverflow request2Size chunkOverhead minChunkSize
  by_cases h4 : n + 4 < 4294967296
  · rw [add_of_lt h4]
    split
    · omega
    · by_cases h7 : n + 4 + 7 < 4294967296
      · rw [chunkSizeAlign_of_lt h7]
        omega
      · have hz : chunkSizeAlign (n + 4) = 0 := by
          have hadd : add (n + 4) 7 = n + 4 + 7 - 4294967296 := by unfold add; omega
          rw [chunkSizeAlign, hadd, and_not32_seven (by omega)]
          omega
        rw [hz]
        omega
  · have hadd : add n 4 = n + 4 - 4294967296 := by unfold add; omega
    rw [hadd, if_pos (by omega)]
    omega

/-- A request that does not overflow is rounded up to a chunk size with room
for it and the header. -/
theorem request2Size_spec (hn : n < 4294967296) (h : ¬ requestOverflow n) :
    request2Size n % 8 = 0 ∧ 16 ≤ request2Size n ∧ n + 4 ≤ request2Size n ∧
    request2Size n < n + 17 ∧
      request2Size n < 4294967296 := by
  rw [requestOverflow_iff hn] at h
  unfold request2Size chunkOverhead minChunkSize
  rw [add_of_lt (by omega)]
  split
  · omega
  · rw [chunkSizeAlign_of_lt (by omega)]
    omega

end

-- ---------------------------------------------------------------------------
-- Bin numbers
-- ---------------------------------------------------------------------------

section
variable {s c : Nat}

theorem smallIndex_eq (s : Nat) : smallIndex s = s / 8 := Nat.shiftRight_eq_div_pow s 3

theorem tbinDepth_eq (i : Nat) : tbinDepth i = i / 2 + 7 := by
  rw [tbinDepth, Nat.shiftRight_eq_div_pow, tbinShift, Nat.pow_one]
  omega

theorem calcTbin_small (h : s < 256) : calcTbin s = 0 := if_pos h

theorem calcTbin_mid (hlo : 256 ≤ s) (hhi : s ≤ 16776960) :
    8 ≤ Nat.log2 s ∧ Nat.log2 s ≤ 23 ∧
    calcTbin s = 2 * (Nat.log2 s - 8) + s / 2 ^ (Nat.log2 s - 1) % 2 ∧
      (s / 2 ^ (Nat.log2 s - 1) = 2 ∨ s / 2 ^ (Nat.log2 s - 1) = 3) := by
  have hne : s ≠ 0 := by omega
  have hl : 8 ≤ Nat.log2 s := (Nat.le_log2 hne).mpr hlo
  have hu : Nat.log2 s < 24 := (Nat.log2_lt hne).mpr (by omega)
  refine ⟨hl, by omega, ?_, ?_⟩
  · rw [calcTbin, if_neg (show ¬ s < 1 <<< tbinShift from Nat.not_lt.mpr hlo),
      if_neg (show ¬ s > 0xFFFF <<< tbinShift from Nat.not_lt.mpr hhi)]
    have hmsb : 31 - clz s = Nat.log2 s := by
      unfold clz
      omega
    simp only [hmsb, tbinShift, Nat.shiftRight_eq_div_pow, and_one]
    rw [or_low 1 (by rw [Nat.shiftLeft_eq]; omega) (by omega), Nat.shiftLeft_eq]
    omega
  · have hge : 2 ^ Nat.log2 s ≤ s := (Nat.le_log2 hne).mp (Nat.le_refl _)
    have hlt : s < 2 ^ (Nat.log2 s + 1) := (Nat.log2_lt hne).mp (Nat.lt_succ_self _)
    obtain ⟨e, he⟩ : ∃ e, Nat.log2 s = e + 1 := ⟨Nat.log2 s - 1, by omega⟩
    rw [he, Nat.add_sub_cancel]
    rw [he, Nat.pow_succ] at hge
    rw [he, Nat.pow_succ, Nat.pow_succ] at hlt
    have h2 : 2 ≤ s / 2 ^ e := (Nat.le_div_iff_mul_le (Nat.two_pow_pos e)).mpr (by omega)
    have h4 : s / 2 ^ e < 4 := (Nat.div_lt_iff_lt_mul (Nat.two_pow_pos e)).mpr (by omega)
    omega

theorem calcTbin_large (h : 16776960 < s) : calcTbin s = 31 := by
  rw [calcTbin,
    if_neg (show ¬ s < 1 <<< tbinShift from Nat.not_lt.mpr (by simp only [tbinShift]; omega)),
    if_pos (show s > 0xFFFF <<< tbinShift from h)]

theorem calcTbin_lt (s : Nat) : calcTbin s < 32 := by
  by_cases hlo : s < 256
  · rw [calcTbin_small hlo]
    decide
  by_cases hhi : s ≤ 16776960
  · obtain ⟨-, hu, hc, -⟩ := calcTbin_mid (Nat.le_of_not_lt hlo) hhi
    rw [hc]
    omega
  · rw [calcTbin_large (by omega)]
    decide

theorem calcTbin_agree (hs : 256 ≤ s) (h : calcTbin s < 31) :
    s / 2 ^ tbinDepth (calcTbin s) = 2 + calcTbin s % 2 := by
  by_cases hhi : s ≤ 16776960
  · obtain ⟨hl, hu, hc, htop⟩ := calcTbin_mid hs hhi
    have hd : tbinDepth (calcTbin s) = Nat.log2 s - 1 := by
      rw [tbinDepth_eq, hc]
      omega
    rw [hd, hc]
    omega
  · rw [calcTbin_large (by omega)] at h
    omega

theorem lt_of_calcTbin_zero (h : calcTbin s = 0) : s < 384 := by
  by_cases hlo : s < 256
  · omega
  by_cases hhi : s ≤ 16776960
  · obtain ⟨hl, -, hc, htop⟩ := calcTbin_mid (Nat.le_of_not_lt hlo) hhi
    have h8 : Nat.log2 s = 8 := by omega
    rw [h8] at hc htop
    omega
  · rw [calcTbin_large (by omega)] at h
    omega

theorem calcTbin_eq_31 : calcTbin s = 31 ↔ 0xC00000 ≤ s := by
  by_cases hlo : s < 256
  · rw [calcTbin_small hlo]
    omega
  by_cases hhi : s ≤ 16776960
  · obtain ⟨hl, hu, hc, htop⟩ := calcTbin_mid (Nat.le_of_not_lt hlo) hhi
    rw [hc]
    by_cases h23 : Nat.log2 s = 23
    · rw [h23] at htop ⊢
      omega
    · have hlt : s < 2 ^ 23 := (Nat.log2_lt (by omega)).mp (by omega)
      omega
  · rw [calcTbin_large (by omega)]
    omega

theorem calcTbin_lt_31 : calcTbin s < 31 ↔ s < 0xC00000 := by
  have h := calcTbin_eq_31 (s := s)
  have hlt := calcTbin_lt s
  omega

theorem calcTbin_mono (h : s ≤ c) : calcTbin s ≤ calcTbin c := by
  by_cases hlo : s < 256
  · rw [calcTbin_small hlo]
    exact Nat.zero_le _
  by_cases hhi : c ≤ 16776960
  · obtain ⟨hls, hus, hcs, hts⟩ := calcTbin_mid (s := s) (by omega) (by omega)
    obtain ⟨hlc, huc, hcc, htc⟩ := calcTbin_mid (s := c) (by omega) hhi
    rw [hcs, hcc]
    have hle : Nat.log2 s ≤ Nat.log2 c := by
      have hsne : s ≠ 0 := by omega
      exact (Nat.le_log2 (by omega)).mpr (Nat.le_trans ((Nat.le_log2 hsne).mp (Nat.le_refl _)) h)
    by_cases heq : Nat.log2 s = Nat.log2 c
    · have hdiv : s / 2 ^ (Nat.log2 s - 1) ≤ c / 2 ^ (Nat.log2 s - 1) := Nat.div_le_div_right h
      rw [heq] at hdiv hts ⊢
      omega
    · omega
  · rw [calcTbin_large (s := c) (by omega)]
    have := calcTbin_lt s
    omega

end

end ElcoOs.Kmalloc
