import Mathlib.Data.Nat.Bitwise

/-!
# Unsigned 32-bit words

A word is a natural number below `2 ^ 32`. Addition and subtraction wrap;
masks and single bits are read back as division, remainder and `testBit`,
so that a proof about sizes and addresses is one about natural numbers.
-/

namespace Word32

/-- Wrapping addition. -/
def add (a b : Nat) : Nat := (a + b) % 4294967296

/-- Wrapping subtraction of two words. -/
def sub (a b : Nat) : Nat := (a + 4294967296 - b) % 4294967296

/-- Bitwise complement of a word. -/
def not32 (a : Nat) : Nat := 4294967296 - (a + 1)

/-- A word read as a two's complement number. -/
def toInt (a : Nat) : Int := if a < 2147483648 then a else a - 4294967296

/-- Position of the lowest set bit; 32 for the zero word. -/
def ctz (a : Nat) : Nat := ((List.range 32).find? a.testBit).getD 32

/-- Number of zero bits above the highest set bit of a word. -/
def clz (a : Nat) : Nat := 31 - Nat.log2 a

-- ---------------------------------------------------------------------------
-- Addition and subtraction
-- ---------------------------------------------------------------------------

theorem add_of_lt (h : a + b < 4294967296) : add a b = a + b := Nat.mod_eq_of_lt h

theorem add_lt : add a b < 4294967296 := Nat.mod_lt _ (by decide)

theorem sub_of_le (h : b ≤ a) (ha : a < 4294967296) : sub a b = a - b := by
  unfold sub
  omega

theorem sub_of_lt (h : a < b) (hb : b < 4294967296) : sub a b = a + 4294967296 - b := by
  unfold sub
  omega

theorem sub_lt : sub a b < 4294967296 := Nat.mod_lt _ (by decide)

theorem toInt_neg (h : 0 < d) (hd : d < 2147483648) : toInt (sub 0 d) = -(d : Int) := by
  unfold toInt sub
  have hmod : (0 + 4294967296 - d) % 4294967296 = 4294967296 - d := by omega
  rw [hmod, if_neg (by omega)]
  omega

theorem toInt_of_lt (h : a < 2147483648) : toInt a = a := if_pos h

-- ---------------------------------------------------------------------------
-- Masks
-- ---------------------------------------------------------------------------

theorem testBit_not32 (h : a < 4294967296) (i : Nat) :
    (not32 a).testBit i = (decide (i < 32) && !a.testBit i) :=
  Nat.testBit_two_pow_sub_succ (n := 32) h i

theorem and_not32_low (k : Nat) (hk : k ≤ 32) (h : a < 4294967296) :
    a &&& not32 (2 ^ k - 1) = a / 2 ^ k * 2 ^ k := by
  have hlow : 2 ^ k - 1 < 4294967296 := by
    have := Nat.pow_le_pow_right (n := 2) (by decide) hk
    have := Nat.two_pow_pos k
    omega
  apply Nat.eq_of_testBit_eq
  intro i
  rw [Nat.testBit_and, testBit_not32 hlow, Nat.testBit_two_pow_sub_one, Nat.testBit_mul_two_pow,
    Nat.testBit_div_two_pow]
  by_cases hi : i < k
  · simp [hi]
  · by_cases h32 : i < 32
    · simp [hi, h32, Nat.le_of_not_lt hi]
    · have hz : a.testBit i = false :=
        Nat.testBit_lt_two_pow (Nat.lt_of_lt_of_le h (Nat.pow_le_pow_right (n := 2) (by decide)
          (Nat.le_of_not_lt h32)))
      simp [hi, h32, Nat.le_of_not_lt hi, hz]

theorem and_not32_one (h : a < 4294967296) : a &&& not32 1 = a / 2 * 2 :=
  and_not32_low 1 (by decide) h

theorem and_not32_seven (h : a < 4294967296) : a &&& not32 7 = a / 8 * 8 :=
  and_not32_low 3 (by decide) h

theorem and_not32_4095 (h : a < 4294967296) : a &&& not32 4095 = a / 4096 * 4096 :=
  and_not32_low 12 (by decide) h

theorem or_low (k : Nat) (ha : a % 2 ^ k = 0) (hb : b < 2 ^ k) : a ||| b = a + b := by
  have h := Nat.two_pow_add_eq_or_of_lt hb (a / 2 ^ k)
  rw [Nat.mul_div_cancel' (Nat.dvd_of_mod_eq_zero ha)] at h
  exact h.symm

theorem and_one (a : Nat) : a &&& 1 = a % 2 := Nat.and_one_is_mod a

theorem and_two (a : Nat) : a &&& 2 = a / 2 % 2 * 2 := by
  have h := Nat.and_two_pow a 1
  rw [Nat.testBit_eq_decide_div_mod_eq, Nat.pow_one] at h
  rw [h]
  rcases Nat.mod_two_eq_zero_or_one (a / 2) with h0 | h0 <;> simp [h0]

-- ---------------------------------------------------------------------------
-- Bitmaps
-- ---------------------------------------------------------------------------

theorem and_bit_ne_zero (a i : Nat) : a &&& 1 <<< i ≠ 0 ↔ a.testBit i = true := by
  rw [Nat.one_shiftLeft, Nat.and_two_pow]
  cases a.testBit i <;> simp

theorem shiftLeft_one_lt (h : i < 32) : 1 <<< i < 4294967296 := by
  rw [Nat.one_shiftLeft]
  exact Nat.pow_lt_pow_right (a := 2) (by decide) h

theorem testBit_setBit (a i j : Nat) :
    (a ||| 1 <<< i).testBit j = (a.testBit j || decide (i = j)) := by
  rw [Nat.testBit_or, Nat.one_shiftLeft, Nat.testBit_two_pow]

theorem testBit_clearBit (a : Nat) (hi : i < 32) (hj : j < 32) :
    (a &&& not32 (1 <<< i)).testBit j = (a.testBit j && !decide (i = j)) := by
  rw [Nat.testBit_and, testBit_not32 (shiftLeft_one_lt hi), Nat.one_shiftLeft, Nat.testBit_two_pow]
  simp [hj]

theorem setBit_lt (ha : a < 4294967296) (hi : i < 32) : a ||| 1 <<< i < 4294967296 :=
  Nat.or_lt_two_pow (n := 32) ha (shiftLeft_one_lt hi)

theorem and_lt (ha : a < 4294967296) : a &&& b < 4294967296 :=
  Nat.lt_of_le_of_lt Nat.and_le_left ha

theorem exists_testBit (ha : a < 4294967296) (h : a ≠ 0) : ∃ i < 32, a.testBit i = true := by
  obtain ⟨i, hi⟩ := Nat.exists_testBit_of_ne_zero h
  refine ⟨i, ?_, hi⟩
  by_contra hn
  have hz := Nat.testBit_lt_two_pow (i := i)
    (Nat.lt_of_lt_of_le ha (Nat.pow_le_pow_right (n := 2) (by decide) (Nat.le_of_not_lt hn)))
  simp [hz] at hi

theorem ctz_spec (ha : a < 4294967296) (h : a ≠ 0) :
    ctz a < 32 ∧ a.testBit (ctz a) = true ∧ ∀ i < ctz a, a.testBit i = false := by
  obtain ⟨i, hi, hbit⟩ := exists_testBit ha h
  cases hf : (List.range 32).find? a.testBit with
  | none =>
    have := List.find?_eq_none.mp hf i (List.mem_range.mpr hi)
    exact absurd hbit this
  | some j =>
    obtain ⟨hj, as, bs, hsplit, hbefore⟩ := List.find?_eq_some_iff_append.mp hf
    have hmem : j ∈ List.range 32 := List.mem_of_find?_eq_some hf
    have hlen : as = List.range j := by
      have hget : as.length = j := by
        have hat : (List.range 32)[as.length]? = some j := by simp [hsplit]
        rw [List.getElem?_range (by
          have := congrArg List.length hsplit
          simp at this
          omega)] at hat
        exact Option.some.inj hat
      have htake := congrArg (List.take as.length) hsplit
      rw [List.take_left', List.take_range] at htake
      · rw [← htake, hget, Nat.min_eq_left (Nat.le_of_lt (List.mem_range.mp hmem))]
      · rfl
    have hc : ctz a = j := by simp [ctz, hf]
    rw [hc]
    refine ⟨List.mem_range.mp hmem, hj, fun i hi => ?_⟩
    have := hbefore i (hlen ▸ List.mem_range.mpr hi)
    simpa using this

end Word32
