import ElcoOs.Lib.Word

/-!
# Byte memory with little-endian words

Addresses are natural numbers. A word occupies the four bytes from its
address on; two words that do not overlap are independent. Nothing here
reduces an address: an object that wraps around the address space is not
represented.
-/

abbrev Memory := Nat → UInt8

namespace Memory

def load32 (m : Memory) (a : Nat) : Nat :=
  (m a).toNat + 256 * (m (a + 1)).toNat + 65536 * (m (a + 2)).toNat + 16777216 * (m (a + 3)).toNat

def store8 (m : Memory) (a : Nat) (v : UInt8) : Memory := fun x => if x = a then v else m x

def store32 (m : Memory) (a v : Nat) : Memory := fun x =>
  if x = a then UInt8.ofNat v
  else if x = a + 1 then UInt8.ofNat (v / 256)
  else if x = a + 2 then UInt8.ofNat (v / 65536)
  else if x = a + 3 then UInt8.ofNat (v / 16777216)
  else m x

/-- Copies `n` bytes one after the other, upwards. -/
def copy (m : Memory) (dst src : Nat) : Nat → Memory
  | 0 => m
  | n + 1 => copy (m.store8 dst (m src)) (dst + 1) (src + 1) n

variable {m m' : Memory} {a b v v' : Nat}

theorem load32_lt (m : Memory) (a : Nat) : m.load32 a < 4294967296 := by
  unfold load32
  have h0 := (m a).toNat_lt
  have h1 := (m (a + 1)).toNat_lt
  have h2 := (m (a + 2)).toNat_lt
  have h3 := (m (a + 3)).toNat_lt
  omega

theorem load32_congr (h : ∀ x, a ≤ x → x < a + 4 → m' x = m x) : m'.load32 a = m.load32 a := by
  unfold load32
  rw [h a (by omega) (by omega), h (a + 1) (by omega) (by omega), h (a + 2) (by omega) (by omega),
    h (a + 3) (by omega) (by omega)]

theorem load32_store32_same (hv : v < 4294967296) : (m.store32 a v).load32 a = v := by
  simp only [load32, store32, if_true, Nat.add_eq_left, Nat.reduceEqDiff, Nat.add_left_cancel_iff,
    if_false, OfNat.ofNat_ne_zero, one_ne_zero, UInt8.toNat_ofNat']
  omega

theorem store32_apply (h : b < a ∨ a + 4 ≤ b) : m.store32 a v b = m b := by
  unfold store32
  rw [if_neg (by omega), if_neg (by omega), if_neg (by omega), if_neg (by omega)]

theorem load32_store32_apart (h : a + 4 ≤ b ∨ b + 4 ≤ a) :
    (m.store32 a v).load32 b = m.load32 b :=
  load32_congr fun _ _ _ => store32_apply (by omega)

theorem store32_comm (h : a + 4 ≤ b ∨ b + 4 ≤ a) :
    (m.store32 a v).store32 b v' = (m.store32 b v').store32 a v := by
  funext x
  by_cases hb : x < b ∨ b + 4 ≤ x
  · by_cases ha : x < a ∨ a + 4 ≤ x
    · rw [store32_apply hb, store32_apply ha, store32_apply ha, store32_apply hb]
    · rw [store32_apply hb]
      unfold store32
      rw [if_neg (show ¬x = b by omega), if_neg (show ¬x = b + 1 by omega),
        if_neg (show ¬x = b + 2 by omega), if_neg (show ¬x = b + 3 by omega)]
  · have ha : x < a ∨ a + 4 ≤ x := by omega
    rw [store32_apply (m := m.store32 b v') ha]
    unfold store32
    rw [if_neg (show ¬x = a by omega), if_neg (show ¬x = a + 1 by omega),
      if_neg (show ¬x = a + 2 by omega), if_neg (show ¬x = a + 3 by omega)]

theorem copy_apply_outside (n : Nat) :
    ∀ {m : Memory} {dst src x : Nat}, x < dst ∨ dst + n ≤ x → copy m dst src n x = m x := by
  induction n with
  | zero => intros; rfl
  | succ n ih =>
    intro m dst src x hx
    rw [copy, ih (by omega), store8, if_neg (by omega)]

theorem copy_apply_inside (n : Nat) :
    ∀ (m : Memory) (dst src i : Nat), dst + n ≤ src ∨ src + n ≤ dst → i < n →
      copy m dst src n (dst + i) = m (src + i) := by
  induction n with
  | zero => intros; omega
  | succ n ih =>
    intro m dst src i hapart hi
    rw [copy]
    cases i with
    | zero => rw [copy_apply_outside n (by omega), store8, if_pos (by omega), Nat.add_zero]
    | succ i =>
      have h := ih (m.store8 dst (m src)) (dst + 1) (src + 1) i (by omega) (by omega)
      rw [show dst + (i + 1) = dst + 1 + i by omega, h, store8, if_neg (by omega),
        show src + 1 + i = src + (i + 1) by omega]

end Memory
