import ElcoOs.Kstring.Search
import Mathlib.Data.List.Forall2

/-!
# kprintf

The formatter of `kprintf.c`. Its output is the list of the characters that
`print` hands to `kputchar`; the variable arguments are the 32-bit words that
`va_arg` takes one after the other. `int` wraps in two's complement, so that
`i = -i` leaves the least `int` as it is.
-/

namespace ElcoOs.Kstdio

open ElcoOs.Kstring

/-- The cases of the `switch`, for the character after a `%`. -/
inductive Conversion where
  | char
  | string
  | signed
  | unsigned (base : Nat)
  | nul
  | other
  deriving DecidableEq

def conversion (c : UInt8) : Conversion :=
  if c = 'c'.toUInt8 then .char
  else if c = 's'.toUInt8 then .string
  else if c = 'd'.toUInt8 ∨ c = 'i'.toUInt8 then .signed
  else if c = 'u'.toUInt8 then .unsigned 10
  else if c = 'x'.toUInt8 ∨ c = 'p'.toUInt8 then .unsigned 16
  else if c = 'o'.toUInt8 then .unsigned 8
  else if c = 0 then .nul
  else .other

def percent : UInt8 := '%'.toUInt8

-- ---------------------------------------------------------------------------
-- print, i_convert and i_print
-- ---------------------------------------------------------------------------

def print (m : Memory) (data length : Nat) : List UInt8 :=
  (List.range length).map fun i => m (Word32.add data i)

/-- The digits written into `buff`, of which `room` bytes are left. -/
def iConvert : Nat → Nat → Nat → Int → Option (List UInt8)
  | 0, _, _, _ => none
  | room + 1, val, base, digits =>
    let d := val % base
    let val := val / base
    let c := UInt8.ofNat (if d > 9 then 'a'.toNat + d - 10 else '0'.toNat + d)
    if val ≠ 0 ∨ digits > 1 then
      match iConvert room val base (digits - 1) with
      | none => none
      | some s => some (s ++ [c])
    else some [c]

def iPrint (val base : Nat) : Option (List UInt8) := iConvert 65 val base 1

-- ---------------------------------------------------------------------------
-- The scanner
-- ---------------------------------------------------------------------------

/-- The locals of `kprintf`, and what was printed so far. -/
structure Printing where
  format : Nat
  parameters : List Nat
  output : List UInt8
  written : Nat

def Printing.put (st : Printing) (s : List UInt8) : Printing :=
  { st with output := st.output ++ s, written := Word32.add st.written s.length }

/-- `(unsigned long long) i` -/
def toUnsignedLongLong (i : Int) : Nat := (i % 18446744073709551616).toNat

/-- The body of the `switch`, `format` being at the character after the `%`. -/
def convert (m : Memory) (st : Printing) : Option Printing :=
  match conversion (m st.format), st.parameters with
  | .char, w :: va => some ({ st with parameters := va }.put [UInt8.ofNat w])
  | .string, s :: va =>
    match kstrlen m s with
    | none => none
    | some len => some ({ st with parameters := va }.put (print m s len))
  | .signed, w :: va =>
    let st := { st with parameters := va }
    if Word32.toInt w < 0 then
      match iPrint (toUnsignedLongLong (Word32.toInt (Word32.sub 0 w))) 10 with
      | none => none
      | some s => some ((st.put ['-'.toUInt8]).put s)
    else
      match iPrint (toUnsignedLongLong (Word32.toInt w)) 10 with
      | none => none
      | some s => some (st.put s)
  | .unsigned base, u :: va =>
    match iPrint u base with
    | none => none
    | some s => some ({ st with parameters := va }.put s)
  | .nul, _ => some { st with format := Word32.sub st.format 1 }
  | .other, _ =>
    if m st.format ≠ percent then some ((st.put [percent]).put (print m st.format 1))
    else some (st.put (print m st.format 1))
  -- `va_arg` without an argument left
  | _, [] => none

def kprintfLoop (m : Memory) : Nat → Printing → Option Printing
  | 0, _ => none
  | fuel + 1, st =>
    if m st.format ≠ 0 then
      if m st.format = percent then
        match convert m { st with format := Word32.add st.format 1 } with
        | none => none
        | some st => kprintfLoop m fuel { st with format := Word32.add st.format 1 }
      else
        match m.seek (fun b => b == 0 || b == percent) addressSpace st.format with
        | none => none
        | some p =>
          let amount := Word32.sub p st.format
          kprintfLoop m fuel
            { st.put (print m st.format amount) with format := Word32.add st.format amount }
    else some st

/-- The characters passed to `kputchar` and the value returned. -/
def kprintf (m : Memory) (format : Nat) (parameters : List Nat) : Option (List UInt8 × Int) :=
  match kprintfLoop m addressSpace ⟨format, parameters, [], 0⟩ with
  | none => none
  | some st => some (st.output, Word32.toInt st.written)

-- ---------------------------------------------------------------------------
-- What a format stands for
-- ---------------------------------------------------------------------------

/-- A character of the text, or a conversion by its character. -/
inductive Piece where
  | text (c : UInt8)
  | conv (c : UInt8)

def parse : List UInt8 → List Piece
  | [] => []
  | [c] => if c = percent then [] else [.text c]
  | c :: d :: cs => if c = percent then .conv d :: parse cs else .text c :: parse (d :: cs)

inductive Arg where
  | int (i : Int)
  | unsigned (u : Nat)
  | string (s : List UInt8)

def Passed (m : Memory) : Arg → Nat → Prop
  | .int i, w => -2147483648 ≤ i ∧ i < 2147483648 ∧ w = (i % 4294967296).toNat
  | .unsigned u, w => u < 4294967296 ∧ w = u
  | .string s, w => CString m w s

def digits (base n : Nat) : List UInt8 := (Nat.toDigits base n).map Char.toUInt8

def decimal (i : Int) : List UInt8 := if i < 0 then '-'.toUInt8 :: digits 10 i.natAbs else
    digits 10 i.natAbs

/-- `%%`, and a conversion that does not exist. -/
def plain (c : UInt8) : List UInt8 := if c = percent then [percent] else [percent, c]

/-- What one conversion prints, with `dec` for `%d` and `%i`, and the
arguments left; `none` if it is not given the argument that it takes. -/
def rendering (dec : Int → List UInt8) (c : UInt8) (args : List Arg) :
    Option (List UInt8 × List Arg) :=
  match conversion c, args with
  | .char, .int i :: args => some ([toChar i], args)
  | .string, .string s :: args => some (s, args)
  | .signed, .int i :: args => some (dec i, args)
  | .unsigned base, .unsigned u :: args => some (digits base u, args)
  | .other, args => some (plain c, args)
  | _, _ => none

def render (dec : Int → List UInt8) : List Piece → List Arg → Option (List UInt8)
  | [], _ => some []
  | .text c :: ps, args => (render dec ps args).map (c :: ·)
  | .conv c :: ps, args =>
    match rendering dec c args with
    | none => none
    | some (s, args) => (render dec ps args).map (s ++ ·)

def reference (format : List UInt8) (args : List Arg) : Option (List UInt8) :=
  render decimal (parse format) args

/-- The values that `%d` and `%i` are given. -/
def signedArgs : List Piece → List Arg → List Int
  | [], _ => []
  | .text _ :: ps, args => signedArgs ps args
  | .conv c :: ps, args =>
    match conversion c, args with
    | .signed, .int i :: args => i :: signedArgs ps args
    | .other, args => signedArgs ps args
    | _, _ :: args => signedArgs ps args
    | _, [] => []

-- ---------------------------------------------------------------------------
-- Digits
-- ---------------------------------------------------------------------------

variable {m : Memory} {st : Printing} {base val n s k fuel : Nat} {xs fmt out o : List UInt8}
  {c : UInt8} {args : List Arg} {va : List Nat} {dec : Int → List UInt8} {ps : List Piece}

theorem digitChar_byte : ∀ n < 16,
    UInt8.ofNat (if n > 9 then 'a'.toNat + n - 10 else '0'.toNat + n) =
    (Nat.digitChar n).toUInt8 := by
  decide

theorem iConvert_digits (hbase : 2 ≤ base) (hhex : base ≤ 16) : ∀ (room val : Nat)
    (d : Int), val < base ^ room →
    d ≤ 1 → 0 < room → iConvert room val base d = some (digits base val) := by
  intro room
  induction room with
  | zero => exact fun _ _ _ _ h => absurd h (Nat.lt_irrefl 0)
  | succ room ih =>
    intro val d hval hd _
    have hmod : val % base < 16 := Nat.lt_of_lt_of_le (Nat.mod_lt _ (by omega)) hhex
    rw [iConvert, digitChar_byte _ hmod]
    by_cases hlt : val < base
    · have hzero : val / base = 0 := Nat.div_eq_of_lt hlt
      simp only [hzero, digits, Nat.toDigits_of_lt_base hlt, Nat.mod_eq_of_lt hlt]
      rw [if_neg (by omega)]
      rfl
    · have hle : base ≤ val := Nat.le_of_not_lt hlt
      have hquot : val / base ≠ 0 := Nat.ne_of_gt (Nat.div_pos hle (by omega))
      have hroom : 0 < room := by
        rcases Nat.eq_zero_or_pos room with rfl | h
        · rw [Nat.zero_add, Nat.pow_one] at hval
          exact absurd hval hlt
        · exact h
      have hnext : val / base < base ^ room :=
        Nat.div_lt_of_lt_mul (by rwa [Nat.pow_succ, Nat.mul_comm] at hval)
      rw [if_pos (.inl hquot), ih (val / base) (d - 1) hnext (by omega) hroom]
      simp only [digits, Nat.toDigits_of_base_le (by omega : 1 < base) hle,
        List.map_append, List.map_cons,
        List.map_nil]

theorem iPrint_digits (hbase : 2 ≤ base) (hhex : base ≤ 16) (hval : val < 18446744073709551616) :
    iPrint val base = some (digits base val) := by
  have hpow : 18446744073709551616 ≤ base ^ 65 :=
    Nat.le_trans (by decide) (Nat.pow_le_pow_left hbase 65)
  exact iConvert_digits hbase hhex 65 val 1 (by omega) (by decide) (by decide)

/-- What `%d` prints: the least `int` stays negative and is widened as such. -/
def printedInt (i : Int) : List UInt8 :=
  if i = -2147483648 then '-'.toUInt8 :: digits 10 18446744071562067968 else decimal i

theorem printedInt_min_length : (printedInt (-2147483648)).length =
    (decimal (-2147483648)).length + 10 := by
  decide +kernel

-- ---------------------------------------------------------------------------
-- One conversion
-- ---------------------------------------------------------------------------

theorem print_string (h : CString m s xs) (hk : k ≤ xs.length) : print m s k = xs.take k := by
  have hlt := h.lt
  apply List.ext_getElem
  · rw [print, List.length_map, List.length_range, List.length_take, Nat.min_eq_left hk]
  · intro i hi _
    rw [print, List.length_map, List.length_range] at hi
    rw [List.getElem_take]
    simp only [print, List.getElem_map, List.getElem_range]
    rw [Word32.add_of_lt (by omega), h.byte (by omega)]

theorem Printing.put_put (st : Printing) (s t : List UInt8) :
    (st.put s).put t = st.put (s ++ t) := by
  simp only [Printing.put, List.append_assoc, List.length_append, Printing.mk.injEq, true_and]
  unfold Word32.add
  omega

theorem toInt_toNat {i : Int} (hlo : -2147483648 ≤ i) (hhi : i < 2147483648) :
    Word32.toInt (i % 4294967296).toNat = i := by
  unfold Word32.toInt
  split <;> omega

theorem toInt_neg_toNat {i : Int} (hlo : -2147483648 < i) (hneg : i < 0) :
    Word32.toInt (Word32.sub 0 (i % 4294967296).toNat) = -i := by
  unfold Word32.toInt Word32.sub
  split <;> omega

theorem signed_renders {i : Int} {w : Nat} {va : List Nat} (hpass : Passed m (.int i) w)
    (hc : conversion (m st.format) = .signed) (hva : st.parameters = w :: va) :
    convert m st = some ({ st with parameters := va }.put (printedInt i)) := by
  obtain ⟨hlo, hhi, rfl⟩ := hpass
  simp only [convert, hc, hva, toInt_toNat hlo hhi]
  by_cases hneg : i < 0
  · rw [if_pos hneg]
    by_cases hmin : i = -2147483648
    · subst hmin
      have hval :
        toUnsignedLongLong (Word32.toInt (Word32.sub 0 ((-2147483648 : Int) % 4294967296).toNat)) =
          18446744071562067968 := by decide
      rw [hval, iPrint_digits (by decide) (by decide) (by decide)]
      simp only [Printing.put_put]
      rfl
    · have hval : toUnsignedLongLong (Word32.toInt (Word32.sub 0 (i % 4294967296).toNat)) =
        i.natAbs := by
        rw [toInt_neg_toNat (by omega) hneg]
        unfold toUnsignedLongLong
        omega
      rw [hval, iPrint_digits (by decide) (by decide) (by omega)]
      simp only [Printing.put_put, printedInt, if_neg hmin, decimal, if_pos hneg]
      rfl
  · have hval : toUnsignedLongLong i = i.natAbs := by
      unfold toUnsignedLongLong
      omega
    rw [if_neg hneg, hval, iPrint_digits (by decide) (by decide) (by omega)]
    simp only [printedInt, if_neg (show i ≠ -2147483648 by omega), decimal, if_neg hneg]

theorem unsigned_base {b : Nat} (hc : conversion c = .unsigned b) : b = 10 ∨ b = 16 ∨ b = 8 := by
  unfold conversion at hc
  repeat' split at hc
  all_goals simp at hc
  all_goals omega

theorem rendering_cases {args' : List Arg} (h : rendering dec c args = some (o, args')) :
    (conversion c = .char ∧ ∃ i, args = .int i :: args' ∧ o = [toChar i]) ∨
    (conversion c = .string ∧ ∃ s, args = .string s :: args' ∧ o = s) ∨
    (conversion c = .signed ∧ ∃ i, args = .int i :: args' ∧ o = dec i) ∨
    (∃ base, conversion c = .unsigned base ∧ ∃ u, args = .unsigned u :: args' ∧ o = digits base u) ∨
    (conversion c = .other ∧ args' = args ∧ o = plain c) := by
  unfold rendering at h
  split at h
  case h_6 => cases h
  all_goals
    rename_i hc
    cases h
  · exact .inl ⟨hc, _, rfl, rfl⟩
  · exact .inr (.inl ⟨hc, _, rfl, rfl⟩)
  · exact .inr (.inr (.inl ⟨hc, _, rfl, rfl⟩))
  · exact .inr (.inr (.inr (.inl ⟨_, hc, _, rfl, rfl⟩)))
  · exact .inr (.inr (.inr (.inr ⟨hc, rfl, rfl⟩)))

theorem convert_renders (st : Printing) (hfmt : CString m st.format (c :: fmt)) {args' : List Arg}
    (hargs : List.Forall₂ (Passed m) args st.parameters)
    (hr : rendering printedInt c args = some (o, args')) :
    ∃ va, convert m st = some ({ st with parameters := va }.put o) ∧
      List.Forall₂ (Passed m) args' va := by
  have hm : m st.format = c := hfmt.1
  rcases rendering_cases hr with ⟨hc, i, rfl, rfl⟩ | ⟨hc, xs, rfl, rfl⟩ | ⟨hc, i, rfl, rfl⟩ | ⟨b,
    hc, u, rfl, rfl⟩ |
    ⟨hc, rfl, rfl⟩
  · obtain ⟨w, va, hpass, hrest, hva⟩ := List.forall₂_cons_left_iff.mp hargs
    have hw : UInt8.ofNat w = toChar i := by
      obtain ⟨-, -, rfl⟩ := hpass
      rw [toChar, ← UInt8.toNat_inj, UInt8.toNat_ofNat', UInt8.toNat_ofNat']
      omega
    refine ⟨va, ?_, hrest⟩
    simp only [convert, hm, hc, hva, hw]
  · obtain ⟨s, va, hpass, hrest, hva⟩ := List.forall₂_cons_left_iff.mp hargs
    have hstr : CString m s o := hpass
    refine ⟨va, ?_, hrest⟩
    simp only [convert, hm, hc, hva, kstrlen_string hstr, print_string hstr (Nat.le_refl _),
      List.take_length]
  · obtain ⟨w, va, hpass, hrest, hva⟩ := List.forall₂_cons_left_iff.mp hargs
    exact ⟨va, signed_renders hpass (hm ▸ hc) hva, hrest⟩
  · obtain ⟨w, va, ⟨hlt, rfl⟩, hrest, hva⟩ := List.forall₂_cons_left_iff.mp hargs
    have hbase := unsigned_base hc
    refine ⟨va, ?_, hrest⟩
    simp only [convert, hm, hc, hva, iPrint_digits (show 2 ≤ b by omega) (by omega)
      (show w < _ by omega)]
  · refine ⟨st.parameters, ?_, hargs⟩
    have hone : print m st.format 1 = [c] := print_string hfmt (by simp)
    simp only [convert, hm, hc, hone, Printing.put_put, plain]
    by_cases hp : c = percent
    · rw [if_neg (by simp [hp]), if_pos hp, hp]
    · rw [if_pos hp, if_neg hp]
      rfl

-- ---------------------------------------------------------------------------
-- The whole format
-- ---------------------------------------------------------------------------

theorem parse_text (hc : c ≠ percent) (fmt : List UInt8) :
    parse (c :: fmt) = .text c :: parse fmt := by
  cases fmt with
  | nil => simp [parse, hc]
  | cons d fmt => simp [parse, hc]

theorem parse_texts (hxs : ∀ x ∈ xs, x ≠ percent) (fmt : List UInt8) :
    parse (xs ++ fmt) = xs.map .text ++ parse fmt := by
  induction xs with
  | nil => rfl
  | cons x xs ih =>
    rw [List.cons_append, parse_text (hxs x List.mem_cons_self),
      ih fun y hy => hxs y (List.mem_cons_of_mem _ hy)]
    rfl

theorem render_texts (dec : Int → List UInt8) (xs : List UInt8) (ps : List Piece)
    (args : List Arg) :
    render dec (xs.map .text ++ ps) args = (render dec ps args).map (xs ++ ·) := by
  induction xs with
  | nil => simp
  | cons x xs ih =>
    rw [List.map_cons, List.cons_append, render, ih, Option.map_map]
    rfl

/-- From `st` on the scanner prints `o` and counts it. -/
def Prints (m : Memory) (fuel : Nat) (st : Printing) (o : List UInt8) : Prop :=
  ∃ st', kprintfLoop m fuel st = some st' ∧ st'.output = st.output ++ o ∧
    st'.written = Word32.add st.written o.length

theorem Prints.nul (fuel : Nat) (st : Printing) (hend : m st.format = 0)
    (hw : st.written < 4294967296) : Prints m (fuel + 1) st [] := by
  refine ⟨st, by simp [kprintfLoop, hend], by simp, ?_⟩
  rw [List.length_nil, Word32.add_of_lt (by omega), Nat.add_zero]

theorem Prints.round {f : Nat} (va : List Nat) {s : List UInt8}
    (hround : kprintfLoop m (fuel + 1) st =
      kprintfLoop m fuel { st.put s with format := f, parameters := va })
    (h : Prints m fuel { st.put s with format := f, parameters := va } o) :
    Prints m (fuel + 1) st (s ++ o) := by
  obtain ⟨st', hloop, hout, hwritten⟩ := h
  refine ⟨st', hround.trans hloop, by rw [hout]; simp [Printing.put], ?_⟩
  rw [hwritten, List.length_append]
  simp only [Printing.put, Word32.add]
  omega

/-- A round that copies the text up to the next `%`. -/
theorem text_round (fuel : Nat) (hfmt : CString m st.format (c :: fmt)) (hc : c ≠ percent) :
    ∃ xs rest, c :: fmt = xs ++ rest ∧ xs ≠ [] ∧ (∀ x ∈ xs, x ≠ percent) ∧
      CString m (st.format + xs.length) rest ∧
      kprintfLoop m (fuel + 1) st = kprintfLoop m fuel { st.put xs with format :=
      st.format + xs.length } := by
  have hlt := hfmt.lt
  have hpre := List.takeWhile_prefix (l := c :: fmt) (fun x => !(x == 0 || x == percent))
  have hseek := hfmt.seek (p := fun b => b == 0 || b == percent) (n := addressSpace) rfl
    (by rw [addressSpace]; omega)
  have htexts : ∀ x ∈ (c :: fmt).takeWhile (fun x => !(x == 0 || x == percent)), x ≠ percent :=
    fun x hx => by
    have hkeep := List.mem_takeWhile_imp hx
    simp only [Bool.not_eq_eq_eq_not, Bool.not_true, Bool.or_eq_false_iff, beq_eq_false_iff_ne]
      at hkeep
    exact hkeep.2
  have hsome : (c :: fmt).takeWhile (fun x => !(x == 0 || x == percent)) ≠ [] := by
    rw [List.takeWhile_cons, if_pos (by simp [hc, hfmt.2.1])]
    exact List.cons_ne_nil _ _
  generalize (c :: fmt).takeWhile (fun x => !(x == 0 || x == percent)) = xs
    at hpre hseek htexts hsome
  have hle := hpre.length_le
  have hamount : Word32.sub (st.format + xs.length) st.format = xs.length := by
    rw [Word32.sub_of_le (by omega) (by omega), Nat.add_sub_cancel_left]
  have hprint : print m st.format xs.length = xs := by
    rw [print_string hfmt hle, ← List.prefix_iff_eq_take.mp hpre]
  refine ⟨xs, (c :: fmt).drop xs.length, (List.prefix_iff_eq_append.mp hpre).symm, hsome, htexts,
    hfmt.drop _ hle, ?_⟩
  rw [kprintfLoop, if_pos (hfmt.1 ▸ hfmt.2.1), hfmt.1, if_neg hc, hseek]
  simp only [hamount, hprint]
  rw [Word32.add_of_lt (by omega)]

/-- The scanner on a format whose conversions all have their arguments. The
induction is on the characters left: each round takes at least one. -/
theorem kprintfLoop_prints : ∀ (n : Nat) {fmt : List UInt8} (st : Printing)
    {args : List Arg} {o : List UInt8}
    (fuel : Nat), fmt.length ≤ n → CString m st.format fmt → n < fuel → st.written < 4294967296 →
    List.Forall₂ (Passed m) args st.parameters → render printedInt (parse fmt) args = some o →
    Prints m fuel st o := by
  intro n
  induction n with
  | zero =>
    intro fmt st args o fuel hn hfmt hfuel hw _ hr
    obtain rfl := List.length_eq_zero_iff.mp (Nat.le_zero.mp hn)
    obtain ⟨fuel, rfl⟩ := Nat.exists_eq_add_of_lt hfuel
    obtain rfl := Option.some.inj hr
    exact .nul _ _ hfmt.1 hw
  | succ n ih =>
    intro fmt st args o fuel hn hfmt hfuel hw hargs hr
    obtain ⟨fuel, rfl⟩ : ∃ f, fuel = f + 1 := ⟨fuel - 1, by omega⟩
    cases fmt with
    | nil =>
      obtain rfl := Option.some.inj hr
      exact .nul _ _ hfmt.1 hw
    | cons c fmt =>
      have hlt := hfmt.lt
      rw [List.length_cons] at hn hlt
      by_cases hc : c = percent
      · have hstart : kprintfLoop m (fuel + 1) st = match convert m { st with format :=
          st.format + 1 } with
            | none => none
            | some st => kprintfLoop m fuel { st with format := Word32.add st.format 1 } := by
          rw [kprintfLoop, if_pos (hfmt.1 ▸ hfmt.2.1), hfmt.1, if_pos hc,
            Word32.add_of_lt (by omega)]
        cases fmt with
        | nil =>
          -- a lone `%` at the end: the scanner steps back onto it and over it again
          rw [parse, if_pos hc] at hr
          obtain rfl := Option.some.inj hr
          have hnul : conversion (m (st.format + 1)) = .nul := by rw [hfmt.2.2.1]; rfl
          have hback : Word32.add (Word32.sub (st.format + 1) 1) 1 = st.format + 1 := by
            have := hfmt.2.2.2
            rw [Word32.sub_of_le (by omega) this, Word32.add_of_lt (by omega), Nat.add_sub_cancel]
          obtain ⟨fuel, rfl⟩ : ∃ f, fuel = f + 1 := ⟨fuel - 1, by omega⟩
          obtain ⟨st', hloop, hout, hwritten⟩ := Prints.nul fuel { st with format := st.format + 1 }
            hfmt.2.2.1 hw
          refine ⟨st', ?_, hout, hwritten⟩
          rw [hstart]
          simp only [convert, hnul, hback]
          exact hloop
        | cons d fmt =>
          rw [List.length_cons] at hn hlt
          have hparse : parse (c :: d :: fmt) = .conv d :: parse fmt := by simp [parse, hc]
          rw [hparse, render] at hr
          cases hone : rendering printedInt d args with
          | none => simp [hone] at hr
          | some r =>
            simp only [hone, Option.map_eq_some_iff] at hr
            obtain ⟨o', hr, rfl⟩ := hr
            obtain ⟨va, hconv, hrest⟩ :=
              convert_renders { st with format := st.format + 1 } hfmt.2.2 hargs hone
            refine .round (f := st.format + 1 + 1) va ?_
              (ih _ _ (by omega) hfmt.2.2.2.2 (by omega) Word32.add_lt hrest hr)
            rw [hstart, hconv]
            simp only [Printing.put]
            rw [Word32.add_of_lt (by omega)]
      · obtain ⟨xs, rest, hsplit, hne, htexts, hstr, hround⟩ := text_round fuel hfmt hc
        rw [hsplit, parse_texts htexts, render_texts, Option.map_eq_some_iff] at hr
        obtain ⟨o', hr, rfl⟩ := hr
        have hlen := congrArg List.length hsplit
        rw [List.length_cons, List.length_append] at hlen
        have hpos := List.length_pos_iff.mpr hne
        exact .round _ hround (ih _ _ (by omega) hstr (by omega) Word32.add_lt hargs hr)

-- ---------------------------------------------------------------------------
-- When the output is the reference
-- ---------------------------------------------------------------------------

/-- What one conversion adds to the values of `%d` and `%i`, and how much
longer the code's text is for it. -/
theorem rendering_printed {s : List UInt8} {args' : List Arg}
    (h : rendering decimal c args = some (s, args')) :
    ∃ s' is, rendering printedInt c args = some (s', args') ∧
      (∀ ps, signedArgs (.conv c :: ps) args = is ++ signedArgs ps args') ∧
      s'.length = s.length + 10 * is.count (-2147483648) ∧ (-2147483648 ∉ is → s' = s) := by
  rcases rendering_cases h with ⟨hc, i, rfl, rfl⟩ | ⟨hc, xs, rfl, rfl⟩ | ⟨hc, i, rfl, rfl⟩ | ⟨b,
    hc, u, rfl, rfl⟩ |
    ⟨hc, rfl, rfl⟩
  · exact ⟨_, [], by simp [rendering, hc], by simp [signedArgs, hc], rfl, fun _ => rfl⟩
  · exact ⟨_, [], by simp [rendering, hc], by simp [signedArgs, hc], rfl, fun _ => rfl⟩
  · refine ⟨printedInt i, [i], by simp only [rendering, hc], by
      simp [signedArgs, hc], ?_, fun hi => ?_⟩
    · by_cases hmin : i = -2147483648
      · rw [hmin, printedInt_min_length]
        rfl
      · rw [printedInt, if_neg hmin, List.count_singleton, if_neg (by simpa using hmin)]
        rfl
    · rw [List.mem_singleton] at hi
      rw [printedInt, if_neg (Ne.symm hi)]
  · exact ⟨_, [], by simp [rendering, hc], by simp [signedArgs, hc], rfl, fun _ => rfl⟩
  · exact ⟨_, [], by simp [rendering, hc], by simp [signedArgs, hc], rfl, fun _ => rfl⟩

theorem render_printed (h : render decimal ps args = some out) :
    ∃ o, render printedInt ps args = some o ∧
      o.length = out.length + 10 * (signedArgs ps args).count (-2147483648) ∧
      (-2147483648 ∉ signedArgs ps args → o = out) := by
  induction ps generalizing args out with
  | nil =>
    obtain rfl := Option.some.inj h
    exact ⟨[], rfl, rfl, fun _ => rfl⟩
  | cons p ps ih =>
    cases p with
    | text c =>
      rw [render, Option.map_eq_some_iff] at h
      obtain ⟨out, h, rfl⟩ := h
      obtain ⟨o, ho, hlen, hsame⟩ := ih h
      refine ⟨c :: o, by rw [render, ho]; rfl, ?_, fun hmin => by rw [hsame hmin]⟩
      rw [List.length_cons, List.length_cons, hlen]
      simp only [signedArgs]
      omega
    | conv c =>
      rw [render] at h
      cases hone : rendering decimal c args with
      | none => simp [hone] at h
      | some r =>
        obtain ⟨s, args'⟩ := r
        simp only [hone, Option.map_eq_some_iff] at h
        obtain ⟨out, h, rfl⟩ := h
        obtain ⟨o, ho, hlen, hsame⟩ := ih h
        obtain ⟨s', is, hone', hsigned, hlen', hsame'⟩ := rendering_printed hone
        refine ⟨s' ++ o, by simp only [render, hone', ho, Option.map_some], ?_, fun hmin => ?_⟩
        · rw [hsigned, List.count_append, List.length_append, List.length_append, hlen, hlen']
          omega
        · rw [hsigned, List.mem_append, not_or] at hmin
          rw [hsame' hmin.1, hsame hmin.2]

/-- What the code prints and returns for every format whose conversions have
their arguments. -/
theorem kprintf_prints {f : Nat} {words : List Nat} (hfmt : CString m f fmt)
    (hargs : List.Forall₂ (Passed m) args words)
    (hr : render printedInt (parse fmt) args = some o) :
    kprintf m f words = some (o, Word32.toInt (o.length % 4294967296)) := by
  have hlt := hfmt.lt
  obtain ⟨st', hloop, hout, hwritten⟩ := kprintfLoop_prints fmt.length ⟨f, words, [], 0⟩
    addressSpace (Nat.le_refl _) hfmt (by rw [addressSpace]; omega)
      (show 0 < 4294967296 by decide) hargs hr
  rw [kprintf, hloop]
  simp only [hout, hwritten, List.nil_append, Word32.add, Nat.zero_add]

/-- The output is the reference and the value returned its length if and only
if no `%d` or `%i` is given the least `int` and the length is an `int`. -/
theorem kprintf_iff (m : Memory) (f : Nat) (fmt : List UInt8) (args : List Arg) (words : List Nat)
    (out : List UInt8) (hfmt : CString m f fmt) (hargs : List.Forall₂ (Passed m) args words)
    (href : reference fmt args = some out) :
    (∃ printed value, kprintf m f words = some (printed, value) ∧ printed = out ∧
    value = printed.length) ↔
      -2147483648 ∉ signedArgs (parse fmt) args ∧ out.length < 2147483648 := by
  obtain ⟨o, ho, hlen, hsame⟩ := render_printed href
  have hrun := kprintf_prints hfmt hargs ho
  constructor
  · rintro ⟨printed, value, hrun', rfl, hvalue⟩
    rw [hrun, Option.some.injEq, Prod.mk.injEq] at hrun'
    obtain ⟨rfl, rfl⟩ := hrun'
    constructor
    · rw [← List.count_eq_zero]
      omega
    · unfold Word32.toInt at hvalue
      split at hvalue <;> omega
  · rintro ⟨hmin, hshort⟩
    refine ⟨o, _, hrun, hsame hmin, ?_⟩
    rw [hsame hmin, Nat.mod_eq_of_lt (by omega), Word32.toInt_of_lt hshort]

def percentD : Memory := fun a => if a = 16 then percent else if a = 17 then 'd'.toUInt8 else 0

theorem kprintf_iff_percentD :
    (∃ printed value, kprintf percentD 16 [4294967254] = some (printed, value) ∧
      printed = "-42".toList.map Char.toUInt8 ∧ value = printed.length) ↔
    -2147483648 ∉ signedArgs (parse [percent, 'd'.toUInt8]) [.int (-42)] ∧
      ("-42".toList.map Char.toUInt8).length < 2147483648 :=
  kprintf_iff percentD 16 [percent, 'd'.toUInt8] [.int (-42)] [4294967254]
    ("-42".toList.map Char.toUInt8)
    ⟨rfl, by decide, rfl, by decide, rfl, by decide⟩ (.cons (by simp [Passed]) .nil) (by decide)

/-- "%d" with the least `int`: "-18446744071562067968". -/
theorem kprintf_least : CString percentD 16 [percent, 'd'.toUInt8] ∧
    List.Forall₂ (Passed percentD) [.int (-2147483648)] [2147483648] ∧
    reference [percent, 'd'.toUInt8] [.int (-2147483648)] =
    some ("-2147483648".toList.map Char.toUInt8) ∧
    ¬∃ printed value, kprintf percentD 16 [2147483648] = some (printed, value) ∧
      printed = "-2147483648".toList.map Char.toUInt8 ∧ value = printed.length := by
  have hrun : kprintf percentD 16 [2147483648] =
    some ("-18446744071562067968".toList.map Char.toUInt8, 21) := by
    decide +kernel
  refine ⟨⟨rfl, by decide, rfl, by decide, rfl, by decide⟩, .cons (by simp [Passed]) .nil,
    by decide +kernel, ?_⟩
  rintro ⟨printed, value, hrun', hsame, -⟩
  rw [hrun, Option.some.injEq, Prod.mk.injEq] at hrun'
  rw [hsame] at hrun'
  exact absurd hrun'.1 (by decide)

end ElcoOs.Kstdio
