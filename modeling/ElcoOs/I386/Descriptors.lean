import ElcoOs.Lib.Word
import Mathlib.Tactic.IntervalCases

/-!
# Descriptor tables

`descriptors.c` writes the segment and gate descriptors field by field. The
processor reads a descriptor as two words, whose bits it takes apart in its own
way; what it finds there is what the tables mean.
-/

namespace ElcoOs.I386

-- ---------------------------------------------------------------------------
-- i386_const.h
-- ---------------------------------------------------------------------------

def gdtSize : Nat := 6
def idtSize : Nat := 256
def exceptionCount : Nat := 32
def irqCount : Nat := 16

def gdtDescrSize : Nat := 8
def gdtDummyIndex : Nat := 0
def gdtRing0CodeIndex : Nat := 1
def gdtRing0DataIndex : Nat := 2
def gdtRing3CodeIndex : Nat := 3
def gdtRing3DataIndex : Nat := 4
def gdtTssIndex : Nat := 5

def gdtRing0Code : Nat := gdtRing0CodeIndex * gdtDescrSize
def gdtRing0Data : Nat := gdtRing0DataIndex * gdtDescrSize

def gdtAccPresent : Nat := 0x80
def gdtAccPriv0 : Nat := 0x00
def gdtAccPriv3 : Nat := 0x60
def gdtAccResv : Nat := 0x10
def gdtAccExec : Nat := 0x08
def gdtAccRw : Nat := 0x02
def gdtAccTssType : Nat := 0x09
def gdtFlagGran4k : Nat := 0x8
def gdtFlag32bit : Nat := 0x4

def idtAtrType32ig : Nat := 0x0E
def idtAtrPres : Nat := 0x80

/-- `sizeof(struct tss_entry)` -/
def tssSize : Nat := 104

-- ---------------------------------------------------------------------------
-- Entries
-- ---------------------------------------------------------------------------

/-- `struct gdt_entry`, packed; `limitHigh` and `flags` share a byte. -/
structure GdtEntry where
  limitLow : Nat
  baseLow : Nat
  baseMid : Nat
  access : Nat
  limitHigh : Nat
  flags : Nat
  baseHigh : Nat
  deriving DecidableEq, Repr

/-- `struct idt_entry`, packed. -/
structure IdtEntry where
  offsetLow : Nat
  selector : Nat
  zero : Nat
  typeAtr : Nat
  offsetHigh : Nat
  deriving DecidableEq, Repr

abbrev Gdt := Nat → GdtEntry
abbrev Idt := Nat → IdtEntry

def gdtSetEntry (gdt : Gdt) (index base limit access flags : Nat) : Gdt :=
  if index ≥ gdtSize then gdt
  else
    let entry : GdtEntry :=
      { baseLow := base &&& 0x0000FFFF
        baseMid := (base &&& 0x00FF0000) >>> 16
        baseHigh := (base &&& 0xFF000000) >>> 24
        limitLow := limit &&& 0x0FFFF
        limitHigh := (limit &&& 0xF0000) >>> 16
        access := access
        flags := flags &&& 0xF }
    fun i => if i = index then entry else gdt i

def idtSetEntry (idt : Idt) (index offset selector attr : Nat) : Idt :=
  if index ≥ idtSize then idt
  else
    let entry : IdtEntry :=
      { offsetLow := offset &&& 0x0000FFFF
        offsetHigh := (offset &&& 0xFFFF0000) >>> 16
        selector := selector
        typeAtr := attr
        zero := 0 }
    fun i => if i = index then entry else idt i

-- ---------------------------------------------------------------------------
-- Initialisation
-- ---------------------------------------------------------------------------

/-- The addresses of the entry points of `i386.S`. -/
structure Stubs where
  isr : Nat → Nat
  irq : Nat → Nat
  kernelCall : Nat

/-- With `tss` the address of the task state segment. -/
def gdtInitialize (gdt : Gdt) (tss : Nat) : Gdt :=
  let gdt := gdtSetEntry gdt gdtDummyIndex 0 0 0 0
  let gdt := gdtSetEntry gdt gdtRing0CodeIndex 0 0xFFFFF
    (gdtAccPresent ||| gdtAccPriv0 ||| gdtAccResv ||| gdtAccExec ||| gdtAccRw)
      (gdtFlagGran4k ||| gdtFlag32bit)
  let gdt := gdtSetEntry gdt gdtRing0DataIndex 0 0xFFFFF
    (gdtAccPresent ||| gdtAccPriv0 ||| gdtAccResv ||| gdtAccRw) (gdtFlagGran4k ||| gdtFlag32bit)
  let gdt := gdtSetEntry gdt gdtRing3CodeIndex 0 0xFFFFF
    (gdtAccPresent ||| gdtAccPriv3 ||| gdtAccResv ||| gdtAccExec ||| gdtAccRw)
      (gdtFlagGran4k ||| gdtFlag32bit)
  let gdt := gdtSetEntry gdt gdtRing3DataIndex 0 0xFFFFF
    (gdtAccPresent ||| gdtAccPriv3 ||| gdtAccResv ||| gdtAccRw) (gdtFlagGran4k ||| gdtFlag32bit)
  gdtSetEntry gdt gdtTssIndex tss tssSize (gdtAccPresent ||| gdtAccPriv0 ||| gdtAccTssType)
    gdtFlagGran4k

/-- The line of `idt_initialize` for one vector; they differ in the vector and the entry point. -/
def idtSetStub (idt : Idt) (index stub : Nat) : Idt :=
  idtSetEntry idt index stub gdtRing0Code (idtAtrType32ig ||| idtAtrPres)

/-- `kmemset` has cleared the table. -/
def idtInitialize (stubs : Stubs) : Idt :=
  let idt : Idt := fun _ => ⟨0, 0, 0, 0, 0⟩
  let idt := (List.range exceptionCount).foldl (fun idt i => idtSetStub idt i (stubs.isr i)) idt
  let idt := (List.range irqCount).foldl (fun idt i => idtSetStub idt (32 + i) (stubs.irq i)) idt
  idtSetStub idt 128 stubs.kernelCall

-- ---------------------------------------------------------------------------
-- What the processor reads
-- ---------------------------------------------------------------------------

def GdtEntry.words (e : GdtEntry) : Nat × Nat :=
  (e.limitLow + 65536 * e.baseLow,
    e.baseMid + 256 * e.access + 65536 * (e.limitHigh + 16 * e.flags) + 16777216 * e.baseHigh)

def IdtEntry.words (e : IdtEntry) : Nat × Nat :=
  (e.offsetLow + 65536 * e.selector, e.zero + 256 * e.typeAtr + 65536 * e.offsetHigh)

structure Segment where
  base : Nat
  limit : Nat
  /-- of a system segment which one it is, else what may be done with it -/
  type : Nat
  system : Bool
  dpl : Nat
  present : Bool
  flags : Nat
  deriving DecidableEq, Repr

namespace Segment

variable (s : Segment)

/-- The last byte offset: the limit counts pages if the granularity bit is set. -/
def last : Nat := if s.flags.testBit 3 then s.limit * 4096 + 4095 else s.limit

def size32 : Bool := s.flags.testBit 2

def Code : Prop := s.system = false ∧ s.type.testBit 3 = true ∧ s.type.testBit 2 = false ∧
    s.type.testBit 1 = true

def Data : Prop := s.system = false ∧ s.type.testBit 3 = false ∧ s.type.testBit 2 = false ∧
    s.type.testBit 1 = true

instance : Decidable s.Code := inferInstanceAs (Decidable (_ ∧ _))
instance : Decidable s.Data := inferInstanceAs (Decidable (_ ∧ _))

end Segment

structure Gate where
  offset : Nat
  selector : Nat
  /-- 14 for a 32-bit interrupt gate -/
  type : Nat
  /-- as every gate is -/
  system : Bool
  dpl : Nat
  present : Bool
  deriving DecidableEq, Repr

def readSegment (words : Nat × Nat) : Segment :=
  { base := words.1 / 65536 + words.2 % 256 * 65536 + words.2 / 16777216 * 16777216
    limit := words.1 % 65536 + words.2 / 65536 % 16 * 65536
    type := words.2 / 256 % 16
    system := !words.2.testBit 12
    dpl := words.2 / 8192 % 4
    present := words.2.testBit 15
    flags := words.2 / 1048576 % 16 }

def readGate (words : Nat × Nat) : Gate :=
  { offset := words.1 % 65536 + words.2 / 65536 * 65536
    selector := words.1 / 65536
    type := words.2 / 256 % 16
    system := !words.2.testBit 12
    dpl := words.2 / 8192 % 4
    present := words.2.testBit 15 }

variable {base limit access flags index offset selector attr i k n tss : Nat} {gdt : Gdt}
  {idt : Idt} {stubs : Stubs}

theorem and_shiftRight (a lo len : Nat) : (a &&& (2 ^ len - 1) * 2 ^ lo) >>> lo =
    a / 2 ^ lo % 2 ^ len := by
  apply Nat.eq_of_testBit_eq
  intro i
  rw [Nat.testBit_shiftRight, Nat.testBit_and, Nat.testBit_mul_two_pow, Nat.testBit_two_pow_sub_one,
    Nat.testBit_mod_two_pow,
    Nat.testBit_div_two_pow, Nat.add_sub_cancel_left, Nat.add_comm lo i]
  by_cases hi : i < len <;> simp [hi]

theorem testBit_second {a b c : Nat} (ha : a < 256) (hi : i < 8) :
    (a + 256 * (b + 256 * c)).testBit (8 + i) = (b % 256).testBit i := by
  have hdiv : (a + 256 * (b + 256 * c)) / 2 ^ 8 = b + 256 * c := by omega
  rw [Nat.add_comm 8 i, ← Nat.testBit_div_two_pow, hdiv,
    show b % 256 = (b + 256 * c) % 2 ^ 8 by omega,
    Nat.testBit_mod_two_pow, decide_eq_true hi, Bool.true_and]

theorem readSegment_words {e : GdtEntry} (hll : e.limitLow < 65536) (hbl : e.baseLow < 65536)
    (hbm : e.baseMid < 256) (ha : e.access < 256) (hlh : e.limitHigh < 16) (hf : e.flags < 16) :
    readSegment e.words =
      { base := e.baseLow + e.baseMid * 65536 + e.baseHigh * 16777216
        limit := e.limitLow + e.limitHigh * 65536
        type := e.access % 16
        system := !e.access.testBit 4
        dpl := e.access / 32 % 4
        present := e.access.testBit 7
        flags := e.flags } := by
  obtain ⟨ll, bl, bm, a, lh, f, bh⟩ := e
  simp only at hll hbl hbm ha hlh hf
  have hbit : ∀ i < 8, (bm + 256 * a + 65536 * (lh + 16 * f) + 16777216 * bh).testBit (8 + i) =
    a.testBit i := by
    intro i hi
    have hsplit := testBit_second (b := a) (c := lh + 16 * f + 256 * bh) hbm hi
    rw [Nat.mod_eq_of_lt ha] at hsplit
    rw [← hsplit]
    congr 1
    omega
  have hflags : (bm + 256 * a + 65536 * (lh + 16 * f) + 16777216 * bh) / 1048576 = f + 16 * bh :=
    by omega
  simp only [readSegment, GdtEntry.words, hflags, Segment.mk.injEq, hbit 4 (by decide),
    hbit 7 (by decide)]
  refine ⟨?_, ?_, ?_, trivial, ?_, trivial, ?_⟩ <;> omega

/-- The processor reads back what was given, the limit cut to 20 bits and the flags to 4. -/
theorem readSegment_gdtSetEntry (hi : index < gdtSize) (hb : base < 4294967296)
    (ha : access < 256) :
    readSegment (gdtSetEntry gdt index base limit access flags index).words =
      ⟨base, limit % 1048576, access % 16, !access.testBit 4, access / 32 % 4,
      access.testBit 7, flags % 16⟩ := by
  have hbl : base &&& 0x0000FFFF = base % 65536 := Nat.and_two_pow_sub_one_eq_mod base 16
  have hbm : (base &&& 0x00FF0000) >>> 16 = base / 65536 % 256 := and_shiftRight base 16 8
  have hbh : (base &&& 0xFF000000) >>> 24 = base / 16777216 % 256 := and_shiftRight base 24 8
  have hll : limit &&& 0x0FFFF = limit % 65536 := Nat.and_two_pow_sub_one_eq_mod limit 16
  have hlh : (limit &&& 0xF0000) >>> 16 = limit / 65536 % 16 := and_shiftRight limit 16 4
  have hfl : flags &&& 0xF = flags % 16 := Nat.and_two_pow_sub_one_eq_mod flags 4
  rw [gdtSetEntry, if_neg (by omega), if_pos rfl]
  simp only [hbl, hbm, hbh, hll, hlh, hfl]
  rw [readSegment_words (by simp only; omega) (by simp only; omega) (by simp only; omega)
    (by simp only; omega)
    (by simp only; omega) (by simp only; omega)]
  have hlimit : limit % 65536 + limit / 65536 % 16 * 65536 = limit % 1048576 := by
    rw [show 1048576 = 65536 * 16 from rfl, Nat.mod_mul, Nat.mul_comm]
  have hbase : base % 65536 + base / 65536 % 256 * 65536 + base / 16777216 % 256 * 16777216 =
    base := by omega
  simp only [hlimit, hbase]

theorem gdtSetEntry_other (h : i ≠ index) :
    gdtSetEntry gdt index base limit access flags i = gdt i := by
  unfold gdtSetEntry
  split
  · rfl
  · exact if_neg h

theorem idtSetEntry_other (h : i ≠ index) :
    idtSetEntry idt index offset selector attr i = idt i := by
  unfold idtSetEntry
  split
  · rfl
  · exact if_neg h

theorem readGate_idtSetEntry (hi : index < idtSize) (ho : offset < 4294967296) (ha : attr < 256) :
    readGate (idtSetEntry idt index offset selector attr index).words =
      ⟨offset, selector, attr % 16, !attr.testBit 4, attr / 32 % 4, attr.testBit 7⟩ := by
  have hol : offset &&& 0x0000FFFF = offset % 65536 := Nat.and_two_pow_sub_one_eq_mod offset 16
  have hoh : (offset &&& 0xFFFF0000) >>> 16 = offset / 65536 % 65536 := and_shiftRight offset 16 16
  have hbit : ∀ i < 8, (0 + 256 * attr + 65536 * (offset / 65536 % 65536)).testBit (8 + i) =
    attr.testBit i := by
    intro i hi
    have hsplit := testBit_second (b := attr) (c := offset / 65536 % 65536)
      (Nat.zero_lt_succ 255) hi
    rw [Nat.mod_eq_of_lt ha] at hsplit
    rw [← hsplit]
    congr 1
    omega
  rw [idtSetEntry, if_neg (by omega), if_pos rfl]
  simp only [readGate, IdtEntry.words, hol, hoh, hbit 4 (by decide),
    hbit 7 (by decide), Gate.mk.injEq]
  refine ⟨?_, ?_, ?_, trivial, ?_, trivial⟩ <;> omega

-- ---------------------------------------------------------------------------
-- The tables
-- ---------------------------------------------------------------------------

def Stubs.ofVector (stubs : Stubs) (n : Nat) : Option Nat :=
  if n < 32 then some (stubs.isr n)
  else if n < 48 then some (stubs.irq (n - 32))
  else if n = 128 then some stubs.kernelCall
  else none

structure Stubs.Valid (stubs : Stubs) : Prop where
  isr : ∀ n, stubs.isr n < 4294967296
  irq : ∀ n, stubs.irq n < 4294967296
  kernelCall : stubs.kernelCall < 4294967296

def stubGate (stub : Nat) : Gate := ⟨stub, gdtRing0Code, 0x0E, true, 0, true⟩

theorem readGate_idtSetStub {stub : Nat} (hi : index < idtSize) (hs : stub < 4294967296) :
    readGate (idtSetStub idt index stub index).words = stubGate stub :=
  readGate_idtSetEntry hi hs (by decide)

theorem idtSetStub_other {stub : Nat} (h : i ≠ index) : idtSetStub idt index stub i = idt i :=
  idtSetEntry_other h

theorem idtSetStub_foldl (idt : Idt) (b k : Nat) {stub : Nat → Nat} (hk : b + k ≤ idtSize)
    (hs : ∀ n, stub n < 4294967296) :
    let idt' := (List.range k).foldl (fun idt i => idtSetStub idt (b + i) (stub i)) idt
    (∀ i < k, readGate (idt' (b + i)).words = stubGate (stub i)) ∧ ∀ n, n < b ∨ b + k ≤ n →
    idt' n = idt n := by
  induction k with
  | zero => exact ⟨fun _ hi => absurd hi (Nat.not_lt_zero _), fun _ _ => rfl⟩
  | succ k ih =>
    obtain ⟨hin, hout⟩ := ih (by omega)
    simp only [List.range_succ, List.foldl_append, List.foldl_cons, List.foldl_nil]
    refine ⟨fun i hi => ?_, fun n hn => ?_⟩
    · by_cases hik : i = k
      · rw [hik, readGate_idtSetStub (by omega) (hs k)]
      · rw [idtSetStub_other (by omega), hin i (by omega)]
    · rw [idtSetStub_other (by omega), hout n (by omega)]

/-- Every vector with an entry point has an interrupt gate to it, and the others are not present. -/
theorem idtInitialize_gate (hs : stubs.Valid) (n : Nat) :
    match stubs.ofVector n with
    | some stub => readGate (idtInitialize stubs n).words = stubGate stub
    | none => (readGate (idtInitialize stubs n).words).present = false := by
  obtain ⟨hisr, hisr'⟩ :=
    idtSetStub_foldl (fun _ => ⟨0, 0, 0, 0, 0⟩) 0 exceptionCount (by decide) hs.isr
  simp only [Nat.zero_add] at hisr hisr'
  unfold idtInitialize
  generalize (List.range exceptionCount).foldl _ _ = idt₁ at hisr hisr' ⊢
  obtain ⟨hirq, hirq'⟩ := idtSetStub_foldl idt₁ 32 irqCount (by decide) hs.irq
  generalize (List.range irqCount).foldl _ _ = idt₂ at hirq hirq' ⊢
  rw [exceptionCount] at hisr hisr'
  rw [irqCount] at hirq hirq'
  unfold Stubs.ofVector
  by_cases h32 : n < 32
  · rw [if_pos h32]
    show readGate (idtSetStub idt₂ 128 stubs.kernelCall n).words = _
    rw [idtSetStub_other (by omega), hirq' n (.inl h32), hisr n h32]
  · by_cases h48 : n < 48
    · rw [if_neg h32, if_pos h48]
      show readGate (idtSetStub idt₂ 128 stubs.kernelCall n).words = _
      have hat := hirq (n - 32) (by omega)
      rw [show 32 + (n - 32) = n by omega] at hat
      rw [idtSetStub_other (by omega), hat]
    · by_cases h128 : n = 128
      · rw [if_neg h32, if_neg h48, if_pos h128, h128]
        exact readGate_idtSetStub (by decide) hs.kernelCall
      · rw [if_neg h32, if_neg h48, if_neg h128]
        show (readGate (idtSetStub idt₂ 128 stubs.kernelCall n).words).present = false
        rw [idtSetStub_other h128, hirq' n (by omega), hisr' n (by omega)]
        rfl

/-- The first line of the master, with one stub for all vectors. -/
theorem idtInitialize_gate_line :
    readGate (idtInitialize ⟨fun _ => 0x1000, fun _ => 0x1000, 0x1000⟩ 32).words =
    stubGate 0x1000 :=
  idtInitialize_gate (show Stubs.Valid ⟨fun _ => 0x1000, fun _ => 0x1000, 0x1000⟩ from
    ⟨fun _ => show 0x1000 < 4294967296 by decide, fun _ => show 0x1000 < 4294967296 by decide,
      show 0x1000 < 4294967296 by decide⟩) 32

theorem readSegment_flat (hi : index < gdtSize) (ha : access < 256) :
    readSegment
      (gdtSetEntry gdt index 0 0xFFFFF access (gdtFlagGran4k ||| gdtFlag32bit) index).words =
      ⟨0, 0xFFFFF, access % 16, !access.testBit 4, access / 32 % 4, access.testBit 7, 12⟩ :=
  readSegment_gdtSetEntry hi (by decide) ha

/-- In each ring there are a code and a data segment of 32 bits that cover the whole address space;
the limit of the task state segment counts pages as well. Nothing is written behind the table. -/
theorem gdtInitialize_segments (gdt : Gdt) (ht : tss < 4294967296) :
    let read := fun i => readSegment (gdtInitialize gdt tss i).words
    (∀ i ∈ [gdtRing0CodeIndex, gdtRing0DataIndex, gdtRing3CodeIndex, gdtRing3DataIndex],
      (read i).base = 0 ∧ (read i).last = 4294967295 ∧ (read i).present = true ∧
      (read i).size32 = true ∧
        (read i).dpl = (if i = gdtRing0CodeIndex ∨ i = gdtRing0DataIndex then 0 else 3) ∧
        if i = gdtRing0CodeIndex ∨ i = gdtRing3CodeIndex then (read i).Code else (read i).Data) ∧
      read gdtDummyIndex = ⟨0, 0, 0, true, 0, false, 0⟩ ∧
      read gdtTssIndex = ⟨tss, tssSize, 9, true, 0, true, 8⟩ ∧
      (read gdtTssIndex).last = tssSize * 4096 + 4095 ∧
      ∀ i ≥ gdtSize, gdtInitialize gdt tss i = gdt i := by
  intro read
  have htss : read gdtTssIndex = ⟨tss, tssSize, 9, true, 0, true, 8⟩ :=
    readSegment_gdtSetEntry (by decide) ht (by decide)
  have hdata3 : read gdtRing3DataIndex = ⟨0, 0xFFFFF, 2, false, 3, true, 12⟩ := by
    simp only [read, gdtInitialize]
    rw [gdtSetEntry_other (by decide)]
    exact readSegment_flat (by decide) (by decide)
  have hcode3 : read gdtRing3CodeIndex = ⟨0, 0xFFFFF, 10, false, 3, true, 12⟩ := by
    simp only [read, gdtInitialize]
    rw [gdtSetEntry_other (by decide), gdtSetEntry_other (by decide)]
    exact readSegment_flat (by decide) (by decide)
  have hdata0 : read gdtRing0DataIndex = ⟨0, 0xFFFFF, 2, false, 0, true, 12⟩ := by
    simp only [read, gdtInitialize]
    rw [gdtSetEntry_other (by decide), gdtSetEntry_other (by decide), gdtSetEntry_other (by decide)]
    exact readSegment_flat (by decide) (by decide)
  have hcode0 : read gdtRing0CodeIndex = ⟨0, 0xFFFFF, 10, false, 0, true, 12⟩ := by
    simp only [read, gdtInitialize]
    rw [gdtSetEntry_other (by decide), gdtSetEntry_other (by decide), gdtSetEntry_other (by decide),
      gdtSetEntry_other (by decide)]
    exact readSegment_flat (by decide) (by decide)
  have hdummy : read gdtDummyIndex = ⟨0, 0, 0, true, 0, false, 0⟩ := by
    simp only [read, gdtInitialize]
    rw [gdtSetEntry_other (by decide), gdtSetEntry_other (by decide), gdtSetEntry_other (by decide),
      gdtSetEntry_other (by decide), gdtSetEntry_other (by decide)]
    exact readSegment_gdtSetEntry (by decide) (by decide) (by decide)
  refine ⟨fun i hi => ?_, hdummy, htss,
    by rw [htss]; exact if_pos (show (8 : Nat).testBit 3 = true by decide),
    fun i hi => ?_⟩
  · simp only [List.mem_cons, List.not_mem_nil, or_false] at hi
    rcases hi with rfl | rfl | rfl | rfl
    · rw [hcode0]
      decide
    · rw [hdata0]
      decide
    · rw [hcode3]
      decide
    · rw [hdata3]
      decide
  · have hne : ∀ k < gdtSize, i ≠ k := fun k hk => (Nat.lt_of_lt_of_le hk hi).ne'
    simp only [gdtInitialize]
    rw [gdtSetEntry_other (hne _ (by decide)), gdtSetEntry_other (hne _ (by decide)),
      gdtSetEntry_other (hne _ (by decide)),
      gdtSetEntry_other (hne _ (by decide)), gdtSetEntry_other (hne _ (by decide)),
      gdtSetEntry_other (hne _ (by decide))]

/-- A task state segment at 0x5000. -/
theorem gdtInitialize_segments_tss :
    (readSegment (gdtInitialize (fun _ => ⟨0, 0, 0, 0, 0, 0, 0⟩) 0x5000
      gdtRing0CodeIndex).words).Code ∧
      (readSegment (gdtInitialize (fun _ => ⟨0, 0, 0, 0, 0, 0, 0⟩) 0x5000 gdtTssIndex).words).last =
      tssSize * 4096 + 4095 := by
  obtain ⟨hflat, -, -, htss, -⟩ :=
    gdtInitialize_segments (fun _ => ⟨0, 0, 0, 0, 0, 0, 0⟩) (show 0x5000 < 4294967296 by decide)
  exact ⟨(hflat gdtRing0CodeIndex List.mem_cons_self).2.2.2.2.2, htss⟩

end ElcoOs.I386
