import ElcoOs.Lib.Word
import Mathlib.Data.List.Induction

/-!
# Interrupt handlers and the masks of the two PICs

`irq_set_handler` and `irq_clear_handler` keep a table of handlers and, for
each line, a bit in the mask of the PIC that owns the line. A data port is an
8-bit register that reads back what was written last. `pic_clear_mask` uses
the port of the master for the lines of the slave too; the results at the end
say what follows for the masks.
-/

namespace ElcoOs.Interrupts

-- Master and slave, command and data port.
def pic0AddrC : Nat := 0x20
def pic0AddrD : Nat := 0x21
def pic1AddrC : Nat := 0xA0
def pic1AddrD : Nat := 0xA1

def irqCount : Nat := 16
def irq0Vect : Nat := 32

/-- The registers behind the ports, and `irq_handlers` with `none` for `NULL`. -/
structure Irqs (Handler : Type) where
  ports : Nat → Nat
  irqHandlers : Nat → Option Handler

variable {Handler : Type}

def outportb (s : Irqs Handler) (port value : Nat) : Irqs Handler :=
  { s with ports := fun p => if p = port then value % 256 else s.ports p }

def inportb (s : Irqs Handler) (port : Nat) : Nat := s.ports port

-- ---------------------------------------------------------------------------
-- pic.c
-- ---------------------------------------------------------------------------

def picInit (s : Irqs Handler) : Irqs Handler :=
  let s := outportb s pic0AddrC (0x01 ||| 0x10)
  let s := outportb s pic1AddrC (0x01 ||| 0x10)
  let s := outportb s pic0AddrD irq0Vect
  let s := outportb s pic1AddrD (irq0Vect + 8)
  let s := outportb s pic0AddrD (0x01 <<< 2)
  let s := outportb s pic1AddrD 0x02
  let s := outportb s pic0AddrD 0x01
  let s := outportb s pic1AddrD 0x01
  let s := outportb s pic0AddrD 0xff
  outportb s pic1AddrD 0xff

def picSetMask (s : Irqs Handler) (irq : Nat) : Irqs Handler :=
  if irq > 15 then s
  else if irq < 8 then outportb s pic0AddrD (inportb s pic0AddrD ||| 1 <<< irq)
  else outportb s pic1AddrD (inportb s pic1AddrD ||| 1 <<< (irq - 8))

def picClearMask (s : Irqs Handler) (irq : Nat) : Irqs Handler :=
  if irq > 15 then s
  else if irq < 8 then outportb s pic0AddrD (inportb s pic0AddrD &&& Word32.not32 (1 <<< irq))
  -- the port of the master, as in the source
  else outportb s pic0AddrD (inportb s pic0AddrD &&& Word32.not32 (1 <<< (irq - 8)))

def picEoi (s : Irqs Handler) (irq : Nat) : Irqs Handler :=
  outportb (if irq > 7 then outportb s pic1AddrC 0x20 else s) pic0AddrC 0x20

-- ---------------------------------------------------------------------------
-- interrupts.c
-- ---------------------------------------------------------------------------

def archInitInterrupts (s : Irqs Handler) : Irqs Handler :=
  picInit { s with irqHandlers := fun i => if i < irqCount then none else s.irqHandlers i }

/-- `irq_handlers[n] = handler;` -/
def setEntry (s : Irqs Handler) (n : Nat) (handler : Option Handler) : Irqs Handler :=
  { s with irqHandlers := fun i => if i = n then handler else s.irqHandlers i }

def irqSetHandler (s : Irqs Handler) (intrNo : Nat) (handler : Option Handler) : Irqs Handler :=
  if intrNo ≥ irqCount then s
  else picClearMask (setEntry s intrNo handler) (intrNo % 256)

def irqClearHandler (s : Irqs Handler) (intrNo : Nat) : Irqs Handler :=
  if intrNo ≥ irqCount then s
  else picSetMask (setEntry s intrNo none) (intrNo % 256)

/-- The divisor goes to the timer in two bytes. -/
def archTimerInit (s : Irqs Handler) (frequency : Nat) (callback : Handler) : Irqs Handler :=
  let divisor := 1193180 / frequency
  let s := outportb s 0x43 0x36
  let s := outportb s 0x40 (divisor &&& 0xFF)
  let s := outportb s 0x40 (divisor >>> 8 &&& 0xFF)
  irqSetHandler s 0 (some callback)

-- ---------------------------------------------------------------------------
-- Masks
-- ---------------------------------------------------------------------------

/-- A registration: a handler for a line, which is not `NULL`, or none any more. -/
inductive IrqCall (Handler : Type) where
  | set (n : Nat) (handler : Handler)
  | clear (n : Nat)

def irqCall (s : Irqs Handler) : IrqCall Handler → Irqs Handler
  | .set n handler => irqSetHandler s n (some handler)
  | .clear n => irqClearHandler s n

/-- The state after `arch_init_interrupts` and the registrations. -/
def registered (s : Irqs Handler) (calls : List (IrqCall Handler)) : Irqs Handler :=
  calls.foldl irqCall (archInitInterrupts s)

/-- The data port of the PIC that owns line `n`. -/
def ownerPort (n : Nat) : Nat := if n < 8 then pic0AddrD else pic1AddrD

def Follows (s : Irqs Handler) : Prop :=
  ∀ n < 16, (inportb s (ownerPort n)).testBit (n % 8) = false ↔ s.irqHandlers n ≠ none

variable {s : Irqs Handler} {i j k n a : Nat} {handler : Handler} {calls : List (IrqCall Handler)}

theorem testBit_setMask (hj : j < 8) (i a : Nat) :
    ((a ||| 1 <<< i) % 256).testBit j = (a.testBit j || decide (i = j)) := by
  rw [show (256 : Nat) = 2 ^ 8 from rfl, Nat.testBit_mod_two_pow, Word32.testBit_setBit]
  simp [hj]

theorem testBit_clearMask (hi : i < 8) (hj : j < 8) (a : Nat) :
    ((a &&& Word32.not32 (1 <<< i)) % 256).testBit j = (a.testBit j && !decide (i = j)) := by
  rw [show (256 : Nat) = 2 ^ 8 from rfl, Nat.testBit_mod_two_pow,
    Word32.testBit_clearBit a (by omega) (by omega)]
  simp [hj]

@[simp] theorem outportb_same (s : Irqs Handler) (p v : Nat) :
    inportb (outportb s p v) p = v % 256 :=
  if_pos rfl

theorem outportb_other (s : Irqs Handler) {p q : Nat} (v : Nat) (h : q ≠ p) :
    inportb (outportb s p v) q = inportb s q := if_neg h

@[simp] theorem outportb_irqHandlers (s : Irqs Handler) (p v : Nat) :
    (outportb s p v).irqHandlers = s.irqHandlers := rfl

theorem archInitInterrupts_masks (s : Irqs Handler) :
    inportb (archInitInterrupts s) pic0AddrD = 255 ∧
    inportb (archInitInterrupts s) pic1AddrD = 255 :=
  ⟨rfl, rfl⟩

theorem ownerPort_eq_iff (hn : n < 16) (hk : k < 16) (hbit : k % 8 = n % 8) :
    ownerPort k = ownerPort n ↔ k = n := by
  unfold ownerPort
  constructor
  · intro h
    by_cases hn8 : n < 8
    · by_cases hk8 : k < 8
      · omega
      · rw [if_pos hn8, if_neg hk8] at h
        exact absurd h (by decide)
    · by_cases hk8 : k < 8
      · rw [if_neg hn8, if_pos hk8] at h
        exact absurd h (by decide)
      · omega
  · rintro rfl
    rfl

theorem Follows.entry {entry : Option Handler} (h : Follows s) (hn : n < 16)
    (hbits : ∀ j < 8, (a % 256).testBit j =
      if j = n % 8 then entry.isNone else (inportb s (ownerPort n)).testBit j) :
    Follows (outportb (setEntry s n entry) (ownerPort n) a) := by
  intro k hk
  rw [outportb_irqHandlers]
  by_cases hkn : k = n
  · subst hkn
    have hentry : (setEntry s k entry).irqHandlers k = entry := if_pos rfl
    rw [outportb_same, hbits _ (by omega), if_pos rfl, hentry]
    cases entry <;> simp
  · have hsame : (setEntry s n entry).irqHandlers k = s.irqHandlers k := if_neg hkn
    rw [hsame, ← h k hk]
    by_cases hport : ownerPort k = ownerPort n
    · have hbit : k % 8 ≠ n % 8 := fun hbit => hkn ((ownerPort_eq_iff hn hk hbit).mp hport)
      rw [hport, outportb_same, hbits _ (by omega), if_neg hbit]
    · rw [outportb_other _ _ hport]
      rfl

theorem archInitInterrupts_follows (s : Irqs Handler) : Follows (archInitInterrupts s) := by
  intro n hn
  have hmask : inportb (archInitInterrupts s) (ownerPort n) = 255 := by
    unfold ownerPort
    split
    · exact (archInitInterrupts_masks s).1
    · exact (archInitInterrupts_masks s).2
  have hnone : (archInitInterrupts s).irqHandlers n = none := if_pos hn
  have hall : ∀ j < 8, (255 : Nat).testBit j = true := by decide
  rw [hmask, hall _ (by omega), hnone]
  simp

theorem irqSetHandler_master (s : Irqs Handler) (handler : Option Handler) (hn : n < 8) :
    irqSetHandler s n handler = outportb (setEntry s n handler) (ownerPort n)
      (inportb s (ownerPort n) &&& Word32.not32 (1 <<< (n % 8))) := by
  unfold irqSetHandler picClearMask irqCount ownerPort
  rw [if_neg (by omega), Nat.mod_eq_of_lt (show n < 256 by omega), if_neg (by omega),
    if_pos hn, if_pos hn,
    Nat.mod_eq_of_lt hn]
  rfl

theorem irqClearHandler_line (s : Irqs Handler) (hn : n < 16) :
    irqClearHandler s n = outportb (setEntry s n none) (ownerPort n)
      (inportb s (ownerPort n) ||| 1 <<< (n % 8)) := by
  unfold irqClearHandler picSetMask irqCount ownerPort
  rw [if_neg (by omega), Nat.mod_eq_of_lt (show n < 256 by omega), if_neg (by omega)]
  by_cases h8 : n < 8
  · rw [if_pos h8, if_pos h8, Nat.mod_eq_of_lt h8]
    rfl
  · rw [if_neg h8, if_neg h8, show n % 8 = n - 8 by omega]
    rfl

theorem irqSetHandler_slave (s : Irqs Handler) (handler : Option Handler)
    (h8 : 8 ≤ n) (hn : n < 16) :
    irqSetHandler s n handler = outportb (setEntry s n handler) pic0AddrD
      (inportb s pic0AddrD &&& Word32.not32 (1 <<< (n - 8))) := by
  unfold irqSetHandler picClearMask irqCount
  rw [if_neg (by omega), Nat.mod_eq_of_lt (show n < 256 by omega), if_neg (by omega),
    if_neg (by omega)]
  rfl

def OnMaster : IrqCall Handler → Prop
  | .set n _ => n < 8 ∨ irqCount ≤ n
  | .clear _ => True

theorem irqCall_follows (h : Follows s) (c : IrqCall Handler) (hc : OnMaster c) :
    Follows (irqCall s c) := by
  cases c with
  | set n handler =>
    rcases hc with hn | hn
    · rw [irqCall, irqSetHandler_master s _ hn]
      refine h.entry (by omega) fun j hj => ?_
      rw [testBit_clearMask (by omega) hj]
      by_cases hjn : j = n % 8
      · simp [hjn]
      · simp [hjn, Ne.symm hjn]
    · rw [irqCall, irqSetHandler, if_pos hn]
      exact h
  | clear n =>
    by_cases hn : n < 16
    · rw [irqCall, irqClearHandler_line s hn]
      refine h.entry hn fun j hj => ?_
      rw [testBit_setMask hj]
      by_cases hjn : j = n % 8
      · simp [hjn]
      · simp [hjn, Ne.symm hjn]
    · rw [irqCall, irqClearHandler, if_pos (show n ≥ irqCount from Nat.le_of_not_lt hn)]
      exact h

theorem irqCall_slave (h : inportb s pic1AddrD = 255) (c : IrqCall Handler) :
    inportb (irqCall s c) pic1AddrD = 255 := by
  cases c with
  | set n handler =>
    by_cases hn : n < 16
    · by_cases h8 : n < 8
      · rw [irqCall, irqSetHandler_master s _ h8, ownerPort, if_pos h8,
          outportb_other _ _ (by decide)]
        exact h
      · rw [irqCall, irqSetHandler_slave s _ (by omega) hn, outportb_other _ _ (by decide)]
        exact h
    · rw [irqCall, irqSetHandler, if_pos (show n ≥ irqCount from Nat.le_of_not_lt hn)]
      exact h
  | clear n =>
    by_cases hn : n < 16
    · rw [irqCall, irqClearHandler_line s hn, ownerPort]
      by_cases h8 : n < 8
      · rw [if_pos h8, outportb_other _ _ (by decide)]
        exact h
      · have hfull : ∀ k < 8, (255 ||| 1 <<< k) % 256 = 255 := by decide
        rw [if_neg h8, outportb_same, h]
        exact hfull _ (by omega)
    · rw [irqCall, irqClearHandler, if_pos (show n ≥ irqCount from Nat.le_of_not_lt hn)]
      exact h

theorem registered_slave (s : Irqs Handler) (calls : List (IrqCall Handler)) :
    inportb (registered s calls) pic1AddrD = 255 := by
  induction calls using List.reverseRecOn with
  | nil => exact (archInitInterrupts_masks s).2
  | append_singleton calls c ih =>
    rw [registered, List.foldl_append]
    exact irqCall_slave ih c

/-- A handler just registered on a line of the slave: the line stays masked. -/
theorem slave_not_follows (s : Irqs Handler) (calls : List (IrqCall Handler))
    (handler : Handler) (h8 : 8 ≤ n)
    (hn : n < 16) : ¬Follows (registered s (calls ++ [.set n handler])) := by
  intro h
  have hline := h n hn
  have hall : ∀ j < 8, (255 : Nat).testBit j = true := by decide
  rw [ownerPort, if_neg (by omega), registered_slave, hall _ (by omega)] at hline
  have hentry : (registered s (calls ++ [.set n handler])).irqHandlers n = some handler := by
    rw [registered, List.foldl_append, List.foldl_cons, List.foldl_nil, irqCall,
      irqSetHandler_slave _ _ h8 hn,
      outportb_irqHandlers]
    exact if_pos rfl
  rw [hentry] at hline
  simp at hline

/-- The masks follow the table all along a sequence of registrations if and
only if none of them sets a handler on a line of the slave. -/
theorem masks_follow_iff (s : Irqs Handler) (calls : List (IrqCall Handler)) :
    (∀ before, before <+: calls → Follows (registered s before)) ↔ ∀ c ∈ calls, OnMaster c := by
  constructor
  · intro h c hc
    cases c with
    | clear n => trivial
    | set n handler =>
      by_contra hnot
      obtain ⟨h8, hn⟩ := not_or.mp hnot
      obtain ⟨before, after, rfl⟩ := List.append_of_mem hc
      refine slave_not_follows s before handler (by omega) (Nat.lt_of_not_le hn) (h _ ?_)
      exact ⟨after, by simp⟩
  · intro hall before hpre
    have hbefore : ∀ c ∈ before, OnMaster c := fun c hc => hall c (hpre.subset hc)
    clear hall hpre
    induction before using List.reverseRecOn with
    | nil => exact archInitInterrupts_follows s
    | append_singleton before c ih =>
      rw [registered, List.foldl_append]
      exact irqCall_follows (ih fun d hd => hbefore d (by simp [hd])) c (hbefore c (by simp))

/-- A handler for line 8, the clock of the slave. -/
theorem masks_follow_not :
    ¬Follows (registered (⟨fun _ => 0, fun _ => none⟩ : Irqs Unit) [.set 8 ()]) := by
  intro h
  have hline := h 8 (by decide)
  revert hline
  decide

end ElcoOs.Interrupts
