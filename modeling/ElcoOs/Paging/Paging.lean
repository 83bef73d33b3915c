import ElcoOs.Lib.Word
import Mathlib.Logic.Function.Basic

/-!
# Paging

The page tables and the page stack of `memory.c`. `kernel_pde` and
`kernel_page_tables` are the arrays that the recursive mapping shows; the page
stack is in physical memory, behind the mappings of its window. Every change of
an entry is followed by an `invlpg` or a reload of `cr3`, so there is no stale
translation to model; accessed and dirty bits are left out. A function fails
where the code would touch an address that is not mapped.

`State` keeps the tables apart from the words of the page stack. That is what
the code sees while no table is in a frame of the page stack: `Physical` has the
one memory with both in it, and `Mirror` the agreement of the two.
-/

namespace ElcoOs.Paging

open Word32

-- ---------------------------------------------------------------------------
-- Constants
-- ---------------------------------------------------------------------------

def pageSize : Nat := 4096
def ptableFlagPresent : Nat := 0x001
def ptableFlagWrite : Nat := 0x002
def ptableFlagUsermode : Nat := 0x004
def ptableFlagLargepage : Nat := 0x080
def ptableFlagsMask : Nat := 0xFFF
def ptableDirMask : Nat := 0xFFC00000
def kernelPstackTop : Nat := 0xFFC00000
def kernelPstackBottom : Nat := 0xFF800000

def pageRounds : Nat := 1048576

def pageAlign (vaddr : Nat) : Nat := add vaddr (pageSize - 1) &&& not32 (pageSize - 1)
def pageFloor (vaddr : Nat) : Nat := vaddr &&& not32 (pageSize - 1)
def pdeNum (addr : Nat) : Nat := addr >>> 22
def pteNum (addr : Nat) : Nat := (addr &&& not32 ptableDirMask) >>> 12

-- ---------------------------------------------------------------------------
-- State
-- ---------------------------------------------------------------------------

structure State where
  /-- `kernel_pde->ptable` -/
  ptable : Nat → Nat
  /-- `kernel_page_tables[table].entry[page]` -/
  entry : Nat → Nat → Nat
  /-- the words of physical memory, by address -/
  ram : Nat → Nat
  pstackPointer : Nat
  kernelHeapAddr : Nat
  kernelHeapSize : Nat

namespace State

def Present (s : State) (table : Nat) : Prop := s.ptable table &&& ptableFlagPresent ≠ 0
def Large (s : State) (table : Nat) : Prop := s.ptable table &&& ptableFlagLargepage ≠ 0
def EntryPresent (s : State) (table page : Nat) : Prop :=
  s.entry table page &&& ptableFlagPresent ≠ 0

instance (s : State) (table : Nat) : Decidable (s.Present table) :=
  inferInstanceAs (Decidable (_ ≠ _))
instance (s : State) (table : Nat) : Decidable (s.Large table) :=
  inferInstanceAs (Decidable (_ ≠ _))
instance (s : State) (table page : Nat) : Decidable (s.EntryPresent table page) :=
  inferInstanceAs (Decidable (_ ≠ _))

def setEntry (s : State) (table page v : Nat) : State :=
  { s with entry := Function.update s.entry table (Function.update (s.entry table) page v) }

def setPointer (s : State) (a : Nat) : State := { s with pstackPointer := a }

def translate (s : State) (vaddr : Nat) : Option Nat :=
  let table := pdeNum vaddr
  if ¬ s.Present table then none
  else if s.Large table then some ((s.ptable table &&& ptableDirMask) + vaddr % 0x400000)
  else if ¬ s.EntryPresent table (pteNum vaddr) then none
  else some ((s.entry table (pteNum vaddr) &&& not32 ptableFlagsMask) + vaddr % pageSize)

def load (s : State) (vaddr : Nat) : Option Nat := (s.translate vaddr).map s.ram

def store (s : State) (vaddr v : Nat) : Option State :=
  (s.translate vaddr).map fun a => { s with ram := Function.update s.ram a v }

-- ---------------------------------------------------------------------------
-- Page tables
-- ---------------------------------------------------------------------------

/-- The result is 1 when there is no table. -/
def setPage (s : State) (vaddr frame flags : Nat) : Nat × State :=
  let table := pdeNum vaddr
  if ¬ s.Present table ∨ s.Large table then (1, s)
  else (0, s.setEntry table (pteNum vaddr)
    ((frame &&& not32 ptableFlagsMask) ||| (flags &&& ptableFlagsMask)))

/-- The frame and the flags, if there is a table. -/
def getPage (s : State) (vaddr : Nat) : Option (Nat × Nat) :=
  let table := pdeNum vaddr
  if ¬ s.Present table ∨ s.Large table then none
  else
    let entry := s.entry table (pteNum vaddr)
    some (entry &&& not32 ptableFlagsMask, entry &&& ptableFlagsMask)

/-- The array of the table is from then on what the new frame holds, and all
its entries are reset when `clear` is set. -/
def setPageTable (s : State) (vsaddr table flags : Nat) (clear : Bool) : State :=
  let vclick := pdeNum vsaddr
  let table := table &&& not32 ptableFlagsMask
  { s with
    ptable := Function.update s.ptable vclick (table ||| (flags &&& ptableFlagsMask))
    entry :=
      Function.update s.entry vclick (if clear then fun _ => 0 else
        fun i => s.ram (table + 4 * i)) }

def pageIsMapped (s : State) (vaddr : Nat) : Prop :=
  s.Present (pdeNum vaddr) ∧ (s.Large (pdeNum vaddr) ∨ s.EntryPresent (pdeNum vaddr) (pteNum vaddr))

def ptableIsSet (s : State) (vaddr : Nat) : Prop := ¬ s.Large (pdeNum vaddr) ∧
    s.Present (pdeNum vaddr)

instance (s : State) (vaddr : Nat) : Decidable (s.pageIsMapped vaddr) :=
  inferInstanceAs (Decidable (_ ∧ _))
instance (s : State) (vaddr : Nat) : Decidable (s.ptableIsSet vaddr) :=
  inferInstanceAs (Decidable (_ ∧ _))

-- ---------------------------------------------------------------------------
-- The page stack
-- ---------------------------------------------------------------------------

def pstackPush (s : State) (frame : Nat) : Option (Nat × State) :=
  if s.pstackPointer = kernelPstackBottom then some (1, s)
  else if s.pstackPointer &&& 0xFFF = 0 ∧ ¬ s.pageIsMapped (sub s.pstackPointer 1) then
    some (s.setPage (sub s.pstackPointer 1) frame (ptableFlagPresent ||| ptableFlagWrite))
  else do
    let s := s.setPointer (sub s.pstackPointer 4)
    let s ← s.store s.pstackPointer frame
    return (0, s)

def pstackPop (s : State) : Option (Option Nat × State) :=
  if s.pstackPointer &&& 0xFFF = 0 ∧ s.pageIsMapped (sub s.pstackPointer 1) then
    let got := s.getPage (sub s.pstackPointer 1)
    let r := s.setPage (sub s.pstackPointer 1) 0 0
    some (if r.1 = 0 then got.map Prod.fst else none, r.2)
  else if s.pstackPointer ≥ kernelPstackTop then some (none, s)
  else do
    let frame ← s.load s.pstackPointer
    return (some frame, s.setPointer (add s.pstackPointer 4))

-- ---------------------------------------------------------------------------
-- Pages
-- ---------------------------------------------------------------------------

def pageFlags (usermode writable : Bool) : Nat :=
  ptableFlagPresent ||| (if usermode then ptableFlagUsermode else 0) ||| (if writable then
  ptableFlagWrite else 0)

def memoryAllocatePage (s : State) (vaddr : Nat) (usermode writable : Bool) :
    Option (Nat × State) :=
  if s.pageIsMapped vaddr then some (1, s)
  else do
    let r ← s.pstackPop
    match r.1 with
    | none => return (1, r.2)
    | some frame =>
      let s := r.2
      if s.ptableIsSet vaddr then
        return (0, (s.setPage vaddr frame (pageFlags usermode writable)).2)
      else
        let r ← s.pstackPop
        match r.1 with
        | none =>
          let r ← r.2.pstackPush frame
          return (1, r.2)
        | some ptable =>
          let s := r.2.setPageTable vaddr ptable (ptableFlagPresent ||| ptableFlagWrite) true
          return (0, (s.setPage vaddr frame (pageFlags usermode writable)).2)

def memoryFreePage (s : State) (vaddr : Nat) : Option (Nat × State) :=
  if ¬ s.pageIsMapped vaddr then some (1, s)
  else
    match s.getPage vaddr with
    | none => some (1, s)
    | some (frame, _) =>
      let r := s.setPage vaddr 0 0
      if r.1 ≠ 0 then some (1, r.2) else r.2.pstackPush frame

def memoryMapAddr (s : State) (vaddr frame : Nat) (usermode writable : Bool) :
    Option (Nat × State) :=
  if s.pageIsMapped vaddr then some (1, s)
  else if s.ptableIsSet vaddr then some (0, (s.setPage vaddr frame (pageFlags usermode writable)).2)
  else do
    let r ← s.pstackPop
    match r.1 with
    | none => return (1, r.2)
    | some ptable =>
      let s := r.2.setPageTable vaddr ptable (ptableFlagPresent ||| ptableFlagWrite) true
      return (0, (s.setPage vaddr frame (pageFlags usermode writable)).2)

def memoryUnmapAddr (s : State) (vaddr : Nat) : Nat × State :=
  if ¬ s.pageIsMapped vaddr then (1, s) else s.setPage vaddr 0 0

end State

end ElcoOs.Paging
