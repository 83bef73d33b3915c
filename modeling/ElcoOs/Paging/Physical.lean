import ElcoOs.Paging.Paging

/-!
# Physical memory

The functions of `memory.c` over one memory, in which the directory and the
page tables are words like all others. `kernel_pde` and `kernel_page_tables` are
reached through the recursive entry, the page stack through its window, and a
function fails where the processor finds no mapping. Where an entry is
overwritten by a store to its frame there is no `invlpg`; what the processor may
still hold of it is left out.
-/

namespace ElcoOs.Paging

open Word32

def kernelPtableAddr : Nat := 0xFFC00000
def kernelPdeAddr : Nat := 0xFFFFF000
def pteMax : Nat := 1024

structure Phys where
  /-- the words of physical memory, by address -/
  ram : Nat → Nat
  /-- the frame of the page directory -/
  cr3 : Nat
  pstackPointer : Nat

namespace Phys

def view (p : Phys) : State where
  ptable t := p.ram (p.cr3 + 4 * t)
  entry t i := p.ram ((p.ram (p.cr3 + 4 * t) &&& not32 ptableFlagsMask) + 4 * i)
  ram := p.ram
  pstackPointer := p.pstackPointer
  kernelHeapAddr := 0
  kernelHeapSize := 0

def setPointer (p : Phys) (a : Nat) : Phys := { p with pstackPointer := a }

def load (p : Phys) (vaddr : Nat) : Option Nat := (p.view.translate vaddr).map p.ram

def write (p : Phys) (a v : Nat) : Phys := { p with ram := Function.update p.ram a v }

def store (p : Phys) (vaddr v : Nat) : Option Phys :=
  (p.view.translate vaddr).map fun a => p.write a v

-- ---------------------------------------------------------------------------
-- Page tables
-- ---------------------------------------------------------------------------

/-- `kernel_pde->ptable[table]` -/
def pde (p : Phys) (table : Nat) : Option Nat := p.load (kernelPdeAddr + 4 * table)

def setPde (p : Phys) (table v : Nat) : Option Phys := p.store (kernelPdeAddr + 4 * table) v

/-- `kernel_page_tables[table].entry[page]` -/
def pte (p : Phys) (table page : Nat) : Option Nat :=
  p.load (kernelPtableAddr + pageSize * table + 4 * page)

def setPte (p : Phys) (table page v : Nat) : Option Phys :=
  p.store (kernelPtableAddr + pageSize * table + 4 * page) v

def setPage (p : Phys) (vaddr frame flags : Nat) : Option (Nat × Phys) := do
  let table := pdeNum vaddr
  let pde ← p.pde table
  if pde &&& ptableFlagPresent = 0 ∨ pde &&& ptableFlagLargepage ≠ 0 then return (1, p)
  else
    let p ← p.setPte table (pteNum vaddr)
      ((frame &&& not32 ptableFlagsMask) ||| (flags &&& ptableFlagsMask))
    return (0, p)

/-- The frame and the flags, or nothing for a result other than zero. -/
def getPage (p : Phys) (vaddr : Nat) : Option (Option (Nat × Nat)) := do
  let table := pdeNum vaddr
  let pde ← p.pde table
  if pde &&& ptableFlagPresent = 0 ∨ pde &&& ptableFlagLargepage ≠ 0 then return none
  else
    let entry ← p.pte table (pteNum vaddr)
    return some (entry &&& not32 ptableFlagsMask, entry &&& ptableFlagsMask)

/-- The loop of `set_page_table` over the first `n` entries. -/
def clearEntries (p : Phys) (table : Nat) : Nat → Option Phys
  | 0 => some p
  | n + 1 => do
    let p ← p.clearEntries table n
    p.setPte table n 0

def setPageTable (p : Phys) (vsaddr table flags : Nat) (clear : Bool) : Option Phys := do
  let vclick := pdeNum vsaddr
  let p ← p.setPde vclick ((table &&& not32 ptableFlagsMask) ||| (flags &&& ptableFlagsMask))
  if clear then p.clearEntries vclick pteMax else return p

def pageIsMapped (p : Phys) (vaddr : Nat) : Option Bool := do
  let pde ← p.pde (pdeNum vaddr)
  if pde &&& ptableFlagPresent = 0 then return false
  else if pde &&& ptableFlagLargepage ≠ 0 then return true
  else
    let entry ← p.pte (pdeNum vaddr) (pteNum vaddr)
    return entry &&& ptableFlagPresent ≠ 0

def ptableIsSet (p : Phys) (vaddr : Nat) : Option Bool := do
  let pde ← p.pde (pdeNum vaddr)
  if pde &&& ptableFlagLargepage ≠ 0 then return false
  else return pde &&& ptableFlagPresent ≠ 0

-- ---------------------------------------------------------------------------
-- The page stack
-- ---------------------------------------------------------------------------

/-- Whether the pointer is at a page boundary and the page below it is mapped. -/
def mappedBelow (p : Phys) (unasked : Bool) : Option Bool :=
  if p.pstackPointer &&& 0xFFF = 0 then p.pageIsMapped (sub p.pstackPointer 1) else some unasked

def pstackPush (p : Phys) (frame : Nat) : Option (Nat × Phys) :=
  if p.pstackPointer = kernelPstackBottom then some (1, p)
  else do
    let mapped ← p.mappedBelow true
    if mapped = false then
      p.setPage (sub p.pstackPointer 1) frame (ptableFlagPresent ||| ptableFlagWrite)
    else
      let p := p.setPointer (sub p.pstackPointer 4)
      let p ← p.store p.pstackPointer frame
      return (0, p)

def pstackPop (p : Phys) : Option (Option Nat × Phys) := do
  let mapped ← p.mappedBelow false
  if mapped = true then
    let got ← p.getPage (sub p.pstackPointer 1)
    let r ← p.setPage (sub p.pstackPointer 1) 0 0
    return (if r.1 = 0 then got.map Prod.fst else none, r.2)
  else if p.pstackPointer ≥ kernelPstackTop then return (none, p)
  else
    let frame ← p.load p.pstackPointer
    return (some frame, p.setPointer (add p.pstackPointer 4))

-- ---------------------------------------------------------------------------
-- Pages
-- ---------------------------------------------------------------------------

def memoryAllocatePage (p : Phys) (vaddr : Nat) (usermode writable : Bool) :
    Option (Nat × Phys) := do
  let mapped ← p.pageIsMapped vaddr
  if mapped = true then return (1, p)
  else
    let r ← p.pstackPop
    match r.1 with
    | none => return (1, r.2)
    | some frame =>
      let set ← r.2.ptableIsSet vaddr
      if set = true then
        let q ← r.2.setPage vaddr frame (State.pageFlags usermode writable)
        return (0, q.2)
      else
        let r ← r.2.pstackPop
        match r.1 with
        | none =>
          let q ← r.2.pstackPush frame
          return (1, q.2)
        | some ptable =>
          let p ← r.2.setPageTable vaddr ptable (ptableFlagPresent ||| ptableFlagWrite) true
          let q ← p.setPage vaddr frame (State.pageFlags usermode writable)
          return (0, q.2)

def memoryFreePage (p : Phys) (vaddr : Nat) : Option (Nat × Phys) := do
  let mapped ← p.pageIsMapped vaddr
  if mapped = false then return (1, p)
  else
    let got ← p.getPage vaddr
    match got with
    | none => return (1, p)
    | some (frame, _) =>
      let q ← p.setPage vaddr 0 0
      if q.1 ≠ 0 then return (1, q.2) else q.2.pstackPush frame

def memoryMapAddr (p : Phys) (vaddr frame : Nat) (usermode writable : Bool) :
    Option (Nat × Phys) := do
  let mapped ← p.pageIsMapped vaddr
  if mapped = true then return (1, p)
  else
    let set ← p.ptableIsSet vaddr
    if set = true then
      let q ← p.setPage vaddr frame (State.pageFlags usermode writable)
      return (0, q.2)
    else
      let r ← p.pstackPop
      match r.1 with
      | none => return (1, r.2)
      | some ptable =>
        let p ← r.2.setPageTable vaddr ptable (ptableFlagPresent ||| ptableFlagWrite) true
        let q ← p.setPage vaddr frame (State.pageFlags usermode writable)
        return (0, q.2)

def memoryUnmapAddr (p : Phys) (vaddr : Nat) : Option (Nat × Phys) := do
  let mapped ← p.pageIsMapped vaddr
  if mapped = false then return (1, p) else p.setPage vaddr 0 0

end Phys

end ElcoOs.Paging
