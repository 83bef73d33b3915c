import ElcoOs.Lib.Word
import ElcoOs.Lib.Bubble
import Mathlib.Logic.Function.Basic

/-!
# The memory map

`get_mmap` of `main.c`: the memory map of the bootloader, with the kernel image
added, is turned into the sorted map `kinfo.mmap`. Every entry gives two change
points; they are sorted, and a sweep over them keeps the set of entries that
are open and writes a region whenever the highest type among them changes.
-/

namespace ElcoOs.Mmap

open Word32

def maxBootMmapSize : Nat := 128
def maxMmapSize : Nat := maxBootMmapSize + 2
def physBytesMax : Nat := 0xFFFFFFFF
def mmapTypeFree : Nat := 0x0001
def mmapTypeKernel : Nat := 0xFFFFFFFF
def multibootInfoMemMap : Nat := 0x00000040

/-- `struct multiboot_mmap_entry`, without the `size` that leads to the next one. -/
structure MultibootMmapEntry where
  addrLow : Nat
  addrHigh : Nat
  lenLow : Nat
  lenHigh : Nat
  type : Nat
  deriving DecidableEq, Repr

/-- `flags`, and the entries from `mmap_addr` to `mmap_addr + mmap_length`. -/
structure MultibootInfo where
  flags : Nat
  mmap : List MultibootMmapEntry

structure MemEntry where
  address : Nat
  size : Nat
  type : Nat
  deriving DecidableEq, Repr

structure Kinfo where
  kernelStartPhys : Nat
  kernelEndPhys : Nat
  mmap : Nat → MemEntry
  mmapSize : Nat

def Kinfo.regions (k : Kinfo) : List MemEntry := (List.range k.mmapSize).map k.mmap

-- ---------------------------------------------------------------------------
-- Change points
-- ---------------------------------------------------------------------------

/-- A change point. Entries are told apart by their position in memory, `ptr`. -/
structure ChangePoint where
  addr : Nat
  ptr : Nat
  entry : MultibootMmapEntry
  deriving DecidableEq, Repr

/-- Where an entry ends; all that reaches beyond 32 bits ends at the last address. -/
def MultibootMmapEntry.stop (e : MultibootMmapEntry) : Nat :=
  if e.lenHigh > 0 ∨ add e.addrLow e.lenLow < e.addrLow then physBytesMax else
    add e.addrLow e.lenLow

/-- The loop over the entries of the bootloader. It panics when there are too many. -/
def collect (changes : List ChangePoint) (ptr : Nat) : List MultibootMmapEntry →
    Option (List ChangePoint)
  | [] => some changes
  | e :: es =>
    let changes := if e.addrHigh = 0 then changes ++ [⟨e.addrLow, ptr, e⟩, ⟨e.stop, ptr, e⟩] else
      changes
    if changes.length > maxBootMmapSize then none else collect changes (ptr + 1) es

def ChangePoint.isStart (c : ChangePoint) : Bool := c.addr = c.entry.addrLow

def misplaced (c prev : ChangePoint) : Bool :=
  c.addr < prev.addr || (c.addr == prev.addr && c.isStart && !prev.isStart)

-- ---------------------------------------------------------------------------
-- Sweep
-- ---------------------------------------------------------------------------

structure Sweep where
  /-- `overlap[0 .. overlap_count)` -/
  overlap : List (Nat × MultibootMmapEntry)
  mmap : Nat → MemEntry
  mmapId : Nat
  lastAddr : Nat
  lastType : Nat

/-- The first entry at `ptr` gives way to the last one. With no entry at all the
count would drop below zero. -/
def removeOverlap (overlap : List (Nat × MultibootMmapEntry)) (ptr : Nat) :
    Option (List (Nat × MultibootMmapEntry)) :=
  match overlap.getLast? with
  | none => none
  | some last => some (replaceFirst last overlap).dropLast
where
  replaceFirst (last : Nat × MultibootMmapEntry) : List (Nat × MultibootMmapEntry) →
    List (Nat × MultibootMmapEntry)
    | [] => []
    | o :: os => if o.1 = ptr then last :: os else o :: replaceFirst last os

def updateOverlap (overlap : List (Nat × MultibootMmapEntry)) (c : ChangePoint) :
    Option (List (Nat × MultibootMmapEntry)) :=
  if c.isStart then some (overlap ++ [(c.ptr, c.entry)]) else removeOverlap overlap c.ptr

/-- The type that overrules the others. -/
def curType (overlap : List (Nat × MultibootMmapEntry)) : Nat :=
  overlap.foldl (fun t o => if o.2.type > t then o.2.type else t) 0

def Sweep.close (s : Sweep) (addr : Nat) : Sweep :=
  let size := sub addr s.lastAddr
  { s with
    mmap := Function.update s.mmap s.mmapId { s.mmap s.mmapId with size := size }
    mmapId := if size ≠ 0 then s.mmapId + 1 else s.mmapId }

def Sweep.start (s : Sweep) (addr type : Nat) : Sweep :=
  { s with
    mmap := Function.update s.mmap s.mmapId { s.mmap s.mmapId with address := addr, type := type }
    lastAddr := addr }

def sweep (s : Sweep) : List ChangePoint → Option Sweep
  | [] => some s
  | c :: cs => do
    let overlap ← updateOverlap s.overlap c
    let s := { s with overlap := overlap }
    let type := curType overlap
    if type ≠ s.lastType then
      let closed := if s.lastType ≠ 0 then s.close c.addr else s
      -- the map is full: it is truncated
      if closed.mmapId ≠ s.mmapId ∧ closed.mmapId ≥ maxMmapSize then some closed
      else
        let s := if type ≠ 0 then closed.start c.addr type else closed
        sweep { s with lastType := type } cs
    else sweep s cs

-- ---------------------------------------------------------------------------
-- get_mmap
-- ---------------------------------------------------------------------------

/-- The entry for the kernel itself. -/
def Kinfo.dummy (k : Kinfo) : MultibootMmapEntry where
  addrLow := k.kernelStartPhys
  addrHigh := 0
  lenLow := sub k.kernelEndPhys k.kernelStartPhys
  lenHigh := 0
  type := mmapTypeKernel

def getMmap (k : Kinfo) (bootinfo : MultibootInfo) : Option Kinfo := do
  guard (bootinfo.flags &&& multibootInfoMemMap ≠ 0)
  let changes ← collect [] 0 bootinfo.mmap
  let ptr := bootinfo.mmap.length
  let changes := changes ++ [⟨k.kernelStartPhys, ptr, k.dummy⟩, ⟨k.kernelEndPhys, ptr, k.dummy⟩]
  let changes ← Bubble.sort misplaced (changes.length * changes.length + 1) changes
  let s ← sweep ⟨[], k.mmap, 0, 0, 0⟩ changes
  return { k with mmap := s.mmap, mmapSize := s.mmapId }

end ElcoOs.Mmap
