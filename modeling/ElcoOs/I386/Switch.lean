import ElcoOs.I386.Entry
import ElcoOs.Interrupts.Pic
import ElcoOs.Tasks.Footprint

/-!
# Switching between tasks

The processor, the memory and the kernel together. An interrupt comes in through
its stub and `save`, the C code runs on the kernel's stack, and `resume` leaves
to the task that the scheduler has chosen. Interrupts are off on the way.
-/

namespace ElcoOs.I386

open Word32 Tasks Interrupts

structure Image where
  stubs : Stubs
  /-- where the stub of a vector goes on after `call save` -/
  afterSave : Nat → Nat
  kernelStackBottom : Nat
  kernelStackTop : Nat

/-- The machine. Of a context pointer's frame the kernel looks at three registers, which
the table of the tasks has too. -/
structure Hw where
  cpu : Cpu
  kernel : Kernel
  /-- `ptable[t].context` -/
  context : Nat → Nat
  nestedIntr : Int
  irqs : Irqs (Kernel → Option Kernel)
  exceptionHandlers : Nat → Option (Nat → Kernel → Option Kernel)

/-- The end of `save`: the error code and the return address are fetched, and the first entry
goes on on the kernel's stack. -/
def Core.returnToStub (s : Core) (nested : Int) (kernelStackTop : Nat) : Cpu :=
  let edx := s.mem.load32 (s.cpu.esp + 12 * 4)
  { s.cpu with
    eax := s.mem.load32 (s.cpu.esp + 13 * 4)
    edx := edx
    esp := if nested ≠ 0 then s.cpu.esp else kernelStackTop
    eip := edx }

namespace Hw

def core (h : Hw) : Core := ⟨h.cpu, h.kernel.mem⟩

def setCore (h : Hw) (s : Core) : Hw :=
  { h with cpu := s.cpu, kernel := { h.kernel with mem := s.mem } }

-- ---------------------------------------------------------------------------
-- The way in
-- ---------------------------------------------------------------------------

/-- `save`, called by the stub of a vector. -/
def save (img : Image) (h : Hw) (vector : Nat) : Option Hw := do
  let s := (h.core.pushRegs (img.afterSave vector)).loadSegs
  let frame := s.cpu.esp
  -- the context pointer is the first field of the task
  let cur ← h.kernel.currentTask
  let context : Context :=
    ⟨s.mem.load32 (frame + 44), s.mem.load32 (frame + 40), s.mem.load32 (frame + 36)⟩
  let nested := h.nestedIntr + 1
  return { h with
    cpu := s.returnToStub nested img.kernelStackTop
    kernel := { h.kernel.modify cur (setContext context) with mem := s.mem }
    context := Function.update h.context cur frame
    nestedIntr := nested }

/-- The processor goes through the gate of a vector, to a stub that begins with `cli`. -/
def interrupt (img : Image) (h : Hw) (vector : Nat) : Hw :=
  h.setCore (h.core.interrupt (readGate (idtInitialize img.stubs vector).words)).cli

def push (h : Hw) (v : Nat) : Hw := h.setCore (h.core.push v)

/-- `call` of a function written in C. Its return address and the frames of the compiled code are
below the stack pointer, as far as the kernel's stack goes; `frames` is what they hold. The
registers that such a function may change are not read after it. -/
def call (img : Image) (h : Hw) (frames : Memory) : Hw :=
  { h with kernel := { h.kernel with
      mem := fun x => if img.kernelStackBottom ≤ x ∧ x < h.cpu.esp then frames x else
        h.kernel.mem x } }

-- ---------------------------------------------------------------------------
-- Handlers
-- ---------------------------------------------------------------------------

/-- `tsk->context->eax = v`, in the frame and in the table. -/
def setEax (h : Hw) (k : Kernel) (tsk v : Nat) : Hw :=
  { h with kernel := { Tasks.setEax k tsk v with mem := k.mem.store32 (h.context tsk + 44) v } }

def handleKernelCall (h : Hw) : Option Hw := do
  let cur ← h.kernel.currentTask
  let r ← dispatch h.kernel cur (h.kernel.ptable cur).context
  return h.setEax r.2 cur (toUInt32 r.1)

/-- `kpanic` does not return. -/
def irqHandler (h : Hw) (intNo : Nat) : Option Hw := do
  let handler ← h.irqs.irqHandlers intNo
  let k ← handler h.kernel
  return { h with kernel := k, irqs := picEoi h.irqs intNo }

def exceptionHandler (h : Hw) (intNo error : Nat) : Option Hw := do
  let handler ← h.exceptionHandlers intNo
  let k ← handler error h.kernel
  return { h with kernel := k }

-- ---------------------------------------------------------------------------
-- Stubs
-- ---------------------------------------------------------------------------

/-- The vectors with an error code, which the processor pushes; the stubs of the others push a
zero. -/
def hasErrorCode (n : Nat) : Bool := n == 8 || (10 ≤ n && n ≤ 14)

/-- `ISR_ERRCODE` and `ISR_NOERRCODE`. -/
def isr (img : Image) (h : Hw) (num error : Nat) (frames : Memory) : Option Hw := do
  let h ← ((h.interrupt img num).push (if hasErrorCode num then error else 0)).save img num
  (((h.push h.cpu.eax).push num).call img frames).exceptionHandler num h.cpu.eax

def irqTail (img : Image) (h : Hw) (num : Nat) (frames : Memory) : Option Hw := do
  let h ← (h.push 0).save img (irq0Vect + num)
  ((h.push num).call img frames).irqHandler num

/-- `IRQ` -/
def irq (img : Image) (h : Hw) (num : Nat) (frames : Memory) : Option Hw :=
  (h.interrupt img (irq0Vect + num)).irqTail img num frames

/-- `irq7`, where the in-service register of the PIC reads `isr`. -/
def irq7 (img : Image) (h : Hw) (isr : Nat) (frames : Memory) : Option Hw :=
  let h := h.interrupt img (irq0Vect + 7)
  let h := h.push h.cpu.eax
  let h := { h with irqs := outportb h.irqs pic0AddrC 0x0B }
  let h := h.setCore (h.core.pop fun c v => { c with eax := v })
  if isr.testBit 7 then h.irqTail img 7 frames
  -- spurious
  else some (h.setCore h.core.iret)

/-- `kernel_call`; the number of the call takes the place of an error code. -/
def kernelCall (img : Image) (h : Hw) (frames : Memory) : Option Hw := do
  let h := h.interrupt img 128
  let h ← (h.push h.cpu.eax).save img 128
  (h.call img frames).handleKernelCall

-- ---------------------------------------------------------------------------
-- The way out
-- ---------------------------------------------------------------------------

def afterContextSwitch (h : Hw) : Option Hw := do
  let cur ← h.kernel.currentTask
  if (h.kernel.ptable cur).flags.afterSwitch then
    let delivered := messageDeliver (h.kernel.modify cur clearAfterSwitch) cur
    return if delivered.1 then h.setEax delivered.2 cur 0 else { h with kernel := delivered.2 }
  else return h

/-- From the label `0` of `resume` on. -/
def leave (h : Hw) : Hw := { h with nestedIntr := h.nestedIntr - 1, cpu := h.core.popRegs.cpu }

def resume (img : Image) (h : Hw) (frames : Memory) : Option Hw :=
  if h.nestedIntr ≠ 0 then some h.leave
  else do
    let h := h.call img frames
    let k := scheduler h.kernel
    let next ← k.nextTask
    let h ← (({ h with kernel := { k with currentTask := some next } } :
      Hw).call img frames).afterContextSwitch
    return { h with cpu := { h.cpu with esp := h.context next } }.leave

end Hw

-- ---------------------------------------------------------------------------
-- Runs
-- ---------------------------------------------------------------------------

/-- With what the C code called in a step has on the kernel's stack. -/
inductive HwAction where
  /-- the running task computes: its registers and the memory after that -/
  | run (cpu : Cpu) (mem : Memory)
  /-- a line of a PIC; what the in-service register would read -/
  | irq (num isr : Nat) (frames : Memory)
  /-- `int $128` -/
  | kernelCall (frames : Memory)
  | resume (frames : Memory)

def Hw.step (img : Image) (h : Hw) : HwAction → Option Hw
  | .run cpu mem => some (h.setCore ⟨cpu, mem⟩)
  | .irq num isr frames => if num = 7 then h.irq7 img isr frames else h.irq img num frames
  | .kernelCall frames => h.kernelCall img frames
  | .resume frames => h.resume img frames

end ElcoOs.I386
