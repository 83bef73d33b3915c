import ElcoOs.I386.Contexts
import ElcoOs.I386.Switch

/-!
# A processor for every task

What the tasks see of the machine: each has registers of its own, which only the
task itself changes, but for the result of a kernel call. The frames on the
stacks are not seen; an interrupt may change the 68 bytes below the stack
pointer and the kernel's stack, and that is all it does to a task.
-/

namespace ElcoOs.I386

open Word32 Tasks Interrupts

-- ---------------------------------------------------------------------------
-- The virtual machine
-- ---------------------------------------------------------------------------

structure Vm where
  machine : Machine
  regs : Nat → Cpu

def Cpu.call (c : Cpu) : Context := ⟨c.eax, c.ecx, c.edx⟩

def Image.OnStack (img : Image) (x : Nat) : Prop := img.kernelStackBottom ≤ x ∧
    x < img.kernelStackTop

/-- What an entry from a task with its stack pointer at `sp` writes: the frame, and the kernel's
stack. -/
def Scratch (img : Image) (sp x : Nat) : Prop := sp - 68 ≤ x ∧ x < sp ∨ img.OnStack x

def SameBut (p : Nat → Prop) (m m' : Memory) : Prop := ∀ x, ¬p x → m' x = m x

inductive Vm.Step (img : Image) : Vm → HwAction → Vm → Prop where
  | run {v : Vm} {t : Nat} {cpu : Cpu} {mem : Memory} (huser : v.machine.inKernel = false)
      (hcur : v.machine.kernel.currentTask = some t) :
      Step img v (.run cpu mem) ⟨⟨{ v.machine.kernel with mem := mem }, false⟩,
      Function.update v.regs t cpu⟩
  | tick {v : Vm} {t isr : Nat} {frames found : Memory} {k : Kernel} (huser :
    v.machine.inKernel = false)
      (hcur : v.machine.kernel.currentTask = some t)
      (hfound : SameBut (Scratch img (v.regs t).esp) v.machine.kernel.mem found)
      (hk : enter v.machine.kernel ⟨(v.regs t).call, found, false⟩ = some k) :
      Step img v (.irq 0 isr frames) ⟨⟨k, true⟩, v.regs⟩
  | spurious {v : Vm} {t isr : Nat} {frames left : Memory} (huser : v.machine.inKernel = false)
      (hcur : v.machine.kernel.currentTask = some t)
      (hleft : SameBut (Scratch img (v.regs t).esp) v.machine.kernel.mem left) :
      Step img v (.irq 7 isr frames) ⟨⟨{ v.machine.kernel with mem := left }, false⟩, v.regs⟩
  | call {v : Vm} {t : Nat} {frames found left : Memory} {k : Kernel} (huser :
    v.machine.inKernel = false)
      (hcur : v.machine.kernel.currentTask = some t)
      (hfound : SameBut (Scratch img (v.regs t).esp) v.machine.kernel.mem found)
      (hk : enter v.machine.kernel ⟨(v.regs t).call, found, true⟩ = some k)
      (hleft : SameBut (Scratch img (v.regs t).esp) k.mem left) :
      Step img v (.kernelCall frames) ⟨⟨{ k with mem := left }, true⟩,
        Function.update v.regs t { v.regs t with eax := (k.ptable t).context.eax }⟩
  | resume {v : Vm} {t : Nat} {frames found left : Memory} {k : Kernel} (hkernel :
    v.machine.inKernel = true)
      (hfound : SameBut img.OnStack v.machine.kernel.mem found)
      (hk : Tasks.resume { v.machine.kernel with mem := found } = some k)
      (hcur : k.currentTask = some t)
      (hleft : SameBut (fun x => (v.regs t).esp - 68 ≤ x ∧ x < (v.regs t).esp) k.mem left) :
      Step img v (.resume frames) ⟨⟨{ k with mem := left }, false⟩, Function.update v.regs t
        (if (v.machine.kernel.ptable t).delivered then { v.regs t with eax := 0 } else v.regs t)⟩

-- ---------------------------------------------------------------------------
-- Stacks
-- ---------------------------------------------------------------------------

/-- The stack of each task, `[lo, hi)`; empty where there is none. -/
structure Stacks where
  lo : Nat → Nat
  hi : Nat → Nat

def Stacks.Owns (L : Stacks) (t x : Nat) : Prop := L.lo t ≤ x ∧ x < L.hi t

/-- The stacks of the tasks and of the kernel do not overlap. -/
structure Stacks.Valid (L : Stacks) (img : Image) : Prop where
  apart : ∀ t u, t ≠ u → L.hi t ≤ L.lo u ∨ L.hi u ≤ L.lo t
  kernel : ∀ t, L.hi t ≤ img.kernelStackBottom ∨ img.kernelStackTop ≤ L.lo t
  room : img.kernelStackBottom + 4 ≤ img.kernelStackTop ∧ img.kernelStackTop < 4294967296

structure Image.Valid (img : Image) : Prop where
  stubs : img.stubs.Valid
  afterSave : ∀ n, img.afterSave n < 4294967296

/-- A receive buffer of a task: not on the stack of another one or that of the kernel, and on its
own stack only where the stack is in use. -/
def BufferOk (img : Image) (L : Stacks) (t sp ptr : Nat) : Prop :=
  ∀ x, ptr ≤ x → x < ptr + messageSize →
    (∀ u, u ≠ t → ¬L.Owns u x) ∧ (L.Owns t x → sp ≤ x) ∧ ¬img.OnStack x

/-- What the tasks may do, and when an interrupt comes in. The tasks stay in ring 0, keep room
for a frame on their stacks, do not write to the stacks of others, and send nothing that lies
on the kernel's. -/
def HwAction.May (img : Image) (L : Stacks) (h : Hw) : HwAction → Prop
  | .run cpu mem => h.nestedIntr = -1 ∧ cpu.Valid ∧ cpu.cs = gdtRing0Code ∧
      ∀ t, h.kernel.currentTask = some t → ∀ u x, u ≠ t → L.Owns u x → mem x = h.kernel.mem x
  | .irq num isr _ => h.cpu.eflags.testBit 9 = true ∧ num < irqCount ∧
      ((inportb h.irqs (ownerPort num)).testBit (num % 8) = false ∨ num = 7 ∧
      isr.testBit 7 = false) ∧
      ∀ t, h.kernel.currentTask = some t → L.lo t + 68 ≤ h.cpu.esp ∧ h.cpu.esp ≤ L.hi t
  | .kernelCall _ => h.nestedIntr = -1 ∧ h.kernel.currentTask ≠ h.kernel.idleTask ∧
      (h.cpu.eax = 3 → ∀ x, h.cpu.edx ≤ x → x < h.cpu.edx + messageSize → ¬img.OnStack x) ∧
      ∀ t, h.kernel.currentTask = some t → (L.lo t + 68 ≤ h.cpu.esp ∧ h.cpu.esp ≤ L.hi t) ∧
        (h.cpu.eax = 4 → BufferOk img L t h.cpu.esp h.cpu.edx)
  | .resume _ => h.nestedIntr = 0

-- ---------------------------------------------------------------------------
-- The relation
-- ---------------------------------------------------------------------------

/-- A task that has been started, or the idle task, and is not the one that runs. -/
def Vm.Suspended (v : Vm) (queued : List Nat) (t : Nat) : Prop :=
  (t ∈ queued ∨ v.machine.kernel.idleTask = some t) ∧
    (v.machine.inKernel = false → v.machine.kernel.currentTask ≠ some t)

/-- The registers of a suspended task are in its frame, and the buffer it waits for is safe. -/
structure Saved (img : Image) (L : Stacks) (h : Hw) (c : Cpu) (t : Nat) : Prop where
  frame : frameAt h.kernel.mem (h.context t) = c
  valid : c.Valid
  lo : L.lo t ≤ h.context t
  hi : c.esp ≤ L.hi t
  view : (h.kernel.ptable t).context = c.call
  buffer : ∀ p, (h.kernel.ptable t).asks = some p → BufferOk img L t c.esp p.1

/-- The timer is the only line with a handler, and the only one that is not masked. -/
structure TimerOnly (s : Irqs (Kernel → Option Kernel)) : Prop where
  handler : s.irqHandlers 0 = some timerCallback
  master : inportb s pic0AddrD = 254
  slave : inportb s pic1AddrD = 255

structure Refines (img : Image) (L : Stacks) (queued : List Nat) (h : Hw) (v : Vm) : Prop where
  kernel : h.kernel = v.machine.kernel
  mode : h.nestedIntr = if v.machine.inKernel then 0 else -1
  /-- interrupts are off, and the kernel is on its own stack -/
  inside : v.machine.inKernel = true → h.cpu.eflags.testBit 9 = false ∧
    h.cpu.esp ≤ img.kernelStackTop
  ok : ∃ place q, MachineOk queued v.machine place q
  timer : TimerOnly h.irqs
  running : v.machine.inKernel = false → ∀ t, h.kernel.currentTask = some t →
    h.cpu = v.regs t ∧ h.cpu.Valid
  saved : ∀ t, v.Suspended queued t → Saved img L h (v.regs t) t

section
variable {img : Image} {L : Stacks} {queued : List Nat} {h hw hw' : Hw} {v v' : Vm} {c : Cpu}
  {t u x err vector : Nat} {m m' : Memory} {k : Kernel} {a : HwAction}

-- ---------------------------------------------------------------------------
-- The way in
-- ---------------------------------------------------------------------------

theorem save_eq {r s : Core} (hs : r.pushRegs (img.afterSave vector) = s)
    (hcur : h.kernel.currentTask = some t) :
    (h.setCore r).save img vector = some { h with
      cpu := s.loadSegs.returnToStub (h.nestedIntr + 1) img.kernelStackTop
      kernel :=
        { h.kernel.modify t (setContext ⟨s.mem.load32 (s.cpu.esp + 44),
          s.mem.load32 (s.cpu.esp + 40),
        s.mem.load32 (s.cpu.esp + 36)⟩) with mem := s.mem }
      context := Function.update h.context t s.cpu.esp
      nestedIntr := h.nestedIntr + 1 } := by
  subst hs
  rw [Hw.save, show (h.setCore r).kernel.currentTask = some t from hcur]
  rfl

theorem push_setCore (h : Hw) (s : Core) (n : Nat) : (h.setCore s).push n = h.setCore (s.push n) :=
  rfl

theorem interrupt_eq (img : Image) (h : Hw) (vector err : Nat) :
    ∃ g, (h.interrupt img vector).push err = h.setCore ((h.core.interrupt g).cli.push err) := by
  obtain ⟨g, hg⟩ : ∃ g, readGate (idtInitialize img.stubs vector).words = g := ⟨_, rfl⟩
  exact ⟨g, by rw [Hw.interrupt, hg, push_setCore]⟩

theorem setCore_cpu (h : Hw) (s : Core) : (h.setCore s).cpu = s.cpu := rfl

theorem setEsp_eax (c : Cpu) (esp : Nat) : ({ c with esp := esp } : Cpu).eax = c.eax := rfl

theorem setFlags_eax (c : Cpu) (eflags : Nat) : ({ c with eflags := eflags } : Cpu).eax = c.eax :=
  rfl

theorem setGate_eax (c : Cpu) (eip cs eflags : Nat) :
    ({ c with eip := eip, cs := cs, eflags := eflags } : Cpu).eax = c.eax := rfl

theorem push_eax (s : Core) (n : Nat) : (s.push n).cpu.eax = s.cpu.eax :=
  setEsp_eax s.cpu (sub s.cpu.esp 4)

theorem cli_eax (s : Core) : s.cli.cpu.eax = s.cpu.eax :=
  setFlags_eax s.cpu (s.cpu.eflags &&& not32 0x200)

theorem gate_eax (s : Core) (g : Gate) : (s.interrupt g).cpu.eax = s.cpu.eax :=
  (setGate_eax (((s.push s.cpu.eflags).push s.cpu.cs).push s.cpu.eip).cpu g.offset
    g.selector _).trans
    ((push_eax _ _).trans ((push_eax _ _).trans (push_eax s _)))

theorem interrupt_eax (img : Image) (h : Hw) (vector : Nat) :
    (h.interrupt img vector).cpu.eax = h.cpu.eax := by
  rw [Hw.interrupt, setCore_cpu, cli_eax, gate_eax]
  rfl

/-- In the kernel, after an entry from `t`. -/
def Hw.entered (h : Hw) (t : Nat) (cpu : Cpu) (k : Kernel)
    (irqs : Irqs (Kernel → Option Kernel)) : Hw :=
  { h with
    cpu := cpu
    kernel := k
    context := Function.update h.context t (h.cpu.esp - 68)
    nestedIntr := 0
    irqs := irqs }

/-- Through the gate of a vector and `save`: the registers are in a frame, and the kernel runs on
its own stack. -/
theorem enter_spec (himg : img.Valid) (hcur : h.kernel.currentTask = some t)
    (hnested : h.nestedIntr = -1)
    (hc : h.cpu.Valid) (hesp : 68 ≤ h.cpu.esp) (herr : err < 4294967296) (vector : Nat) :
    ∃ cpu mem, ((h.interrupt img vector).push err).save img vector =
        some (h.entered t cpu { h.kernel.modify t (setContext h.cpu.call) with mem :=
        mem } h.irqs) ∧
      cpu.esp = img.kernelStackTop ∧ cpu.eflags.testBit 9 = false ∧
      frameAt mem (h.cpu.esp - 68) = h.cpu ∧
      ∀ x, x < h.cpu.esp - 68 ∨ h.cpu.esp ≤ x → mem x = h.kernel.mem x := by
  obtain ⟨g, hg⟩ := interrupt_eq img h vector err
  rw [hg]
  obtain ⟨hframe, -, -, hmem⟩ :=
    entry_frame (m := h.kernel.mem) hc hesp herr (himg.afterSave vector)
  have hpush : ((h.core.interrupt g).cli.push err).pushRegs (img.afterSave vector) = _ :=
    pushes_eq hesp hc.index.2.2.2
  obtain ⟨mem, hm⟩ :
    ∃ mem, h.kernel.mem.pushAll h.cpu.esp (entryWords h.cpu err (img.afterSave vector)).reverse =
      mem :=
    ⟨_, rfl⟩
  rw [show h.core = ⟨h.cpu, h.kernel.mem⟩ from rfl, hm] at hpush
  rw [hm] at hframe hmem
  have hsave := save_eq (h := h) (t := t) hpush hcur
  have hcall :
    (⟨mem.load32 (h.cpu.esp - 68 + 44), mem.load32 (h.cpu.esp - 68 + 40),
      mem.load32 (h.cpu.esp - 68 + 36)⟩ :
      Context) = h.cpu.call := by
    rw [← congrArg Cpu.call hframe]
    rfl
  simp only [hcall, hnested] at hsave
  refine ⟨_, mem, hsave, ?_, ?_, hframe, hmem⟩
  · rfl
  · exact testBit_cli _

theorem call_mem {frames : Memory} (hesp : h.cpu.esp ≤ img.kernelStackTop) (hx : ¬img.OnStack x) :
    (h.call img frames).kernel.mem x = h.kernel.mem x :=
  if_neg fun hin => hx ⟨hin.1, Nat.lt_of_lt_of_le hin.2 hesp⟩

-- ---------------------------------------------------------------------------
-- Frames that are kept
-- ---------------------------------------------------------------------------

theorem Saved.esp (h : Saved img L hw c t) : c.esp = hw.context t + 68 := by
  rw [← h.frame]
  rfl

theorem Saved.owns (h : Saved img L hw c t) (hlo : hw.context t ≤ x) (hhi : x < hw.context t + 68) :
    L.Owns t x :=
  ⟨h.lo.trans hlo, lt_of_lt_of_le hhi (h.esp ▸ h.hi)⟩

theorem Saved.keep (h : Saved img L hw c t) (hctx : hw'.context t = hw.context t)
    (hview : (hw'.kernel.ptable t).context = (hw.kernel.ptable t).context)
    (hmem : ∀ x, L.Owns t x → hw'.kernel.mem x = hw.kernel.mem x ∨ c.esp ≤ x)
    (hasks : ∀ p, (hw'.kernel.ptable t).asks = some p → (hw.kernel.ptable t).asks = some p) :
    Saved img L hw' c t := by
  refine ⟨?_, h.valid, by rw [hctx]; exact h.lo, h.hi, by
    rw [hview]; exact h.view, fun p hp => h.buffer p (hasks p hp)⟩
  rw [hctx, ← h.frame]
  refine frameAt_congr fun x hx hlt => (hmem x (h.owns hx hlt)).resolve_right ?_
  rw [h.esp]
  omega

theorem Stacks.Owns.unique (hL : L.Valid img) (ht : L.Owns t x) (hu : L.Owns u x) : u = t := by
  by_contra hne
  obtain ⟨hlo, hhi⟩ := ht
  obtain ⟨hlo', hhi'⟩ := hu
  rcases hL.apart u t hne with h | h
  · omega
  · omega

theorem Stacks.Owns.not_kernel (hL : L.Valid img) (ht : L.Owns t x) : ¬img.OnStack x := by
  rintro ⟨hbottom, htop⟩
  obtain ⟨hlo, hhi⟩ := ht
  rcases hL.kernel t with hk | hk
  · omega
  · omega

theorem Stacks.Owns.not_scratch {sp : Nat} (hL : L.Valid img) (ht : L.Owns t x) (hne : t ≠ u)
    (hlo : L.lo u + 68 ≤ sp) (hhi : sp ≤ L.hi u) : ¬Scratch img sp x := by
  rintro (⟨h, h'⟩ | hon)
  · exact hne (Owns.unique hL (t := u) ⟨by omega, by omega⟩ ht)
  · exact ht.not_kernel hL hon

end

end ElcoOs.I386
