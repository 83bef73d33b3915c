import ElcoOs.I386.Entry
import ElcoOs.Kstring.Bytes

/-!
# The first context of a task

`create_kernel_task` builds the frame that `resume` will pop when the task runs
for the first time. The frame is a whole `intr_stack_t`, whose last two words
are not popped: they are what the task finds on its stack.
-/

namespace ElcoOs.I386

open Word32 Kstring

/-- `sizeof(intr_stack_t)` -/
def intrStackSize : Nat := 76

/-- The part of `create_kernel_task` that fills the context: its address, and the memory. -/
def makeContext (m : Memory) (stack stackSize entryPoint : Nat) : Nat × Memory :=
  let sp := add stack stackSize
  let context := sub sp intrStackSize
  let m := (kmemset m context 0 intrStackSize).2
  let m := m.store32 (context + 60) gdtRing0Code -- cs
  let m := m.store32 (context + 12) gdtRing0Data -- ds
  let m := m.store32 (context + 8) gdtRing0Data -- es
  let m := m.store32 (context + 4) gdtRing0Data -- fs
  let m := m.store32 context gdtRing0Data -- gs
  let m := m.store32 (context + 72) gdtRing0Data -- ss
  let m := m.store32 (context + 24) sp -- ebp
  let m := m.store32 (context + 56) entryPoint -- eip
  let m := m.store32 (context + 64) 0x0202 -- eflags
  (context, m)

/-- The processor when a task starts whose stack ends at `sp`: interrupts are on. -/
def freshCpu (sp entryPoint : Nat) : Cpu :=
  { gs := gdtRing0Data
    fs := gdtRing0Data
    es := gdtRing0Data
    ds := gdtRing0Data
    edi := 0
    esi := 0
    ebp := sp
    esp := sp - 8
    ebx := 0
    edx := 0
    ecx := 0
    eax := 0
    eip := entryPoint
    cs := gdtRing0Code
    eflags := 0x0202 }

variable {m : Memory} {a stack stackSize entryPoint : Nat}

theorem load32_zero (h : ∀ x, a ≤ x → x < a + 4 → m x = 0) : m.load32 a = 0 := by
  unfold Memory.load32
  rw [h a (by omega) (by omega), h (a + 1) (by omega) (by omega), h (a + 2) (by omega) (by omega),
    h (a + 3) (by omega) (by omega)]
  rfl

/-- The new task starts at its entry point, with the end of its stack less two words, of which
the lower one, where a function finds its return address, is zero. All of it is written to the
last 76 bytes before the end of the stack. -/
theorem makeContext_spec (m : Memory) (stack stackSize entryPoint : Nat)
    (hend : stack + stackSize < 4294967296)
    (hroom : intrStackSize ≤ stack + stackSize) (hentry : entryPoint < 4294967296) :
    let sp := stack + stackSize
    let r := makeContext m stack stackSize entryPoint
    r.1 = sp - intrStackSize ∧ frameAt r.2 r.1 = freshCpu sp entryPoint ∧
    r.2.load32 (freshCpu sp entryPoint).esp = 0 ∧
      ∀ x, x < sp - intrStackSize ∨ sp ≤ x → r.2 x = m x := by
  rw [intrStackSize] at hroom
  obtain ⟨p, hp⟩ : ∃ p, stack + stackSize = p + 76 := ⟨stack + stackSize - 76, by omega⟩
  have hsp : add stack stackSize = p + 76 := by rw [add_of_lt hend, hp]
  have hcontext : sub (p + 76) intrStackSize = p := sub_of_le (Nat.le_add_left _ _) (hp ▸ hend)
  simp only [hp] at hend ⊢
  obtain ⟨hzero, hrest, -⟩ := kmemset_fills m p 0 intrStackSize (by rw [intrStackSize]; omega)
  obtain ⟨m₀, hm₀⟩ : ∃ m₀, (kmemset m p 0 intrStackSize).2 = m₀ := ⟨_, rfl⟩
  rw [hm₀, intrStackSize] at hzero hrest
  have hload : ∀ k, k + 4 ≤ 76 → m₀.load32 (p + k) = 0 := fun k hk => load32_zero fun x hx hlt => by
    rw [show x = p + (x - p) by omega]
    exact hzero _ (by omega)
  have hcode : gdtRing0Code < 4294967296 := by decide
  have hdata : gdtRing0Data < 4294967296 := by decide
  simp only [makeContext, hsp, hcontext, hm₀]
  refine ⟨?_, ?_, ?_, fun x hx => ?_⟩
  · rw [intrStackSize]
    omega
  · simp (disch := omega) only [frameAt, freshCpu, Memory.load32_store32_apart,
      Memory.load32_store32_same, hload]
    rfl
  · simp (disch := omega) only [freshCpu, show p + 76 - 8 = p + 68 by
      omega, Memory.load32_store32_apart, hload]
  · simp only [intrStackSize] at hx
    simp (disch := omega) only [Memory.store32_apply]
    exact hrest x (by omega)

end ElcoOs.I386
