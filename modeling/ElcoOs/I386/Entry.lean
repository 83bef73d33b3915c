import ElcoOs.I386.Descriptors
import ElcoOs.Lib.Stack

/-!
# The way into the kernel and out of it

The instructions of `i386.S` between an interrupt and the C code that handles
it, and from there back. The processor pushes flags and program counter, a stub
pushes a word for the error code, `save` pushes the registers, and `resume`
pops all of them. Every task runs in ring 0, so no interrupt switches stacks.
-/

namespace ElcoOs.I386

open Word32

-- ---------------------------------------------------------------------------
-- Instructions
-- ---------------------------------------------------------------------------

structure Cpu where
  gs : Nat
  fs : Nat
  es : Nat
  ds : Nat
  edi : Nat
  esi : Nat
  ebp : Nat
  esp : Nat
  ebx : Nat
  edx : Nat
  ecx : Nat
  eax : Nat
  eip : Nat
  cs : Nat
  eflags : Nat
  deriving DecidableEq, Repr

structure Core where
  cpu : Cpu
  mem : Memory

namespace Core

def push (s : Core) (v : Nat) : Core :=
  ⟨{ s.cpu with esp := sub s.cpu.esp 4 }, s.mem.store32 (sub s.cpu.esp 4) v⟩

/-- `set` puts the word into its register. -/
def pop (s : Core) (set : Cpu → Nat → Cpu) : Core :=
  ⟨set { s.cpu with esp := add s.cpu.esp 4 } (s.mem.load32 s.cpu.esp), s.mem⟩

/-- A segment register takes the lower half. -/
def popSeg (s : Core) (set : Cpu → Nat → Cpu) : Core := s.pop fun c v => set c (v % 65536)

def pushal (s : Core) : Core :=
  let esp := s.cpu.esp
  (((((((s.push s.cpu.eax).push s.cpu.ecx).push s.cpu.edx).push s.cpu.ebx).push esp).push
    s.cpu.ebp).push s.cpu.esi).push
    s.cpu.edi

/-- The stack pointer is not popped. -/
def popal (s : Core) : Core :=
  let s := s.pop fun c v => { c with edi := v }
  let s := s.pop fun c v => { c with esi := v }
  let s := s.pop fun c v => { c with ebp := v }
  let s := s.pop fun c _ => c
  let s := s.pop fun c v => { c with ebx := v }
  let s := s.pop fun c v => { c with edx := v }
  let s := s.pop fun c v => { c with ecx := v }
  s.pop fun c v => { c with eax := v }

/-- `add $n, %esp` -/
def addEsp (s : Core) (n : Nat) : Core := ⟨{ s.cpu with esp := add s.cpu.esp n }, s.mem⟩

/-- Of the flags `TF`, `NT`, `RF` and `VM` are cleared by every gate, `IF` by an interrupt gate. -/
def gateFlags (g : Gate) (eflags : Nat) : Nat :=
  let eflags := eflags &&& not32 0x34100
  if g.type = 0x0E then eflags &&& not32 0x200 else eflags

/-- An interrupt through a gate, from ring 0 to ring 0. -/
def interrupt (s : Core) (g : Gate) : Core :=
  let s := ((s.push s.cpu.eflags).push s.cpu.cs).push s.cpu.eip
  ⟨{ s.cpu with eip := g.offset, cs := g.selector, eflags := gateFlags g s.cpu.eflags }, s.mem⟩

def iret (s : Core) : Core :=
  let s := s.pop fun c v => { c with eip := v }
  let s := s.popSeg fun c v => { c with cs := v }
  s.pop fun c v => { c with eflags := v }

/-- `cli` -/
def cli (s : Core) : Core := ⟨{ s.cpu with eflags := s.cpu.eflags &&& not32 0x200 }, s.mem⟩

-- ---------------------------------------------------------------------------
-- `save` and `resume`
-- ---------------------------------------------------------------------------

/-- The pushes of `save`, called from a stub that goes on at `ret`. -/
def pushRegs (s : Core) (ret : Nat) : Core :=
  let s := (s.push ret).pushal
  (((s.push s.cpu.ds).push s.cpu.es).push s.cpu.fs).push s.cpu.gs

def loadSegs (s : Core) : Core :=
  ⟨{ s.cpu with eax := gdtRing0Data, ds := gdtRing0Data, es := gdtRing0Data, fs :=
  gdtRing0Data, gs := gdtRing0Data }, s.mem⟩

/-- The end of `resume`. -/
def popRegs (s : Core) : Core :=
  let s := s.popSeg fun c v => { c with gs := v }
  let s := s.popSeg fun c v => { c with fs := v }
  let s := s.popSeg fun c v => { c with es := v }
  let s := s.popSeg fun c v => { c with ds := v }
  (s.popal.addEsp 8).iret

end Core

-- ---------------------------------------------------------------------------
-- Frames
-- ---------------------------------------------------------------------------

/-- The registers in the `intr_stack_t` at `p`. `useresp` and `ss` are not part of it: they
are not popped on the way to ring 0. -/
def frameAt (m : Memory) (p : Nat) : Cpu :=
  { gs := m.load32 p % 65536
    fs := m.load32 (p + 4) % 65536
    es := m.load32 (p + 8) % 65536
    ds := m.load32 (p + 12) % 65536
    edi := m.load32 (p + 16)
    esi := m.load32 (p + 20)
    ebp := m.load32 (p + 24)
    esp := p + 68
    ebx := m.load32 (p + 32)
    edx := m.load32 (p + 36)
    ecx := m.load32 (p + 40)
    eax := m.load32 (p + 44)
    eip := m.load32 (p + 56)
    cs := m.load32 (p + 60) % 65536
    eflags := m.load32 (p + 64) }

structure Cpu.Valid (c : Cpu) : Prop where
  segments : c.gs < 65536 ∧ c.fs < 65536 ∧ c.es < 65536 ∧ c.ds < 65536 ∧ c.cs < 65536
  index : c.edi < 4294967296 ∧ c.esi < 4294967296 ∧ c.ebp < 4294967296 ∧ c.esp < 4294967296
  general : c.ebx < 4294967296 ∧ c.edx < 4294967296 ∧ c.ecx < 4294967296 ∧ c.eax < 4294967296
  control : c.eip < 4294967296 ∧ c.eflags < 4294967296

instance (c : Cpu) : Decidable c.Valid :=
  decidable_of_iff ((c.gs < 65536 ∧ c.fs < 65536 ∧ c.es < 65536 ∧ c.ds < 65536 ∧ c.cs < 65536) ∧
      (c.edi < 4294967296 ∧ c.esi < 4294967296 ∧ c.ebp < 4294967296 ∧ c.esp < 4294967296) ∧
      (c.ebx < 4294967296 ∧ c.edx < 4294967296 ∧ c.ecx < 4294967296 ∧ c.eax < 4294967296) ∧
      c.eip < 4294967296 ∧ c.eflags < 4294967296)
    ⟨fun ⟨hs, hi, hg, hc⟩ => ⟨hs, hi, hg, hc⟩, fun h => ⟨h.segments, h.index, h.general, h.control⟩⟩

section
variable {c : Cpu} {g : Gate} {m m' : Memory} {s : Core} {err p ret v x : Nat}

theorem frameAt_congr (h : ∀ x, p ≤ x → x < p + 68 → m' x = m x) : frameAt m' p = frameAt m p := by
  have hload : ∀ k, k + 4 ≤ 68 → m'.load32 (p + k) = m.load32 (p + k) := fun k hk =>
    Memory.load32_congr fun x _ _ => h x (by omega) (by omega)
  simp only [frameAt, hload 4 (by decide), hload 8 (by decide), hload 12 (by decide),
    hload 16 (by decide),
    hload 20 (by decide), hload 24 (by decide), hload 32 (by decide), hload 36 (by decide),
    hload 40 (by decide),
    hload 44 (by decide), hload 56 (by decide), hload 60 (by decide), hload 64 (by decide),
    show m'.load32 p = m.load32 p from hload 0 (by decide)]

theorem frameAt_store_eax (hv : v < 4294967296) : frameAt (m.store32 (p + 44) v) p =
    { frameAt m p with eax := v } := by
  have hload : ∀ k, k + 4 ≤ 44 ∨ 48 ≤ k → (m.store32 (p + 44) v).load32 (p + k) =
    m.load32 (p + k) := fun k hk =>
    Memory.load32_store32_apart (by omega)
  simp only [frameAt, hload 4 (by decide), hload 8 (by decide), hload 12 (by decide),
    hload 16 (by decide),
    hload 20 (by decide), hload 24 (by decide), hload 32 (by decide), hload 36 (by decide),
    hload 40 (by decide),
    hload 56 (by decide), hload 60 (by decide), hload 64 (by decide), Memory.load32_store32_same hv,
    show (m.store32 (p + 44) v).load32 p = m.load32 p from hload 0 (by decide)]

theorem popRegs_eq (h : s.cpu.esp + 68 < 4294967296) :
    s.popRegs = ⟨frameAt s.mem s.cpu.esp, s.mem⟩ := by
  obtain ⟨c, m⟩ := s
  simp only at h
  simp (disch := omega) only [Core.popRegs, Core.popSeg, Core.popal, Core.addEsp, Core.iret,
    Core.pop, frameAt, add_of_lt,
    Nat.add_assoc, Nat.reduceAdd]

def entryWords (c : Cpu) (err ret : Nat) : List Nat :=
  [c.gs, c.fs, c.es, c.ds, c.edi, c.esi, c.ebp, c.esp - 20, c.ebx, c.edx, c.ecx, c.eax, ret, err,
  c.eip, c.cs, c.eflags]

theorem pushes_eq (hesp : 68 ≤ c.esp) (hlt : c.esp < 4294967296) :
    ((((⟨c, m⟩ : Core).interrupt g).cli.push err).pushRegs ret) =
      ⟨{ c with esp := c.esp - 68, eip := g.offset, cs := g.selector, eflags :=
      Core.gateFlags g c.eflags &&& not32 0x200 },
        m.pushAll c.esp (entryWords c err ret).reverse⟩ := by
  simp (disch := omega) only [Core.interrupt, Core.cli, Core.pushRegs, Core.pushal, Core.push,
    entryWords, List.reverse_cons,
    List.reverse_nil, List.nil_append, List.cons_append, Memory.pushAll, sub_of_le,
    Nat.sub_sub, Nat.reduceAdd]

theorem entryWords_lt (hc : c.Valid) (herr : err < 4294967296) (hret : ret < 4294967296) :
    ∀ v ∈ entryWords c err ret, v < 4294967296 := by
  obtain ⟨hs, hi, hg, hctl⟩ := hc
  simp only [entryWords, List.forall_mem_cons]
  refine ⟨?_, ?_, ?_, ?_, ?_, ?_, ?_, ?_, ?_, ?_, ?_, ?_, ?_, ?_, ?_, ?_, ?_, by simp⟩ <;> omega

theorem frameAt_words (hc : c.Valid) (hesp : c.esp = p + 68)
    (h : m.Words p (entryWords c err ret)) :
    frameAt m p = c ∧ m.load32 (p + 48) = ret ∧ m.load32 (p + 52) = err := by
  obtain ⟨hs, hi, hg, hctl⟩ := hc
  simp only [entryWords, Memory.Words, Nat.add_assoc, Nat.reduceAdd] at h
  obtain ⟨h0, h4, h8, h12, h16, h20, h24, -, h32, h36, h40, h44, h48, h52, h56, h60, h64, -⟩ := h
  refine ⟨?_, h48, h52⟩
  obtain ⟨gs, fs, es, ds, edi, esi, ebp, esp, ebx, edx, ecx, eax, eip, cs, eflags⟩ := c
  simp only at hs hesp
  rw [frameAt, h0, h4, h8, h12, h16, h20, h24, h32, h36, h40, h44, h56, h60, h64, hesp,
    Nat.mod_eq_of_lt hs.1,
    Nat.mod_eq_of_lt hs.2.1, Nat.mod_eq_of_lt hs.2.2.1, Nat.mod_eq_of_lt hs.2.2.2.1,
    Nat.mod_eq_of_lt hs.2.2.2.2]

/-- An entry leaves the registers in a frame of 68 bytes below the stack pointer, and nothing
else has been written. -/
theorem entry_frame (hc : c.Valid) (hesp : 68 ≤ c.esp) (herr : err < 4294967296)
    (hret : ret < 4294967296) :
    let m' := m.pushAll c.esp (entryWords c err ret).reverse
    frameAt m' (c.esp - 68) = c ∧ m'.load32 (c.esp - 68 + 48) = ret ∧
    m'.load32 (c.esp - 68 + 52) = err ∧
      ∀ x, x < c.esp - 68 ∨ c.esp ≤ x → m' x = m x := by
  have hwords : (m.pushAll c.esp (entryWords c err ret).reverse).Words (c.esp - 68)
    (entryWords c err ret).reverse.reverse :=
    Memory.pushAll_words hesp fun v hv => entryWords_lt hc herr hret v (List.mem_reverse.mp hv)
  rw [List.reverse_reverse] at hwords
  obtain ⟨hframe, hret', herr'⟩ := frameAt_words hc (show c.esp = c.esp - 68 + 68 by omega) hwords
  exact ⟨hframe, hret', herr', fun x hx => Memory.pushAll_apply hesp hx⟩

/-- A spurious interrupt comes back at once; of the memory it leaves all but four words below the
stack pointer. -/
theorem spurious_eq (hc : c.Valid) (hesp : 16 ≤ c.esp) :
    ∃ m', ((((⟨c, m⟩ : Core).interrupt g).cli.push ((⟨c, m⟩ : Core).interrupt g).cli.cpu.eax).pop
        fun c v => { c with eax := v }).iret = ⟨c, m'⟩ ∧
      ∀ x, x < c.esp - 16 ∨ c.esp ≤ x → m' x = m x := by
  obtain ⟨hs, hi, hg, hctl⟩ := hc
  obtain ⟨gs, fs, es, ds, edi, esi, ebp, esp, ebx, edx, ecx, eax, eip, cs, eflags⟩ := c
  simp only at hs hi hg hctl hesp
  obtain ⟨p, rfl⟩ : ∃ p, esp = p + 16 := ⟨esp - 16, by omega⟩
  refine ⟨(((m.store32 (p + 12) eflags).store32 (p + 8) cs).store32 (p + 4) eip).store32 p eax,
    ?_, fun x hx => ?_⟩
  · simp (disch := omega) only [Core.interrupt, Core.cli, Core.push, Core.pop, Core.iret,
      Core.popSeg, sub_of_le, add_of_lt,
      Nat.reduceSub, Nat.reduceAdd, Nat.add_sub_assoc, Nat.add_assoc, Memory.load32_store32_apart,
      Memory.load32_store32_same,
      Nat.mod_eq_of_lt]
    rfl
  · simp only at hx
    simp (disch := omega) only [Memory.store32_apply]

theorem testBit_cli (f : Nat) : (f &&& not32 0x200).testBit 9 = false := by
  rw [Nat.testBit_and, show (not32 0x200).testBit 9 = false by decide, Bool.and_false]

end

end ElcoOs.I386
