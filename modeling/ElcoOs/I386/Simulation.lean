import ElcoOs.I386.Processors

/-!
# The machine simulates the processors

Each step of the machine, from a state that refines one of the virtual machine, can
be made, and the virtual machine makes it too. A frame stays on the stack of its
task until the task is switched to again.
-/

namespace ElcoOs.I386

open Word32 Tasks Interrupts

section
variable {img : Image} {L : Stacks} {queued : List Nat} {h h' : Hw} {v v' : Vm} {c : Cpu}
  {t u x isr : Nat} {m : Memory} {a : HwAction} {hw : Hw} {frames : Memory}

theorem Refines.current (hr : Refines img L queued h v) (huser : v.machine.inKernel = false)
    (hcur : v.machine.kernel.currentTask = some t) :
    ∃ place q, MachineOk queued v.machine place q ∧ Running v.machine.kernel place q t := by
  obtain ⟨place, q, hok⟩ := hr.ok
  obtain ⟨c, hrun⟩ := hok.running huser
  cases hcur.symm.trans hrun.current
  exact ⟨place, q, hok, hrun⟩

theorem Refines.nested (hr : Refines img L queued h v) (huser : v.machine.inKernel = false) :
    h.nestedIntr = -1 := by
  rw [hr.mode, huser]
  rfl

theorem Refines.user_of_on (hr : Refines img L queued h v) (hon : h.cpu.eflags.testBit 9 = true) :
    v.machine.inKernel = false := by
  cases hin : v.machine.inKernel with
  | false => rfl
  | true => cases hon.symm.trans (hr.inside hin).1

theorem Refines.user_of_nested (hr : Refines img L queued h v) (hn : h.nestedIntr = -1) :
    v.machine.inKernel = false := by
  cases hin : v.machine.inKernel with
  | false => rfl
  | true =>
    rw [hr.mode, hin] at hn
    cases hn

theorem TimerOnly.line {s : Irqs (Kernel → Option Kernel)} {num : Nat} (hs : TimerOnly s)
    (hnum : num < irqCount)
    (hmask : (inportb s (ownerPort num)).testBit (num % 8) = false) : num = 0 := by
  have hall : ∀ n < 16, (if n < 8 then 254 else 255 : Nat).testBit (n % 8) = false →
    n = 0 := by decide
  refine hall num hnum ?_
  unfold ownerPort at hmask
  split at hmask
  · rwa [if_pos ‹_›, ← hs.master]
  · rwa [if_neg ‹_›, ← hs.slave]

theorem TimerOnly.outportb {s : Irqs (Kernel → Option Kernel)} {port value : Nat} (hs : TimerOnly s)
    (h₀ : pic0AddrD ≠ port) (h₁ : pic1AddrD ≠ port) : TimerOnly (outportb s port value) :=
  ⟨hs.handler, (outportb_other s value h₀).trans hs.master,
  (outportb_other s value h₁).trans hs.slave⟩

theorem TimerOnly.eoi {s : Irqs (Kernel → Option Kernel)} (hs : TimerOnly s) (num : Nat) :
    TimerOnly (picEoi s num) := by
  unfold picEoi
  split
  · exact (hs.outportb (by decide) (by decide)).outportb (by decide) (by decide)
  · exact hs.outportb (by decide) (by decide)

-- ---------------------------------------------------------------------------
-- The way in
-- ---------------------------------------------------------------------------

theorem push_entered {cpu : Cpu} {k : Kernel} {irqs : Irqs (Kernel → Option Kernel)}
    (h : Hw) (t n : Nat) :
    (h.entered t cpu k irqs).push n = h.entered t { cpu with esp := sub cpu.esp 4 }
      { k with mem := k.mem.store32 (sub cpu.esp 4) n } irqs := rfl

theorem call_entered {cpu : Cpu} {k : Kernel} {irqs : Irqs (Kernel → Option Kernel)} (h : Hw)
    (t : Nat) (frames : Memory) :
    (h.entered t cpu k irqs).call img frames = h.entered t cpu { k with
      mem := fun x => if img.kernelStackBottom ≤ x ∧ x < cpu.esp then frames x else
        k.mem x } irqs := rfl

theorem irqHandler_entered {cpu : Cpu} {k k' : Kernel} {irqs : Irqs (Kernel → Option Kernel)}
    {num : Nat} {handler : Kernel → Option Kernel} (hhandler : irqs.irqHandlers num = some handler)
    (hk : handler k = some k') :
    (h.entered t cpu k irqs).irqHandler num = some (h.entered t cpu k' (picEoi irqs num)) := by
  rw [Hw.irqHandler, show (h.entered t cpu k irqs).irqs.irqHandlers num =
    some handler from hhandler]
  show (handler k >>= _) = _
  rw [hk]
  rfl

/-- After an entry from `t` its frame is there, and those of the others are still there. -/
theorem Refines.entered {cpu : Cpu} {k : Kernel} {irqs : Irqs (Kernel → Option Kernel)}
    (hr : Refines img L queued h v)
    (hL : L.Valid img) (hcur : v.machine.kernel.currentTask = some t)
    (hroom : L.lo t + 68 ≤ h.cpu.esp ∧ h.cpu.esp ≤ L.hi t)
    (hinside : cpu.eflags.testBit 9 = false ∧ cpu.esp ≤ img.kernelStackTop)
    (htimer : TimerOnly irqs) (hok : ∃ place q, MachineOk queued ⟨k, true⟩ place q)
    (hidle : k.idleTask = h.kernel.idleTask) (hself : Saved img L (h.entered t cpu k irqs) c t)
    (hview : ∀ u, u ≠ t → (k.ptable u).context = (h.kernel.ptable u).context)
    (hmem : ∀ u x, u ≠ t → L.Owns u x → ¬Scratch img h.cpu.esp x → k.mem x = h.kernel.mem x)
    (hasks : ∀ u p, u ≠ t → (k.ptable u).asks = some p → (h.kernel.ptable u).asks = some p) :
    Refines img L queued (h.entered t cpu k irqs) ⟨⟨k, true⟩, Function.update v.regs t c⟩ := by
  refine ⟨rfl, rfl, fun _ => hinside, hok, htimer, fun hno => (nomatch hno), fun u hu => ?_⟩
  by_cases hut : u = t
  · subst hut
    show Saved img L (h.entered u cpu k irqs) (Function.update v.regs u c u) u
    rw [Function.update_self]
    exact hself
  · show Saved img L (h.entered t cpu k irqs) (Function.update v.regs t c u) u
    rw [Function.update_of_ne hut]
    have hsaved : Saved img L h (v.regs u) u := by
      refine hr.saved u ⟨hu.1.imp_right fun hi => ?_, fun _ hc => hut ?_⟩
      · rw [← hr.kernel, ← hidle]
        exact hi
      · exact Option.some.inj (hc.symm.trans hcur)
    refine hsaved.keep ?_ (hview u hut) (fun x hx => .inl (hmem u x hut hx ?_)) fun p =>
      hasks u p hut
    · exact Function.update_of_ne hut ..
    · exact hx.not_scratch hL hut hroom.1 hroom.2

theorem Refines.tick (hr : Refines img L queued h v) (himg : img.Valid) (hL : L.Valid img)
    (huser : v.machine.inKernel = false) (hcur : v.machine.kernel.currentTask = some t)
    (hroom : L.lo t + 68 ≤ h.cpu.esp ∧ h.cpu.esp ≤ L.hi t) (isr : Nat) (frames : Memory) :
    ∃ h' v', h.irq img 0 frames = some h' ∧ Vm.Step img v (.irq 0 isr frames) v' ∧
      Refines img L queued h' v' := by
  obtain ⟨place, q, hok, hrun⟩ := hr.current huser hcur
  have hcur' : h.kernel.currentTask = some t := by rw [hr.kernel]; exact hcur
  obtain ⟨hcpu, hvalid⟩ := hr.running huser t hcur'
  obtain ⟨cpu, mem, hsave, hesp, hoff, hframe, hmem⟩ :=
    enter_spec himg hcur' (hr.nested huser) hvalid (by omega)
    (show 0 < 4294967296 by decide) (irq0Vect + 0)
  -- the number of the line is an argument of the handler
  obtain ⟨cpu', hcpu'⟩ : ∃ cpu', { cpu with esp := sub cpu.esp 4 } = cpu' := ⟨_, rfl⟩
  have hesp' : cpu'.esp = img.kernelStackTop - 4 := by
    rw [← hcpu', ← hesp]
    exact sub_of_le (by have := hL.room; omega) (by have := hL.room; omega)
  obtain ⟨found, hfound⟩ : ∃ found : Memory, (fun x => if img.kernelStackBottom ≤ x ∧
    x < cpu'.esp then frames x
      else mem.store32 (sub cpu.esp 4) 0 x) = found := ⟨_, rfl⟩
  have hstore : ∀ x, ¬img.OnStack x → found x = mem x := fun x hx => by
    have hroom := hL.room
    rw [Image.OnStack] at hx
    rw [← hfound]
    refine (if_neg (by omega)).trans ?_
    rw [hesp, sub_of_le (by omega) (by omega)]
    exact Memory.store32_apply (by omega)
  have hscratch : ∀ x, ¬Scratch img h.cpu.esp x → found x = h.kernel.mem x := fun x hx => by
    rw [Scratch, not_or] at hx
    rw [hstore x hx.2, hmem x (by omega)]
  obtain ⟨m', place', q', hstep, -, hok', -⟩ := hok.tick (e := ⟨h.cpu.call, found, false⟩)
    ⟨huser, fun hc => (nomatch hc)⟩ rfl
  obtain ⟨k, hk, rfl⟩ := Option.map_eq_some_iff.mp hstep
  have hfoot := enter_tick_footprint hcur rfl hk
  rw [← hr.kernel] at hfoot hk
  have hframe' : frameAt found (h.cpu.esp - 68) = h.cpu :=
    (frameAt_congr fun x hx hlt => hstore x (Stacks.Owns.not_kernel hL (t :=
    t) ⟨by omega, by omega⟩)).trans hframe
  have hoff' : cpu'.eflags.testBit 9 = false := by
    rw [← hcpu']
    exact hoff
  have hself : Saved img L (h.entered t cpu' k (picEoi h.irqs 0)) h.cpu t := by
    have hat : (h.entered t cpu' k (picEoi h.irqs 0)).context t = h.cpu.esp - 68 :=
      Function.update_self ..
    refine ⟨?_, hvalid, ?_, hroom.2, ?_, fun p hp => ?_⟩
    · rw [hat, ← hframe']
      exact congrArg (frameAt · _) hfoot.mem
    · rw [hat]
      omega
    · exact (hfoot.context t).trans (save_context.trans (if_pos rfl))
    · have hnone : (k.ptable t).asks = none := by
        rw [hfoot.asks, save_asks, hr.kernel]
        exact hrun.asks_none
      cases hnone.symm.trans hp
  have hirq : h.irq img 0 frames = some (h.entered t cpu' k (picEoi h.irqs 0)) := by
    rw [enter, hcur', Option.bind_some] at hk
    rw [Hw.irq, Hw.irqTail, hsave]
    show (((h.entered t cpu _ h.irqs).push 0).call img frames).irqHandler 0 = _
    rw [push_entered, hcpu', call_entered]
    refine irqHandler_entered hr.timer.handler ?_
    rw [← hk, ← hfound]
    rfl
  refine ⟨_, ⟨⟨k, true⟩, v.regs⟩, hirq, ?_, ?_⟩
  · rw [hcpu, hr.kernel] at hk
    refine .tick huser hcur (fun x hx => ?_) hk
    rw [hscratch x (by rw [hcpu]; exact hx), hr.kernel]
  · have hentered :=
      hr.entered hL hcur hroom ⟨hoff', by omega⟩ (hr.timer.eoi 0) ⟨place', q',
        hok'⟩ hfoot.idleTask hself
      (fun u hu => (hfoot.context u).trans (save_context.trans (if_neg hu)))
      (fun u x _ _ hx => (congrFun hfoot.mem x).trans (hscratch x hx))
      fun u p _ hp => by rw [hfoot.asks, save_asks] at hp; exact hp
    rwa [show Function.update v.regs t h.cpu = v.regs by rw [hcpu, Function.update_eq_self]]
      at hentered

-- ---------------------------------------------------------------------------
-- Without the kernel
-- ---------------------------------------------------------------------------

/-- The task goes on with other registers, and another memory; the stacks of the others are as
before. -/
theorem Refines.goOn (hr : Refines img L queued h v) (huser : v.machine.inKernel = false)
    (hcur : v.machine.kernel.currentTask = some t) (hc : c.Valid)
    (hmem : ∀ u x, u ≠ t → L.Owns u x → m x = h.kernel.mem x) {irqs : Irqs (Kernel → Option Kernel)}
    (hirqs : TimerOnly irqs) :
    Refines img L queued { h.setCore ⟨c, m⟩ with irqs := irqs }
      ⟨⟨{ v.machine.kernel with mem := m }, false⟩, Function.update v.regs t c⟩ := by
  obtain ⟨place, q, hok, hrun⟩ := hr.current huser hcur
  refine ⟨?_, hr.nested huser, fun hno => (nomatch hno), ⟨place, q, ?_⟩, hirqs,
    fun _ u hu => ?_, fun u hu => ?_⟩
  · exact congrArg (fun k : Kernel => { k with mem := m }) hr.kernel
  · have := hok.setMem m
    rwa [huser] at this
  · cases (hr.kernel ▸ hcur : h.kernel.currentTask = some t).symm.trans hu
    refine ⟨?_, hc⟩
    show c = Function.update v.regs t c t
    rw [Function.update_self]
  · have hut : u ≠ t := fun he => hu.2 rfl (he ▸ hcur)
    show Saved img L _ (Function.update v.regs t c u) u
    rw [Function.update_of_ne hut]
    exact (hr.saved u ⟨hu.1, fun _ hc => hu.2 rfl hc⟩).keep rfl rfl
      (fun x hx => .inl (hmem u x hut hx)) fun p => id

theorem irq7_eq {s : Core} (hs : h.interrupt img (irq0Vect + 7) = h.setCore s)
    (hisr : isr.testBit 7 = false) :
    h.irq7 img isr frames =
    some { h.setCore ((s.push s.cpu.eax).pop fun c v => { c with eax := v }).iret with
      irqs := outportb h.irqs pic0AddrC 0x0B } := by
  have hcore : ∀ (h : Hw) (s : Core) irqs, ({ h.setCore s with irqs := irqs } : Hw).core = s :=
    fun _ _ _ => rfl
  have hset : ∀ (h : Hw) (s s' : Core) irqs,
      ({ h.setCore s with irqs := irqs } : Hw).setCore s' = { h.setCore s' with irqs := irqs } :=
      fun _ _ _ _ => rfl
  rw [Hw.irq7, hs]
  simp only [push_setCore, hcore, hset, setCore_cpu, hisr, Bool.false_eq_true, if_false]
  rfl

theorem Refines.spurious (hr : Refines img L queued h v) (hL : L.Valid img)
    (huser : v.machine.inKernel = false) (hcur : v.machine.kernel.currentTask = some t)
    (hroom : L.lo t + 68 ≤ h.cpu.esp ∧ h.cpu.esp ≤ L.hi t)
    (hisr : isr.testBit 7 = false) (frames : Memory) :
    ∃ h' v', h.irq7 img isr frames = some h' ∧ Vm.Step img v (.irq 7 isr frames) v' ∧
      Refines img L queued h' v' := by
  have hcur' : h.kernel.currentTask = some t := by rw [hr.kernel]; exact hcur
  obtain ⟨hcpu, hvalid⟩ := hr.running huser t hcur'
  obtain ⟨g, hg⟩ : ∃ g, readGate (idtInitialize img.stubs (irq0Vect + 7)).words = g := ⟨_, rfl⟩
  obtain ⟨left, hback, hleft⟩ := spurious_eq (g := g) (m := h.kernel.mem) hvalid (by omega)
  have hscratch : ∀ x, ¬Scratch img h.cpu.esp x → left x = h.kernel.mem x := fun x hx => by
    rw [Scratch] at hx
    exact hleft x (by omega)
  have hirq : h.irq7 img isr frames =
      some { h.setCore ⟨h.cpu, left⟩ with irqs := outportb h.irqs pic0AddrC 0x0B } := by
    have hpush : h.interrupt img (irq0Vect + 7) = h.setCore (h.core.interrupt g).cli := by
      rw [Hw.interrupt, hg]
    obtain ⟨s, hs⟩ : ∃ s, (h.core.interrupt g).cli = s := ⟨_, rfl⟩
    rw [show (⟨h.cpu, h.kernel.mem⟩ : Core) = h.core from rfl, hs] at hback
    rw [← hback]
    exact irq7_eq (hpush.trans (congrArg h.setCore hs)) hisr
  refine ⟨_, ⟨⟨{ v.machine.kernel with mem := left }, false⟩, v.regs⟩, hirq,
    .spurious huser hcur fun x hx => ?_, ?_⟩
  · rw [hscratch x (by rw [hcpu]; exact hx), hr.kernel]
  · have hgo :=
      hr.goOn huser hcur hvalid (fun u x hut hx =>
        hscratch x (hx.not_scratch hL hut hroom.1 hroom.2))
      (hr.timer.outportb (by decide) (by decide) : TimerOnly (outportb h.irqs pic0AddrC 0x0B))
    rwa [show Function.update v.regs t h.cpu = v.regs by rw [hcpu, Function.update_eq_self]] at hgo

-- ---------------------------------------------------------------------------
-- A kernel call
-- ---------------------------------------------------------------------------

/-- What a task has on its stack below the stack pointer is not in its receive buffer. -/
theorem BufferOk.not_below {sp ptr : Nat} (h : BufferOk img L t sp ptr)
    (hx : L.Owns t x) (hlt : x < sp) :
    x < ptr ∨ ptr + messageSize ≤ x := by
  by_contra hin
  have := (h x (by omega) (by omega)).2.1 hx
  omega

theorem BufferOk.not_other {sp ptr : Nat} (h : BufferOk img L t sp ptr) (hut : u ≠ t)
    (hx : L.Owns u x) :
    x < ptr ∨ ptr + messageSize ≤ x := by
  by_contra hin
  exact (h x (by omega) (by omega)).1 u hut hx

theorem handleKernelCall_entered {cpu : Cpu} {k k' : Kernel}
    {irqs : Irqs (Kernel → Option Kernel)} {r : Int}
    (hcur : k.currentTask = some t) (hr : dispatch k t (k.ptable t).context = some (r, k')) :
    (h.entered t cpu k irqs).handleKernelCall = some (h.entered t cpu
      { Tasks.setEax k' t (toUInt32 r) with
        mem := k'.mem.store32 (h.cpu.esp - 68 + 44) (toUInt32 r) } irqs) := by
  rw [Hw.handleKernelCall, show (h.entered t cpu k irqs).kernel = k from rfl, hcur]
  show (dispatch k t (k.ptable t).context >>= _) = _
  rw [hr]
  show some _ = some _
  rw [Hw.setEax, show (h.entered t cpu k irqs).context t = h.cpu.esp - 68 from
    Function.update_self ..]
  rfl

theorem Refines.call (hr : Refines img L queued h v) (himg : img.Valid) (hL : L.Valid img)
    (huser : v.machine.inKernel = false) (hcur : v.machine.kernel.currentTask = some t)
    (hroom : L.lo t + 68 ≤ h.cpu.esp ∧ h.cpu.esp ≤ L.hi t)
    (hidle : v.machine.kernel.currentTask ≠ v.machine.kernel.idleTask)
    (hbuf : h.cpu.eax = 4 → BufferOk img L t h.cpu.esp h.cpu.edx) (frames : Memory) :
    ∃ h' v', h.kernelCall img frames = some h' ∧ Vm.Step img v (.kernelCall frames) v' ∧
      Refines img L queued h' v' := by
  obtain ⟨place, q, hok, hrun⟩ := hr.current huser hcur
  have hcur' : h.kernel.currentTask = some t := by rw [hr.kernel]; exact hcur
  have hnone : (h.kernel.ptable t).asks = none := by rw [hr.kernel]; exact hrun.asks_none
  obtain ⟨hcpu, hvalid⟩ := hr.running huser t hcur'
  obtain ⟨cpu, mem, hsave, hesp, hoff, hframe, hmem⟩ :=
    enter_spec himg hcur' (hr.nested huser) hvalid (by omega)
    hvalid.general.2.2.2 128
  obtain ⟨found, hfound⟩ : ∃ found : Memory,
      (fun x => if img.kernelStackBottom ≤ x ∧ x < cpu.esp then frames x else mem x) = found :=
      ⟨_, rfl⟩
  have hcalled : ∀ x, ¬img.OnStack x → found x = mem x := fun x hx => by
    rw [← hfound, hesp]
    exact if_neg hx
  have hscratch : ∀ x, ¬Scratch img h.cpu.esp x → found x = h.kernel.mem x := fun x hx => by
    rw [Scratch, not_or] at hx
    rw [hcalled x hx.2, hmem x (by omega)]
  have hframe : frameAt found (h.cpu.esp - 68) = h.cpu :=
    (frameAt_congr fun x hx hlt => hcalled x (Stacks.Owns.not_kernel hL (t :=
    t) ⟨by omega, by omega⟩)).trans hframe
  obtain ⟨m', place', q', hstep, -, hok', -, -⟩ :=
    hok.call (e := ⟨h.cpu.call, found, true⟩) ⟨huser, fun _ => hidle⟩ rfl
  obtain ⟨k', hk, rfl⟩ := Option.map_eq_some_iff.mp hstep
  have hk' := hk
  rw [← hr.kernel, enter_call hcur' rfl] at hk'
  obtain ⟨⟨r, k⟩, hdis, hset⟩ := Option.map_eq_some_iff.mp hk'
  obtain ⟨val, hval⟩ : ∃ val, toUInt32 r = val := ⟨_, rfl⟩
  have hlt : val < 4294967296 := hval ▸ toUInt32_lt r
  simp only [hval] at hset
  have hreceives : Receives _ k t h.cpu.edx := dispatch_receives hdis
  have haside : h.cpu.eax ≠ 4 → Aside _ k := fun h4 => dispatch_aside h4 hdis
  -- the stacks are not written to, but for the part of it that is in use
  have hstack : ∀ u x, L.Owns u x → (u = t → x < h.cpu.esp) → k.mem x = found x :=
    fun u x hx hbelow => by
    by_cases h4 : h.cpu.eax = 4
    · refine hreceives.mem x ?_
      by_cases hut : u = t
      · subst hut
        exact (hbuf h4).not_below hx (hbelow rfl)
      · exact (hbuf h4).not_other hut hx
    · exact congrFun (haside h4).mem x
  obtain ⟨left, hleft⟩ : ∃ left, k.mem.store32 (h.cpu.esp - 68 + 44) val = left := ⟨_, rfl⟩
  have hstore : ∀ x, ¬Scratch img h.cpu.esp x → left x = k.mem x := fun x hx => by
    rw [Scratch] at hx
    rw [← hleft]
    exact Memory.store32_apply (by omega)
  have hcall : h.kernelCall img frames = some (h.entered t cpu { k' with mem := left } h.irqs) := by
    rw [Hw.kernelCall, interrupt_eax, hsave, ← hset, ← hleft, ← hval]
    show ((h.entered t cpu _ h.irqs).call img frames).handleKernelCall = _
    rw [call_entered]
    simp only [hfound]
    refine handleKernelCall_entered (k := Tasks.save h.kernel t ⟨h.cpu.call, found, true⟩) hcur' ?_
    rw [save_context, if_pos rfl]
    exact hdis
  have hcontext : (k'.ptable t).context = { h.cpu.call with eax := val } := by
    have hk₀ : (k.ptable t).context = h.cpu.call :=
      (hreceives.context t).trans (save_context.trans (if_pos rfl))
    rw [← hset, ← hk₀]
    exact congrArg Task.context modify_same
  have hother : ∀ u, u ≠ t → k'.ptable u = k.ptable u := fun u hu => by
    rw [← hset]
    exact modify_other hu
  have hself : Saved img L (h.entered t cpu { k' with mem := left } h.irqs)
    { h.cpu with eax := val } t := by
    have hat : (h.entered t cpu { k' with mem := left } h.irqs).context t = h.cpu.esp - 68 :=
      Function.update_self ..
    refine ⟨?_, ⟨hvalid.segments, hvalid.index, ?_, hvalid.control⟩, ?_, hroom.2,
      hcontext, fun p hp => ?_⟩
    · rw [hat]
      show frameAt left _ = _
      rw [← hleft, frameAt_store_eax hlt]
      refine congrArg (fun c : Cpu => { c with eax := val })
        ((frameAt_congr fun x hx hlt => ?_).trans hframe)
      exact hstack t x ⟨by omega, by omega⟩ fun _ => by omega
    · exact ⟨hvalid.general.1, hvalid.general.2.1, hvalid.general.2.2.1, hlt⟩
    · rw [hat]
      omega
    · have hp : (k.ptable t).asks = some p := by
        rw [← hp]
        show _ = (k'.ptable t).asks
        rw [← hset]
        exact (congrFun (field_modify_same (f := withEax val) Task.asks rfl) t).symm
      have hbefore : ((Tasks.save h.kernel t ⟨h.cpu.call, found, true⟩).ptable t).asks = none :=
        by rw [save_asks, hnone]
      by_cases h4 : h.cpu.eax = 4
      · rcases hreceives.asks t p hp with hold | ⟨-, hptr⟩
        · cases hbefore.symm.trans hold
        · rw [hptr]
          exact hbuf h4
      · cases hbefore.symm.trans (((haside h4).asks t).symm.trans hp)
  refine ⟨_, ⟨⟨{ k' with mem := left }, true⟩,
    Function.update v.regs t { v.regs t with eax := (k'.ptable t).context.eax }⟩, hcall, ?_, ?_⟩
  · rw [hcpu] at hk
    refine .call huser hcur (fun x hx => ?_) hk fun x hx => ?_
    · rw [hscratch x (by rw [hcpu]; exact hx), hr.kernel]
    · rw [hstore x (by rw [hcpu]; exact hx), ← hset]
      rfl
  · have hidle' : k'.idleTask = h.kernel.idleTask := by
      rw [← hset]
      exact hreceives.idleTask
    have hentered :=
      hr.entered hL hcur hroom ⟨hoff, hesp.le⟩ hr.timer ⟨place', q', hok'.setMem left⟩ hidle' hself
      (fun u hu => by
        show (k'.ptable u).context = _
        rw [hother u hu]
        exact (hreceives.context u).trans (save_context.trans (if_neg hu)))
      (fun u x hu hown hx =>
      (hstore x hx).trans ((hstack u x hown fun he => absurd he hu).trans (hscratch x hx)))
      fun u p hu hp => by
        have hp : (k'.ptable u).asks = some p := hp
        rw [hother u hu] at hp
        rcases hreceives.asks u p hp with hold | ⟨hut, -⟩
        · rwa [save_asks] at hold
        · exact absurd hut hu
    rwa [hcontext, ← hcpu]

-- ---------------------------------------------------------------------------
-- The way out
-- ---------------------------------------------------------------------------

theorem messageDeliver_fst (s : Kernel) (c : Nat) :
    (messageDeliver s c).1 = (s.ptable c).messageFlags.delivering := by
  cases hd : (s.ptable c).messageFlags.delivering with
  | false => exact congrArg Prod.fst (if_pos hd)
  | true => exact congrArg Prod.fst (if_neg (by rw [hd]; decide))

theorem afterContextSwitch_eq {k : Kernel} (hcur : h.kernel.currentTask = some t)
    (hk : Tasks.afterContextSwitch h.kernel = some k) :
    h.afterContextSwitch = some { h with kernel := { k with
      mem := if (h.kernel.ptable t).delivered then k.mem.store32 (h.context t + 44) 0 else
        k.mem } } := by
  rw [Tasks.afterContextSwitch, hcur, Option.map_some] at hk
  rw [Hw.afterContextSwitch, hcur, Task.delivered]
  obtain ⟨⟨b, s⟩, hdeliver⟩ : ∃ r, messageDeliver (h.kernel.modify t clearAfterSwitch) t = r :=
    ⟨_, rfl⟩
  have hb : b = (h.kernel.ptable t).messageFlags.delivering := by
    have hfst := messageDeliver_fst (h.kernel.modify t clearAfterSwitch) t
    rw [hdeliver, modify_same] at hfst
    exact hfst
  rw [← hb]
  change some (if (h.kernel.ptable t).flags.afterSwitch = true then
    if (messageDeliver (h.kernel.modify t clearAfterSwitch) t).1 = true then
      Tasks.setEax (messageDeliver (h.kernel.modify t clearAfterSwitch) t).2 t 0
    else (messageDeliver (h.kernel.modify t clearAfterSwitch) t).2 else h.kernel) = some k at hk
  show (if (h.kernel.ptable t).flags.afterSwitch = true then
    some (if (messageDeliver (h.kernel.modify t clearAfterSwitch) t).1 = true then
      h.setEax (messageDeliver (h.kernel.modify t clearAfterSwitch) t).2 t 0
    else { h with kernel := (messageDeliver (h.kernel.modify t clearAfterSwitch) t).2 }) else
      some h) = _
  rw [hdeliver] at hk ⊢
  rw [← Option.some.inj hk]
  cases (h.kernel.ptable t).flags.afterSwitch with
  | false => rfl
  | true =>
    cases b with
    | false => rfl
    | true => rfl

theorem leave_eq (hp : h.cpu.esp + 68 < 4294967296) :
    h.leave = { h with nestedIntr := h.nestedIntr - 1, cpu := frameAt h.kernel.mem h.cpu.esp } := by
  rw [Hw.leave, popRegs_eq (s := h.core) hp]
  rfl

theorem call_same (h : ∀ x, img.kernelStackBottom ≤ x → x < hw.cpu.esp →
    hw.kernel.mem x = frames x) :
    hw.call img frames = hw := by
  have hmem : (fun x => if img.kernelStackBottom ≤ x ∧ x < hw.cpu.esp then frames x else
    hw.kernel.mem x) =
      hw.kernel.mem := by
    funext x
    split
    · exact (h x (‹_ ∧ _›).1 (‹_ ∧ _›).2).symm
    · rfl
  rw [Hw.call, hmem]

theorem resume_eq (hn : h.nestedIntr = 0)
    (hnext : (scheduler (h.call img frames).kernel).nextTask = some t)
    (hswitch : ({ h.call img frames with kernel := switchTo (h.call img frames).kernel t } :
    Hw).afterContextSwitch =
      some h') :
      h.resume img frames = some ({ h' with cpu := { h'.cpu with esp := h'.context t } } :
        Hw).leave := by
  rw [Hw.resume, if_neg (fun hno => hno hn)]
  refine Option.bind_eq_some_iff.mpr ⟨t, hnext, Option.bind_eq_some_iff.mpr ⟨h', ?_, rfl⟩⟩
  refine (congrArg Hw.afterContextSwitch (call_same fun x hx hlt => ?_)).trans hswitch
  obtain ⟨b, heq⟩ := scheduler_eq (h.call img frames).kernel
  show (scheduler (h.call img frames).kernel).mem x = _
  rw [heq]
  exact if_pos ⟨hx, hlt⟩

theorem Refines.called (hr : Refines img L queued h v) (hL : L.Valid img)
    (hin : v.machine.inKernel = true) (frames : Memory) :
    Refines img L queued (h.call img frames)
      ⟨⟨{ v.machine.kernel with mem := (h.call img frames).kernel.mem }, true⟩, v.regs⟩ := by
  obtain ⟨place, q, hok⟩ := hr.ok
  have hok' := hok.setMem (h.call img frames).kernel.mem
  rw [hin] at hok'
  refine ⟨?_, ?_, fun _ => hr.inside hin, ⟨place, q, hok'⟩, hr.timer,
    fun hno => (nomatch hno), fun t ht => ?_⟩
  · exact congrArg (fun k : Kernel => { k with mem := (h.call img frames).kernel.mem }) hr.kernel
  · rw [show (h.call img frames).nestedIntr = h.nestedIntr from rfl, hr.mode, hin]
  · have hsaved := hr.saved t ⟨ht.1, fun hno => by rw [hin] at hno; cases hno⟩
    exact hsaved.keep rfl rfl (fun x hx => .inl (call_mem (hr.inside hin).2 (hx.not_kernel hL)))
      fun p => id

/-- The switch to the choice of the scheduler and, from its frame, out of the kernel. -/
theorem Refines.switch (hr : Refines img L queued h v) (hL : L.Valid img)
    (hin : v.machine.inKernel = true) :
    ∃ k c left, Tasks.resume v.machine.kernel = some k ∧ k.currentTask = some c ∧
      (scheduler h.kernel).nextTask = some c ∧
      ({ h with kernel := switchTo h.kernel c } : Hw).afterContextSwitch = some { h with kernel :=
      { k with mem := left } } ∧
      h.context c + 68 < 4294967296 ∧
      SameBut (fun x => (v.regs c).esp - 68 ≤ x ∧ x < (v.regs c).esp) k.mem left ∧
      Refines img L queued
        { h with
          kernel := { k with mem := left }
          nestedIntr := h.nestedIntr - 1
          cpu := frameAt left (h.context c) }
        ⟨⟨{ k with mem := left }, false⟩, Function.update v.regs c
          (if (v.machine.kernel.ptable c).delivered then { v.regs c with eax := 0 } else
          v.regs c)⟩ := by
  obtain ⟨place, q, hok⟩ := hr.ok
  obtain ⟨m', c, hstep, -, hok', hrun, -⟩ := hok.resume
  obtain ⟨k, hk, rfl⟩ := Option.map_eq_some_iff.mp hstep
  obtain ⟨c', hcur', hsel, hnext, hafter, hmem⟩ := hok.switch hk
  cases hcur'.symm.trans hrun.current
  have hsaved : Saved img L h (v.regs c) c :=
    hr.saved c ⟨hok.selected hsel, fun hno => by rw [hin] at hno; cases hno⟩
  obtain ⟨-, hpt, hidle, -⟩ := switchTo_spec (c := c) hok.system
  -- the state with the choice of the scheduler as its current task
  rw [← hr.kernel] at hnext hafter hmem hpt hidle
  obtain ⟨s, hs⟩ : ∃ s, switchTo h.kernel c = s := ⟨_, rfl⟩
  have hcur : s.currentTask = some c := by rw [← hs]; rfl
  rw [hs] at hafter hmem hpt hidle
  have hrec : (s.ptable c).messageFlags.receiving = false := by
    rw [hpt, hr.kernel]
    exact hok.system.not_receiving hsel
  have hfoot := afterContextSwitch_footprint hcur hrec hafter
  obtain ⟨d, hd⟩ : ∃ d, (v.machine.kernel.ptable c).delivered = d := ⟨_, rfl⟩
  have hd' : (h.kernel.ptable c).delivered = d := by rw [hr.kernel]; exact hd
  rw [hpt, hd'] at hfoot
  -- the stacks are not written to, but for the part of it that is in use
  have hkept : (∀ u x, L.Owns u x → (u = c → x < (v.regs c).esp) → k.mem x = h.kernel.mem x) ∧
      (∀ u, u ≠ c → (k.ptable u).context = (h.kernel.ptable u).context) ∧
      (∀ u p, u ≠ c → (k.ptable u).asks = some p → (h.kernel.ptable u).asks = some p) ∧
      k.idleTask = h.kernel.idleTask := by
    cases d with
    | false =>
      have haside : Aside s k := hfoot
      refine ⟨fun u x _ _ => ?_, fun u _ => ?_, fun u p _ hp => ?_, haside.idleTask.trans hidle⟩
      · rw [haside.mem, hmem]
      · rw [haside.context, hpt]
      · rwa [haside.asks, hpt] at hp
    | true =>
      obtain ⟨k₁, rfl, hreceives⟩ : ∃ k₁, k = Tasks.setEax k₁ c 0 ∧
        Receives s k₁ c (h.kernel.ptable c).messagePtr := hfoot
      have hbuf : BufferOk img L c (v.regs c).esp (h.kernel.ptable c).messagePtr := by
        refine hsaved.buffer (_, (h.kernel.ptable c).messageRecPid) (if_pos (.inr ?_))
        exact (Bool.and_eq_true_iff.mp hd').2
      have hother : ∀ u, u ≠ c → (Tasks.setEax k₁ c 0).ptable u = k₁.ptable u :=
        fun u hu => modify_other hu
      refine ⟨fun u x hx hbelow => ?_, fun u hu => ?_, fun u p hu hp => ?_,
        hreceives.idleTask.trans hidle⟩
      · refine (hreceives.mem x ?_).trans (congrFun hmem x)
        by_cases huc : u = c
        · subst huc
          exact hbuf.not_below hx (hbelow rfl)
        · exact hbuf.not_other huc hx
      · rw [hother u hu, hreceives.context, hpt]
      · rw [hother u hu] at hp
        rcases hreceives.asks u p hp with hold | ⟨huc, -⟩
        · rwa [hpt] at hold
        · exact absurd huc hu
  obtain ⟨hstack, hview, hasks, hidle'⟩ := hkept
  obtain ⟨left, hleft⟩ : ∃ left, (if d then k.mem.store32 (h.context c + 44) 0 else k.mem) = left :=
    ⟨_, rfl⟩
  have hesp := hsaved.esp
  have hlow : ∀ x, h.context c ≤ x → x < h.context c + 68 → k.mem x = h.kernel.mem x :=
    fun x hx hlt =>
    hstack c x (hsaved.owns hx hlt) fun _ => by omega
  have hframe : frameAt left (h.context c) = if d then { v.regs c with eax := 0 } else
    v.regs c := by
    have hk₀ : frameAt k.mem (h.context c) = v.regs c := (frameAt_congr hlow).trans hsaved.frame
    rw [← hleft]
    split
    · rw [frameAt_store_eax (by decide), hk₀]
    · exact hk₀
  have hstore : ∀ x, x < h.context c + 44 ∨ h.context c + 48 ≤ x → left x = k.mem x :=
    fun x hx => by
    rw [← hleft]
    split
    · exact Memory.store32_apply (by omega)
    · rfl
  have hswitched : ({ h with kernel := switchTo h.kernel c } : Hw).afterContextSwitch =
      some { h with kernel := { k with mem := left } } := by
    rw [hs, afterContextSwitch_eq (h := { h with kernel := s }) hcur hafter, ← hleft]
    show some _ = some _
    rw [hpt, hd']
  have hroom : h.context c + 68 < 4294967296 := by
    have := hsaved.valid.index.2.2.2
    omega
  refine ⟨k, c, left, hk, hrun.current, hnext, hswitched, hroom,
    fun x hx => hstore x (by simp only at hx; omega), ?_⟩
  rw [hd, ← hframe]
  refine ⟨rfl, ?_, fun hno => (nomatch hno), ⟨place, q, hok'.setMem left⟩, hr.timer,
    fun _ t ht => ?_, fun u hu => ?_⟩
  · show h.nestedIntr - 1 = -1
    rw [hr.mode, hin]
    rfl
  · cases hrun.current.symm.trans ht
    refine ⟨?_, ?_⟩
    · show frameAt left (h.context c) = Function.update v.regs c (frameAt left (h.context c)) c
      rw [Function.update_self]
    · show (frameAt left (h.context c)).Valid
      have hv := hsaved.valid
      rw [hframe]
      split
      · exact ⟨hv.segments, hv.index, ⟨hv.general.1, hv.general.2.1, hv.general.2.2.1,
          Nat.zero_lt_succ _⟩, hv.control⟩
      · exact hv
  · have huc : u ≠ c := fun he => hu.2 rfl (he ▸ hrun.current)
    show Saved img L _ (Function.update v.regs c (frameAt left (h.context c)) u) u
    rw [Function.update_of_ne huc]
    have hu₀ : Saved img L h (v.regs u) u := by
      refine hr.saved u ⟨hu.1.imp_right fun hi => ?_, fun hno => by rw [hin] at hno; cases hno⟩
      rw [← hr.kernel, ← hidle']
      exact hi
    refine hu₀.keep rfl (hview u huc) (fun x hx => .inl ?_) fun p => hasks u p huc
    refine (hstore x ?_).trans (hstack u x hx fun he => absurd he huc)
    by_contra hno
    exact huc (Stacks.Owns.unique hL (hsaved.owns (x := x) (by omega) (by omega)) hx)

theorem Refines.resume (hr : Refines img L queued h v) (hL : L.Valid img) (hn : h.nestedIntr = 0)
    (frames : Memory) :
    ∃ h' v', h.resume img frames = some h' ∧ Vm.Step img v (.resume frames) v' ∧
      Refines img L queued h' v' := by
  have hin : v.machine.inKernel = true := by
    cases hno : v.machine.inKernel with
    | true => rfl
    | false => cases (hr.nested hno).symm.trans hn
  have hcalled : SameBut img.OnStack v.machine.kernel.mem (h.call img frames).kernel.mem :=
    fun x hx => by
    rw [call_mem (hr.inside hin).2 hx, hr.kernel]
  obtain ⟨k, c, left, hk, hcur, hnext, hswitched, hroom, hleft, hr'⟩ :=
    (hr.called hL hin frames).switch hL rfl
  refine ⟨_, _, (resume_eq hn hnext hswitched).trans (congrArg some (leave_eq hroom)),
    .resume hin hcalled hk hcur hleft, hr'⟩

-- ---------------------------------------------------------------------------
-- Every step
-- ---------------------------------------------------------------------------

theorem Refines.step (hr : Refines img L queued h v) (himg : img.Valid) (hL : L.Valid img)
    (hmay : a.May img L h) :
    ∃ h' v', h.step img a = some h' ∧ Vm.Step img v a v' ∧ Refines img L queued h' v' := by
  have hrunning : v.machine.inKernel = false → ∃ t, v.machine.kernel.currentTask = some t ∧
    h.kernel.currentTask = some t :=
    fun huser => by
      obtain ⟨place, q, hok⟩ := hr.ok
      obtain ⟨t, hrun⟩ := hok.running huser
      exact ⟨t, hrun.current, by rw [hr.kernel]; exact hrun.current⟩
  cases a with
  | run cpu mem =>
    obtain ⟨hn, hc, -, hmem⟩ := hmay
    have huser := hr.user_of_nested hn
    obtain ⟨t, hcur, hcur'⟩ := hrunning huser
    exact ⟨_, _, rfl, .run huser hcur, hr.goOn huser hcur hc (hmem t hcur') hr.timer⟩
  | irq num isr frames =>
    obtain ⟨hon, hnum, hline, hroom⟩ := hmay
    have huser := hr.user_of_on hon
    obtain ⟨t, hcur, hcur'⟩ := hrunning huser
    rcases hline with hmask | ⟨rfl, hisr⟩
    · cases hr.timer.line hnum hmask
      exact hr.tick himg hL huser hcur (hroom t hcur') isr frames
    · exact hr.spurious hL huser hcur (hroom t hcur') hisr frames
  | kernelCall frames =>
    obtain ⟨hn, hidle, -, hsafe⟩ := hmay
    have huser := hr.user_of_nested hn
    obtain ⟨t, hcur, hcur'⟩ := hrunning huser
    rw [hr.kernel] at hidle
    exact hr.call himg hL huser hcur (hsafe t hcur').1 hidle (hsafe t hcur').2 frames
  | resume frames => exact hr.resume hL hmay frames

end

end ElcoOs.I386
