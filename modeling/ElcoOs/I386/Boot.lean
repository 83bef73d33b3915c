import ElcoOs.I386.Simulation

/-!
# Runs from set-up on

After set-up the stacks hold the first contexts of the tasks, and the timer has the
only handler. From there on the machine runs the processors of the tasks, and a task
that was interrupted goes on with the registers it had.
-/

namespace ElcoOs.I386

open Word32 Tasks Interrupts

/-- The stack of `t` is as `create_kernel_task` has left it. -/
def Prepared (L : Stacks) (h : Hw) (t : Nat) : Prop :=
  ∃ (m : Memory) (entryPoint : Nat), entryPoint < 4294967296 ∧
    h.context t = (makeContext m (L.lo t) (L.hi t - L.lo t) entryPoint).1 ∧
    ∀ x, L.Owns t x → h.kernel.mem x = (makeContext m (L.lo t) (L.hi t - L.lo t) entryPoint).2 x

/-- Just before the first `resume`. -/
structure HwBooted (img : Image) (L : Stacks) (queued : List Nat) (h : Hw) : Prop where
  kernel : Booted queued ⟨h.kernel, true⟩
  nested : h.nestedIntr = 0
  inside : h.cpu.eflags.testBit 9 = false ∧ h.cpu.esp ≤ img.kernelStackTop
  irqs : ∃ s, h.irqs = archTimerInit (archInitInterrupts s) 1000 timerCallback
  /-- room for a context, and addresses of 32 bits -/
  room : ∀ t, t ∈ queued ∨ h.kernel.idleTask = some t → L.lo t + intrStackSize ≤ L.hi t ∧
    L.hi t < 4294967296
  prepared : ∀ t, t ∈ queued ∨ h.kernel.idleTask = some t → Prepared L h t

def Hw.start (h : Hw) : Vm := ⟨⟨h.kernel, true⟩, fun t => frameAt h.kernel.mem (h.context t)⟩

abbrev HwRun (img : Image) (L : Stacks) (h : Hw) (as : List HwAction) (h' : Hw) : Prop :=
  Trail (Hw.step img) (fun h a _ => a.May img L h) h as h'

section
variable {img : Image} {L : Stacks} {queued created : List Nat} {h h' h₀ h₁ h₂ : Hw} {v v' : Vm}
  {c : Cpu} {t : Nat} {a : HwAction}
  {as : List HwAction} {s s' k : Kernel} {mach : Machine} {place : Nat → Place} {q : Lists}

-- ---------------------------------------------------------------------------
-- The start
-- ---------------------------------------------------------------------------

theorem archTimerInit_timerOnly (s : Irqs (Kernel → Option Kernel)) :
    TimerOnly (archTimerInit (archInitInterrupts s) 1000 timerCallback) := by
  refine ⟨rfl, ?_, rfl⟩
  obtain ⟨s', hs'⟩ :
    ∃ s', setEntry (outportb (outportb (outportb (archInitInterrupts s) 0x43 0x36) 0x40
    (1193180 / 1000 &&& 0xFF)) 0x40 ((1193180 / 1000) >>> 8 &&& 0xFF)) 0 (some timerCallback) =
    s' := ⟨_, rfl⟩
  have hmask : inportb s' pic0AddrD = 255 := by
    rw [← hs']
    rfl
  show inportb (picClearMask (setEntry _ 0 (some timerCallback)) 0) pic0AddrD = 254
  rw [hs']
  show (inportb s' pic0AddrD &&& not32 (1 <<< 0)) % 256 = 254
  rw [hmask]
  rfl

theorem context_modify {f : Task → Task} (h : ∀ u, (s.ptable u).context = ⟨0, 0, 0⟩)
    (hf : ∀ x, x.context = ⟨0, 0, 0⟩ → (f x).context = ⟨0, 0, 0⟩) :
    ∀ u, ((s.modify t f).ptable u).context = ⟨0, 0, 0⟩ :=
  forall_modify (P := fun x => x.context = ⟨0, 0, 0⟩) h (hf _ (h t))

/-- A new task has zeros in its registers, and so have the entries that are not used. -/
theorem setUp_context (h : SetUp s created queued) : ∀ u, (s.ptable u).context = ⟨0, 0, 0⟩ := by
  induction h with
  | @init n mem stack s h =>
    unfold multitaskingInit at h
    split at h
    · cases h
    · rename_i i s₁ hc
      obtain ⟨-, -, k, -, rfl⟩ := createKernelTask_spec hc
      rw [← Option.some.inj h]
      have hclear : ∀ u, ((clearTable (bss n mem)).ptable u).context = ⟨0, 0, 0⟩ := fun u => by
        show (if u < n then clearTask Task.zero else Task.zero).context = _
        split
        · rfl
        · rfl
      have hadd : ∀ u, ((addTask (clearTable (bss n mem)) i k).ptable u).context = ⟨0, 0, 0⟩ :=
        context_modify hclear fun _ _ => rfl
      exact context_modify (s := { addTask (clearTable (bss n mem)) i k with idleTask := some i })
        hadd fun _ hx => hx
  | clock _ ih => exact ih
  | create _ hc ih =>
    obtain ⟨-, -, k, -, rfl⟩ := createKernelTask_spec hc
    exact context_modify ih fun _ _ => rfl
  | preemptible _ _ ih => exact context_modify ih fun _ hx => hx
  | enqueue _ _ _ he ih => exact fun u => ((enqueueTask_sameCore he).aside.context u).trans (ih u)

theorem freshCpu_valid {sp entryPoint : Nat} (hsp : sp < 4294967296)
    (hentry : entryPoint < 4294967296) :
    (freshCpu sp entryPoint).Valid := by
  refine ⟨?_, ?_, ?_, hentry, ?_⟩
  · simp only [freshCpu]
    decide
  · simp only [freshCpu]
    omega
  · simp only [freshCpu]
    decide
  · simp only [freshCpu]
    decide

theorem Prepared.fresh (h : Prepared L hw t) (hroom : L.lo t + intrStackSize ≤ L.hi t)
    (hhi : L.hi t < 4294967296) :
    ∃ entryPoint, entryPoint < 4294967296 ∧ hw.context t = L.hi t - intrStackSize ∧
      frameAt hw.kernel.mem (hw.context t) = freshCpu (L.hi t) entryPoint := by
  obtain ⟨m, entryPoint, hentry, hat, hmem⟩ := h
  have hend : L.lo t + (L.hi t - L.lo t) = L.hi t := by omega
  obtain ⟨hctx, hframe, -, -⟩ :=
    makeContext_spec m (L.lo t) (L.hi t - L.lo t) entryPoint (by omega) (by omega) hentry
  rw [hend] at hctx hframe
  refine ⟨entryPoint, hentry, hat.trans hctx, ?_⟩
  rw [← hframe, hat]
  refine frameAt_congr fun x hx hlt => hmem x ⟨?_, ?_⟩
  · rw [hctx] at hx
    omega
  · rw [hctx, intrStackSize] at hlt
    rw [intrStackSize] at hroom
    omega

theorem HwBooted.refines (h : HwBooted img L queued hw) : Refines img L queued hw hw.start := by
  obtain ⟨-, created, hset⟩ := h.kernel
  obtain ⟨s, hs⟩ := h.irqs
  obtain ⟨ready, hfresh⟩ := hset.fresh
  refine ⟨rfl, h.nested, fun _ => h.inside, h.kernel.ok, ?_,
    fun hno => (nomatch hno), fun t ht => ?_⟩
  · rw [hs]
    exact archTimerInit_timerOnly s
  · obtain ⟨hroom, hhi⟩ := h.room t ht.1
    obtain ⟨entryPoint, hentry, hctx, hframe⟩ := (h.prepared t ht.1).fresh hroom hhi
    show Saved img L hw (frameAt hw.kernel.mem (hw.context t)) t
    refine ⟨rfl, ?_, ?_, ?_, ?_, fun p hp => ?_⟩
    · rw [hframe]
      exact freshCpu_valid hhi hentry
    · rw [hctx]
      omega
    · rw [hframe]
      exact Nat.sub_le ..
    · rw [hframe]
      exact setUp_context hset t
    · refine absurd hp (by rw [Task.asks, (hfresh.blank t).messageFlags]; simp)

theorem HwBooted.simulated (himg : img.Valid) (hL : L.Valid img) (hb : HwBooted img L queued h)
    (hrun : HwRun img L h as h') :
    ∃ v', Steps (Vm.Step img) h.start as v' ∧ Refines img L queued h' v' :=
  hrun.simulates (fun s a s' t hr hnext hmay => by
    obtain ⟨s₁, v₁, hnext₁, hstep, hr₁⟩ : ∃ h' v', _ ∧ Vm.Step img t a v' ∧
      Refines img L queued h' v' :=
      hr.step himg hL hmay
    cases hnext.symm.trans hnext₁
    exact ⟨v₁, hstep, hr₁⟩) hb.refines

/-- A run of the machine does not get stuck, and the processors of the tasks make the same steps. -/
theorem run_simulated (himg : img.Valid) (hL : L.Valid img) (hb : HwBooted img L queued h)
    (hrun : HwRun img L h as h') :
    (∃ v', Steps (Vm.Step img) h.start as v' ∧ Refines img L queued h' v') ∧
      ∀ a : HwAction, a.May img L h' → ∃ h'', h'.step img a = some h'' := by
  obtain ⟨v', hsteps, hr⟩ := hb.simulated himg hL hrun
  refine ⟨⟨v', hsteps, hr⟩, fun a hmay => ?_⟩
  obtain ⟨h'', v'', hnext, -⟩ := hr.step himg hL hmay
  exact ⟨h'', hnext⟩

theorem messageDeliver_other {u : Nat} (hut : t ≠ u) :
    (messageDeliver s u).2.ptable t = s.ptable t := by
  by_cases hd : (s.ptable u).messageFlags.delivering = false
  · exact congrArg (fun r : Bool × Kernel => r.2.ptable t) (if_pos hd)
  · exact (congrArg (fun r : Bool × Kernel => r.2.ptable t) (if_neg hd)).trans (modify_other hut)

theorem afterContextSwitch_other {u : Nat} (hcur : s.currentTask = some u) (hut : t ≠ u)
    (h : Tasks.afterContextSwitch s = some s') : s'.ptable t = s.ptable t := by
  rw [Tasks.afterContextSwitch, hcur, Option.map_some] at h
  rw [← Option.some.inj h]
  split
  · have hclear : (s.modify u clearAfterSwitch).ptable t = s.ptable t := modify_other hut
    have hdeliver := (messageDeliver_other (s := s.modify u clearAfterSwitch) hut).trans hclear
    simp only
    split
    · exact (modify_other hut).trans hdeliver
    · exact hdeliver
  · rfl

theorem delivered_of_asks {x : Task} (h : x.asks = none) : x.delivered = false := by
  cases hd : x.delivered with
  | false => rfl
  | true =>
    rw [Task.asks, if_pos (.inr (Bool.and_eq_true_iff.mp hd).2)] at h
    cases h

/-- A task that does nothing itself keeps its registers, and no message comes for it. -/
theorem Vm.Step.apart (hstep : Vm.Step img v a v') (hok : MachineOk queued v.machine place q)
    (hnot : v.machine.inKernel = false → v.machine.kernel.currentTask = some t → ∃ num isr frames,
    a = .irq num isr frames)
    (hasks : (v.machine.kernel.ptable t).asks = none) :
    v'.regs t = v.regs t ∧ (v'.machine.kernel.ptable t).asks = none := by
  cases hstep with
  | @run u cpu mem huser hcur =>
    have hut : t ≠ u := fun he => by
      obtain ⟨_, _, _, ha⟩ := hnot huser (he ▸ hcur)
      cases ha
    exact ⟨Function.update_of_ne hut .., hasks⟩
  | @tick u isr frames found k huser hcur hfound hk =>
    refine ⟨rfl, ?_⟩
    show (k.ptable t).asks = none
    rw [(enter_tick_footprint hcur rfl hk).asks, save_asks, hasks]
  | spurious => exact ⟨rfl, hasks⟩
  | @call u frames found left k huser hcur hfound hk hleft =>
    have hut : t ≠ u := fun he => by
      obtain ⟨_, _, _, ha⟩ := hnot huser (he ▸ hcur)
      cases ha
    obtain ⟨k₁, val, rfl, hreceives, -⟩ := enter_call_footprint hcur rfl hk
    refine ⟨Function.update_of_ne hut .., ?_⟩
    show ((Tasks.setEax k₁ u val).ptable t).asks = none
    rw [show (Tasks.setEax k₁ u val).ptable t = k₁.ptable t from modify_other hut]
    refine Option.eq_none_iff_forall_ne_some.mpr fun p hp => ?_
    rcases hreceives.asks t p hp with hold | ⟨he, -⟩
    · cases hasks.symm.trans (save_asks.symm.trans hold)
    · exact hut he
  | @resume u frames found left k hkernel hfound hk hcur hleft =>
    have hok' := hok.setMem found
    by_cases hut : t = u
    · subst hut
      obtain ⟨m', c, hstep, -, -, hrun, -⟩ := hok'.resume
      obtain ⟨k', hk', rfl⟩ := Option.map_eq_some_iff.mp hstep
      cases hk.symm.trans hk'
      cases hcur.symm.trans hrun.current
      refine ⟨?_, hrun.asks_none⟩
      show Function.update v.regs t _ t = v.regs t
      rw [Function.update_self, delivered_of_asks hasks]
      rfl
    · refine ⟨Function.update_of_ne hut .., ?_⟩
      obtain ⟨c, hcur', -, -, hafter, -⟩ := hok'.switch hk
      cases hcur'.symm.trans hcur
      show (k.ptable t).asks = none
      rw [afterContextSwitch_other rfl hut hafter, (switchTo_spec hok'.system).2.1]
      exact hasks

/-- Between two times that a task runs, it has only been interrupted: then it has the same
registers. -/
theorem interrupted_goes_on {h₀ : Hw} {bs : List HwAction} (himg : img.Valid) (hL : L.Valid img)
    (hb : HwBooted img L queued h₀) (hrun : HwRun img L h₀ as h) (hn : h.nestedIntr = -1)
    (hcur : h.kernel.currentTask = some t)
    (haway : Trail (Hw.step img) (fun h a _ => a.May img L h ∧
      (h.nestedIntr = -1 → h.kernel.currentTask = some t → ∃ num isr frames,
      a = .irq num isr frames)) h bs h')
    (hn' : h'.nestedIntr = -1) (hcur' : h'.kernel.currentTask = some t) : h'.cpu = h.cpu := by
  obtain ⟨v, -, hr⟩ := hb.simulated himg hL hrun
  have hkept : ∃ v, Refines img L queued h' v ∧ v.regs t = h.cpu ∧
    (v.machine.kernel.ptable t).asks = none := by
    clear hn' hcur'
    induction haway with
    | nil =>
      have huser := hr.user_of_nested hn
      obtain ⟨place, q, hok, hrunning⟩ := hr.current huser (by rw [← hr.kernel]; exact hcur)
      exact ⟨v, hr, (hr.running huser t hcur).1.symm, hrunning.asks_none⟩
    | @snoc h₁ h₂ bs a _ hnext hmay ih =>
      obtain ⟨v₁, hr₁, hregs, hasks⟩ := ih
      obtain ⟨h₂', v₂, hnext', hstep, hr₂⟩ := hr₁.step himg hL hmay.1
      cases hnext.symm.trans hnext'
      obtain ⟨place, q, hok⟩ := hr₁.ok
      obtain ⟨hregs₂, hasks₂⟩ := hstep.apart hok
        (fun huser hcur₁ => hmay.2 (hr₁.nested huser) (by rw [hr₁.kernel]; exact hcur₁)) hasks
      exact ⟨v₂, hr₂, hregs₂.trans hregs, hasks₂⟩
  obtain ⟨v', hr', hregs, -⟩ := hkept
  rw [← hregs]
  exact (hr'.running (hr'.user_of_nested hn') t hcur').1

end

-- ---------------------------------------------------------------------------
-- Two tasks
-- ---------------------------------------------------------------------------

def twoImage : Image :=
  ⟨⟨fun _ => 0x1000, fun _ => 0x1000, 0x1000⟩, fun _ => 0x1000, 0x8000, 0x9000⟩

def twoStacks : Stacks where
  lo t := if t = 0 then 0x2000 else if t = 1 then 0x3000 else if t = 2 then 0x4000 else 0
  hi t := if t = 0 then 0x2080 else if t = 1 then 0x4000 else if t = 2 then 0x5000 else 0

def idleContext : Nat × Memory := makeContext (fun x => UInt8.ofNat (x % 251)) 0x2000 0x80 0x100
def highContext : Nat × Memory := makeContext idleContext.2 0x3000 0x1000 0x200
def lowContext : Nat × Memory := makeContext highContext.2 0x4000 0x1000 0x300

def twoIdle : Kernel :=
  { setPreemptible
      { addTask (clearTable (bss 3 lowContext.2)) 0 lowestTaskPriority with idleTask := some 0 }
      0 false with
    rescheduleNeeded := true }

def twoTasks : Kernel := queueTask (queueTask (addTask (addTask twoIdle 1 0) 2 1) 1) 2

def twoHw : Hw where
  cpu := { freshCpu 0x9000 0x100 with eflags := 0 }
  kernel := twoTasks
  context t := if t = 0 then idleContext.1 else if t = 1 then highContext.1 else lowContext.1
  nestedIntr := 0
  irqs := archTimerInit (archInitInterrupts ⟨fun _ => 0, fun _ => none⟩) 1000 timerCallback
  exceptionHandlers _ := none

theorem twoImage_valid : twoImage.Valid := by
  have hlt : 0x1000 < 4294967296 := by decide
  exact ⟨⟨fun _ => hlt, fun _ => hlt, hlt⟩, fun _ => hlt⟩

theorem twoStacks_valid : twoStacks.Valid twoImage := by
  refine ⟨fun t u htu => ?_, fun t => ?_, by decide⟩
  · simp only [twoStacks]
    split <;> split <;> (try split) <;> (try split) <;> (try split) <;> (try split) <;> omega
  · simp only [twoStacks, twoImage]
    split <;> (try split) <;> (try split) <;> omega

theorem twoTasks_setUp : SetUp twoTasks [2, 1] [2, 1] := by
  have h₀ : SetUp twoIdle [] [] :=
    SetUp.init (show multitaskingInit (bss 3 lowContext.2) true = some twoIdle from rfl)
  have h₁ : SetUp (addTask twoIdle 1 0) [1] [] := h₀.addTask (by decide) (by decide +kernel)
  have h₂ := h₁.addTask (t := 2) (k := 1) (by decide) (by decide +kernel)
  rw [twoTasks]
  exact (h₂.queueTask (t := 1) (by decide) (by decide)).queueTask (t := 2) (by decide) (by decide)

theorem queueTask_mem : (queueTask s t).mem = s.mem := by
  unfold queueTask
  cases h : enqueueTask s t with
  | none => rfl
  | some s' => exact (enqueueTask_sameCore h).mem

theorem twoTasks_mem : twoTasks.mem = lowContext.2 := by
  rw [twoTasks, queueTask_mem, queueTask_mem]
  rfl

theorem twoHw_booted : HwBooted twoImage twoStacks [2, 1] twoHw := by
  have hsel : ∀ t, t ∈ [2, 1] ∨ twoHw.kernel.idleTask = some t → t = 2 ∨ t = 1 ∨ t = 0 := by
    rintro t (ht | hi)
    · simp only [List.mem_cons, List.not_mem_nil, or_false] at ht
      exact ht.imp_right .inl
    · have hidle : twoHw.kernel.idleTask = some 0 := by decide +kernel
      exact .inr (.inr (Option.some.inj (hi.symm.trans hidle)))
  -- each context is on another stack than those made after it
  have hlow :=
    (makeContext_spec highContext.2 0x4000 0x1000 0x300 (by decide) (by decide) (by decide)).2.2.2
  have hhigh :=
    (makeContext_spec idleContext.2 0x3000 0x1000 0x200 (by decide) (by decide) (by decide)).2.2.2
  refine ⟨⟨rfl, [2, 1], twoTasks_setUp⟩, rfl, by decide, ⟨_, rfl⟩, fun t ht => ?_, fun t ht => ?_⟩
  · rcases hsel t ht with rfl | rfl | rfl
    · decide
    · decide
    · decide
  · rcases hsel t ht with rfl | rfl | rfl
    · exact ⟨highContext.2, 0x300, by decide, rfl, fun x _ => congrFun twoTasks_mem x⟩
    · refine ⟨idleContext.2, 0x200,
        by decide, rfl, fun x hx => (congrFun twoTasks_mem x).trans (hlow x (.inl ?_))⟩
      have hlt : x < 0x4000 := hx.2
      show x < 0x5000 - 76
      omega
    · refine ⟨_, 0x100, by decide, rfl, fun x hx =>
        (congrFun twoTasks_mem x).trans ((hlow x (.inl ?_)).trans (hhigh x (.inl ?_)))⟩
      · have hlt : x < 0x2080 := hx.2
        show x < 0x5000 - 76
        omega
      · have hlt : x < 0x2080 := hx.2
        show x < 0x4000 - 76
        omega

/-- The running task has put the words of a kernel call into its registers. -/
def computes (h : Hw) (eax ecx edx : Nat) : HwAction :=
  .run { h.cpu with eax := eax, ecx := ecx, edx := edx } h.kernel.mem

def junk : Memory := fun _ => 0xAA

namespace Hw

def after (h : Hw) (a : HwAction) : Hw := (h.step twoImage a).getD h

def calls (h : Hw) (eax ecx edx : Nat) : Hw :=
  (h.after (computes h eax ecx edx)).after (.kernelCall junk)

/-- The running task `t` may make a call with a message at `edx`, and the call ends. -/
def CanCall (h : Hw) (t eax ecx edx : Nat) : Prop :=
  (h.nestedIntr = -1 ∧ h.cpu.Valid ∧ h.cpu.cs = gdtRing0Code) ∧
  (eax < 4294967296 ∧ ecx < 4294967296) ∧
    (h.kernel.currentTask = some t ∧ h.kernel.idleTask ≠ some t) ∧
    (twoStacks.lo t + 68 ≤ h.cpu.esp ∧ h.cpu.esp ≤ twoStacks.hi t) ∧
    (0x5000 ≤ edx ∧ edx + messageSize ≤ 0x8000) ∧
    ((h.after (computes h eax ecx edx)).step twoImage (.kernelCall junk)).isSome = true

instance (h : Hw) (t eax ecx edx : Nat) : Decidable (h.CanCall t eax ecx edx) :=
  inferInstanceAs (Decidable (_ ∧ _))

end Hw

section
variable {h h' : Hw} {t eax ecx edx : Nat} {as : List HwAction} {a : HwAction}
  {may : Hw → HwAction → Hw → Prop}

theorem Hw.after_eq (hdone : (h.step twoImage a).isSome = true) :
    h.step twoImage a = some (h.after a) := by
  obtain ⟨h', hstep⟩ := Option.isSome_iff_exists.mp hdone
  rw [Hw.after, hstep]
  rfl

theorem Hw.CanCall.allowed (hc : h.CanCall t eax ecx edx) :
    (computes h eax ecx edx).May twoImage twoStacks h ∧
    (HwAction.kernelCall junk).May twoImage twoStacks (h.after (computes h eax ecx edx)) := by
  obtain ⟨⟨hn, ⟨hs, hi, hg, hctl⟩, hcs⟩, ⟨heax, hecx⟩, ⟨hcur, hidle⟩, hroom, hmessage, -⟩ := hc
  rw [messageSize] at hmessage
  -- the message is on no stack
  have hstack : ∀ u x, edx ≤ x → ¬twoStacks.Owns u x := fun u x hx hown => by
    have hlt := hown.2
    simp only [twoStacks] at hlt
    split at hlt <;> (try split at hlt) <;> (try split at hlt) <;> omega
  have hkernel : ∀ x, edx ≤ x → x < edx + messageSize → ¬twoImage.OnStack x :=
    fun x hx hlt hon => by
    have hbottom : 0x8000 ≤ x := hon.1
    rw [messageSize] at hlt
    omega
  refine ⟨⟨hn, ⟨hs, hi, ⟨hg.1, by show edx < _; omega, hecx, heax⟩, hctl⟩, hcs,
    fun _ _ _ _ _ _ => rfl⟩, hn,
    fun he => hidle (he.symm.trans hcur), fun _ => hkernel, fun u hu => ?_⟩
  cases hcur.symm.trans hu
  exact ⟨hroom, fun _ x hx hlt =>
    ⟨fun u _ => hstack u x hx, fun hown => absurd hown (hstack _ x hx), hkernel x hx hlt⟩⟩

theorem Hw.CanCall.ends (hc : h.CanCall t eax ecx edx) :
    (h.after (computes h eax ecx edx)).step twoImage (.kernelCall junk) =
    some (h.calls eax ecx edx) :=
  after_eq hc.2.2.2.2.2

theorem HwRun.next (hrun : HwRun twoImage twoStacks twoHw as h) (hmay : a.May twoImage twoStacks h)
    (hdone : (h.step twoImage a).isSome = true) : HwRun twoImage twoStacks twoHw (as ++ [a])
    (h.after a) :=
  .snoc hrun (Hw.after_eq hdone) hmay

theorem HwRun.calls (hrun : HwRun twoImage twoStacks twoHw as h) (hc : h.CanCall t eax ecx edx) :
    HwRun twoImage twoStacks twoHw (as ++ [computes h eax ecx edx] ++ [.kernelCall junk])
      (h.calls eax ecx edx) :=
  .snoc (hrun.next hc.allowed.1 rfl) hc.ends hc.allowed.2

end

def highRuns : Hw := twoHw.after (.resume junk)

theorem highRuns_run : HwRun twoImage twoStacks twoHw [.resume junk] highRuns :=
  HwRun.next .nil (show twoHw.nestedIntr = 0 from rfl) (by decide +kernel)

def lowRuns : Hw := (highRuns.calls 4 2 0x6000).after (.resume junk)

def lowSends : Hw := lowRuns.calls 3 1 0x7000

theorem lowSends_run : ∃ as, HwRun twoImage twoStacks twoHw as lowSends := by
  have hwaits := highRuns_run.calls (show highRuns.CanCall 1 4 2 0x6000 by decide +kernel)
  have hruns :=
    hwaits.next (a := .resume junk) (show (highRuns.calls 4 2 0x6000).nestedIntr =
      0 by decide +kernel)
    (by decide +kernel)
  exact ⟨_, hruns.calls (show lowRuns.CanCall 2 3 1 0x7000 by decide +kernel)⟩

/-- The message has been sent, and the run goes on. -/
theorem run_simulated_lowSends : ∃ as, HwRun twoImage twoStacks twoHw as lowSends ∧
    (∃ v, Steps (Vm.Step twoImage) twoHw.start as v ∧
    Refines twoImage twoStacks [2, 1] lowSends v) ∧
    ∀ a : HwAction, a.May twoImage twoStacks lowSends →
      ∃ h', lowSends.step twoImage a = some h' := by
  obtain ⟨as, hrun⟩ := lowSends_run
  exact ⟨as, hrun, run_simulated twoImage_valid twoStacks_valid twoHw_booted hrun⟩

def highSleeps : Hw := (highRuns.calls 0 2 0x6000).after (.resume junk)

def Hw.ticks (h : Hw) : Hw := (h.after (.irq 0 0 junk)).after (.resume junk)

/-- The timer may interrupt the running task `t`. -/
def Hw.CanTick (h : Hw) (t : Nat) : Prop :=
  (h.cpu.eflags.testBit 9 = true ∧ (inportb h.irqs (ownerPort 0)).testBit (0 % 8) = false) ∧
    h.kernel.currentTask = some t ∧ (twoStacks.lo t + 68 ≤ h.cpu.esp ∧ h.cpu.esp ≤ twoStacks.hi t) ∧
    (h.step twoImage (.irq 0 0 junk)).isSome = true ∧ (h.after (.irq 0 0 junk)).nestedIntr = 0 ∧
    ((h.after (.irq 0 0 junk)).step twoImage (.resume junk)).isSome = true

instance (h : Hw) (t : Nat) : Decidable (h.CanTick t) := inferInstanceAs (Decidable (_ ∧ _))

/-- The steps of a run in which `t` is only interrupted. -/
abbrev OnlyInterrupted (t : Nat) (h : Hw) (a : HwAction) (_ : Hw) : Prop :=
  a.May twoImage twoStacks h ∧ (h.nestedIntr = -1 → h.kernel.currentTask = some t →
  ∃ num isr frames, a = .irq num isr frames)

theorem Hw.CanTick.through {h₀ h : Hw} {t : Nat} {as : List HwAction} (hc : h.CanTick t)
    (htrail : Trail (Hw.step twoImage) (OnlyInterrupted t) h₀ as h) :
    Trail (Hw.step twoImage) (OnlyInterrupted t) h₀ (as ++ [.irq 0 0 junk] ++
    [.resume junk]) h.ticks := by
  obtain ⟨⟨hon, hmask⟩, hcur, hroom, hirq, hnested, hresume⟩ := hc
  have hmay : (HwAction.irq 0 0 junk).May twoImage twoStacks h := by
    refine ⟨hon, by decide, .inl hmask, fun u hu => ?_⟩
    cases hcur.symm.trans hu
    exact hroom
  refine .snoc (.snoc htrail (after_eq hirq) ⟨hmay, fun _ _ => ⟨0, 0, junk, rfl⟩⟩)
    (after_eq hresume)
    ⟨hnested, fun hn => ?_⟩
  cases hnested.symm.trans hn

/-- After the second tick task 1 runs in the middle of it, and sleeps again. -/
def highSleepsAgain : Hw := (highSleeps.ticks.ticks.calls 0 2 0x6000).after (.resume junk)

theorem highSleepsAgain_trail : ∃ bs, Trail (Hw.step twoImage)
    (OnlyInterrupted 2) highSleeps bs highSleepsAgain := by
  have hone := Hw.CanTick.through (show highSleeps.CanTick 2 by decide +kernel) .nil
  have htwo := Hw.CanTick.through (show highSleeps.ticks.CanTick 2 by decide +kernel) hone
  obtain ⟨h, hh⟩ : ∃ h, highSleeps.ticks.ticks = h := ⟨_, rfl⟩
  have hcall : highSleeps.ticks.ticks.CanCall 1 0 2 0x6000 := by decide +kernel
  have hback : (highSleeps.ticks.ticks.calls 0 2 0x6000).nestedIntr = 0 ∧
      ((highSleeps.ticks.ticks.calls 0 2 0x6000).step twoImage (.resume junk)).isSome = true :=
      by decide +kernel
  rw [highSleepsAgain]
  rw [hh] at htwo hcall hback ⊢
  -- task 1 runs
  have hother : h.kernel.currentTask ≠ some 2 := fun he => by
    cases hcall.2.2.1.1.symm.trans he
  have hset : (h.after (computes h 0 2 0x6000)).kernel.currentTask ≠ some 2 := hother
  have hcomputes := htwo.snoc (Hw.after_eq rfl) ⟨hcall.allowed.1, fun _ he => absurd he hother⟩
  have hcalls := hcomputes.snoc hcall.ends ⟨hcall.allowed.2, fun _ he => absurd he hset⟩
  refine ⟨_, hcalls.snoc (Hw.after_eq hback.2) ⟨hback.1, fun hn => ?_⟩⟩
  cases hback.1.symm.trans hn

theorem interrupted_goes_on_highSleeps : highSleeps.kernel.currentTask = some 2 ∧
    highSleeps.ticks.ticks.kernel.currentTask = some 1 ∧ highSleepsAgain.cpu = highSleeps.cpu := by
  have hsleeps := highRuns_run.calls (show highRuns.CanCall 1 0 2 0x6000 by decide +kernel)
  have hruns : HwRun twoImage twoStacks twoHw _ highSleeps :=
    hsleeps.next (a := .resume junk) (show (highRuns.calls 0 2 0x6000).nestedIntr = 0 by
      decide +kernel) (by decide +kernel)
  have hcur : highSleeps.kernel.currentTask = some 2 ∧ highSleeps.nestedIntr = -1 :=
    by decide +kernel
  have hback : highSleepsAgain.kernel.currentTask = some 2 ∧ highSleepsAgain.nestedIntr = -1 :=
    by decide +kernel
  obtain ⟨bs, haway⟩ := highSleepsAgain_trail
  exact ⟨hcur.1, by decide +kernel,
    interrupted_goes_on twoImage_valid twoStacks_valid twoHw_booted hruns hcur.2 hcur.1
    haway hback.2 hback.1⟩

end ElcoOs.I386
