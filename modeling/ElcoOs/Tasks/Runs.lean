import ElcoOs.Lib.Reach
import ElcoOs.Tasks.Boot

/-!
# Runs of the kernel

After set-up the kernel is left and entered in turn: by ticks, and by calls of
the task that runs unless that is the idle task.
-/

namespace ElcoOs.Tasks

structure Machine where
  kernel : Kernel
  /-- between the way in and the way out -/
  inKernel : Bool

inductive Action where
  | enter (e : Entry)
  | resume

def Machine.step (m : Machine) : Action → Option Machine
  | .enter e => (enter m.kernel e).map (⟨·, true⟩)
  | .resume => (resume m.kernel).map (⟨·, false⟩)

/-- The way in from a task, calls not from the idle task; the way out from the kernel. -/
def Action.May (m : Machine) : Action → Prop
  | .enter e => m.inKernel = false ∧ (e.call = true → m.kernel.currentTask ≠ m.kernel.idleTask)
  | .resume => m.inKernel = true

instance (a : Action) (m : Machine) : Decidable (a.May m) :=
  match a with
  | .enter e =>
    inferInstanceAs (Decidable (m.inKernel = false ∧
    (e.call = true → m.kernel.currentTask ≠ m.kernel.idleTask)))
  | .resume => inferInstanceAs (Decidable (m.inKernel = true))

def Machine.after (m : Machine) (a : Action) : Machine := (m.step a).getD m

def Machine.MayAll (m : Machine) : List Action → Prop
  | [] => True
  | a :: as => a.May m ∧ (m.after a).MayAll as

instance decidableMayAll : (m : Machine) → (as : List Action) → Decidable (m.MayAll as)
  | _, [] => inferInstanceAs (Decidable True)
  | m, a :: as => @instDecidableAnd _ _ _ (decidableMayAll (m.after a) as)

/-- Just before the first `resume`, with these tasks enqueued. -/
def Booted (queued : List Nat) (m : Machine) : Prop := m.inKernel = true ∧
    ∃ created, SetUp m.kernel created queued

/-- The states in a run of the kernel with these tasks. -/
abbrev KernelRun (queued : List Nat) (m : Machine) : Prop :=
  Reach (Booted queued) Machine.step (fun m a _ => a.May m) m

structure MachineOk (queued : List Nat) (m : Machine) (place : Nat → Place) (q : Lists) : Prop where
  system : System m.kernel place q
  started : ∀ t, place t ≠ .away ↔ t ∈ queued
  running : m.inKernel = false → ∃ c, Running m.kernel place q c

section
variable {queued : List Nat} {m m' : Machine} {place place' : Nat → Place} {q q' : Lists}
  {s s' : Kernel} {e : Entry} {a : Action} {t c d : Nat}

-- ---------------------------------------------------------------------------
-- Steps
-- ---------------------------------------------------------------------------

theorem Booted.ok (h : Booted queued m) : ∃ place q, MachineOk queued m place q := by
  obtain ⟨hin, created, hs⟩ := h
  obtain ⟨ready, hfresh⟩ := hs.fresh
  refine ⟨_, _, hfresh.system, fun t => ?_, fun hno => ?_⟩
  · by_cases ht : t ∈ queued <;> simp [ht]
  · rw [hin] at hno
    cases hno

theorem MachineOk.call (h : MachineOk queued m place q) (hmay : (Action.enter e).May m)
    (hcall : e.call = true) :
    ∃ m' place' q', m.step (.enter e) = some m' ∧ m'.inKernel = true ∧
      MachineOk queued m' place' q' ∧
      NoWake m.kernel place m'.kernel place' ∧ Copied m.kernel m'.kernel := by
  obtain ⟨c, hrun⟩ := h.running hmay.1
  have hidle : m.kernel.idleTask ≠ some c := fun hi => hmay.2 hcall (hrun.current.trans hi.symm)
  obtain ⟨s', place', q', hres, hsys, hwake, hcopied⟩ := call_step hrun hcall hidle
  refine ⟨⟨s', true⟩, place', q', by rw [Machine.step, hres]; rfl, rfl, ⟨hsys, fun t => ?_,
    fun hno => (nomatch hno)⟩,
    hwake, hcopied⟩
  exact (not_congr (hwake.away t)).trans (h.started t)

theorem MachineOk.tick (h : MachineOk queued m place q) (hmay : (Action.enter e).May m)
    (hcall : e.call = false) :
    ∃ m' place' q', m.step (.enter e) = some m' ∧ m'.inKernel = true ∧
      MachineOk queued m' place' q' ∧
      TickOk { m.kernel with mem := e.mem } place m'.kernel place' := by
  obtain ⟨c, hrun⟩ := h.running hmay.1
  obtain ⟨s', place', q', hres, hsys, htick⟩ := timer_step hrun hcall
  refine ⟨⟨s', true⟩, place', q', by rw [Machine.step, hres]; rfl, rfl, ⟨hsys, fun t => ?_,
    fun hno => (nomatch hno)⟩, htick⟩
  exact (not_congr (htick.away t)).trans (h.started t)

theorem MachineOk.resume (h : MachineOk queued m place q) :
    ∃ m' c, m.step .resume = some m' ∧ m'.inKernel = false ∧ MachineOk queued m' place q ∧
      Running m'.kernel place q c ∧ m.kernel.choice = some c ∧
      NoWake m.kernel place m'.kernel place ∧
      Copied m.kernel m'.kernel := by
  obtain ⟨s', c, hres, hrun, hchoice, -, hwake, hcopied⟩ := resume_step h.system
  exact ⟨⟨s', false⟩, c, by rw [Machine.step, hres]; rfl, rfl, ⟨hrun.system, h.started,
    fun _ => ⟨c, hrun⟩⟩, hrun, hchoice,
    hwake, hcopied⟩

theorem MachineOk.step (h : MachineOk queued m place q) (hmay : a.May m) :
    ∃ m' place' q', m.step a = some m' ∧ MachineOk queued m' place' q' ∧
      Copied m.kernel m'.kernel := by
  cases a with
  | enter e =>
    cases hcall : e.call with
    | true =>
      obtain ⟨m', place', q', hres, -, hok, -, hcopied⟩ := h.call hmay hcall
      exact ⟨m', place', q', hres, hok, hcopied⟩
    | false =>
      obtain ⟨m', place', q', hres, -, hok, htick⟩ := h.tick hmay hcall
      exact ⟨m', place', q', hres, hok, .same htick.trace⟩
  | resume =>
    obtain ⟨m', c, hres, -, hok, -, -, -, hcopied⟩ := h.resume
    exact ⟨m', place, q, hres, hok, hcopied⟩

theorem KernelRun.ok (h : KernelRun queued m) : ∃ place q, MachineOk queued m place q := by
  induction h with
  | start hb => exact hb.ok
  | step _ hnext hmay ih =>
    obtain ⟨place, q, hok⟩ := ih
    obtain ⟨m₁, place', q', hres, hok', -⟩ := hok.step hmay
    cases hres.symm.trans hnext
    exact ⟨place', q', hok'⟩

theorem MachineOk.after (h : MachineOk queued m place q) (hmay : a.May m) :
    m.step a = some (m.after a) := by
  obtain ⟨m', place', q', hres, -⟩ := h.step hmay
  rw [Machine.after, hres]
  rfl

theorem KernelRun.after (h : KernelRun queued m) (hmay : a.May m) :
    KernelRun queued (m.after a) := by
  obtain ⟨place, q, hok⟩ := h.ok
  exact .step h (hok.after hmay) hmay

theorem KernelRun.through {as : List Action} (h : KernelRun queued m) (hmay : m.MayAll as) :
    KernelRun queued (as.foldl Machine.after m) := by
  induction as generalizing m with
  | nil => exact h
  | cons a as ih => exact ih (h.after hmay.1) hmay.2

end

-- ---------------------------------------------------------------------------
-- One task
-- ---------------------------------------------------------------------------

def idleOnly : Kernel :=
  { setPreemptible
      { addTask (clearTable (bss 2 fun _ => 0)) 0 lowestTaskPriority with idleTask := some 0 }
      0 false with
    rescheduleNeeded := true }

def oneCreated : Kernel := setPreemptible (addTask idleOnly 1 0) 1 false

/-- Besides the idle task there is one task, of the highest priority and not preemptible. -/
def oneTask : Kernel :=
  { oneCreated.setNextReady 1 none with
    queueHead := Function.update oneCreated.queueHead 0 (some 1)
    queueTail := Function.update oneCreated.queueTail 0 (some 1)
    rescheduleNeeded := true }

theorem oneTask_setUp : SetUp oneTask [1] [1] := by
  have h₀ : SetUp idleOnly [] [] :=
    SetUp.init (show multitaskingInit (bss 2 fun _ => 0) true = some idleOnly from rfl)
  have h₁ : SetUp (addTask idleOnly 1 0) [1] [] :=
    h₀.create (show createKernelTask idleOnly true 0 = (some 1, addTask idleOnly 1 0) from rfl)
  have h₂ : SetUp oneCreated [1] [] := h₁.preemptible (by simp)
  exact h₂.enqueue (by simp) (by simp) rfl

theorem oneTask_run : KernelRun [1] ⟨oneTask, true⟩ := .start ⟨rfl, [1], oneTask_setUp⟩

-- ---------------------------------------------------------------------------
-- Four tasks
-- ---------------------------------------------------------------------------

/-- With memory for a table of five entries, the first of which is the idle task's. -/
def fourIdle : Kernel :=
  { setPreemptible
      { addTask (clearTable (bss 5 fun _ => 0)) 0 lowestTaskPriority with idleTask := some 0 }
      0 false with
    rescheduleNeeded := true }

def fourCreated : Kernel := [1, 2, 3, 4].foldl (addTask · · 0) fourIdle

def queueTask (s : Kernel) (tsk : Nat) : Kernel := (enqueueTask s tsk).getD s

def fourTasks : Kernel := [4, 3, 1, 2].foldl queueTask fourCreated

theorem SetUp.addTask {s : Kernel} {created queued : List Nat} {t k : Nat}
    (h : SetUp s created queued) (hk : k ≤ lowestTaskPriority)
    (hfree : (List.range s.taskCount).find? (fun i => (s.ptable i).pid == pidNoTask) = some t) :
    SetUp (Tasks.addTask s t k) (t :: created) queued := by
  refine h.create (show createKernelTask s true k = (some t, Tasks.addTask s t k) from ?_)
  rw [createKernelTask, if_neg (by omega), hfree]
  rfl

theorem SetUp.queueTask {s : Kernel} {created queued : List Nat} {t : Nat}
    (h : SetUp s created queued) (ht : t ∈ created)
    (hq : t ∉ queued) : SetUp (queueTask s t) created (t :: queued) := by
  obtain ⟨ready, hfresh⟩ := h.fresh
  obtain ⟨s', -, hres, -⟩ := hfresh.enqueue ht hq
  have hnext : Tasks.queueTask s t = s' := by
    rw [Tasks.queueTask, hres]
    rfl
  exact hnext ▸ h.enqueue ht hq hres

theorem fourTasks_setUp : SetUp fourTasks [4, 3, 2, 1] [2, 1, 3, 4] := by
  have h₀ : SetUp fourIdle [] [] :=
    SetUp.init (show multitaskingInit (bss 5 fun _ => 0) true = some fourIdle from rfl)
  have h₁ : SetUp (addTask fourIdle 1 0) [1] [] := h₀.addTask (by decide) (by decide +kernel)
  have h₂ := h₁.addTask (t := 2) (k := 0) (by decide) (by decide +kernel)
  have h₃ := h₂.addTask (t := 3) (k := 0) (by decide) (by decide +kernel)
  have h₄ := h₃.addTask (t := 4) (k := 0) (by decide) (by decide +kernel)
  simp only [fourTasks, fourCreated, List.foldl_cons, List.foldl_nil]
  have h₅ := (h₄.queueTask (t := 4) (by decide) (by decide)).queueTask (t :=
    3) (by decide) (by decide)
  exact (h₅.queueTask (by decide) (by decide)).queueTask (by decide) (by decide)

def calls (number : Nat) (arg1 : Int) (arg2 : Nat) : Action :=
  .enter ⟨⟨number, toUInt32 arg1, arg2⟩, fun x => UInt8.ofNat (x % 251), true⟩

/-- Task 4 sleeps, 3 waits with a message in the queue of 1, which waits for one of 2, and 2
runs. -/
def rendezvous : Machine :=
  [.resume, calls 0 100 0, .resume, calls 3 1 0x300, .resume, calls 4 2 0x1000,
  .resume].foldl Machine.after ⟨fourTasks, true⟩

theorem rendezvous_run : KernelRun [2, 1, 3, 4] rendezvous := by
  have h : KernelRun [2, 1, 3, 4] ⟨fourTasks, true⟩ := .start ⟨rfl, _, fourTasks_setUp⟩
  exact h.through (by decide +kernel)

/-- Task 2 has sent its message to 1 and asked for its pid; nothing has changed for the
scheduler. -/
def asksPid : Machine := [calls 3 1 0x400, .resume, calls 2 0 0].foldl Machine.after rendezvous

theorem asksPid_run : KernelRun [2, 1, 3, 4] asksPid := rendezvous_run.through (by decide +kernel)

def sleepsToo : Machine := [.resume, calls 0 50 0].foldl Machine.after asksPid

theorem sleepsToo_run : KernelRun [2, 1, 3, 4] sleepsToo := asksPid_run.through (by decide +kernel)

def answered : Machine := sleepsToo.after .resume

theorem answered_run : KernelRun [2, 1, 3, 4] answered := sleepsToo_run.after (by decide +kernel)

end ElcoOs.Tasks
