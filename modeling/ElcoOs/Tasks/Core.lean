import ElcoOs.Tasks.Places
import ElcoOs.Tasks.Queues

/-!
# Links and the rest

The links of the tasks and the heads of the lists represent `Lists`; everything
else is the core of a kernel state. The specifications say what a function
makes of the lists and, by a state without list operations, of the core.
-/

namespace ElcoOs.Tasks

-- ---------------------------------------------------------------------------
-- The core
-- ---------------------------------------------------------------------------

def Task.core (t : Task) : Task :=
  { t with nextReady := none, timerNext := none, messageQHead := none, messageQNext := none }

def Kernel.core (s : Kernel) : Kernel :=
  { s with
    ptable := fun t => (s.ptable t).core
    queueHead := fun _ => none
    queueTail := fun _ => none
    rescheduleNeeded := false
    nextTimerEvent := none }

structure SameCore (s s' : Kernel) : Prop where
  eq : s'.core = s.core

section
variable {s s' s'' : Kernel} {t u d : Nat} {f g : Task → Task} {v b : Option Nat}

theorem SameCore.refl (s : Kernel) : SameCore s s := ⟨rfl⟩

theorem SameCore.trans (h : SameCore s s') (h' : SameCore s' s'') : SameCore s s'' :=
  ⟨h'.eq.trans h.eq⟩

theorem OnlySched.core (h : OnlySched s s') : SameCore s s' := ⟨(congrArg Kernel.core h :)⟩

theorem SameCore.field {β : Type} (h : SameCore s s') (g : Task → β) (hg : ∀ x, g x.core = g x)
    (u : Nat) :
    g (s'.ptable u) = g (s.ptable u) := by
  have := congrArg (fun k : Kernel => g (k.ptable u)) h.eq
  simpa only [Kernel.core, hg] using this

theorem SameCore.currentTask (h : SameCore s s') : s'.currentTask = s.currentTask :=
  (congrArg Kernel.currentTask h.eq :)
theorem SameCore.nextTask (h : SameCore s s') : s'.nextTask = s.nextTask :=
  (congrArg Kernel.nextTask h.eq :)
theorem SameCore.idleTask (h : SameCore s s') : s'.idleTask = s.idleTask :=
  (congrArg Kernel.idleTask h.eq :)
theorem SameCore.taskCount (h : SameCore s s') : s'.taskCount = s.taskCount :=
  (congrArg Kernel.taskCount h.eq :)
theorem SameCore.clockTicks (h : SameCore s s') : s'.clockTicks = s.clockTicks :=
  (congrArg Kernel.clockTicks h.eq :)
theorem SameCore.mem (h : SameCore s s') : s'.mem = s.mem := (congrArg Kernel.mem h.eq :)
theorem SameCore.trace (h : SameCore s s') : s'.trace = s.trace := (congrArg Kernel.trace h.eq :)

theorem core_modify (hf : ∀ x, (f x).core = (f x.core).core) (h : ∀ x, (f x).core = (g x).core)
    (hs : SameCore s s') : (s'.modify t f).core = (s.modify t g).core := by
  have hpt : ∀ u, (s'.ptable u).core = (s.ptable u).core := hs.field Task.core fun _ => rfl
  have hrest := hs.eq
  simp only [Kernel.core, Kernel.modify, Kernel.mk.injEq] at hrest ⊢
  refine ⟨hrest.1, funext fun u => ?_, hrest.2.2⟩
  by_cases hu : u = t
  · rw [hu, Function.update_self, Function.update_self, hf, hpt, ← hf, h]
  · rw [Function.update_of_ne hu, Function.update_of_ne hu, hpt]

theorem SameCore.modify (hs : SameCore s s') (hf : ∀ x, (f x).core = (f x.core).core) :
    SameCore (s.modify t f) (s'.modify t f) := ⟨core_modify hf (fun _ => rfl) hs⟩

theorem sameCore_modify (hf : ∀ x, (f x).core = x.core) : SameCore s (s.modify t f) := by
  refine ⟨?_⟩
  simp only [Kernel.core, Kernel.modify, Kernel.mk.injEq, true_and, and_true]
  funext u
  by_cases hu : u = t
  · rw [hu, Function.update_self, hf]
  · rw [Function.update_of_ne hu]

theorem sameCore_setTimerNext : SameCore s (s.setTimerNext t v) := by
  unfold Kernel.setTimerNext
  exact sameCore_modify fun _ => rfl

theorem sameCore_setTimerLink : SameCore s (s.setTimerLink b v) := by
  cases b with
  | none => exact ⟨rfl⟩
  | some x => exact sameCore_setTimerNext

theorem sameCore_popTimer : SameCore s (s.popTimer t) := by
  unfold Kernel.popTimer
  exact (SameCore.mk rfl : SameCore s { s with nextTimerEvent := (s.ptable t).timerNext }).trans
    sameCore_setTimerNext

theorem sameCore_setQNext : SameCore s (s.setQNext t v) := by
  unfold Kernel.setQNext
  exact sameCore_modify fun _ => rfl

theorem sameCore_setInboxLink : SameCore s (s.setInboxLink d b v) := by
  unfold Kernel.setInboxLink Kernel.setQNext
  cases b <;> exact sameCore_modify fun _ => rfl

end

-- ---------------------------------------------------------------------------
-- The lists
-- ---------------------------------------------------------------------------

/-- The links hold these lists, and the scheduler's promise is kept. -/
structure Held (s : Kernel) (q : Lists) : Prop where
  ready : ReadyOk s q.ready
  timers : s.timerLinks.Holds q.timers
  inbox : ∀ d, (s.inboxLinks d).Holds (q.inbox d)
  lazy : Lazy s

section
variable {s s' : Kernel} {q : Lists} {t d : Nat} {f : Task → Task} {xs : List Nat}
  {b v : Option Nat}

structure SameReady (s s' : Kernel) : Prop where
  queueHead : s'.queueHead = s.queueHead
  queueTail : s'.queueTail = s.queueTail
  rescheduleNeeded : s'.rescheduleNeeded = s.rescheduleNeeded
  nextTask : s'.nextTask = s.nextTask
  idleTask : s'.idleTask = s.idleTask
  priority : ∀ t, (s'.ptable t).priority = (s.ptable t).priority
  nextReady : ∀ t, (s'.ptable t).nextReady = (s.ptable t).nextReady

theorem SameReady.trans {s'' : Kernel} (h : SameReady s s') (h' : SameReady s' s'') :
    SameReady s s'' :=
  ⟨h'.queueHead.trans h.queueHead, h'.queueTail.trans h.queueTail,
  h'.rescheduleNeeded.trans h.rescheduleNeeded,
    h'.nextTask.trans h.nextTask, h'.idleTask.trans h.idleTask, fun t =>
    (h'.priority t).trans (h.priority t),
    fun t => (h'.nextReady t).trans (h.nextReady t)⟩

theorem sameReady_modify (hp : ∀ x, (f x).priority = x.priority)
    (hr : ∀ x, (f x).nextReady = x.nextReady) :
    SameReady s (s.modify t f) :=
  ⟨rfl, rfl, rfl, rfl, rfl, modify_field Task.priority hp, modify_field Task.nextReady hr⟩

theorem timerLinks_modify (h : ∀ x, (f x).timerNext = x.timerNext) :
    (s.modify t f).timerLinks = s.timerLinks :=
  congrArg (Links.mk _ ·) (funext (modify_field Task.timerNext h))

theorem inboxLinks_modify (hh : ∀ x, (f x).messageQHead = x.messageQHead)
    (hn : ∀ x, (f x).messageQNext = x.messageQNext) (d : Nat) :
    (s.modify t f).inboxLinks d = s.inboxLinks d :=
  Links.ext (modify_field Task.messageQHead hh d) (funext (modify_field Task.messageQNext hn))

theorem Held.mk' {timers : List Nat} {inbox : Nat → List Nat} (h : Held s q) (hr : SameReady s s')
    (ht : s'.timerLinks.Holds timers) (hi : ∀ d, (s'.inboxLinks d).Holds (inbox d)) :
    Held s' ⟨q.ready, timers, inbox⟩ := by
  refine ⟨h.ready.congr hr.queueHead hr.queueTail hr.nextReady hr.priority, ht, hi, ?_⟩
  rw [Lazy, hr.rescheduleNeeded, hr.nextTask,
    choice_congr (fun p => congrFun hr.queueHead p) hr.idleTask]
  exact h.lazy

theorem Held.modify (h : Held s q) (hp : ∀ x, (f x).priority = x.priority)
    (hr : ∀ x, (f x).nextReady = x.nextReady)
    (ht : ∀ x, (f x).timerNext = x.timerNext) (hh : ∀ x, (f x).messageQHead = x.messageQHead)
    (hn : ∀ x, (f x).messageQNext = x.messageQNext) : Held (s.modify t f) q :=
  h.mk' (sameReady_modify hp hr) (by rw [timerLinks_modify ht]; exact h.timers)
    fun d => by rw [inboxLinks_modify hh hn]; exact h.inbox d

theorem Held.sched {ready : Nat → List Nat} (h : Held s q) (ho : OnlySched s s')
    (hr : ReadyOk s' ready) (hl : Lazy s') : Held s' { q with ready := ready } :=
  ⟨hr, by rw [ho.timerLinks]; exact h.timers, fun d => by rw [ho.inboxLinks]; exact h.inbox d, hl⟩

theorem Held.enqueue (h : Held s q) (hno : ∀ p, t ∉ q.ready p) :
    ∃ s', enqueueTask s t = some s' ∧ Held s' (q.enqueue (s.ptable t).priority t) ∧
      SameCore s s' := by
  obtain ⟨s', hres, ho, hneeded, hr⟩ := enqueueTask_spec h.ready hno
  exact ⟨s', hres, h.sched ho hr (.inl hneeded), ho.core⟩

theorem Held.dequeue (h : Held s q) (hlen : (q.ready (s.ptable t).priority).length < s.rounds) :
    ∃ s', dequeueTask s t = some s' ∧ Held s' (q.dequeue (s.ptable t).priority t) ∧
      SameCore s s' := by
  obtain ⟨s', hres, ho, hl, hr⟩ := dequeueTask_spec h.ready hlen
  exact ⟨s', hres, h.sched ho hr (hl h.lazy), ho.core⟩

-- ---------------------------------------------------------------------------
-- Links of timers and messages
-- ---------------------------------------------------------------------------

theorem sameReady_setTimerNext : SameReady s (s.setTimerNext t v) := by
  unfold Kernel.setTimerNext
  exact sameReady_modify (by intro; rfl) (by intro; rfl)

theorem inboxLinks_setTimerNext : (s.setTimerNext t v).inboxLinks d = s.inboxLinks d := by
  unfold Kernel.setTimerNext
  exact inboxLinks_modify (by intro; rfl) (by intro; rfl) d

theorem sameReady_setTimerLink : SameReady s (s.setTimerLink b v) := by
  cases b with
  | none => exact ⟨rfl, rfl, rfl, rfl, rfl, fun _ => rfl, fun _ => rfl⟩
  | some x => exact sameReady_setTimerNext

theorem inboxLinks_setTimerLink : (s.setTimerLink b v).inboxLinks d = s.inboxLinks d := by
  cases b with
  | none => rfl
  | some x => exact inboxLinks_setTimerNext

theorem setTimerNext_timerNext {u : Nat} :
    ((s.setTimerNext t v).ptable u).timerNext = if u = t then v else (s.ptable u).timerNext := by
  split
  · subst u
    exact congrArg Task.timerNext modify_same
  · exact congrArg Task.timerNext (modify_other ‹_›)

theorem timerLinks_setTimerLink : (s.setTimerLink b v).timerLinks = s.timerLinks.set b v := by
  cases b with
  | none => rfl
  | some x =>
    refine Links.ext rfl (funext fun u => setTimerNext_timerNext.trans ?_)
    exact (Function.update_apply (s.timerLinks.next) x v u).symm

theorem sameReady_setQNext : SameReady s (s.setQNext t v) := by
  unfold Kernel.setQNext
  exact sameReady_modify (by intro; rfl) (by intro; rfl)

theorem timerLinks_setQNext : (s.setQNext t v).timerLinks = s.timerLinks := by
  unfold Kernel.setQNext
  exact timerLinks_modify (by intro; rfl)

theorem sameReady_setInboxLink : SameReady s (s.setInboxLink d b v) := by
  unfold Kernel.setInboxLink Kernel.setQNext
  cases b <;> exact sameReady_modify (by intro; rfl) (by intro; rfl)

theorem timerLinks_setInboxLink : (s.setInboxLink d b v).timerLinks = s.timerLinks := by
  cases b with
  | none =>
    show (s.modify d fun t => { t with messageQHead := v }).timerLinks = _
    exact timerLinks_modify (by intro; rfl)
  | some x =>
    show (s.modify x fun t => { t with messageQNext := v }).timerLinks = _
    exact timerLinks_modify (by intro; rfl)

theorem setQNext_messageQNext {u : Nat} :
    ((s.setQNext t v).ptable u).messageQNext = if u = t then v else (s.ptable u).messageQNext := by
  split
  · subst u
    exact congrArg Task.messageQNext modify_same
  · exact congrArg Task.messageQNext (modify_other ‹_›)

theorem setQNext_messageQHead {u : Nat} : ((s.setQNext t v).ptable u).messageQHead =
    (s.ptable u).messageQHead := by
  unfold Kernel.setQNext
  exact modify_field Task.messageQHead (by intro; rfl) u

theorem setQHead_messageQNext {u : Nat} :
    ((s.setInboxLink d none v).ptable u).messageQNext = (s.ptable u).messageQNext := by
  show ((s.modify d fun t => { t with messageQHead := v }).ptable u).messageQNext = _
  exact modify_field Task.messageQNext (by intro; rfl) u

theorem inboxLinks_setInboxLink : (s.setInboxLink d b v).inboxLinks d =
    (s.inboxLinks d).set b v := by
  cases b with
  | none =>
    refine Links.ext ?_ (funext fun _ => setQHead_messageQNext)
    exact congrArg Task.messageQHead (modify_same (f := fun t => { t with messageQHead := v }))
  | some x =>
    refine Links.ext setQNext_messageQHead (funext fun u => setQNext_messageQNext.trans ?_)
    exact (Function.update_apply (s.inboxLinks d).next x v u).symm

theorem holds_setInboxLink_other {e : Nat} (h : (s.inboxLinks e).Holds xs) (he : e ≠ d)
    (hb : ∀ x ∈ b, x ∉ xs) :
    ((s.setInboxLink d b v).inboxLinks e).Holds xs := by
  cases b with
  | none =>
    refine h.congr ?_ fun _ _ => setQHead_messageQNext
    exact congrArg Task.messageQHead (modify_other (f := fun t => { t with messageQHead := v }) he)
  | some x =>
    refine h.congr setQNext_messageQHead fun t ht =>
      setQNext_messageQNext.trans (if_neg fun hx => ?_)
    exact hb x rfl (hx ▸ ht)

end

end ElcoOs.Tasks
