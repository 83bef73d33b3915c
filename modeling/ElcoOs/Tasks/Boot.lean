import ElcoOs.Tasks.Steps

/-!
# Set-up

The kernel starts in memory that is all zero, with `multitasking_init` and
`clock_setup`, creates tasks and puts them into the ready queues, each once.
-/

namespace ElcoOs.Tasks

def Task.zero : Task :=
  { context := ⟨0, 0, 0⟩
    timerNext := none
    timerExpire := 0
    priority := 0
    nextReady := none
    ticksLeft := 0
    quantum := 0
    messageBuffer := .zero
    messagePtr := 0
    messageFlags := ⟨false, false, false⟩
    messageSendTo := none
    messageRecPid := 0
    messageQHead := none
    messageQNext := none
    pid := 0
    flags := ⟨false, false⟩ }

/-- The variables of the kernel before they are set up, with `n` tasks in the table. -/
def bss (n : Nat) (mem : Memory) : Kernel :=
  { taskCount := n
    ptable := fun _ => .zero
    idleTask := none
    nextTask := none
    currentTask := none
    rescheduleNeeded := false
    pidCount := 0
    queueHead := fun _ => none
    queueTail := fun _ => none
    clockTicks := 0
    nextTimerEvent := none
    mem := mem
    trace := [] }

/-- A kernel on its way to the first `resume`: the tasks created, and those of them that
have been enqueued. -/
inductive SetUp : Kernel → List Nat → List Nat → Prop where
  | init {n : Nat} {mem : Memory} {stack : Bool} {s : Kernel} (h :
    multitaskingInit (bss n mem) stack = some s) :
      SetUp s [] []
  | clock {s : Kernel} {created queued : List Nat} (h :
    SetUp s created queued) : SetUp (clockSetup s) created queued
  | create {s s' : Kernel} {created queued : List Nat} {stack : Bool} {priority : Int} {tsk : Nat}
      (h : SetUp s created queued) (hc : createKernelTask s stack priority = (some tsk, s')) :
      SetUp s' (tsk :: created) queued
  | preemptible {s : Kernel} {created queued : List Nat} {tsk : Nat} {b : Bool} (h :
    SetUp s created queued)
      (ht : tsk ∈ created) : SetUp (setPreemptible s tsk b) created queued
  | enqueue {s s' : Kernel} {created queued : List Nat} {tsk : Nat} (h :
    SetUp s created queued) (ht : tsk ∈ created)
      (hq : tsk ∉ queued) (he : enqueueTask s tsk = some s') : SetUp s' created (tsk :: queued)

structure Blank (t : Task) : Prop where
  messageFlags : t.messageFlags = ⟨false, false, false⟩
  messageQHead : t.messageQHead = none
  afterSwitch : t.flags.afterSwitch = false

structure Fresh (s : Kernel) (created queued : List Nat) (ready : Nat → List Nat) : Prop where
  queues : ReadyOk s ready
  members : ∀ p t, t ∈ ready p ↔ t ∈ queued ∧ prioOf s t = p
  timers : s.nextTimerEvent = none
  needed : s.rescheduleNeeded = true
  blank : ∀ t, Blank (s.ptable t)
  idle : ∃ i, s.idleTask = some i ∧ (s.ptable i).flags.preemptible = false ∧ i ∉ created ∧
    (s.ptable i).pid ≠ pidNoTask
  entries : ∀ t ∈ created, t < s.taskCount ∧ prioOf s t ≤ lowestTaskPriority ∧
    (s.ptable t).pid ≠ pidNoTask
  subset : ∀ t ∈ queued, t ∈ created
  pidCount : 0 ≤ s.pidCount
  clockTicks : s.clockTicks = 0
  trace : s.trace = []

section
variable {s s' : Kernel} {created queued : List Nat} {ready : Nat → List Nat} {t : Nat}
  {stack b : Bool} {prio : Int} {f : Task → Task}

theorem forall_modify {P : Task → Prop} (h : ∀ u, P (s.ptable u))
    (ht : P (f (s.ptable t))) (u : Nat) :
    P ((s.modify t f).ptable u) := by
  by_cases hu : u = t
  · rw [hu, modify_same]
    exact ht
  · rw [modify_other hu]
    exact h u

theorem addTask_same {k : Nat} : (addTask s t k).ptable t = newTask s.pidCount k (s.ptable t) :=
  modify_same

theorem addTask_other {k u : Nat} (hu : u ≠ t) : (addTask s t k).ptable u = s.ptable u :=
  modify_other hu

theorem blank_newTask {pid : Int} {k : Nat} {x : Task} : Blank (newTask pid k x) := ⟨rfl, rfl, rfl⟩

theorem blank_addTask {k : Nat} (h : ∀ u, Blank (s.ptable u)) :
    ∀ u, Blank ((addTask s t k).ptable u) :=
  forall_modify h blank_newTask

theorem createKernelTask_spec (h : createKernelTask s stack prio = (some t, s')) :
    t < s.taskCount ∧ (s.ptable t).pid = pidNoTask ∧ ∃ k, k ≤ lowestTaskPriority ∧
    s' = addTask s t k := by
  unfold createKernelTask at h
  split at h
  · cases h
  · split at h
    · cases h
    · rename_i hprio tsk hfind
      split at h
      · cases h
        have hmem := List.mem_of_find?_eq_some hfind
        have hpid := List.find?_some hfind
        exact ⟨List.mem_range.mp hmem, by simpa using hpid, _, by omega, rfl⟩
      · cases h

theorem blank_clearTable {n : Nat} {mem : Memory} (t : Nat) :
    Blank ((clearTable (bss n mem)).ptable t) := by
  show Blank (if t < n then clearTask Task.zero else Task.zero)
  split
  · exact ⟨rfl, rfl, rfl⟩
  · exact ⟨rfl, rfl, rfl⟩

theorem pid_ne {k : Int} (h : 0 ≤ k) : k ≠ pidNoTask := by
  unfold pidNoTask
  omega

theorem multitaskingInit_queues {s₀ : Kernel} (h : multitaskingInit s₀ stack = some s) :
    (s.queueHead = fun _ => none) ∧ (s.queueTail = fun _ => none) ∧ s.rescheduleNeeded = true := by
  unfold multitaskingInit at h
  split at h
  · cases h
  · rename_i i s₁ hc
    obtain ⟨-, -, k, -, rfl⟩ := createKernelTask_spec hc
    rw [← Option.some.inj h]
    exact ⟨rfl, rfl, rfl⟩

theorem Blank.withPreemptible {x : Task} (h : Blank x) : Blank (withPreemptible b x) :=
  ⟨h.messageFlags, h.messageQHead, h.afterSwitch⟩

theorem Fresh.init {n : Nat} {mem : Memory} (h : multitaskingInit (bss n mem) stack = some s) :
    Fresh s [] [] fun _ => [] := by
  obtain ⟨hhead, htail, hneeded⟩ := multitaskingInit_queues h
  unfold multitaskingInit at h
  split at h
  · cases h
  · rename_i i s₁ hc
    obtain ⟨-, -, k, -, rfl⟩ := createKernelTask_spec hc
    have hs := Option.some.inj h
    have hpt :
      s.ptable =
      ((addTask (clearTable (bss n mem)) i k).modify i (withPreemptible false)).ptable := by
      rw [← hs]
      rfl
    have hself :
      s.ptable i = withPreemptible false (newTask 0 k ((clearTable (bss n mem)).ptable i)) := by
      rw [hpt, modify_same, addTask_same]
      rfl
    refine ⟨⟨fun p => congrFun hhead p, fun p => congrFun htail p, fun p t ht => (nomatch ht)⟩,
      by simp, ?_, hneeded,
      fun t => ?_, ⟨i, ?_, ?_, by simp, ?_⟩, by simp, by simp, ?_, ?_, ?_⟩
    · rw [← hs]
      rfl
    · rw [hpt]
      exact forall_modify (blank_addTask blank_clearTable)
        (by rw [addTask_same]; exact blank_newTask.withPreemptible) t
    · rw [← hs]
      rfl
    · rw [hself]
      rfl
    · rw [hself]
      exact pid_ne (Int.le_refl 0)
    · rw [← hs]
      show (0 : Int) ≤ 0 + 1
      decide
    · rw [← hs]
      rfl
    · rw [← hs]
      rfl

theorem Fresh.clockSetup (h : Fresh s created queued ready) :
    Fresh (clockSetup s) created queued ready :=
  ⟨h.queues.congr rfl rfl (fun _ => rfl) fun _ => rfl, h.members, rfl, h.needed, h.blank, h.idle,
  h.entries, h.subset, h.pidCount, h.clockTicks, h.trace⟩

theorem Fresh.create (h : Fresh s created queued ready)
    (hc : createKernelTask s stack prio = (some t, s')) :
    Fresh s' (t :: created) queued ready := by
  obtain ⟨hlt, hfree, k, hk, rfl⟩ := createKernelTask_spec hc
  have hno : t ∉ created := fun ht => (h.entries t ht).2.2 hfree
  have hcreated : ∀ u ∈ created, (addTask s t k).ptable u = s.ptable u :=
    fun u hu => addTask_other fun he => hno (he ▸ hu)
  have hqueued : ∀ p, ∀ u ∈ ready p, (addTask s t k).ptable u = s.ptable u := fun p u hu =>
    hcreated u (h.subset u ((h.members p u).mp hu).1)
  refine ⟨⟨fun p => ?_, h.queues.tail, fun p u hu => ?_⟩, fun p u => ?_, h.timers, h.needed,
    blank_addTask h.blank, ?_,
    fun u hu => ?_, fun u hu => List.mem_cons_of_mem _ (h.subset u hu),
    Int.add_nonneg h.pidCount (by decide),
    h.clockTicks, h.trace⟩
  · exact (h.queues.links p).congr rfl fun u hu => congrArg Task.nextReady (hqueued p u hu)
  · exact (congrArg Task.priority (hqueued p u hu)).trans (h.queues.prio p u hu)
  · rw [h.members]
    refine and_congr_right fun hu => ?_
    rw [prioOf, prioOf, hcreated u (h.subset u hu)]
  · obtain ⟨i, hi, hp, hni, hpi⟩ := h.idle
    have hit : i ≠ t := by
      rintro rfl
      exact hpi hfree
    refine ⟨i, hi, ?_, by simp [hit, hni], ?_⟩
    · rw [addTask_other hit]
      exact hp
    · rw [addTask_other hit]
      exact hpi
  · rw [prioOf]
    by_cases hut : u = t
    · rw [hut, addTask_same]
      exact ⟨hlt, hk, pid_ne h.pidCount⟩
    · rw [addTask_other hut]
      exact h.entries u ((List.mem_cons.mp hu).resolve_left hut)

theorem Fresh.preemptible (h : Fresh s created queued ready) (ht : t ∈ created) :
    Fresh (setPreemptible s t b) created queued ready := by
  have hprio : prioOf (setPreemptible s t b) = prioOf s :=
    prioOf_modify (f := withPreemptible b) fun _ => rfl
  have hpid : ∀ u, ((setPreemptible s t b).ptable u).pid = (s.ptable u).pid :=
    modify_field (f := withPreemptible b) Task.pid fun _ => rfl
  refine ⟨?_,
    by rw [hprio]; exact h.members, h.timers, h.needed, forall_modify h.blank (h.blank
      t).withPreemptible, ?_,
    fun u hu => ?_, h.subset, h.pidCount, h.clockTicks, h.trace⟩
  · exact h.queues.modify (f := withPreemptible b) (fun _ => rfl) fun _ => rfl
  · obtain ⟨i, hi, hp, hni, hpi⟩ := h.idle
    have hit : i ≠ t := fun he => hni (he ▸ ht)
    refine ⟨i, hi, (congrArg (fun t : Task => t.flags.preemptible) (modify_other hit)).trans hp,
      hni, ?_⟩
    rw [hpid]
    exact hpi
  · rw [hprio, hpid]
    exact h.entries u hu

theorem Fresh.enqueue (h : Fresh s created queued ready) (ht : t ∈ created) (hq : t ∉ queued) :
    ∃ s' ready', enqueueTask s t = some s' ∧ Fresh s' created (t :: queued) ready' := by
  have hno : ∀ p, t ∉ ready p := fun p hp => hq ((h.members p t).mp hp).1
  obtain ⟨s', hres, ho, hneeded, hready⟩ := enqueueTask_spec h.queues hno
  have hprio : prioOf s' = prioOf s := ho.core.prioOf
  refine ⟨s', _, hres, hready, fun p u => ?_, ?_, hneeded, fun u => ⟨?_, ?_, ?_⟩, ?_,
    fun u hu => ?_, fun u hu => ?_, ?_,
    ?_, ?_⟩
  · rw [mem_update, hprio]
    split
    · subst p
      rw [List.mem_append, List.mem_singleton, h.members, List.mem_cons]
      constructor
      · rintro (⟨hu, hp⟩ | rfl)
        · exact ⟨.inr hu, hp⟩
        · exact ⟨.inl rfl, rfl⟩
      · rintro ⟨rfl | hu, hp⟩
        · exact .inr rfl
        · exact .inl ⟨hu, hp⟩
    · rw [h.members, List.mem_cons, or_and_right, iff_or_self]
      rintro ⟨rfl, hp⟩
      exact absurd hp.symm ‹_›
  · exact (congrArg Kernel.nextTimerEvent ho :).trans h.timers
  · exact (ho.field Task.messageFlags (fun _ _ => rfl) u).trans (h.blank u).messageFlags
  · exact (ho.field Task.messageQHead (fun _ _ => rfl) u).trans (h.blank u).messageQHead
  · exact (ho.field (fun t => t.flags.afterSwitch) (fun _ _ => rfl) u).trans (h.blank u).afterSwitch
  · obtain ⟨i, hi, hp, hni, hpi⟩ := h.idle
    refine ⟨i, ho.idleTask.trans hi,
      (ho.field (fun t => t.flags.preemptible) (fun _ _ => rfl) i).trans hp, hni, ?_⟩
    rw [ho.field Task.pid fun _ _ => rfl]
    exact hpi
  · rw [ho.taskCount, hprio, ho.field Task.pid fun _ _ => rfl]
    exact h.entries u hu
  · rcases List.mem_cons.mp hu with rfl | hu
    · exact ht
    · exact h.subset u hu
  · rw [show s'.pidCount = s.pidCount from (congrArg Kernel.pidCount ho :)]
    exact h.pidCount
  · exact ho.clockTicks.trans h.clockTicks
  · exact ho.trace.trans h.trace

theorem SetUp.fresh (h : SetUp s created queued) : ∃ ready, Fresh s created queued ready := by
  induction h with
  | init h => exact ⟨_, .init h⟩
  | clock _ ih => exact ⟨_, ih.choose_spec.clockSetup⟩
  | create _ hc ih => exact ⟨_, ih.choose_spec.create hc⟩
  | preemptible _ ht ih => exact ⟨_, ih.choose_spec.preemptible ht⟩
  | enqueue _ ht hq he ih =>
    obtain ⟨s', ready, hres, h'⟩ := ih.choose_spec.enqueue ht hq
    cases hres.symm.trans he
    exact ⟨ready, h'⟩

theorem Fresh.system (h : Fresh s created queued ready) :
    System s (fun t => if t ∈ queued then .ready else .away) ⟨ready, [], fun _ => []⟩ := by
  have hready : ∀ t, (if t ∈ queued then Place.ready else .away) = .ready ↔
    t ∈ queued := fun t => by simp
  have hplace : ∀ {P : Place}, P ≠ .ready → P ≠ .away →
    ∀ t, ¬(if t ∈ queued then Place.ready else .away) = P := by
    intro P h₁ h₂ t he
    split at he
    · exact h₁ he.symm
    · exact h₂ he.symm
  refine ⟨⟨h.queues, h.timers, fun d => (h.blank d).messageQHead, .inl h.needed⟩,
    ⟨⟨fun p t => ?_, fun t => ?_, fun d t => ?_, fun p => (h.queues.links p).nodup, List.nodup_nil,
    fun _ => List.nodup_nil⟩,
      fun t ht => ?_, fun t => ?_, fun r hr => absurd hr (hplace (by decide) (by decide) r),
      List.Pairwise.nil, ?_, ?_⟩,
    ⟨?_, fun t => ?_, fun d t ht => (nomatch ht), fun d hd => ?_,
    fun d _ _ _ _ t ht => (nomatch ht), fun m c d b hp => ?_,
      fun _ => List.Pairwise.nil⟩⟩
  · exact (h.members p t).trans (and_congr_left' (hready t).symm)
  · exact iff_of_false (fun ht => (nomatch ht)) (hplace (by decide) (by decide) t)
  · exact iff_of_false (fun ht => (nomatch ht)) (hplace (by simp) (by simp) t)
  · by_cases hq : t ∈ queued
    · obtain ⟨hlt, hp, -⟩ := h.entries t (h.subset t hq)
      exact ⟨hlt, hp⟩
    · exact absurd (if_neg hq) ht
  · have hb := h.blank t
    refine ⟨?_, ?_, fun d hd => absurd hd (hplace (by simp) (by simp) t), fun hd => ?_, ?_⟩
    · rw [hb.messageFlags]
      exact (decide_eq_false (hplace (by decide) (by decide) t)).symm
    · rw [hb.messageFlags]
      split <;> rfl
    · rw [hb.messageFlags] at hd
      cases hd
    · rw [hb.messageFlags, hb.afterSwitch]
  · obtain ⟨i, hi, hp, hni, -⟩ := h.idle
    exact ⟨i, hi, if_neg fun hq => hni (h.subset i hq), hp⟩
  · rw [h.clockTicks]
    decide
  · rw [h.trace]
    trivial
  · rw [h.trace]
    refine (if_neg fun ho => ?_).symm
    rw [(h.blank t).messageFlags] at ho
    rcases ho with ho | ho <;> cases ho
  · have hd' : (s.ptable d).messageFlags.delivering = true := hd
    rw [(h.blank d).messageFlags] at hd'
    cases hd'
  · rw [h.trace] at hp
    cases hp.1

end

end ElcoOs.Tasks
