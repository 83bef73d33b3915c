import ElcoOs.Tasks.Runs

/-!
# The lazy scheduler

`scheduler` scans the ready queues only when it has been told to. In every state
that the ready queues can get into, by whatever order of insertions, removals
and scheduling, it does the same as a scheduler that scans them each time.
-/

namespace ElcoOs.Tasks

/-- The scheduler, made to scan the queues. -/
def eagerScheduler (s : Kernel) : Kernel := scheduler { s with rescheduleNeeded := true }

/-- The head of the non-empty ready queue with the lowest number, or the idle task if all are
empty. -/
def FirstReady (s : Kernel) (t : Option Nat) : Prop :=
  (∃ p ≤ lowestTaskPriority, s.queueHead p = t ∧ t ≠ none ∧ ∀ r < p, s.queueHead r = none) ∨
    (∀ p ≤ lowestTaskPriority, s.queueHead p = none) ∧ t = s.idleTask

/-- The operations on the ready queues, and what happens between them. -/
inductive QueueAction where
  | enqueue (tsk : Nat)
  | dequeue (tsk : Nat)
  /-- the scheduler, and the switch to the task that it has chosen -/
  | schedule
  /-- anything else -/
  | other (s' : Kernel)

def queueStep (s : Kernel) : QueueAction → Option Kernel
  | .enqueue tsk => enqueueTask s tsk
  | .dequeue tsk => dequeueTask s tsk
  | .schedule => some { scheduler s with currentTask := (scheduler s).nextTask }
  | .other s' => some s'

/-- The scheduler's data and the queued tasks' are as they were. -/
structure Elsewhere (s s' : Kernel) : Prop where
  taskCount : s'.taskCount = s.taskCount
  queueHead : s'.queueHead = s.queueHead
  queueTail : s'.queueTail = s.queueTail
  rescheduleNeeded : s'.rescheduleNeeded = s.rescheduleNeeded
  nextTask : s'.nextTask = s.nextTask
  idleTask : s'.idleTask = s.idleTask
  tasks : ∀ p xs, (s.readyLinks p).Holds xs → ∀ t ∈ xs,
    (s'.ptable t).nextReady = (s.ptable t).nextReady ∧
    (s'.ptable t).priority = (s.ptable t).priority

def QueueAction.May (s : Kernel) : QueueAction → Prop
  | .enqueue tsk => tsk < s.taskCount ∧ ∀ p xs, (s.readyLinks p).Holds xs → tsk ∉ xs
  | .other s' => Elsewhere s s'
  | _ => True

abbrev QueueRun (s : Kernel) : Prop :=
  Reach (fun s => ∃ s₀ stack, multitaskingInit s₀ stack = some s) queueStep (fun s a _ => a.May s) s

section
variable {s s' : Kernel} {ready : Nat → List Nat} {a : QueueAction}
  {queued : List Nat} {m : Machine}

-- ---------------------------------------------------------------------------
-- Scanning
-- ---------------------------------------------------------------------------

theorem findSome?_range (head : Nat → Option Nat) (n : Nat) :
    (∃ p < n, head p = (List.range n).findSome? head ∧ (List.range n).findSome? head ≠ none ∧
    ∀ r < p, head r = none) ∨
      (∀ p < n, head p = none) ∧ (List.range n).findSome? head = none := by
  induction n with
  | zero => exact .inr ⟨fun p hp => absurd hp (Nat.not_lt_zero p), rfl⟩
  | succ n ih =>
    rw [List.range_succ, List.findSome?_append]
    rcases ih with ⟨p, hp, hhead, hne, hmin⟩ | ⟨hall, hnone⟩
    · obtain ⟨x, hx⟩ := Option.ne_none_iff_exists'.mp hne
      rw [hx] at hhead ⊢
      exact .inl ⟨p, Nat.lt_succ_of_lt hp, hhead, by simp, hmin⟩
    · rw [hnone, Option.none_or, List.findSome?_singleton]
      by_cases hn : head n = none
      · refine .inr ⟨fun p hp => ?_, hn⟩
        rcases Nat.lt_succ_iff_lt_or_eq.mp hp with hp | rfl
        · exact hall p hp
        · exact hn
      · exact .inl ⟨n, Nat.lt_succ_self n, rfl, hn, hall⟩

theorem firstReady_choice (s : Kernel) : FirstReady s s.choice := by
  unfold Kernel.choice
  rcases findSome?_range s.queueHead (lowestTaskPriority + 1) with
    ⟨p, hp, hhead, hne, hmin⟩ | ⟨hall, hnone⟩
  · obtain ⟨x, hx⟩ := Option.ne_none_iff_exists'.mp hne
    rw [hx] at hhead ⊢
    exact .inl ⟨p, Nat.le_of_lt_succ hp, hhead, by simp, hmin⟩
  · rw [hnone]
    exact .inr ⟨fun p hp => hall p (Nat.lt_succ_of_le hp), rfl⟩

/-- The promise is enough for the whole state. -/
theorem Lazy.eager (h : Lazy s) : scheduler s = eagerScheduler s := by
  unfold eagerScheduler scheduler
  rw [if_pos rfl]
  by_cases hn : s.rescheduleNeeded = true
  · rw [if_pos hn]
  · rw [if_neg hn]
    have hnext := h.resolve_left hn
    have hfalse := Bool.eq_false_iff.mpr hn
    show s = { s with rescheduleNeeded := false, nextTask := s.choice }
    rw [← hnext, ← hfalse]

-- ---------------------------------------------------------------------------
-- Runs
-- ---------------------------------------------------------------------------

/-- The queues hold tasks of the table, and the promise is kept. -/
structure QueuesOk (s : Kernel) (ready : Nat → List Nat) : Prop where
  queues : ReadyOk s ready
  bound : ∀ p, ∀ t ∈ ready p, t < s.taskCount
  promise : Lazy s

theorem QueuesOk.init {s₀ : Kernel} {stack : Bool} (h : multitaskingInit s₀ stack = some s) :
    QueuesOk s fun _ => [] := by
  obtain ⟨hhead, htail, hneeded⟩ := multitaskingInit_queues h
  exact ⟨⟨fun p => congrFun hhead p, fun p => congrFun htail p, fun p t ht => (nomatch ht)⟩,
    fun p t ht => (nomatch ht),
    .inl hneeded⟩

theorem QueuesOk.short (h : QueuesOk s ready) (p : Nat) : (ready p).length < s.rounds := by
  have hsub : ready p ⊆ List.range s.taskCount := fun t ht => List.mem_range.mpr (h.bound p t ht)
  have := ((h.queues.links p).nodup.subperm hsub).length_le
  rw [List.length_range] at this
  exact Nat.lt_succ_of_le this

theorem QueuesOk.step (h : QueuesOk s ready) (hmay : a.May s) :
    ∃ s' ready', queueStep s a = some s' ∧ QueuesOk s' ready' := by
  cases a with
  | enqueue t =>
    have hno : ∀ p, t ∉ ready p := fun p => hmay.2 p (ready p) (h.queues.links p)
    obtain ⟨s', hres, ho, hneeded, hready⟩ := enqueueTask_spec h.queues hno
    refine ⟨s', _, hres, hready, fun p u hu => ?_, .inl hneeded⟩
    rw [ho.taskCount]
    rw [mem_update] at hu
    split at hu
    · rcases List.mem_append.mp hu with hu | hu
      · exact h.bound _ u hu
      · rw [List.mem_singleton.mp hu]
        exact hmay.1
    · exact h.bound p u hu
  | dequeue t =>
    obtain ⟨s', hres, ho, hlazy, hready⟩ := dequeueTask_spec (t := t) h.queues (h.short _)
    refine ⟨s', _, hres, hready, fun p u hu => ?_, hlazy h.promise⟩
    rw [ho.taskCount]
    rw [mem_update] at hu
    split at hu
    · exact h.bound _ u (List.mem_of_mem_erase hu)
    · exact h.bound p u hu
  | schedule =>
    have hl := scheduler_lazy h.promise
    obtain ⟨b, heq⟩ := scheduler_eq s
    rw [queueStep, heq]
    rw [heq] at hl
    exact ⟨_, ready, rfl, h.queues.congr rfl rfl (fun _ => rfl) fun _ => rfl, h.bound, hl⟩
  | other s' =>
    have he : Elsewhere s s' := hmay
    have htasks := fun p => he.tasks p (ready p) (h.queues.links p)
    refine ⟨s', ready, rfl, ⟨fun p => ?_, fun p => ?_, fun p t ht => ?_⟩, fun p t ht => ?_, ?_⟩
    · exact (h.queues.links p).congr (congrFun he.queueHead p) fun t ht => (htasks p t ht).1
    · exact (congrFun he.queueTail p).trans (h.queues.tail p)
    · exact (htasks p t ht).2.trans (h.queues.prio p t ht)
    · rw [he.taskCount]
      exact h.bound p t ht
    · rw [Lazy, he.rescheduleNeeded, he.nextTask, choice_congr (congrFun he.queueHead) he.idleTask]
      exact h.promise

theorem QueueRun.ok (h : QueueRun s) : ∃ ready, QueuesOk s ready := by
  induction h with
  | start hinit =>
    obtain ⟨s₀, stack, hinit⟩ := hinit
    exact ⟨_, .init hinit⟩
  | step _ hnext hmay ih =>
    obtain ⟨ready, hok⟩ := ih
    obtain ⟨s₁, ready', hres, hok'⟩ := hok.step hmay
    cases hres.symm.trans hnext
    exact ⟨ready', hok'⟩

/-- In every state of a run of the ready queues, and of the kernel, the lazy scheduler does what
the eager one does, and chooses the first task that is ready. -/
theorem lazy_eager (h : QueueRun s ∨ ∃ queued inKernel, KernelRun queued ⟨s, inKernel⟩) :
    scheduler s = eagerScheduler s ∧ FirstReady s (scheduler s).nextTask := by
  have hlazy : Lazy s := by
    rcases h with h | ⟨queued, b, h⟩
    · obtain ⟨ready, hok⟩ := QueueRun.ok h
      exact hok.promise
    · obtain ⟨place, q, hok⟩ := KernelRun.ok h
      exact hok.system.held.lazy
  refine ⟨hlazy.eager, ?_⟩
  rw [scheduler_nextTask hlazy]
  exact firstReady_choice s

/-- The queues have not changed since the last scan, and two tasks are ready. -/
theorem lazy_eager_asksPid :
    asksPid.kernel.rescheduleNeeded = false ∧ (asksPid.kernel.readyLinks 0).Holds [2, 1] ∧
      scheduler asksPid.kernel = eagerScheduler asksPid.kernel ∧
      FirstReady asksPid.kernel (scheduler asksPid.kernel).nextTask :=
  ⟨by decide +kernel, by decide +kernel, lazy_eager (.inr ⟨_, true, asksPid_run⟩)⟩

end

end ElcoOs.Tasks
