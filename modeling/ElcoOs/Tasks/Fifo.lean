import Mathlib.Data.List.Perm.Subperm
import ElcoOs.Tasks.Boot

/-!
# Ready queues as FIFO lists

Whatever lists of tasks the ready queues stand for: a task enqueued comes to
the end of the list of its priority, a task dequeued is taken out of it, and
the lists are again what the heads, links and tails stand for.
-/

namespace ElcoOs.Tasks

/-- The ready queues stand for these lists of tasks of the table. -/
structure Represents (s : Kernel) (ready : Nat → List Nat) : Prop extends Queues s ready where
  bound : ∀ p, ∀ t ∈ ready p, t < s.taskCount

section
variable {s s' : Kernel} {ready : Nat → List Nat} {xs : List Nat} {t c p : Nat}

theorem Represents.short (h : Represents s ready) (p : Nat) : (ready p).length < s.rounds := by
  have hsub : ready p ⊆ List.range s.taskCount := fun t ht => List.mem_range.mpr (h.bound p t ht)
  have hlen := ((h.links p).nodup.subperm hsub).length_le
  rw [List.length_range] at hlen
  exact Nat.lt_succ_of_le hlen

theorem Represents.update (h : Represents s ready) (ho : OnlySched s s')
    (hqueues : Queues s' (Function.update ready p xs)) (hxs : ∀ t ∈ xs, t < s.taskCount) :
    Represents s' (Function.update ready p xs) := by
  refine ⟨hqueues, fun q t ht => ?_⟩
  rw [ho.taskCount]
  by_cases hq : q = p
  · rw [hq, Function.update_self] at ht
    exact hxs t ht
  · rw [Function.update_of_ne hq] at ht
    exact h.bound q t ht

theorem Represents.enqueue (h : Represents s ready) (ht : t < s.taskCount)
    (hno : ∀ p, t ∉ ready p) :
    ∃ s', enqueueTask s t = some s' ∧ OnlySched s s' ∧
      Represents s' (Function.update ready (s.ptable t).priority (ready (s.ptable t).priority ++
      [t])) := by
  obtain ⟨s', hres, ho, -, hqueues⟩ := enqueueTask_queues h.toQueues hno
  refine ⟨s', hres, ho, h.update ho hqueues fun u hu => ?_⟩
  rcases List.mem_append.mp hu with hu | hu
  · exact h.bound _ u hu
  · rwa [List.mem_singleton.mp hu]

theorem Represents.dequeue (h : Represents s ready) (t : Nat) :
    ∃ s', dequeueTask s t = some s' ∧ OnlySched s s' ∧
      Represents s'
        (Function.update ready (s.ptable t).priority ((ready (s.ptable t).priority).erase t)) := by
  obtain ⟨s', hres, ho, -, hqueues⟩ := dequeueTask_queues (t := t) h.toQueues (h.short _)
  exact ⟨s', hres, ho, h.update ho hqueues fun u hu => h.bound _ u (List.mem_of_mem_erase hu)⟩

theorem Represents.preempt (h : Represents s ready) (hcur : s.currentTask = some c)
    (hc : c < s.taskCount) (hno : ∀ p, p ≠ (s.ptable c).priority → c ∉ ready p) :
    ∃ s', preempt s = some s' ∧
      Represents s'
        (Function.update ready (s.ptable c).priority ((ready (s.ptable c).priority).erase c ++
          [c])) := by
  obtain ⟨s₁, hres₁, ho₁, h₁⟩ := h.dequeue c
  have hprio : (s₁.ptable c).priority = (s.ptable c).priority :=
    ho₁.field Task.priority (fun _ _ => rfl) c
  have hout :
    ∀ p, c ∉ Function.update ready (s.ptable c).priority
      ((ready (s.ptable c).priority).erase c) p := by
    intro p
    by_cases hp : p = (s.ptable c).priority
    · rw [hp, Function.update_self]
      exact (h.links _).nodup.not_mem_erase
    · rw [Function.update_of_ne hp]
      exact hno p hp
  obtain ⟨s₂, hres₂, -, h₂⟩ := h₁.enqueue (by rwa [ho₁.taskCount]) hout
  rw [hprio, Function.update_idem, Function.update_self] at h₂
  refine ⟨s₂, ?_, h₂⟩
  rw [Tasks.preempt, hcur, Option.bind_eq_bind, Option.bind_some, hres₁, Option.bind_eq_bind,
    Option.bind_some, hres₂]

end

/-- On every family of ready queues: `enqueue_task` appends a task that is in
no queue to the list of its priority, `dequeue_task` takes a task out of that
list and leaves the lists alone if it is not in there, `preempt` moves the
running task to the end, and all other lists stay. -/
theorem ready_fifo (s : Kernel) (ready : Nat → List Nat) (t : Nat) (h : Represents s ready)
    (ht : t < s.taskCount) :
    ((∀ p, t ∉ ready p) → ∃ s', enqueueTask s t = some s' ∧
      Represents s'
        (Function.update ready (s.ptable t).priority (ready (s.ptable t).priority ++ [t]))) ∧
    (∃ s', dequeueTask s t = some s' ∧
      Represents s'
        (Function.update ready (s.ptable t).priority ((ready (s.ptable t).priority).erase t))) ∧
    (t ∉ ready (s.ptable t).priority → ∃ s', dequeueTask s t = some s' ∧ Represents s' ready) ∧
    (s.currentTask = some t → t ∈ ready (s.ptable t).priority → ∃ s', preempt s = some s' ∧
      Represents s'
        (Function.update ready (s.ptable t).priority ((ready (s.ptable t).priority).erase t ++
          [t]))) := by
  obtain ⟨s', hres, -, hdeq⟩ := h.dequeue t
  refine ⟨fun hno => ?_, ⟨s', hres, hdeq⟩, fun hno => ⟨s', hres, ?_⟩, fun hcur hin => ?_⟩
  · obtain ⟨s', hres, -, henq⟩ := h.enqueue ht hno
    exact ⟨s', hres, henq⟩
  · rwa [List.erase_of_not_mem hno, Function.update_eq_self] at hdeq
  · exact h.preempt hcur ht fun p hp hmem => hp (h.once p _ t hmem hin)

/-- Three tasks of priority 0: the first one runs, it and the second are queued. -/
def twoQueued : Kernel :=
  { bss 3 fun _ => 0 with
    ptable := fun t => { Task.zero with nextReady := if t = 0 then some 1 else none }
    queueHead := fun p => if p = 0 then some 0 else none
    queueTail := fun p => if p = 0 then some 1 else none
    currentTask := some 0 }

def twoReady (p : Nat) : List Nat := if p = 0 then [0, 1] else []

theorem twoQueued_represents : Represents twoQueued twoReady := by
  refine ⟨⟨fun p => ?_, fun p => ?_, fun p q t hp hq => ?_⟩, fun p t ht => ?_⟩
  · by_cases hp : p = 0
    · subst hp
      exact ⟨rfl, rfl, rfl⟩
    · simp [Links.Holds, Kernel.readyLinks, twoQueued, twoReady, hp, Leads]
  · by_cases hp : p = 0
    · subst hp
      rfl
    · simp [twoQueued, twoReady, hp]
  · unfold twoReady at hp hq
    split at hp <;> split at hq <;> simp_all
  · unfold twoReady at ht
    split at ht
    · rcases List.mem_pair.mp ht with rfl | rfl <;> decide
    · simp at ht

theorem ready_fifo_twoQueued :
    ((∀ p, 0 ∉ twoReady p) → ∃ s', enqueueTask twoQueued 0 = some s' ∧
      Represents s' (Function.update twoReady 0 (twoReady 0 ++ [0]))) ∧
    (∃ s', dequeueTask twoQueued 0 = some s' ∧
    Represents s' (Function.update twoReady 0 ((twoReady 0).erase 0))) ∧
    (0 ∉ twoReady 0 → ∃ s', dequeueTask twoQueued 0 = some s' ∧ Represents s' twoReady) ∧
    (twoQueued.currentTask = some 0 → 0 ∈ twoReady 0 → ∃ s', preempt twoQueued = some s' ∧
      Represents s' (Function.update twoReady 0 ((twoReady 0).erase 0 ++ [0]))) :=
  ready_fifo twoQueued twoReady 0 twoQueued_represents (by decide)

end ElcoOs.Tasks
