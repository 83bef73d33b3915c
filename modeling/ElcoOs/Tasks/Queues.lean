import ElcoOs.Tasks.Calls

/-!
# The ready queues

Each queue is a finite list without repetitions whose last element is the tail.
`enqueue_task` and `dequeue_task` append to it and cut out of it, and keep the
promise of the lazy scheduler: unless it is to look again, its choice is still
the right one.
-/

namespace ElcoOs.Tasks

variable {s s' : Kernel} {t u : Nat} {p : Nat} {f : Task → Task} {ready : Nat → List Nat}

-- ---------------------------------------------------------------------------
-- Fields
-- ---------------------------------------------------------------------------

theorem modify_same : (s.modify t f).ptable t = f (s.ptable t) := Function.update_self ..

theorem modify_other (h : u ≠ t) : (s.modify t f).ptable u = s.ptable u :=
  Function.update_of_ne h ..

theorem modify_field {β : Type} (g : Task → β) (hg : ∀ x, g (f x) = g x) (u : Nat) :
    g ((s.modify t f).ptable u) = g (s.ptable u) := by
  by_cases hu : u = t
  · rw [hu, modify_same, hg]
  · rw [modify_other hu]

def Kernel.unsched (s : Kernel) : Kernel :=
  { s with
    ptable := fun t => { s.ptable t with nextReady := none }
    queueHead := fun _ => none
    queueTail := fun _ => none
    rescheduleNeeded := false }

def OnlySched (s s' : Kernel) : Prop := s'.unsched = s.unsched

theorem OnlySched.refl (s : Kernel) : OnlySched s s := rfl

theorem OnlySched.trans {s'' : Kernel} (h : OnlySched s s') (h' : OnlySched s' s'') :
    OnlySched s s'' :=
  Eq.trans h' h

theorem OnlySched.field {β : Type} (h : OnlySched s s') (g : Task → β)
    (hg : ∀ x v, g { x with nextReady := v } = g x)
    (u : Nat) : g (s'.ptable u) = g (s.ptable u) := by
  have := congrArg (fun k : Kernel => g (k.ptable u)) h
  simpa only [Kernel.unsched, hg] using this

theorem OnlySched.idleTask (h : OnlySched s s') : s'.idleTask = s.idleTask :=
  (congrArg Kernel.idleTask h :)
theorem OnlySched.nextTask (h : OnlySched s s') : s'.nextTask = s.nextTask :=
  (congrArg Kernel.nextTask h :)
theorem OnlySched.currentTask (h : OnlySched s s') : s'.currentTask = s.currentTask :=
  (congrArg Kernel.currentTask h :)
theorem OnlySched.taskCount (h : OnlySched s s') : s'.taskCount = s.taskCount :=
  (congrArg Kernel.taskCount h :)
theorem OnlySched.clockTicks (h : OnlySched s s') : s'.clockTicks = s.clockTicks :=
  (congrArg Kernel.clockTicks h :)
theorem OnlySched.trace (h : OnlySched s s') : s'.trace = s.trace := (congrArg Kernel.trace h :)
theorem OnlySched.timerLinks (h : OnlySched s s') : s'.timerLinks = s.timerLinks :=
  (congrArg Kernel.timerLinks h :)
theorem OnlySched.inboxLinks (h : OnlySched s s') (d : Nat) : s'.inboxLinks d = s.inboxLinks d :=
  (congrArg (Kernel.inboxLinks · d) h :)

theorem onlySched_setNextReady {v : Option Nat} : OnlySched s (s.setNextReady t v) := by
  simp only [OnlySched, Kernel.unsched, Kernel.setNextReady, Kernel.modify, Kernel.mk.injEq,
    true_and, and_true]
  funext u
  by_cases hu : u = t
  · rw [hu, Function.update_self]
  · rw [Function.update_of_ne hu]

theorem setNextReady_nextReady {v : Option Nat} :
    ((s.setNextReady t v).ptable u).nextReady = if u = t then v else (s.ptable u).nextReady := by
  split
  · subst u
    exact congrArg Task.nextReady modify_same
  · exact congrArg Task.nextReady (modify_other ‹_›)

theorem readyLinks_setReadyLink {b v : Option Nat} :
    (s.setReadyLink p b v).readyLinks p = (s.readyLinks p).set b v := by
  cases b with
  | none => exact congrArg (Links.mk · _) (Function.update_self ..)
  | some x =>
    refine congrArg (Links.mk _ ·) (funext fun u => ?_)
    rw [Function.update_apply]
    exact setNextReady_nextReady

theorem onlySched_setReadyLink {b v : Option Nat} : OnlySched s (s.setReadyLink p b v) := by
  cases b with
  | none => rfl
  | some x => exact onlySched_setNextReady

-- ---------------------------------------------------------------------------
-- The queues as lists
-- ---------------------------------------------------------------------------

/-- The queues hold these tasks, none of them in two queues. -/
structure Queues (s : Kernel) (ready : Nat → List Nat) : Prop where
  links : ∀ p, (s.readyLinks p).Holds (ready p)
  tail : ∀ p, s.queueTail p = (ready p).getLast?
  once : ∀ p q t, t ∈ ready p → t ∈ ready q → p = q

/-- The queues hold these tasks, each in the queue of its priority. -/
structure ReadyOk (s : Kernel) (ready : Nat → List Nat) : Prop where
  links : ∀ p, (s.readyLinks p).Holds (ready p)
  tail : ∀ p, s.queueTail p = (ready p).getLast?
  prio : ∀ p, ∀ t ∈ ready p, (s.ptable t).priority = p

theorem ReadyOk.congr (h : ReadyOk s ready) (hhead : s'.queueHead = s.queueHead)
    (htail : s'.queueTail = s.queueTail)
    (hnext : ∀ t, (s'.ptable t).nextReady = (s.ptable t).nextReady)
    (hprio : ∀ t, (s'.ptable t).priority = (s.ptable t).priority) : ReadyOk s' ready :=
  ⟨fun p => (h.links p).congr (congrFun hhead p) fun t _ => hnext t,
  fun p => (congrFun htail p).trans (h.tail p),
    fun p t ht => (hprio t).trans (h.prio p t ht)⟩

theorem ReadyOk.modify (h : ReadyOk s ready) (hnext : ∀ x, (f x).nextReady = x.nextReady)
    (hprio : ∀ x, (f x).priority = x.priority) : ReadyOk (s.modify t f) ready :=
  h.congr rfl rfl (modify_field Task.nextReady hnext) (modify_field Task.priority hprio)

theorem ReadyOk.eq (h : ReadyOk s ready) (ht : t ∈ ready p) : p = (s.ptable t).priority :=
  (h.prio p t ht).symm

theorem ReadyOk.queues (h : ReadyOk s ready) : Queues s ready :=
  ⟨h.links, h.tail, fun _ _ _ hp hq => (h.eq hp).trans (h.eq hq).symm⟩

theorem Queues.update (h : Queues s ready) {xs : List Nat} (hlinks : (s'.readyLinks p).Holds xs)
    (htail : s'.queueTail p = xs.getLast?) (honce : ∀ t ∈ xs, ∀ q, q ≠ p → t ∉ ready q)
    (hother : ∀ q, q ≠ p → s'.queueHead q = s.queueHead q ∧ s'.queueTail q = s.queueTail q ∧
      ∀ t ∈ ready q, (s'.ptable t).nextReady = (s.ptable t).nextReady) :
    Queues s' (Function.update ready p xs) := by
  refine ⟨fun q => ?_, fun q => ?_, fun q r t hq hr => ?_⟩
  · by_cases hq : q = p
    · subst hq
      rwa [Function.update_self]
    · rw [Function.update_of_ne hq]
      obtain ⟨hhead, -, hnext⟩ := hother q hq
      exact (h.links q).congr hhead hnext
  · by_cases hq : q = p
    · subst hq
      rwa [Function.update_self]
    · rw [Function.update_of_ne hq, (hother q hq).2.1]
      exact h.tail q
  · by_cases hqp : q = p
    · by_cases hrp : r = p
      · rw [hqp, hrp]
      · rw [hqp, Function.update_self] at hq
        rw [Function.update_of_ne hrp] at hr
        exact absurd hr (honce t hq r hrp)
    · rw [Function.update_of_ne hqp] at hq
      by_cases hrp : r = p
      · rw [hrp, Function.update_self] at hr
        exact absurd hq (honce t hr q hqp)
      · rw [Function.update_of_ne hrp] at hr
        exact h.once q r t hq hr

theorem ReadyOk.update (h : ReadyOk s ready) (ho : OnlySched s s') {xs : List Nat}
    (hprio : ∀ t ∈ xs, (s.ptable t).priority = p)
    (hqueues : Queues s' (Function.update ready p xs)) :
    ReadyOk s' (Function.update ready p xs) := by
  have hp : ∀ t, (s'.ptable t).priority = (s.ptable t).priority :=
    ho.field Task.priority fun _ _ => rfl
  refine ⟨hqueues.links, hqueues.tail, fun q t ht => ?_⟩
  rw [hp]
  by_cases hq : q = p
  · rw [hq, Function.update_self] at ht
    rw [hq, hprio t ht]
  · rw [Function.update_of_ne hq] at ht
    exact h.prio q t ht

-- ---------------------------------------------------------------------------
-- The choice of the scheduler
-- ---------------------------------------------------------------------------

/-- The head of the first queue that is not empty, or the idle task: what a scan of
all queues finds. -/
def Kernel.choice (s : Kernel) : Option Nat :=
  ((List.range (lowestTaskPriority + 1)).findSome? s.queueHead).or s.idleTask

def Lazy (s : Kernel) : Prop := s.rescheduleNeeded = true ∨ s.nextTask = s.choice

theorem choice_congr (hhead : ∀ p, s'.queueHead p = s.queueHead p)
    (hidle : s'.idleTask = s.idleTask) :
    s'.choice = s.choice := by
  rw [Kernel.choice, Kernel.choice, funext hhead, hidle]

theorem scheduler_nextTask (h : Lazy s) : (scheduler s).nextTask = s.choice := by
  unfold scheduler
  split
  · rfl
  · exact h.resolve_left ‹_›

theorem scheduler_lazy (h : Lazy s) : Lazy (scheduler s) := by
  refine .inr ((scheduler_nextTask h).trans ?_)
  unfold scheduler
  split <;> rfl

theorem findSome?_update {head : Nat → Option Nat} {v : Option Nat} (l : List Nat)
    (hp : (head p).isSome)
    (hne : l.findSome? head ≠ head p) : l.findSome? (Function.update head p v) =
    l.findSome? head := by
  induction l with
  | nil => rfl
  | cons i l ih =>
    simp only [List.findSome?_cons] at hne ⊢
    have hi : i ≠ p := by
      rintro rfl
      obtain ⟨x, hx⟩ := Option.isSome_iff_exists.mp hp
      exact hne (by rw [hx])
    rw [Function.update_of_ne hi]
    cases hh : head i with
    | some x => rfl
    | none =>
      rw [hh] at hne
      exact ih hne

theorem choice_update {v : Option Nat} (hp : (s.queueHead p).isSome)
    (hne : s.choice ≠ s.queueHead p)
    (hhead : s'.queueHead = Function.update s.queueHead p v) (hidle : s'.idleTask = s.idleTask) :
    s'.choice = s.choice := by
  rw [Kernel.choice, Kernel.choice, hhead, hidle, findSome?_update _ hp]
  intro he
  obtain ⟨x, hx⟩ := Option.isSome_iff_exists.mp hp
  exact hne (by rw [Kernel.choice, he, hx, Option.some_or])

-- ---------------------------------------------------------------------------
-- enqueue_task
-- ---------------------------------------------------------------------------

theorem enqueueTask_queues (h : Queues s ready) (hno : ∀ p, t ∉ ready p) :
    ∃ s', enqueueTask s t = some s' ∧ OnlySched s s' ∧ s'.rescheduleNeeded = true ∧
      Queues s' (Function.update ready (s.ptable t).priority (ready (s.ptable t).priority ++
      [t])) := by
  generalize hp : (s.ptable t).priority = p
  have ho : OnlySched s (s.setNextReady t none) := onlySched_setNextReady
  have hnext : ∀ u, u ≠ t → ((s.setNextReady t none).ptable u).nextReady = (s.ptable u).nextReady :=
    fun u hu => congrArg Task.nextReady (modify_other hu)
  have h₁ : Queues (s.setNextReady t none) ready :=
    ⟨fun q => (h.links q).congr rfl fun u hu => hnext u fun he => hno q (he ▸ hu), h.tail, h.once⟩
  have honce : ∀ u ∈ ready p ++ [t], ∀ q, q ≠ p → u ∉ ready q := by
    intro u hu q hq huq
    rcases List.mem_append.mp hu with hu | hu
    · exact hq (h.once q p u huq hu)
    · exact hno q (List.mem_singleton.mp hu ▸ huq)
  have hins := (h₁.links p).append (hno p) (congrArg Task.nextReady modify_same)
  have hhead : s.queueHead p = (ready p).head? := (h.links p).head
  rw [enqueueTask, hp]
  rcases List.eq_nil_or_concat (ready p) with hnil | ⟨init, last, hlast⟩
  · rw [hnil] at hins honce hhead ⊢
    rw [if_pos (show (s.setNextReady t none).queueHead p = none from hhead)]
    refine ⟨_, rfl, ho, rfl, h₁.update ?_ ?_ honce fun q hq => ⟨?_, ?_, fun _ _ => rfl⟩⟩
    · exact hins.congr (Function.update_self ..) fun _ _ => rfl
    · exact Function.update_self ..
    · exact Function.update_of_ne hq ..
    · exact Function.update_of_ne hq ..
  · rw [List.concat_eq_append] at hlast
    have htail : (s.setNextReady t none).queueTail p = some last := by
      rw [h₁.tail, hlast, List.getLast?_concat]
    have hne : (s.setNextReady t none).queueHead p ≠ none := by
      intro hnone
      rw [hlast] at hhead
      cases init <;> exact absurd (hhead.symm.trans hnone) (by simp)
    have h₂ :
      OnlySched (s.setNextReady t none) ((s.setNextReady t none).setNextReady last (some t)) :=
      onlySched_setNextReady
    rw [← h₁.tail, htail, ← readyLinks_setReadyLink] at hins
    rw [if_neg hne, htail]
    refine ⟨_, rfl, Eq.trans h₂ ho, rfl, h₁.update ?_ ?_ honce fun q hq =>
      ⟨rfl, ?_, fun u hu => ?_⟩⟩
    · exact hins
    · rw [List.getLast?_concat]
      exact Function.update_self ..
    · exact Function.update_of_ne hq ..
    · refine setNextReady_nextReady.trans (if_neg fun he => hq ?_)
      have hl : last ∈ ready p := by simp [hlast]
      exact h.once q p last (he ▸ hu) hl

theorem enqueueTask_spec (h : ReadyOk s ready) (hno : ∀ p, t ∉ ready p) :
    ∃ s', enqueueTask s t = some s' ∧ OnlySched s s' ∧ s'.rescheduleNeeded = true ∧
      ReadyOk s' (Function.update ready (s.ptable t).priority (ready (s.ptable t).priority ++
      [t])) := by
  obtain ⟨s', hres, ho, hneeded, hqueues⟩ := enqueueTask_queues h.queues hno
  refine ⟨s', hres, ho, hneeded, h.update ho (fun u hu => ?_) hqueues⟩
  rcases List.mem_append.mp hu with hu | hu
  · exact h.prio _ u hu
  · rw [List.mem_singleton.mp hu]

-- ---------------------------------------------------------------------------
-- dequeue_task
-- ---------------------------------------------------------------------------

theorem setReadyLink_other {q : Nat} {b v : Option Nat} (h : Queues s ready) (hq : q ≠ p)
    (hb : ∀ x ∈ b, x ∈ ready p) :
    (s.setReadyLink p b v).queueHead q = s.queueHead q ∧
    (s.setReadyLink p b v).queueTail q = s.queueTail q ∧
      ∀ u ∈ ready q, ((s.setReadyLink p b v).ptable u).nextReady = (s.ptable u).nextReady := by
  cases b with
  | none => exact ⟨Function.update_of_ne hq .., rfl, fun _ _ => rfl⟩
  | some x =>
    refine ⟨rfl, rfl, fun u hu => setNextReady_nextReady.trans (if_neg fun he => hq ?_)⟩
    exact h.once q p x (he ▸ hu) (hb x rfl)

theorem unlinkReady_eq {b : Option Nat} (hp : (s.ptable t).priority = p) :
    let s₂ := (s.setReadyLink p b (s.ptable t).nextReady).setNextReady t none
    unlinkReady s t b = { s₂ with
      queueTail := if s.queueTail p = some t then Function.update s.queueTail p b else s.queueTail
      rescheduleNeeded := if some t = s.currentTask ∨ some t = s.nextTask then true else
        s.rescheduleNeeded } := by
  subst hp
  cases b <;> rfl

theorem unlinkReady_queues {xs ys : List Nat} (h : Queues s ready) (hp : (s.ptable t).priority = p)
    (hxs : ready p = xs ++ t :: ys) :
    OnlySched s (unlinkReady s t xs.getLast?) ∧ (Lazy s → Lazy (unlinkReady s t xs.getLast?)) ∧
      Queues (unlinkReady s t xs.getLast?) (Function.update ready p (xs ++ ys)) := by
  have hlinks := h.links p
  rw [hxs] at hlinks
  have hnd := hlinks.nodup
  have hcut := hlinks.remove
  rw [show (s.readyLinks p).next t = (s.ptable t).nextReady from rfl, ← readyLinks_setReadyLink]
    at hcut
  have ht : t ∉ xs ++ ys := by
    have := (List.nodup_middle.mp hnd)
    exact (List.nodup_cons.mp this).1
  have ho₁ : OnlySched s (s.setReadyLink p xs.getLast? (s.ptable t).nextReady) :=
    onlySched_setReadyLink
  have ho₂ := ho₁.trans (onlySched_setNextReady (t := t) (v := none))
  have hother := fun q hq => setReadyLink_other (v := (s.ptable t).nextReady) (q :=
    q) h hq (b := xs.getLast?)
    fun x hx => by
      rw [hxs]
      exact List.mem_append_left _ (List.mem_of_getLast? hx)
  rw [unlinkReady_eq hp]
  refine ⟨ho₂, fun hlazy => ?_, ?_⟩
  · by_cases hself : some t = s.currentTask ∨ some t = s.nextTask
    · exact .inl (if_pos hself)
    · rcases hlazy with hneeded | hnext
      · exact .inl ((if_neg hself).trans hneeded)
      · refine .inr ((ho₂.nextTask.trans hnext).trans (Eq.symm ?_))
        cases hb : xs.getLast? with
        | some x => exact choice_congr (fun _ => rfl) rfl
        | none =>
          rw [List.getLast?_eq_none_iff.mp hb] at hlinks
          have hhead : s.queueHead p = some t := hlinks.head
          refine choice_update (p := p) (v := (s.ptable t).nextReady) (by simp [hhead])
            (fun he => hself (.inr ?_)) rfl rfl
          rw [hnext, he, hhead]
  · refine h.update ?_ ?_ ?_ fun q hq => ?_
    · exact hcut.congr rfl fun u hu => setNextReady_nextReady.trans (if_neg fun he :
        u = t => ht (he ▸ hu))
    · have htail := h.tail p
      rw [hxs] at htail
      rcases List.eq_nil_or_concat ys with rfl | ⟨init, last, rfl⟩
      · rw [List.getLast?_concat] at htail
        simp [htail]
      · have hne : last ≠ t := fun he => ht (by simp [he])
        have hlast : (xs ++ t :: init.concat last).getLast? = some last := by
          rw [show xs ++ t :: init.concat last = (xs ++ t :: init) ++
            [last] by simp, List.getLast?_concat]
        rw [hlast] at htail
        simp [htail, hne]
    · intro u hu q hq huq
      refine hq (h.once q p u huq ?_)
      rw [hxs]
      exact ((List.sublist_cons_self t ys).append_left xs).subset hu
    · obtain ⟨hhead, htail, hnext⟩ := hother q hq
      refine ⟨hhead, ?_, fun u hu => ?_⟩
      · show (if _ then Function.update s.queueTail p xs.getLast? else s.queueTail) q =
          s.queueTail q
        split
        · exact Function.update_of_ne hq ..
        · rfl
      · refine (setNextReady_nextReady.trans (if_neg fun he : u = t => hq ?_)).trans (hnext u hu)
        exact h.once q p t (he ▸ hu) (by simp [hxs])

theorem dequeueTask_queues (h : Queues s ready)
    (hlen : (ready (s.ptable t).priority).length < s.rounds) :
    ∃ s', dequeueTask s t = some s' ∧ OnlySched s s' ∧ (Lazy s → Lazy s') ∧
      Queues s'
        (Function.update ready (s.ptable t).priority ((ready (s.ptable t).priority).erase t)) := by
  generalize hp : (s.ptable t).priority = p at hlen ⊢
  rw [dequeueTask, hp]
  by_cases ht : t ∈ ready p
  · obtain ⟨xs, ys, hxs, hsplit, herase⟩ := List.exists_erase_eq ht
    have hlinks := h.links p
    rw [hsplit] at hlinks hlen
    have hseek :=
      hlinks.seek_eq (p := (· == t)) (fun x hx => by simpa using fun he : x = t => hxs (he ▸ hx))
        (by simp)
      (k := s.rounds) (by simp only [List.length_append] at hlen; omega)
    obtain ⟨ho, hlazy, hok⟩ := unlinkReady_queues h hp hsplit
    rw [herase]
    exact ⟨_, congrArg (Option.map _) hseek, ho, hlazy, hok⟩
  · have hseek :=
      (h.links p).seek_none (p := (· == t))
      (fun x hx => by simpa using fun he : x = t => ht (he ▸ hx)) hlen
    refine ⟨s, congrArg (Option.map _) hseek, .refl s, id, ?_⟩
    rwa [List.erase_of_not_mem ht, Function.update_eq_self]

theorem dequeueTask_spec (h : ReadyOk s ready)
    (hlen : (ready (s.ptable t).priority).length < s.rounds) :
    ∃ s', dequeueTask s t = some s' ∧ OnlySched s s' ∧ (Lazy s → Lazy s') ∧
      ReadyOk s'
        (Function.update ready (s.ptable t).priority ((ready (s.ptable t).priority).erase t)) := by
  obtain ⟨s', hres, ho, hlazy, hqueues⟩ := dequeueTask_queues h.queues hlen
  exact ⟨s', hres, ho, hlazy,
    h.update ho (fun u hu => h.prio _ u (List.mem_of_mem_erase hu)) hqueues⟩

end ElcoOs.Tasks
