import ElcoOs.Tasks.Runs

/-!
# What the kernel leaves alone

The registers of the tasks and their memory are touched by few functions: the
queues and the timers never look at them. Only the calls that receive a message
write to the memory of a task, and only to the buffer they were given.
-/

namespace ElcoOs.Tasks

/-- Neither the memory nor a saved register nor a receive call has changed. -/
structure Aside (s s' : Kernel) : Prop where
  mem : s'.mem = s.mem
  currentTask : s'.currentTask = s.currentTask
  idleTask : s'.idleTask = s.idleTask
  context : ∀ t, (s'.ptable t).context = (s.ptable t).context
  asks : ∀ t, (s'.ptable t).asks = (s.ptable t).asks

/-- A receive call of `c` with a buffer at `ptr`: a message may have been copied there,
or `c` waits for one. -/
structure Receives (s s' : Kernel) (c ptr : Nat) : Prop where
  mem : ∀ x, x < ptr ∨ ptr + messageSize ≤ x → s'.mem x = s.mem x
  currentTask : s'.currentTask = s.currentTask
  idleTask : s'.idleTask = s.idleTask
  context : ∀ t, (s'.ptable t).context = (s.ptable t).context
  asks : ∀ t p, (s'.ptable t).asks = some p → (s.ptable t).asks = some p ∨ t = c ∧ p.1 = ptr

section
variable {s s' s'' : Kernel} {t u c d ptr fuel : Nat} {f : Task → Task} {v b : Option Nat}
  {m : Message} {pid ms : Int} {cx : Context} {r : Int × Kernel} {e : Entry}

theorem Aside.refl (s : Kernel) : Aside s s := ⟨rfl, rfl, rfl, fun _ => rfl, fun _ => rfl⟩

theorem Aside.trans (h : Aside s s') (h' : Aside s' s'') : Aside s s'' :=
  ⟨h'.mem.trans h.mem, h'.currentTask.trans h.currentTask, h'.idleTask.trans h.idleTask,
    fun t => (h'.context t).trans (h.context t), fun t => (h'.asks t).trans (h.asks t)⟩

theorem SameCore.aside (h : SameCore s s') : Aside s s' :=
  ⟨h.mem, h.currentTask, h.idleTask, h.field Task.context fun _ => rfl,
  h.field Task.asks fun _ => rfl⟩

theorem aside_modify (hcx : ∀ x, (f x).context = x.context)
    (ha : (f (s.ptable t)).asks = (s.ptable t).asks) :
    Aside s (s.modify t f) :=
  ⟨rfl, rfl, rfl, modify_field Task.context hcx,
  fun u => congrFun (field_modify_same Task.asks ha) u⟩

theorem Aside.receives (h : Aside s s') : Receives s s' c ptr :=
  ⟨fun _ _ => congrFun h.mem _, h.currentTask, h.idleTask, h.context,
  fun t _ hp => .inl ((h.asks t).symm.trans hp)⟩

theorem Receives.aside (h : Receives s s' c ptr) (h' : Aside s' s'') : Receives s s'' c ptr :=
  ⟨fun x hx => (congrFun h'.mem x).trans (h.mem x hx), h'.currentTask.trans h.currentTask,
  h'.idleTask.trans h.idleTask,
    fun t => (h'.context t).trans (h.context t), fun t p hp =>
    h.asks t p ((h'.asks t).symm.trans hp)⟩

-- ---------------------------------------------------------------------------
-- Queues and timers
-- ---------------------------------------------------------------------------

theorem enqueueTask_sameCore (h : enqueueTask s t = some s') : SameCore s s' := by
  unfold enqueueTask at h
  obtain ⟨s₁, hq, rfl⟩ := Option.map_eq_some_iff.mp h
  have h₀ : OnlySched s (s.setNextReady t none) := onlySched_setNextReady
  split at hq
  · cases hq
    refine (h₀.trans ?_).core
    rfl
  · obtain ⟨tail, -, rfl⟩ := Option.map_eq_some_iff.mp hq
    refine ((h₀.trans (onlySched_setNextReady (t := tail) (v := some t))).trans ?_).core
    rfl

theorem dequeueTask_sameCore (h : dequeueTask s t = some s') : SameCore s s' := by
  unfold dequeueTask at h
  obtain ⟨⟨prev, cur⟩, -, rfl⟩ := Option.map_eq_some_iff.mp h
  show SameCore s (if cur = none then s else unlinkReady s t prev)
  by_cases hcur : cur = none
  · rw [if_pos hcur]
    exact .refl s
  · rw [if_neg hcur, unlinkReady_eq rfl]
    have hlink : OnlySched s (s.setReadyLink (s.ptable t).priority prev (s.ptable t).nextReady) :=
      onlySched_setReadyLink
    refine ((hlink.trans (onlySched_setNextReady (t := t) (v := none))).trans ?_).core
    rfl

theorem preempt_aside (h : preempt s = some s') : Aside s s' := by
  unfold preempt at h
  obtain ⟨c, -, h⟩ := Option.bind_eq_some_iff.mp h
  obtain ⟨s₁, h₁, h⟩ := Option.bind_eq_some_iff.mp h
  exact ((dequeueTask_sameCore h₁).trans (enqueueTask_sameCore h)).aside

theorem sleepMs_aside (h : sleepMs s ms = some s') : Aside s s' := by
  unfold sleepMs at h
  split at h
  · cases h
    exact .refl s
  · obtain ⟨c, -, h⟩ := Option.bind_eq_some_iff.mp h
    obtain ⟨place, -, h⟩ := Option.bind_eq_some_iff.mp h
    have hexpire : Aside s (s.modify c (setExpire (wakeTick s ms))) :=
      aside_modify (fun _ => rfl) rfl
    exact hexpire.trans ((sameCore_setTimerNext.trans sameCore_setTimerLink).trans
      (dequeueTask_sameCore h)).aside

theorem wakeExpired_aside (h : wakeExpired fuel s = some s') : Aside s s' := by
  induction fuel generalizing s with
  | zero => cases h
  | succ fuel ih =>
    rw [wakeExpired] at h
    split at h
    · cases h
      exact .refl _
    · split at h
      · obtain ⟨s₁, h₁, h⟩ := Option.bind_eq_some_iff.mp h
        exact (sameCore_popTimer.trans (enqueueTask_sameCore h₁)).aside.trans (ih h)
      · cases h
        exact .refl _

theorem countTick_aside (h : countTick s = some s') : Aside s s' := by
  unfold countTick at h
  obtain ⟨c, -, h⟩ := Option.bind_eq_some_iff.mp h
  split at h
  · have htick : Aside s (s.modify c useTick) := aside_modify (fun _ => rfl) rfl
    change (if ((s.modify c useTick).ptable c).ticksLeft = 0 then
      preempt ((s.modify c useTick).modify c refill)
      else some (s.modify c useTick)) = some s' at h
    split at h
    · have hrefill : Aside (s.modify c useTick) ((s.modify c useTick).modify c refill) :=
        aside_modify (fun _ => rfl) rfl
      exact (htick.trans hrefill).trans (preempt_aside h)
    · cases h
      exact htick
  · cases h
    exact .refl s

theorem timerCallback_aside (h : timerCallback s = some s') : Aside s s' := by
  unfold timerCallback at h
  obtain ⟨s₁, h₁, h⟩ := Option.bind_eq_some_iff.mp h
  have hclock : Aside s { s with clockTicks := (s.clockTicks + 1) % 4294967296 } :=
    ⟨rfl, rfl, rfl, fun _ => rfl, fun _ => rfl⟩
  exact (hclock.trans (countTick_aside h₁)).trans (wakeExpired_aside h)

-- ---------------------------------------------------------------------------
-- Messages
-- ---------------------------------------------------------------------------

theorem appendSender_sameCore (h : appendSender s d c = some s') : SameCore s s' := by
  unfold appendSender at h
  obtain ⟨s₁, h₁, rfl⟩ := Option.map_eq_some_iff.mp h
  refine SameCore.trans ?_ sameCore_setQNext
  split at h₁
  · cases h₁
    exact sameCore_setInboxLink
  · obtain ⟨place, -, rfl⟩ := Option.map_eq_some_iff.mp h₁
    exact sameCore_setInboxLink

theorem aside_emit {ev : Event} : Aside s (s.emit ev) := ⟨rfl, rfl, rfl, fun _ => rfl, fun _ => rfl⟩

theorem messageSend_aside (h : messageSend s c pid ptr = some r) : Aside s r.2 := by
  unfold messageSend at h
  split at h
  · cases h
    exact .refl s
  · rename_i d hd
    obtain ⟨msg, hmsg⟩ : ∃ msg, readMessage s.mem ptr (sends s.trace) = msg := ⟨_, rfl⟩
    simp only [hmsg] at h
    split at h
    · rename_i hwait
      obtain ⟨s₁, h₁, rfl⟩ := Option.map_eq_some_iff.mp h
      have haccept : Aside s (s.modify d (acceptDirect msg)) := by
        refine aside_modify (fun _ => rfl) ?_
        -- it was receiving and is delivering now
        exact (if_pos (.inr rfl)).trans (if_pos (.inl hwait.1)).symm
      exact (haccept.trans aside_emit).trans (enqueueTask_sameCore h₁).aside
    · obtain ⟨s₁, h₁, rfl⟩ := Option.map_eq_some_iff.mp h
      obtain ⟨s₂, h₂, h₁⟩ := Option.bind_eq_some_iff.mp h₁
      have hstart : Aside s (s.modify c (startSend d msg)) := aside_modify (fun _ => rfl) rfl
      exact (hstart.trans aside_emit).trans
        ((appendSender_sameCore h₂).trans (dequeueTask_sameCore h₁)).aside

theorem writeMessage_outside {mem : Memory} {x : Nat} (h : x < ptr ∨ ptr + messageSize ≤ x) :
    writeMessage mem ptr m x = mem x := by
  unfold writeMessage
  rw [dif_neg (by omega)]

theorem messageReceive_receives (h : messageReceive s c pid ptr = some r) :
    Receives s r.2 c ptr := by
  unfold messageReceive at h
  split at h
  · cases h
    exact (Aside.refl s).receives
  · obtain ⟨place, -, h⟩ := Option.bind_eq_some_iff.mp h
    split at h
    · rename_i sender hsender
      obtain ⟨s₁, h₁, rfl⟩ := Option.map_eq_some_iff.mp h
      have hwrite : Receives s (({ s.emit (.asked c ptr pid) with
          mem := writeMessage (s.emit (.asked c ptr pid)).mem ptr
            ((s.emit (.asked c ptr pid)).ptable sender).messageBuffer }
            : Kernel).emit (.copied ((s.emit (.asked c ptr pid)).ptable sender).messageBuffer c
              ptr pid)) c ptr :=
        ⟨fun x hx => writeMessage_outside hx, rfl, rfl, fun _ => rfl, fun _ _ hp => .inl hp⟩
      refine ((hwrite.aside sameCore_setInboxLink.aside).aside (aside_modify (t := sender) (f :=
        endSend) ?_ ?_)).aside
        (enqueueTask_sameCore h₁).aside
      · exact fun _ => rfl
      · rfl
    · obtain ⟨s₁, h₁, rfl⟩ := Option.map_eq_some_iff.mp h
      have hstart :
        Receives s ((s.emit (.asked c ptr pid)).modify c (startReceive ptr pid)) c ptr := by
        refine ⟨fun _ _ => rfl, rfl, rfl, modify_field Task.context (fun _ => rfl),
          fun t p hp => ?_⟩
        by_cases ht : t = c
        · rw [ht, modify_same] at hp
          have hp : some (ptr, pid) = some p := (if_pos (.inl rfl)).symm.trans hp
          exact .inr ⟨ht, by rw [← Option.some.inj hp]⟩
        · rw [modify_other ht] at hp
          exact .inl hp
      exact hstart.aside (dequeueTask_sameCore h₁).aside

-- ---------------------------------------------------------------------------
-- Entry and return
-- ---------------------------------------------------------------------------

theorem dispatch_aside (hcx : cx.eax ≠ 4) (h : dispatch s c cx = some r) : Aside s r.2 := by
  unfold dispatch at h
  split at h
  · obtain ⟨s₁, h₁, rfl⟩ := Option.map_eq_some_iff.mp h
    exact sleepMs_aside h₁
  · obtain ⟨s₁, h₁, rfl⟩ := Option.map_eq_some_iff.mp h
    exact preempt_aside h₁
  · cases h
    exact .refl s
  · exact messageSend_aside h
  · exact absurd ‹cx.eax = 4› hcx
  · cases h
    exact .refl s

theorem dispatch_receives (h : dispatch s c cx = some r) : Receives s r.2 c cx.edx := by
  by_cases hcx : cx.eax = 4
  · rw [dispatch, hcx] at h
    exact messageReceive_receives h
  · exact (dispatch_aside hcx h).receives

theorem save_context : ((save s c e).ptable t).context = if t = c then e.context else
    (s.ptable t).context := by
  split
  · subst t
    exact congrArg Task.context modify_same
  · exact congrArg Task.context (modify_other ‹_›)

theorem save_asks : ((save s c e).ptable t).asks = (s.ptable t).asks :=
  congrFun (field_modify_same (f := setContext e.context) Task.asks rfl) t

theorem enter_tick_footprint (hcur : s.currentTask = some c) (hcall : e.call = false)
    (h : enter s e = some s') :
    Aside (save s c e) s' := by
  rw [enter, hcur, Option.bind_some, hcall] at h
  exact timerCallback_aside h

theorem toUInt32_lt (x : Int) : toUInt32 x < 4294967296 := by
  have := Int.emod_lt_of_pos x (show (0 : Int) < 4294967296 by decide)
  have := Int.emod_nonneg x (show (4294967296 : Int) ≠ 0 by decide)
  unfold toUInt32
  omega

theorem enter_call_footprint (hcur : s.currentTask = some c) (hcall : e.call = true)
    (h : enter s e = some s') :
    ∃ k v, s' = setEax k c v ∧ Receives (save s c e) k c e.context.edx ∧
      (e.context.eax ≠ 4 → Aside (save s c e) k) ∧
      v < 4294967296 := by
  rw [enter_call hcur hcall] at h
  obtain ⟨r, hr, rfl⟩ := Option.map_eq_some_iff.mp h
  exact ⟨r.2, toUInt32 r.1, rfl, dispatch_receives hr, fun hcx => dispatch_aside hcx hr,
    toUInt32_lt r.1⟩

def Task.delivered (t : Task) : Bool := t.flags.afterSwitch && t.messageFlags.delivering

theorem messageDeliver_footprint (hdel : (s.ptable c).messageFlags.delivering = true)
    (hrec : (s.ptable c).messageFlags.receiving = false) :
    ∃ k, messageDeliver s c = (true, k) ∧ Receives s k c (s.ptable c).messagePtr := by
  refine ⟨_, if_neg (by rw [hdel]; decide), fun x hx => writeMessage_outside hx, rfl, rfl,
    modify_field (f := endReceive) Task.context fun _ => rfl, fun t p hp => ?_⟩
  by_cases ht : t = c
  · subst ht
    rw [modify_same, Task.asks, if_neg] at hp
    · cases hp
    · rintro (ho | ho)
      · exact absurd (hrec.symm.trans ho) (by decide)
      · cases ho
  · rw [modify_other ht] at hp
    exact .inl hp

theorem afterContextSwitch_footprint (hcur : s.currentTask = some c)
    (hrec : (s.ptable c).messageFlags.receiving = false) (h : afterContextSwitch s = some s') :
    if (s.ptable c).delivered then ∃ k, s' = setEax k c 0 ∧
      Receives s k c (s.ptable c).messagePtr else Aside s s' := by
  rw [afterContextSwitch, hcur, Option.map_some] at h
  have hs := (Option.some.inj h).symm
  have hself : (s.modify c clearAfterSwitch).ptable c = clearAfterSwitch (s.ptable c) := modify_same
  have hclear : Aside s (s.modify c clearAfterSwitch) := aside_modify (fun _ => rfl) rfl
  by_cases hafter : (s.ptable c).flags.afterSwitch = true
  · rw [if_pos hafter] at hs
    rw [Task.delivered, hafter, Bool.true_and]
    by_cases hdel : (s.ptable c).messageFlags.delivering = true
    · obtain ⟨k, hk, hreceives⟩ :=
        messageDeliver_footprint (s := s.modify c clearAfterSwitch) (c := c)
        (by rw [hself]; exact hdel) (by rw [hself]; exact hrec)
      rw [hk, if_pos rfl] at hs
      rw [if_pos hdel]
      rw [hself] at hreceives
      exact ⟨k, hs, hreceives.mem, hreceives.currentTask, hreceives.idleTask,
        fun t => (hreceives.context t).trans (hclear.context t), fun t p hp =>
          (hreceives.asks t p hp).imp_left fun ha => (hclear.asks t).symm.trans ha⟩
    · have hno : messageDeliver (s.modify c clearAfterSwitch) c =
        (false, s.modify c clearAfterSwitch) :=
        if_pos (by rw [hself]; exact Bool.eq_false_iff.mpr hdel)
      rw [hno, if_neg Bool.false_ne_true] at hs
      rw [if_neg hdel, hs]
      exact hclear
  · rw [if_neg hafter] at hs
    rw [Task.delivered, Bool.eq_false_iff.mpr hafter, Bool.false_and, if_neg (by decide), hs]
    exact .refl s

-- ---------------------------------------------------------------------------
-- Runs
-- ---------------------------------------------------------------------------

section
variable {queued : List Nat} {mach : Machine} {place : Nat → Place} {q : Lists}

theorem MachineOk.setMem (h : MachineOk queued mach place q) (mem : Memory) :
    MachineOk queued ⟨{ mach.kernel with mem := mem }, mach.inKernel⟩ place q := by
  have hsys : System { mach.kernel with mem := mem } place q :=
    h.system.frame (k := mach.kernel.clockTicks) h.system.rest.clock
  refine ⟨hsys, h.started, fun hin => ?_⟩
  obtain ⟨c, hrun⟩ := h.running hin
  exact ⟨c, hsys, hrun.current, hrun.selected, hrun.fresh⟩

theorem System.not_receiving (h : System s place q) (hc : place c = .ready ∨ s.idleTask = some c) :
    (s.ptable c).messageFlags.receiving = false := by
  rw [(h.rest.status c).receiving]
  rcases hc with hc | hc
  · rw [hc]
    rfl
  · obtain ⟨i, hi, haway, -⟩ := h.rest.idle
    cases hi.symm.trans hc
    rw [haway]
    rfl

theorem Running.asks_none (h : Running s place q c) : (s.ptable c).asks = none := by
  refine if_neg fun ho => ?_
  rw [h.system.not_receiving h.selected, h.fresh] at ho
  simp at ho

theorem MachineOk.selected (h : MachineOk queued mach place q)
    (hc : place c = .ready ∨ mach.kernel.idleTask = some c) :
    c ∈ queued ∨ mach.kernel.idleTask = some c :=
  hc.imp_left fun hready => (h.started c).mp (by rw [hready]; decide)

/-- The way out: the switch to the choice of the scheduler, then what was sent to it is
delivered. -/
theorem MachineOk.switch (h : MachineOk queued mach place q)
    (hk : Tasks.resume mach.kernel = some s') :
    ∃ c, s'.currentTask = some c ∧ (place c = .ready ∨ mach.kernel.idleTask = some c) ∧
      (scheduler mach.kernel).nextTask = some c ∧
      afterContextSwitch (switchTo mach.kernel c) = some s' ∧
      (switchTo mach.kernel c).mem = mach.kernel.mem := by
  obtain ⟨m', c, hstep, -, -, hrun, hchoice, -, -⟩ := h.resume
  obtain ⟨k, hk', rfl⟩ := Option.map_eq_some_iff.mp hstep
  cases hk.symm.trans hk'
  obtain ⟨c', hc', hsel⟩ := h.system.choice
  cases hchoice.symm.trans hc'
  have hnext := (scheduler_nextTask h.system.held.lazy).trans hchoice
  refine ⟨c, hrun.current, hsel, hnext, ?_, ?_⟩
  · rw [← hk, switchTo, ← hnext]
    rfl
  · obtain ⟨b, heq⟩ := scheduler_eq mach.kernel
    rw [switchTo, heq]

end

end

end ElcoOs.Tasks
