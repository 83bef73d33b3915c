import Mathlib.Data.List.Perm.Subperm
import ElcoOs.Tasks.Messages

/-!
# Flags and places

`Rest` is the part of the invariant that does not look at links: the lists, the
flags of the tasks and their timers agree with the places of the tasks. Every
move of a task keeps it.
-/

namespace ElcoOs.Tasks

structure StatusOk (t : Task) (p : Place) : Prop where
  receiving : t.messageFlags.receiving = decide (p = .receiving)
  sending : t.messageFlags.sending = p.isSending
  sendTo : ∀ d, p = .sending d → t.messageSendTo = some d
  delivering : t.messageFlags.delivering = true → p = .ready
  afterSwitch : t.flags.afterSwitch = t.messageFlags.delivering

structure Rest (s : Kernel) (place : Nat → Place) (q : Lists) : Prop where
  member : Member (prioOf s) place q
  bound : ∀ t, place t ≠ .away → t < s.taskCount ∧ prioOf s t ≤ lowestTaskPriority
  status : ∀ t, StatusOk (s.ptable t) (place t)
  /-- nobody waits for a receiver who would have taken the message -/
  rendezvous : ∀ r, place r = .receiving → ∀ t ∈ q.inbox r,
    wanted s (s.ptable r).messageRecPid t = false
  sorted : q.timers.Pairwise fun a b => (s.ptable a).timerExpire ≤ (s.ptable b).timerExpire
  idle : ∃ i, s.idleTask = some i ∧ place i = .away ∧ (s.ptable i).flags.preemptible = false
  clock : s.clockTicks < 4294967296

section
variable {s s' : Kernel} {place : Nat → Place} {q q' : Lists} {t c d : Nat}
  {P : Place} {f : Task → Task}

theorem StatusOk.congr {x y : Task} (h : StatusOk x P) (hf : y.messageFlags = x.messageFlags)
    (hs : y.messageSendTo = x.messageSendTo) (ha : y.flags.afterSwitch = x.flags.afterSwitch) :
    StatusOk y P := by
  refine ⟨?_, ?_, ?_, ?_, ?_⟩
  · rw [hf]
    exact h.receiving
  · rw [hf]
    exact h.sending
  · rw [hs]
    exact h.sendTo
  · rw [hf]
    exact h.delivering
  · rw [ha, hf]
    exact h.afterSwitch

structure SameRest (s s' : Kernel) : Prop where
  taskCount : s'.taskCount = s.taskCount
  idleTask : s'.idleTask = s.idleTask
  clockTicks : s'.clockTicks < 4294967296
  priority : ∀ t, (s'.ptable t).priority = (s.ptable t).priority
  pid : ∀ t, (s'.ptable t).pid = (s.ptable t).pid
  messageFlags : ∀ t, (s'.ptable t).messageFlags = (s.ptable t).messageFlags
  messageSendTo : ∀ t, (s'.ptable t).messageSendTo = (s.ptable t).messageSendTo
  messageRecPid : ∀ t, (s'.ptable t).messageRecPid = (s.ptable t).messageRecPid
  timerExpire : ∀ t, (s'.ptable t).timerExpire = (s.ptable t).timerExpire
  flags : ∀ t, (s'.ptable t).flags = (s.ptable t).flags

theorem Rest.congr (h : Rest s place q) (hs : SameRest s s') : Rest s' place q := by
  have hprio : prioOf s' = prioOf s := funext hs.priority
  have hwanted : wanted s' = wanted s := by
    funext p t
    rw [wanted, wanted, hs.pid]
  refine ⟨by rw [hprio]; exact h.member, ?_, fun t => ?_, ?_, ?_, ?_, hs.clockTicks⟩
  · rw [hs.taskCount, hprio]
    exact h.bound
  · exact (h.status t).congr (hs.messageFlags t) (hs.messageSendTo t) (by rw [hs.flags])
  · intro r hr
    rw [hwanted, hs.messageRecPid]
    exact h.rendezvous r hr
  · simpa only [hs.timerExpire] using h.sorted
  · obtain ⟨i, hi, ha, hp⟩ := h.idle
    exact ⟨i, hs.idleTask.trans hi, ha, by rw [hs.flags, hp]⟩

theorem SameCore.sameRest (h : SameCore s s') (hc : s.clockTicks < 4294967296) : SameRest s s' :=
  ⟨h.taskCount, h.idleTask, by rw [h.clockTicks]; exact hc, h.field Task.priority fun _ => rfl,
    h.field Task.pid fun _ => rfl, h.field Task.messageFlags fun _ =>
    rfl, h.field Task.messageSendTo fun _ => rfl,
    h.field Task.messageRecPid fun _ => rfl, h.field Task.timerExpire fun _ =>
    rfl, h.field Task.flags fun _ => rfl⟩

theorem Rest.core (h : Rest s place q) (hs : SameCore s s') : Rest s' place q :=
  h.congr (hs.sameRest h.clock)

theorem Rest.move (h : Rest s place q) (hm : Member (prioOf s) (Function.update place t P) q')
    (hp : ∀ x, (f x).priority = x.priority) (ht : place t ≠ .away)
    (hflags : (f (s.ptable t)).flags.preemptible = (s.ptable t).flags.preemptible)
    (hstatus : StatusOk (f (s.ptable t)) P)
    (hrend : ∀ r, Function.update place t P r = .receiving → ∀ u ∈ q'.inbox r,
      wanted (s.modify t f) ((s.modify t f).ptable r).messageRecPid u = false)
    (hsorted : q'.timers.Pairwise fun a b =>
      ((s.modify t f).ptable a).timerExpire ≤ ((s.modify t f).ptable b).timerExpire) :
    Rest (s.modify t f) (Function.update place t P) q' := by
  have hprio : prioOf (s.modify t f) = prioOf s := funext (modify_field Task.priority hp)
  refine ⟨by rw [hprio]; exact hm, fun u hu => ?_, fun u => ?_, hrend, hsorted, ?_, h.clock⟩
  · rw [hprio]
    by_cases hut : u = t
    · subst hut
      exact h.bound u ht
    · rw [Function.update_of_ne hut] at hu
      exact h.bound u hu
  · by_cases hut : u = t
    · subst hut
      rw [modify_same, Function.update_self]
      exact hstatus
    · rw [modify_other hut, Function.update_of_ne hut]
      exact h.status u
  · obtain ⟨i, hi, ha, hpre⟩ := h.idle
    have hne : i ≠ t := fun he => ht (he ▸ ha)
    exact ⟨i, hi, by rw [Function.update_of_ne hne, ha], by rw [modify_other hne, hpre]⟩

-- ---------------------------------------------------------------------------
-- Sizes
-- ---------------------------------------------------------------------------

theorem Rest.short (h : Rest s place q) {xs : List Nat} (hnd : xs.Nodup)
    (hxs : ∀ t ∈ xs, place t ≠ .away) :
    xs.length < s.rounds := by
  have hsub : xs ⊆ List.range s.taskCount := fun t ht => List.mem_range.mpr (h.bound t (hxs t ht)).1
  have := (hnd.subperm hsub).length_le
  rw [List.length_range] at this
  exact Nat.lt_succ_of_le this

theorem Rest.ready_short (h : Rest s place q) (p : Nat) : (q.ready p).length < s.rounds :=
  h.short (h.member.readyNodup p) fun t ht => by rw [((h.member.ready p t).mp ht).1]; decide

theorem Rest.timers_short (h : Rest s place q) : q.timers.length < s.rounds :=
  h.short h.member.timersNodup fun t ht => by rw [(h.member.timers t).mp ht]; decide

theorem Rest.inbox_short (h : Rest s place q) (d : Nat) : (q.inbox d).length < s.rounds :=
  h.short (h.member.inboxNodup d) fun t ht => by rw [(h.member.inbox d t).mp ht]; simp

-- ---------------------------------------------------------------------------
-- Moves
-- ---------------------------------------------------------------------------

theorem Rest.quiet (h : Rest s place q) (hp : ∀ x, (f x).priority = x.priority)
    (hpid : ∀ x, (f x).pid = x.pid) (hmf : ∀ x, (f x).messageFlags = x.messageFlags)
    (hto : ∀ x, (f x).messageSendTo = x.messageSendTo)
    (hrec : ∀ x, (f x).messageRecPid = x.messageRecPid)
    (hexp : ∀ x, (f x).timerExpire = x.timerExpire)
    (hfl : ∀ x, (f x).flags = x.flags) : Rest (s.modify t f) place q :=
  h.congr ⟨rfl, rfl, h.clock, modify_field Task.priority hp, modify_field Task.pid hpid,
    modify_field Task.messageFlags hmf, modify_field Task.messageSendTo hto,
    modify_field Task.messageRecPid hrec,
    modify_field Task.timerExpire hexp, modify_field Task.flags hfl⟩

theorem prioOf_modify (hp : ∀ x, (f x).priority = x.priority) : prioOf (s.modify t f) = prioOf s :=
  funext (modify_field Task.priority hp)

theorem wanted_modify (hp : ∀ x, (f x).pid = x.pid) : wanted (s.modify t f) = wanted s := by
  funext p u
  rw [wanted, wanted, modify_field Task.pid hp]

theorem StatusOk.not_delivering {x : Task} (h : StatusOk x P) (hP : P ≠ .ready) :
    x.messageFlags.delivering = false ∧ x.flags.afterSwitch = false := by
  have : x.messageFlags.delivering = false := Bool.eq_false_iff.mpr fun hd => hP (h.delivering hd)
  exact ⟨this, h.afterSwitch.trans this⟩

theorem StatusOk.wake {x : Task} (h : StatusOk x .asleep) : StatusOk x .ready :=
  ⟨h.receiving, h.sending, fun _ he => (nomatch he), fun _ => rfl, h.afterSwitch⟩

theorem Rest.wake {xs ys : List Nat} (h : Rest s place q)
    (hm : Member (prioOf s) (wake place xs) q')
    (hq : q.timers = xs ++ ys) (hys : q'.timers = ys) (hin : q'.inbox = q.inbox) :
    Rest s (wake place xs) q' := by
  have hxs : ∀ x ∈ xs, place x = .asleep :=
    fun x hx => (h.member.timers x).mp (by rw [hq]; exact List.mem_append_left _ hx)
  have hne : ∀ u, Tasks.wake place xs u ≠ .away → place u ≠ .away := by
    intro u hu he
    rw [Tasks.wake] at hu
    split at hu
    · rw [hxs u ‹_›] at he
      cases he
    · exact hu he
  refine ⟨hm, fun u hu => h.bound u (hne u hu), fun u => ?_, fun r hr => ?_, ?_, ?_, h.clock⟩
  · rw [Tasks.wake]
    split
    · have := h.status u
      rw [hxs u ‹_›] at this
      exact this.wake
    · exact h.status u
  · rw [hin]
    rw [Tasks.wake] at hr
    split at hr
    · cases hr
    · exact h.rendezvous r hr
  · rw [hys]
    exact (List.pairwise_append.mp (hq ▸ h.sorted)).2.1
  · obtain ⟨i, hi, ha, hp⟩ := h.idle
    refine ⟨i, hi, ?_, hp⟩
    rw [Tasks.wake, if_neg fun hx => ?_, ha]
    rw [hxs i hx] at ha
    cases ha

theorem Rest.sleep {xs ys : List Nat} {v : Nat} (h : Rest s place q) (hc : place c = .ready)
    (hnd : (s.ptable c).messageFlags.delivering = false) (hq : q.timers = xs ++ ys)
    (hxs : ∀ x ∈ xs, (s.ptable x).timerExpire ≤ v)
    (hys : ∀ y ∈ ys.head?, v < (s.ptable y).timerExpire) :
    Rest (s.modify c (setExpire v)) (Function.update place c .asleep)
      ((q.setTimers (xs ++ c :: ys)).dequeue (prioOf s c) c) := by
  have hm := (h.member.leaveReady hc).enterTimers (Function.update_self ..) hq
  rw [Function.update_idem] at hm
  have hst := h.status c
  rw [hc] at hst
  have hno : c ∉ xs ++ ys := by
    intro hmem
    have := (h.member.timers c).mp (hq ▸ hmem)
    rw [hc] at this
    cases this
  have hexp : ∀ u ∈ xs ++ ys, ((s.modify c (setExpire v)).ptable u).timerExpire =
    (s.ptable u).timerExpire :=
    fun u hu => congrArg Task.timerExpire (modify_other fun he : u = c => hno (he ▸ hu))
  have hself : ((s.modify c (setExpire v)).ptable c).timerExpire = v :=
    congrArg Task.timerExpire modify_same
  refine h.move hm (fun _ => rfl) (by rw [hc]; decide) rfl ?_ (fun r hrec u hu => ?_) ?_
  · exact ⟨hst.receiving, hst.sending, fun _ he => (nomatch he),
      fun he => absurd (hnd.symm.trans he) (by decide),
      hst.afterSwitch⟩
  · rw [wanted_modify (f := setExpire v) fun _ => rfl,
      modify_field (f := setExpire v) Task.messageRecPid fun _ => rfl]
    rw [place_rest (by rw [hc]; decide) (by decide)] at hrec
    exact h.rendezvous r hrec u hu
  · have hsorted := h.sorted
    rw [hq] at hsorted
    obtain ⟨hsx, hsy, hxy⟩ := List.pairwise_append.mp hsorted
    have hle : ∀ y ∈ ys, v ≤ (s.ptable y).timerExpire := by
      intro y hy
      cases ys with
      | nil => cases hy
      | cons z zs =>
        have hz := hys z rfl
        rcases List.mem_cons.mp hy with rfl | hy
        · exact Nat.le_of_lt hz
        · exact Nat.le_trans (Nat.le_of_lt hz) (List.rel_of_pairwise_cons hsy hy)
    refine List.pairwise_append.mpr ⟨?_, List.pairwise_cons.mpr ⟨fun y hy => ?_, ?_⟩,
      fun x hx y hy => ?_⟩
    · refine hsx.imp_of_mem fun {a b} ha hb hab => ?_
      rw [hexp a (List.mem_append_left _ ha), hexp b (List.mem_append_left _ hb)]
      exact hab
    · rw [hself, hexp y (List.mem_append_right _ hy)]
      exact hle y hy
    · refine hsy.imp_of_mem fun {a b} ha hb hab => ?_
      rw [hexp a (List.mem_append_right _ ha), hexp b (List.mem_append_right _ hb)]
      exact hab
    · rw [hexp x (List.mem_append_left _ hx)]
      rcases List.mem_cons.mp hy with rfl | hy
      · rw [hself]
        exact hxs x hx
      · rw [hexp y (List.mem_append_right _ hy)]
        exact hxy x hx y hy

theorem Rest.rotate (h : Rest s place q) (hc : place c = .ready) :
    Rest s place ((q.dequeue (prioOf s c) c).enqueue (prioOf s c) c) := by
  have hm := (h.member.leaveReady hc).enterReady (Function.update_self ..)
  rw [Function.update_idem, ← hc, Function.update_eq_self] at hm
  exact ⟨hm, h.bound, h.status, h.rendezvous, h.sorted, h.idle, h.clock⟩

theorem Rest.direct {m : Message} (h : Rest s place q) (hd : place d = .receiving) :
    Rest (s.modify d (acceptDirect m)) (Function.update place d .ready)
      (q.enqueue (prioOf s d) d) := by
  have hm := (h.member.leaveReceiving hd).enterReady (Function.update_self ..)
  rw [Function.update_idem] at hm
  have hst := h.status d
  rw [hd] at hst
  refine h.move hm (fun _ => rfl) (by rw [hd]; decide) rfl ?_ (fun r hrec u hu => ?_) ?_
  · exact ⟨rfl, hst.sending, fun _ he => (nomatch he), fun _ => rfl, rfl⟩
  · have hr : r ≠ d := by
      rintro rfl
      rw [Function.update_self] at hrec
      cases hrec
    rw [Function.update_of_ne hr] at hrec
    rw [wanted_modify (f := acceptDirect m) fun _ => rfl, modify_other hr]
    exact h.rendezvous r hrec u hu
  · show q.timers.Pairwise _
    simpa only [modify_field (f := acceptDirect m) Task.timerExpire fun _ => rfl] using h.sorted

theorem Rest.queue {m : Message} (h : Rest s place q) (hc : place c = .ready)
    (hnd : (s.ptable c).messageFlags.delivering = false)
    (hw : ¬waitsFor (s.ptable d) (s.ptable c)) :
    Rest (s.modify c (startSend d m)) (Function.update place c (.sending d))
      ((q.setInbox d (q.inbox d ++ [c])).dequeue (prioOf s c) c) := by
  have hm := (h.member.leaveReady hc).enterInbox (d := d) (Function.update_self ..)
  rw [Function.update_idem] at hm
  have hst := h.status c
  rw [hc] at hst
  refine h.move hm (fun _ => rfl) (by rw [hc]; decide) rfl ?_ (fun r hrec u hu => ?_) ?_
  · exact ⟨hst.receiving, rfl,
      fun _ he => by cases he; rfl, fun he => absurd (hnd.symm.trans he) (by decide),
      hst.afterSwitch⟩
  · rw [place_rest (by rw [hc]; decide) (by simp)] at hrec
    rw [wanted_modify (f := startSend d m) fun _ => rfl,
      modify_field (f := startSend d m) Task.messageRecPid fun _ => rfl]
    rcases (mem_update.mp hu : if r = d then u ∈ q.inbox d ++ [c] else u ∈ q.inbox r) with hu'
    by_cases hr : r = d
    · subst hr
      rw [if_pos rfl, List.mem_append, List.mem_singleton] at hu'
      rcases hu' with hu' | rfl
      · exact h.rendezvous r hrec u hu'
      · have hreceiving : (s.ptable r).messageFlags.receiving = true := by
          rw [(h.status r).receiving, hrec]
          rfl
        rw [wanted, Bool.or_eq_false_iff, beq_eq_false_iff_ne, beq_eq_false_iff_ne]
        exact ⟨fun he => hw ⟨hreceiving, .inr he⟩, fun he => hw ⟨hreceiving, .inl he⟩⟩
    · rw [if_neg hr] at hu'
      exact h.rendezvous r hrec u hu'
  · show q.timers.Pairwise _
    simpa only [modify_field (f := startSend d m) Task.timerExpire fun _ => rfl] using h.sorted

theorem Rest.take {xs ys : List Nat} (h : Rest s place q) (hq : q.inbox c = xs ++ t :: ys) :
    Rest (s.modify t endSend) (Function.update place t .ready)
      ((q.setInbox c (xs ++ ys)).enqueue (prioOf s t) t) := by
  have ht : place t = .sending c := (h.member.inbox c t).mp (by simp [hq])
  have hm := (h.member.leaveInbox hq).enterReady (Function.update_self ..)
  rw [Function.update_idem] at hm
  have hst := h.status t
  rw [ht] at hst
  refine h.move hm (fun _ => rfl) (by rw [ht]; simp) rfl ?_ (fun r hrec u hu => ?_) ?_
  · exact ⟨hst.receiving, rfl, fun _ he => (nomatch he), fun _ => rfl, hst.afterSwitch⟩
  · rw [place_rest (by rw [ht]; simp) (by decide)] at hrec
    rw [wanted_modify (f := endSend) fun _ => rfl,
      modify_field (f := endSend) Task.messageRecPid fun _ => rfl]
    refine h.rendezvous r hrec u ?_
    rcases (mem_update.mp hu : if r = c then u ∈ xs ++ ys else u ∈ q.inbox r) with hu'
    by_cases hr : r = c
    · rw [if_pos hr] at hu'
      rw [hr, hq]
      exact ((List.sublist_cons_self t ys).append_left xs).subset hu'
    · rwa [if_neg hr] at hu'
  · show q.timers.Pairwise _
    simpa only [modify_field (f := endSend) Task.timerExpire fun _ => rfl] using h.sorted

theorem Rest.block {pid : Int} (ptr : Nat) (h : Rest s place q) (hc : place c = .ready)
    (hnd : (s.ptable c).messageFlags.delivering = false)
    (hall : ∀ x ∈ q.inbox c, wanted s pid x = false) :
    Rest (s.modify c (startReceive ptr pid)) (Function.update place c .receiving)
      (q.dequeue (prioOf s c) c) := by
  have hm := (h.member.leaveReady hc).enterReceiving (Function.update_self ..)
  rw [Function.update_idem] at hm
  have hst := h.status c
  rw [hc] at hst
  refine h.move hm (fun _ => rfl) (by rw [hc]; decide) rfl ?_ (fun r hrec u hu => ?_) ?_
  · exact ⟨rfl, hst.sending, fun _ he => (nomatch he),
      fun he => absurd (hnd.symm.trans he) (by decide),
      hst.afterSwitch⟩
  · rw [wanted_modify (f := startReceive ptr pid) fun _ => rfl]
    by_cases hr : r = c
    · subst hr
      rw [modify_same]
      exact hall u hu
    · rw [Function.update_of_ne hr] at hrec
      rw [modify_other hr]
      exact h.rendezvous r hrec u hu
  · show q.timers.Pairwise _
    simpa only [modify_field (f := startReceive ptr pid) Task.timerExpire fun _ => rfl] using
      h.sorted

theorem Rest.deliver (h : Rest s place q) (hc : place c = .ready) :
    Rest ((s.modify c clearAfterSwitch).modify c endReceive) place q := by
  have hst := h.status c
  have hmod : (s.modify c clearAfterSwitch).modify c endReceive =
    s.modify c (endReceive ∘ clearAfterSwitch) := by
    simp only [Kernel.modify, Function.update_self, Function.update_idem, Function.comp]
  have hm : Member (prioOf s) (Function.update place c (place c)) q := by
    rw [Function.update_eq_self]
    exact h.member
  rw [hmod]
  have key := h.move (f := endReceive ∘ clearAfterSwitch) hm (fun _ => rfl)
    (by rw [hc]; decide) rfl ?_ ?_ ?_
  · rwa [Function.update_eq_self] at key
  · exact ⟨hst.receiving, hst.sending, hst.sendTo, fun he => (by cases he), rfl⟩
  · intro r hrec u hu
    rw [Function.update_eq_self] at hrec
    have hr : r ≠ c := by
      rintro rfl
      rw [hc] at hrec
      cases hrec
    rw [wanted_modify (f := endReceive ∘ clearAfterSwitch) fun _ => rfl, modify_other hr]
    exact h.rendezvous r hrec u hu
  · simpa only [modify_field (f := endReceive ∘ clearAfterSwitch) Task.timerExpire fun _ =>
      rfl] using h.sorted

end

end ElcoOs.Tasks
