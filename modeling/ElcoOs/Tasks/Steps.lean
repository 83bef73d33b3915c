import ElcoOs.Tasks.Mail
import ElcoOs.Tasks.Moves

/-!
# What an entry does

`System` is the invariant of the kernel. A tick and each of the kernel calls keep
it, and so does the way back to a task; only a tick wakes sleeping tasks.
-/

namespace ElcoOs.Tasks

-- ---------------------------------------------------------------------------
-- The invariant
-- ---------------------------------------------------------------------------

def Task.asks (t : Task) : Option (Nat × Int) :=
  if t.messageFlags.receiving = true ∨ t.messageFlags.delivering = true then
    some (t.messagePtr, t.messageRecPid)
  else none

namespace Kernel

variable (s : Kernel)

def pid (t : Nat) : Int := (s.ptable t).pid
def asks (t : Nat) : Option (Nat × Int) := (s.ptable t).asks
def buffer (t : Nat) : Message := (s.ptable t).messageBuffer
def delivering (t : Nat) : Bool := (s.ptable t).messageFlags.delivering

end Kernel

structure System (s : Kernel) (place : Nat → Place) (q : Lists) : Prop where
  held : Held s q
  rest : Rest s place q
  mail : Mail s.pid s.trace s.asks s.buffer s.delivering q.inbox

/-- No task is woken: those that sleep do so for as long as before. None is started. -/
structure NoWake (s : Kernel) (place : Nat → Place) (s' : Kernel)
    (place' : Nat → Place) : Prop where
  clockTicks : s'.clockTicks = s.clockTicks
  asleep : ∀ t, place t = .asleep → place' t = .asleep ∧
    (s'.ptable t).timerExpire = (s.ptable t).timerExpire
  away : ∀ t, place' t = .away ↔ place t = .away

def Copied (s s' : Kernel) : Prop :=
  ∀ m t ptr origin tr, s'.trace = .copied m t ptr origin :: tr →
    s'.trace = s.trace ∨ ∀ i : Fin messageSize, s'.mem (ptr + i) = m.contents i

section
variable {s s' s'' : Kernel} {place place' place'' : Nat → Place} {q q' : Lists}
  {t c d ptr : Nat} {f : Task → Task} {pid : Int} {m : Message} {xs ys : List Nat}

theorem NoWake.refl : NoWake s place s place := ⟨rfl, fun _ ht => ⟨ht, rfl⟩, fun _ => .rfl⟩

theorem NoWake.trans (h : NoWake s place s' place') (h' : NoWake s' place' s'' place'') :
    NoWake s place s'' place'' := by
  refine ⟨h'.clockTicks.trans h.clockTicks, fun t ht => ?_, fun t => (h'.away t).trans (h.away t)⟩
  obtain ⟨ht', he⟩ := h.asleep t ht
  exact ⟨(h'.asleep t ht').1, (h'.asleep t ht').2.trans he⟩

theorem NoWake.core (h : NoWake s place s' place') (hs : SameCore s' s'') :
    NoWake s place s'' place' :=
  ⟨hs.clockTicks.trans h.clockTicks,
  fun t ht => ⟨(h.asleep t ht).1, (hs.timerExpire t).trans (h.asleep t ht).2⟩, h.away⟩

theorem NoWake.modify {P Q : Place} (ht : place t = P) (hP : P ≠ .asleep ∧ P ≠ .away)
    (hQ : Q ≠ .away) :
    NoWake s place (s.modify t f) (Function.update place t Q) := by
  refine ⟨rfl, fun u hu => ?_, fun u => ?_⟩
  · have hut : u ≠ t := fun he => hP.1 (ht.symm.trans (he ▸ hu))
    exact ⟨(Function.update_of_ne hut ..).trans hu, congrArg Task.timerExpire (modify_other hut)⟩
  · exact place_rest (by rw [ht]; exact hP.2) hQ

theorem Copied.same (h : s'.trace = s.trace) : Copied s s' := fun _ _ _ _ _ _ => .inl h

theorem Copied.trans (h : Copied s s') (hm : s''.mem = s'.mem) (ht : s''.trace = s'.trace) :
    Copied s s'' := by
  intro m t ptr origin tr he
  rw [ht] at he ⊢
  rw [hm]
  exact h m t ptr origin tr he

theorem field_modify {β : Type} (g : Task → β) :
    (fun u => g ((s.modify t f).ptable u)) =
    Function.update (fun u => g (s.ptable u)) t (g (f (s.ptable t))) := by
  funext u
  rw [Function.update_apply]
  split
  · subst u
    rw [modify_same]
  · rw [modify_other ‹_›]

theorem field_modify_same {β : Type} (g : Task → β) (hg : g (f (s.ptable t)) = g (s.ptable t)) :
    (fun u => g ((s.modify t f).ptable u)) = fun u => g (s.ptable u) := by
  rw [field_modify, hg]
  exact Function.update_eq_self ..

-- ---------------------------------------------------------------------------
-- Changes without a move
-- ---------------------------------------------------------------------------

def Quiet (f : Task → Task) : Prop :=
  ∀ x, { f x with context := x.context, ticksLeft := x.ticksLeft } = x

theorem Quiet.field {β : Type} (hf : Quiet f) (g : Task → β)
    (hg : ∀ x cx n, g { x with context := cx, ticksLeft := n } = g x) (x : Task) :
    g (f x) = g x := by
  have := congrArg g (hf x)
  rwa [hg] at this

structure SameMail (s s' : Kernel) : Prop where
  pid : s'.pid = s.pid
  trace : s'.trace = s.trace
  asks : s'.asks = s.asks
  buffer : s'.buffer = s.buffer
  delivering : s'.delivering = s.delivering

theorem SameMail.mail {inbox : Nat → List Nat} (hs : SameMail s s')
    (h : Mail s.pid s.trace s.asks s.buffer s.delivering inbox) :
    Mail s'.pid s'.trace s'.asks s'.buffer s'.delivering inbox := by
  rwa [hs.pid, hs.trace, hs.asks, hs.buffer, hs.delivering]

theorem SameCore.sameMail (hs : SameCore s s') : SameMail s s' :=
  ⟨funext (hs.field Task.pid fun _ => rfl), hs.trace, funext (hs.field Task.asks fun _ => rfl),
    funext (hs.field Task.messageBuffer fun _ => rfl),
      funext (hs.field (fun t => t.messageFlags.delivering) fun _ => rfl)⟩

theorem sameMail_modify (hpid : ∀ x, (f x).pid = x.pid) (hasks : ∀ x, (f x).asks = x.asks)
    (hbuf : ∀ x, (f x).messageBuffer = x.messageBuffer)
    (hdel : ∀ x, (f x).messageFlags.delivering = x.messageFlags.delivering) :
    SameMail s (s.modify t f) :=
  ⟨field_modify_same Task.pid (hpid _), rfl, field_modify_same Task.asks (hasks _),
    field_modify_same Task.messageBuffer (hbuf _),
    field_modify_same (fun t => t.messageFlags.delivering) (hdel _)⟩

theorem System.quiet (h : System s place q) (hf : Quiet f) : System (s.modify t f) place q := by
  have hprio := hf.field Task.priority fun _ _ _ => rfl
  refine ⟨?_, ?_, ?_⟩
  · exact h.held.modify hprio (hf.field Task.nextReady fun _ _ _ => rfl)
      (hf.field Task.timerNext fun _ _ _ => rfl)
      (hf.field Task.messageQHead fun _ _ _ => rfl) (hf.field Task.messageQNext fun _ _ _ => rfl)
  · exact h.rest.quiet hprio (hf.field Task.pid fun _ _ _ => rfl)
      (hf.field Task.messageFlags fun _ _ _ => rfl)
      (hf.field Task.messageSendTo fun _ _ _ => rfl) (hf.field Task.messageRecPid fun _ _ _ => rfl)
      (hf.field Task.timerExpire fun _ _ _ => rfl) (hf.field Task.flags fun _ _ _ => rfl)
  · exact (sameMail_modify (hf.field Task.pid fun _ _ _ => rfl)
      (hf.field Task.asks fun _ _ _ => rfl)
      (hf.field Task.messageBuffer fun _ _ _ => rfl)
      (hf.field (fun t => t.messageFlags.delivering) fun _ _ _ => rfl)).mail h.mail

theorem NoWake.quiet (hf : Quiet f) : NoWake s place (s.modify t f) place :=
  ⟨rfl, fun u hu =>
  ⟨hu, modify_field Task.timerExpire (hf.field Task.timerExpire fun _ _ _ => rfl) u⟩, fun _ => .rfl⟩

theorem System.frame {k : Nat} {cur : Option Nat} {mem : Memory} (h : System s place q)
    (hk : k < 4294967296) :
    System { s with mem := mem, clockTicks := k, currentTask := cur } place q :=
  ⟨h.held.mk' ⟨rfl, rfl, rfl, rfl, rfl, fun _ => rfl, fun _ => rfl⟩ h.held.timers h.held.inbox,
    h.rest.congr ⟨rfl, rfl, hk, fun _ => rfl, fun _ => rfl, fun _ => rfl, fun _ => rfl,
    fun _ => rfl, fun _ => rfl,
      fun _ => rfl⟩, h.mail⟩

-- ---------------------------------------------------------------------------
-- Kernel calls
-- ---------------------------------------------------------------------------

/-- The running task, which is not the idle task, when it calls. -/
structure Caller (s : Kernel) (place : Nat → Place) (c : Nat) : Prop where
  current : s.currentTask = some c
  ready : place c = .ready
  fresh : (s.ptable c).messageFlags.delivering = false

structure CallOk (s : Kernel) (place : Nat → Place) (s' : Kernel) (place' : Nat → Place)
    (q' : Lists) : Prop where
  system : System s' place' q'
  noWake : NoWake s place s' place'
  current : s'.currentTask = s.currentTask
  copied : Copied s s'

theorem CallOk.refl (h : System s place q) : CallOk s place s place q := ⟨h, .refl, rfl, .same rfl⟩

theorem System.not_queued (h : System s place q) (ht : (place t).isSending = false) (e : Nat) :
    t ∉ q.inbox e := by
  intro hin
  rw [(h.rest.member.inbox e t).mp hin] at ht
  cases ht

theorem Caller.not_queued (hc : Caller s place c) (h : System s place q)
    (e : Nat) : c ∉ q.inbox e :=
  h.not_queued (by rw [hc.ready]; rfl) e

theorem wanted_iff : wanted s pid t = true ↔ named s.pid pid t := by
  rw [wanted, Bool.or_eq_true, beq_iff_eq, beq_iff_eq]
  rfl

theorem not_named (h : wanted s pid t = false) : ¬named s.pid pid t := fun hn => by
  rw [wanted_iff.mpr hn] at h
  cases h

theorem Caller.asks_none (hc : Caller s place c) (h : System s place q) : s.asks c = none := by
  refine if_neg fun ho => ?_
  rw [(h.rest.status c).receiving, hc.ready, hc.fresh] at ho
  simp at ho

theorem callOk {s₁ : Kernel} (hheld : Held s' q') (hrest : Rest s₁ place' q')
    (hmail : Mail s₁.pid s₁.trace s₁.asks s₁.buffer s₁.delivering q'.inbox)
    (hwake : NoWake s place s₁ place')
    (hcur : s₁.currentTask = s.currentTask) (hcopied : Copied s s₁) (hcore : SameCore s₁ s') :
    CallOk s place s' place' q' :=
  ⟨⟨hheld, hrest.core hcore, hcore.sameMail.mail hmail⟩, hwake.core hcore,
  hcore.currentTask.trans hcur,
    hcopied.trans hcore.mem hcore.trace⟩

theorem Rest.emit {e : Event} (h : Rest s place q) : Rest (s.emit e) place q :=
  h.congr ⟨rfl, rfl, h.clock, fun _ => rfl, fun _ => rfl, fun _ => rfl, fun _ => rfl,
  fun _ => rfl, fun _ => rfl,
    fun _ => rfl⟩

theorem NoWake.emit {e : Event} (h : NoWake s place s' place') :
    NoWake s place (s'.emit e) place' := ⟨h.clockTicks, h.asleep, h.away⟩

theorem writeMessage_at {mem : Memory} {i : Fin messageSize} : writeMessage mem ptr m (ptr + i) =
    m.contents i := by
  have hi : ptr ≤ ptr + i ∧ ptr + i - ptr < messageSize := ⟨Nat.le_add_right .., by omega⟩
  rw [writeMessage, dif_pos hi]
  exact congrArg _ (Fin.ext (Nat.add_sub_cancel_left ..))

theorem Copied.sent {b : Bool} (ht : s'.trace = .sent m c d b :: s.trace) : Copied s s' := by
  intro m t ptr origin tr h
  rw [ht] at h
  cases h

theorem Copied.asked (ht : s'.trace = .asked c ptr pid :: s.trace) : Copied s s' := by
  intro m t ptr origin tr h
  rw [ht] at h
  cases h

theorem sleep_step {ms : Int} (h : System s place q) (hc : Caller s place c) (hms : 0 < ms) :
    ∃ s' place' q', sleepMs s ms = some s' ∧ CallOk s place s' place' q' ∧ place' c = .asleep ∧
      (s'.ptable c).timerExpire = wakeTick s ms := by
  have hno : c ∉ q.timers := fun hin => by
    have := (h.rest.member.timers c).mp hin
    rw [hc.ready] at this
    cases this
  obtain ⟨s', xs, ys, hres, hq, hheld, hcore, hxs, hys⟩ :=
    sleepMs_spec h.held hc.current hms hno h.rest.timers_short (h.rest.ready_short _)
  have hmail : SameMail s (s.modify c (setExpire (wakeTick s ms))) :=
    sameMail_modify (f := setExpire _) (fun _ => rfl) (fun _ => rfl) (fun _ => rfl) fun _ => rfl
  have hok := callOk hheld (h.rest.sleep hc.ready hc.fresh hq hxs hys) (hmail.mail h.mail)
    (.modify hc.ready (by decide) (by decide)) rfl (.same rfl) hcore
  refine ⟨s', _, _, hres, hok, Function.update_self .., ?_⟩
  rw [hcore.timerExpire]
  exact congrArg Task.timerExpire modify_same

theorem preempt_step (h : System s place q) (hc : Caller s place c) :
    ∃ s' place' q', preempt s = some s' ∧ CallOk s place s' place' q' := by
  obtain ⟨s', hres, hheld, hcore⟩ := preempt_spec h.held hc.current (h.rest.ready_short _)
  exact ⟨s', place, _, hres,
    callOk hheld (h.rest.rotate hc.ready) h.mail .refl rfl (.same rfl) hcore⟩

theorem direct_step (ptr : Nat) (h : System s place q) (hd : findTask s pid = some d)
    (hw : waitsFor (s.ptable d) (s.ptable c)) :
    ∃ s' place' q', messageSend s c pid ptr = some (0, s') ∧ CallOk s place s' place' q' ∧
      s'.trace = .sent (messageAt s ptr) c d true :: s.trace := by
  have hplace : place d = .receiving := by
    have := (h.rest.status d).receiving
    rw [hw.1] at this
    exact of_decide_eq_true this.symm
  have hnd : s.delivering d = false := ((h.rest.status d).not_delivering (by rw [hplace]; decide)).1
  have hready : ∀ p, d ∉ q.ready p := fun p hp => by
    have := ((h.rest.member.ready p d).mp hp).1
    rw [hplace] at this
    cases this
  obtain ⟨s', hres, hheld, hcore⟩ := messageSend_direct ptr h.held hd hw hready
  have hask : s.asks d = some ((s.ptable d).messagePtr, (s.ptable d).messageRecPid) :=
    if_pos (.inl hw.1)
  have hmail := h.mail.direct (m := messageAt s ptr) (c := c) rfl hask hw.2.symm hnd
    (h.not_queued (by rw [hplace]; rfl)) fun t ht => not_named (h.rest.rendezvous d hplace t ht)
  have hpid : (s.modify d (acceptDirect (messageAt s ptr))).pid = s.pid :=
    field_modify_same Task.pid rfl
  have hasks : (s.modify d (acceptDirect (messageAt s ptr))).asks = s.asks :=
    field_modify_same Task.asks ((if_pos (.inr rfl)).trans hask.symm)
  have hbuf : (s.modify d (acceptDirect (messageAt s ptr))).buffer =
    Function.update s.buffer d (messageAt s ptr) :=
    field_modify Task.messageBuffer
  have hdel : (s.modify d (acceptDirect (messageAt s ptr))).delivering =
    Function.update s.delivering d true :=
    field_modify fun t => t.messageFlags.delivering
  rw [← hpid, ← hasks, ← hbuf, ← hdel] at hmail
  have hok :=
    callOk hheld (h.rest.direct hplace).emit hmail
      (.emit (.modify hplace (by decide) (by decide))) rfl
    (.sent rfl) hcore
  exact ⟨s', _, _, hres, hok, hcore.trace⟩

theorem queue_step (ptr : Nat) (h : System s place q) (hc : Caller s place c)
    (hd : findTask s pid = some d) (hw : ¬waitsFor (s.ptable d) (s.ptable c)) :
    ∃ s' place' q', messageSend s c pid ptr = some (0, s') ∧ CallOk s place s' place' q' ∧
      s'.trace = .sent (messageAt s ptr) c d false :: s.trace := by
  have hno := hc.not_queued h
  obtain ⟨s', hres, hheld, hcore⟩ :=
    messageSend_queued ptr h.held h.rest.member hd hw hno (h.rest.inbox_short d)
    (h.rest.ready_short _)
  have hmail := h.mail.queue (m := messageAt s ptr) (d := d) rfl hc.fresh hno
  have hpid : (s.modify c (startSend d (messageAt s ptr))).pid = s.pid :=
    field_modify_same Task.pid rfl
  have hasks : (s.modify c (startSend d (messageAt s ptr))).asks = s.asks :=
    field_modify_same Task.asks rfl
  have hbuf : (s.modify c (startSend d (messageAt s ptr))).buffer =
    Function.update s.buffer c (messageAt s ptr) :=
    field_modify Task.messageBuffer
  have hdel : (s.modify c (startSend d (messageAt s ptr))).delivering = s.delivering :=
    field_modify_same (fun t => t.messageFlags.delivering) rfl
  rw [← hpid, ← hasks, ← hbuf, ← hdel] at hmail
  have hok := callOk hheld (h.rest.queue hc.ready hc.fresh hw).emit hmail
    (.emit (.modify hc.ready (by decide) (by simp))) rfl (.sent rfl) hcore
  exact ⟨s', _, _, hres, hok, hcore.trace⟩

theorem send_step (pid : Int) (ptr : Nat) (h : System s place q) (hc : Caller s place c) :
    ∃ r s' place' q', messageSend s c pid ptr = some (r, s') ∧ CallOk s place s' place' q' ∧
      SendOutcome s c pid ptr r s' := by
  unfold SendOutcome
  cases hd : findTask s pid with
  | none => exact ⟨-1, s, place, q, by rw [messageSend, hd], .refl h, rfl, rfl⟩
  | some d =>
    by_cases hw : waitsFor (s.ptable d) (s.ptable c)
    · obtain ⟨s', place', q', hres, hok, htr⟩ := direct_step ptr h hd hw
      rw [← decide_eq_true hw] at htr
      exact ⟨0, s', place', q', hres, hok, rfl, htr⟩
    · obtain ⟨s', place', q', hres, hok, htr⟩ := queue_step ptr h hc hd hw
      rw [← decide_eq_false hw] at htr
      exact ⟨0, s', place', q', hres, hok, rfl, htr⟩

theorem take_step (ptr : Nat) (h : System s place q) (hc : Caller s place c)
    (hpid : pid ≠ pidNoTask)
    (hq : q.inbox c = xs ++ t :: ys) (hxs : ∀ x ∈ xs, wanted s pid x = false)
    (ht : wanted s pid t = true) :
    ∃ s' place' q', messageReceive s c pid ptr = some (0, s') ∧ CallOk s place s' place' q' ∧
      s'.trace = .copied (s.buffer t) c ptr pid :: .asked c ptr pid :: s.trace := by
  have hplace : place t = .sending c := (h.rest.member.inbox c t).mp (by simp [hq])
  have hready : ∀ p, t ∉ q.ready p := fun p hp => by
    have := ((h.rest.member.ready p t).mp hp).1
    rw [hplace] at this
    cases this
  have hnodup : t ∉ xs ++ ys := by
    have := h.rest.member.inboxNodup c
    rw [hq] at this
    exact (List.nodup_cons.mp (List.nodup_middle.mp this)).1
  obtain ⟨s', hres, hheld, hcore⟩ :=
    messageReceive_take ptr h.held h.rest.member hpid hq hxs ht (h.rest.inbox_short c) hready
  have hnone := hc.asks_none h
  have hmail :=
    (h.mail.ask ptr pid hnone hc.fresh).take (Function.update_self ..) hc.fresh hq
      (fun x hx => not_named (hxs x hx)) (wanted_iff.mp ht)
    (fun e he hin => he (h.rest.member.inbox_once (by simp [hq]) hin)) hnodup
  rw [Function.update_idem, ← hnone, Function.update_eq_self] at hmail
  have hsame : SameMail (copyOut s c ptr pid t) ((copyOut s c ptr pid t).modify t endSend) :=
    sameMail_modify (f := endSend) (fun _ => rfl) (fun _ => rfl) (fun _ => rfl) fun _ => rfl
  have hrest : Rest ((copyOut s c ptr pid t).modify t endSend) _ _ := (h.rest.take hq).congr
    ⟨rfl, rfl, h.rest.clock, fun _ => rfl, fun _ => rfl, fun _ => rfl, fun _ => rfl, fun _ => rfl,
    fun _ => rfl, fun _ => rfl⟩
  have hwake : NoWake s place (s.modify t endSend) (Function.update place t .ready) :=
    .modify hplace (by simp) (by decide)
  have hcopied : Copied s ((copyOut s c ptr pid t).modify t endSend) := by
    intro m u ptr' o tr he
    cases he
    exact .inr fun i => writeMessage_at
  have hok :=
    callOk hheld hrest (hsame.mail hmail) ⟨hwake.clockTicks, hwake.asleep,
      hwake.away⟩ rfl hcopied hcore
  exact ⟨s', _, _, hres, hok, hcore.trace⟩

theorem block_step (ptr : Nat) (h : System s place q) (hc : Caller s place c)
    (hpid : pid ≠ pidNoTask) (hall : ∀ x ∈ q.inbox c, wanted s pid x = false) :
    ∃ s' place' q', messageReceive s c pid ptr = some (0, s') ∧ CallOk s place s' place' q' ∧
      s'.trace = .asked c ptr pid :: s.trace ∧ (s'.ptable c).messageFlags.receiving = true := by
  obtain ⟨s', hres, hheld, hcore⟩ :=
    messageReceive_block ptr h.held hpid hall (h.rest.inbox_short c)
    (h.rest.ready_short _)
  have hmail := h.mail.ask ptr pid (hc.asks_none h) hc.fresh
  have hasks : (s.modify c (startReceive ptr pid)).asks =
    Function.update s.asks c (some (ptr, pid)) :=
    (field_modify Task.asks).trans (congrArg _ (if_pos (.inl rfl)))
  have hpids : (s.modify c (startReceive ptr pid)).pid = s.pid := field_modify_same Task.pid rfl
  have hbuf : (s.modify c (startReceive ptr pid)).buffer = s.buffer :=
    field_modify_same Task.messageBuffer rfl
  have hdel : (s.modify c (startReceive ptr pid)).delivering = s.delivering :=
    field_modify_same (fun t => t.messageFlags.delivering) rfl
  rw [← hpids, ← hasks, ← hbuf, ← hdel] at hmail
  have hrest := (h.rest.block ptr hc.ready hc.fresh hall).emit (e := .asked c ptr pid)
  have hok := callOk hheld hrest hmail (.emit (.modify hc.ready (by decide) (by decide))) rfl
    (.asked rfl) hcore
  refine ⟨s', _, _, hres, hok, hcore.trace, ?_⟩
  rw [hcore.field Task.messageFlags fun _ => rfl]
  exact congrArg (fun t : Task => t.messageFlags.receiving)
    (modify_same (f := startReceive ptr pid))

theorem receive_step (pid : Int) (ptr : Nat) (h : System s place q) (hc : Caller s place c) :
    ∃ r s' place' q', messageReceive s c pid ptr = some (r, s') ∧ CallOk s place s' place' q' ∧
      ReceiveOutcome s c pid ptr r s' := by
  unfold ReceiveOutcome
  by_cases hpid : pid = pidNoTask
  · exact ⟨-1, s, place, q, if_pos hpid, .refl h, by rw [if_pos hpid]; exact ⟨rfl, rfl⟩⟩
  · simp only [if_neg hpid]
    cases hfind : (q.inbox c).find? (wanted s pid) with
    | none =>
      have hall : ∀ x ∈ q.inbox c, wanted s pid x = false := fun x hx =>
        Bool.eq_false_iff.mpr (List.find?_eq_none.mp hfind x hx)
      obtain ⟨s', place', q', hres, hok, htr, hrec⟩ := block_step ptr h hc hpid hall
      exact ⟨0, s', place', q', hres, hok, rfl, _, h.held.inbox c, by rw [hfind]; exact ⟨htr, hrec⟩⟩
    | some t =>
      obtain ⟨ht, xs, ys, hq, hxs⟩ := List.find?_eq_some_iff_append.mp hfind
      obtain ⟨s', place', q', hres, hok, htr⟩ :=
        take_step ptr h hc hpid hq (fun x hx => by simpa using hxs x hx) ht
      exact ⟨0, s', place', q', hres, hok, rfl, _, h.held.inbox c, by rw [hfind]; exact htr⟩

theorem dispatch_step (cx : Context) (h : System s place q) (hc : Caller s place c) :
    ∃ r s' place' q', dispatch s c cx = some (r, s') ∧ CallOk s place s' place' q' := by
  unfold dispatch
  split
  · by_cases hms : 0 < toInt32 cx.ecx
    · obtain ⟨s', place', q', hres, hok, -⟩ := sleep_step h hc hms
      exact ⟨0, s', place', q', by rw [hres]; rfl, hok⟩
    · exact ⟨0, s, place, q, by rw [sleepMs, if_pos (by omega)]; rfl, .refl h⟩
  · obtain ⟨s', place', q', hres, hok⟩ := preempt_step h hc
    exact ⟨0, s', place', q', by rw [hres]; rfl, hok⟩
  · exact ⟨_, s, place, q, rfl, .refl h⟩
  · obtain ⟨r, s', place', q', hres, hok, -⟩ := send_step _ _ h hc
    exact ⟨r, s', place', q', hres, hok⟩
  · obtain ⟨r, s', place', q', hres, hok, -⟩ := receive_step _ _ h hc
    exact ⟨r, s', place', q', hres, hok⟩
  · exact ⟨0, s, place, q, rfl, .refl h⟩

theorem quiet_withEax {v : Nat} : Quiet (withEax v) := fun _ => rfl

theorem CallOk.setEax {v : Nat} (h : CallOk s place s' place' q') :
    CallOk s place (setEax s' c v) place' q' :=
  ⟨h.system.quiet quiet_withEax, h.noWake.trans (.quiet quiet_withEax), h.current,
  h.copied.trans rfl rfl⟩

-- ---------------------------------------------------------------------------
-- Ticks
-- ---------------------------------------------------------------------------

/-- The task that runs is the one that was ready, or the idle task. -/
structure Running (s : Kernel) (place : Nat → Place) (q : Lists) (c : Nat) : Prop where
  system : System s place q
  current : s.currentTask = some c
  selected : place c = .ready ∨ s.idleTask = some c
  fresh : (s.ptable c).messageFlags.delivering = false

/-- What a tick does: those who sleep until now become ready, and nothing else moves. -/
structure TickOk (s : Kernel) (place : Nat → Place) (s' : Kernel)
    (place' : Nat → Place) : Prop where
  clockTicks : s'.clockTicks = (s.clockTicks + 1) % 4294967296
  trace : s'.trace = s.trace
  mem : s'.mem = s.mem
  asleep : ∀ t, place t = .asleep → s'.clockTicks < (s.ptable t).timerExpire →
    place' t = .asleep ∧ (s'.ptable t).timerExpire = (s.ptable t).timerExpire
  woken : ∀ t, place t = .asleep → (s.ptable t).timerExpire ≤ s'.clockTicks → place' t = .ready
  others : ∀ t, place t ≠ .asleep → place' t = place t

theorem countTick_step (h : Running s place q c) :
    ∃ s' q', countTick s = some s' ∧ System s' place q' ∧ s'.clockTicks = s.clockTicks ∧
      s'.trace = s.trace ∧
      s'.mem = s.mem ∧ ∀ t, (s'.ptable t).timerExpire = (s.ptable t).timerExpire := by
  obtain ⟨s', q', hres, hheld, hcase⟩ :=
    countTick_spec h.system.held h.current (h.system.rest.ready_short _)
  have hexp : ∀ {f} {k : Kernel}, Quiet f → ∀ t, ((k.modify c f).ptable t).timerExpire =
    (k.ptable t).timerExpire :=
    fun hf => modify_field Task.timerExpire (hf.field Task.timerExpire fun _ _ _ => rfl)
  have huse : Quiet useTick := fun _ => rfl
  have hrefill : Quiet refill := fun _ => rfl
  rcases hcase with ⟨hcore, rfl⟩ | ⟨hpre, ⟨hcore, rfl⟩ | ⟨hcore, rfl⟩⟩
  · exact ⟨s', q', hres, ⟨hheld, h.system.rest.core hcore, hcore.sameMail.mail h.system.mail⟩,
      hcore.clockTicks,
      hcore.trace, hcore.mem, hcore.timerExpire⟩
  · have h₁ := h.system.quiet (t := c) huse
    refine ⟨s', q', hres, ⟨hheld, h₁.rest.core hcore, hcore.sameMail.mail h₁.mail⟩,
      hcore.clockTicks, hcore.trace,
      hcore.mem, fun t => ?_⟩
    rw [hcore.timerExpire, hexp huse]
  · have h₁ := (h.system.quiet (t := c) huse).quiet (t := c) hrefill
    -- the idle task is not preemptible
    have hready : place c = .ready := h.selected.resolve_right fun hi => by
      obtain ⟨i, hidle, -, hp⟩ := h.system.rest.idle
      cases hidle.symm.trans hi
      exact absurd (hp.symm.trans hpre) (by decide)
    have hprio : prioOf ((s.modify c useTick).modify c refill) = prioOf s :=
      (prioOf_modify (f := refill) fun _ => rfl).trans (prioOf_modify (f := useTick) fun _ => rfl)
    have hrest := h₁.rest.rotate hready
    rw [hprio] at hrest
    refine ⟨s', _, hres, ⟨hheld, hrest.core hcore, hcore.sameMail.mail h₁.mail⟩,
      hcore.clockTicks, hcore.trace,
      hcore.mem, fun t => ?_⟩
    rw [hcore.timerExpire, hexp hrefill, hexp huse]

theorem TickOk.away (h : TickOk s place s' place') (t : Nat) : place' t = .away ↔
    place t = .away := by
  by_cases ht : place t = .asleep
  · refine iff_of_false (fun ha => ?_) (by rw [ht]; decide)
    rcases Nat.lt_or_ge s'.clockTicks (s.ptable t).timerExpire with hlt | hle
    · rw [(h.asleep t ht hlt).1] at ha
      cases ha
    · rw [h.woken t ht hle] at ha
      cases ha
  · rw [h.others t ht]

theorem tick_step (h : Running s place q c) :
    ∃ s' place' q', timerCallback s = some s' ∧ System s' place' q' ∧ TickOk s place s' place' := by
  have h₁ : Running { s with clockTicks := (s.clockTicks + 1) % 4294967296 } place q c :=
    ⟨h.system.frame (Nat.mod_lt _ (by decide)), h.current, h.selected, h.fresh⟩
  obtain ⟨s₂, q₂, hres₂, hsys₂, hclock, htrace, hmem, hexp⟩ := countTick_step h₁
  obtain ⟨s', q', xs, ys, hres, hq, hheld, hcore, hmember, hys, hin, hle, hlt⟩ :=
    wakeExpired_spec hsys₂.held hsys₂.rest.member hsys₂.rest.timers_short
  have hmember' := hmember
  rw [hcore.prioOf] at hmember'
  have hrest := (hsys₂.rest.wake hmember' hq hys hin).core hcore
  have hmail := hcore.sameMail.mail hsys₂.mail
  rw [← hin] at hmail
  have hclock' : s'.clockTicks = (s.clockTicks + 1) % 4294967296 := hcore.clockTicks.trans hclock
  have hsorted := hsys₂.rest.sorted
  rw [hq] at hsorted
  have hlater : ∀ y ∈ ys, s'.clockTicks < (s.ptable y).timerExpire := by
    intro y hy
    rw [hcore.clockTicks, ← show (s₂.ptable y).timerExpire = (s.ptable y).timerExpire from hexp y]
    cases ys with
    | nil => cases hy
    | cons z zs =>
      have hz := hlt z rfl
      rcases List.mem_cons.mp hy with rfl | hy
      · exact hz
      · exact Nat.lt_of_lt_of_le hz
          (List.rel_of_pairwise_cons (List.pairwise_append.mp hsorted).2.1 hy)
  have hnow : ∀ x ∈ xs, (s.ptable x).timerExpire ≤ s'.clockTicks := by
    intro x hx
    rw [hcore.clockTicks, ← show (s₂.ptable x).timerExpire = (s.ptable x).timerExpire from hexp x]
    exact hle x hx
  have hsplit : ∀ t, place t = .asleep → t ∈ xs ∨ t ∈ ys := fun t ht => by
    have := (hsys₂.rest.member.timers t).mpr ht
    rwa [hq, List.mem_append] at this
  refine ⟨s', wake place xs, q', ?_, ⟨hheld, hrest, hmail⟩,
    ⟨hclock', hcore.trace.trans htrace, hcore.mem.trans hmem,
    fun t ht hexpire => ?_, fun t ht hexpire => ?_, fun t ht => ?_⟩⟩
  · rw [timerCallback, hres₂]
    exact hres
  · have hno : t ∉ xs := fun hx => absurd (hnow t hx) (by omega)
    exact ⟨(if_neg hno).trans ht, (hcore.timerExpire t).trans (hexp t)⟩
  · refine if_pos ((hsplit t ht).resolve_right fun hy => ?_)
    have := hlater t hy
    omega
  · refine if_neg fun hx => ht ?_
    have := (hsys₂.rest.member.timers t).mp (by rw [hq]; exact List.mem_append_left _ hx)
    exact this

-- ---------------------------------------------------------------------------
-- The way in
-- ---------------------------------------------------------------------------

theorem quiet_setContext {cx : Context} : Quiet (setContext cx) := fun _ => rfl

theorem save_current {e : Entry} : (save s c e).currentTask = s.currentTask := rfl

theorem Running.save {e : Entry} (h : Running s place q c) : Running (save s c e) place q c := by
  refine ⟨(h.system.quiet quiet_setContext).frame h.system.rest.clock, h.current, h.selected, ?_⟩
  exact (congrArg (fun t : Task => t.messageFlags.delivering) modify_same).trans h.fresh

theorem save_timerExpire {e : Entry} : ((save s c e).ptable t).timerExpire =
    (s.ptable t).timerExpire :=
  modify_field (f := setContext _) Task.timerExpire (fun _ => rfl) t

theorem Running.caller (h : Running s place q c) (hidle : s.idleTask ≠ some c) : Caller s place c :=
  ⟨h.current, h.selected.resolve_right hidle, h.fresh⟩

theorem NoWake.of_save {e : Entry} (h : NoWake (save s c e) place s' place') :
    NoWake s place s' place' :=
  ⟨h.clockTicks, fun t ht => ⟨(h.asleep t ht).1, (h.asleep t ht).2.trans save_timerExpire⟩, h.away⟩

theorem TickOk.of_save {e : Entry} (h : TickOk (save s c e) place s' place') :
    TickOk { s with mem := e.mem } place s' place' := by
  refine ⟨h.clockTicks, h.trace, h.mem, fun t ht hlt => ?_, fun t ht hle => ?_, h.others⟩
  · have := h.asleep t ht
    rw [save_timerExpire] at this
    exact this hlt
  · have := h.woken t ht
    rw [save_timerExpire] at this
    exact this hle

theorem enter_call {e : Entry} (hcur : s.currentTask = some c) (hcall : e.call = true) :
    enter s e = (dispatch (save s c e) c e.context).map fun r => setEax r.2 c (toUInt32 r.1) := by
  have hcx : ((save s c e).ptable c).context = e.context := congrArg Task.context modify_same
  rw [enter, hcur, Option.bind_some, if_pos hcall, handleKernelCall, save_current, hcur,
    Option.bind_some, hcx]

theorem call_step {e : Entry} (h : Running s place q c) (hcall : e.call = true)
    (hidle : s.idleTask ≠ some c) :
    ∃ s' place' q', enter s e = some s' ∧ System s' place' q' ∧ NoWake s place s' place' ∧
      Copied s s' := by
  have h₀ := h.save (e := e)
  obtain ⟨r, s', place', q', hres, hok⟩ := dispatch_step e.context h₀.system (h₀.caller hidle)
  have hok' := hok.setEax (c := c) (v := toUInt32 r)
  refine ⟨_, place', q', ?_, hok'.system, hok'.noWake.of_save, hok'.copied⟩
  rw [enter_call h.current hcall, hres]
  rfl

theorem timer_step {e : Entry} (h : Running s place q c) (hcall : e.call = false) :
    ∃ s' place' q', enter s e = some s' ∧ System s' place' q' ∧
      TickOk { s with mem := e.mem } place s' place' := by
  obtain ⟨s', place', q', hres, hsys, hok⟩ := tick_step (h.save (e := e))
  refine ⟨s', place', q', ?_, hsys, hok.of_save⟩
  rw [enter, h.current, Option.bind_some, if_neg (by rw [hcall]; decide)]
  exact hres

-- ---------------------------------------------------------------------------
-- The way out
-- ---------------------------------------------------------------------------

theorem scheduler_eq (s : Kernel) :
    ∃ b, scheduler s = { s with rescheduleNeeded := b, nextTask := (scheduler s).nextTask } := by
  unfold scheduler
  split
  · exact ⟨_, rfl⟩
  · exact ⟨_, rfl⟩

theorem System.scheduler (h : System s place q) : System (scheduler s) place q := by
  have hl := scheduler_lazy h.held.lazy
  obtain ⟨b, heq⟩ := scheduler_eq s
  rw [heq] at hl ⊢
  exact ⟨⟨h.held.ready.congr rfl rfl (fun _ => rfl) fun _ => rfl, h.held.timers, h.held.inbox, hl⟩,
    h.rest.congr ⟨rfl, rfl, h.rest.clock, fun _ => rfl, fun _ => rfl, fun _ => rfl,
    fun _ => rfl, fun _ => rfl,
      fun _ => rfl, fun _ => rfl⟩, h.mail⟩

theorem System.choice (h : System s place q) :
    ∃ c, s.choice = some c ∧ (place c = .ready ∨ s.idleTask = some c) := by
  obtain ⟨i, hidle, -, -⟩ := h.rest.idle
  rw [Kernel.choice]
  cases hfind : (List.range (lowestTaskPriority + 1)).findSome? s.queueHead with
  | none => exact ⟨i, hidle, .inr hidle⟩
  | some c =>
    obtain ⟨p, -, hp⟩ := List.exists_of_findSome?_eq_some hfind
    refine ⟨c, rfl, .inl ?_⟩
    have hmem : c ∈ q.ready p :=
      List.mem_of_mem_head? (((h.held.ready.links p).head.symm.trans hp) : _)
    exact ((h.rest.member.ready p c).mp hmem).1

theorem System.choice_ready (h : System s place q) (ht : place t = .ready) :
    ∃ c, s.choice = some c ∧ place c = .ready := by
  obtain ⟨c, hchoice, hc | hidle⟩ := h.choice
  · exact ⟨c, hchoice, hc⟩
  · rw [Kernel.choice] at hchoice
    cases hfind : (List.range (lowestTaskPriority + 1)).findSome? s.queueHead with
    | some x =>
      obtain ⟨p, -, hp⟩ := List.exists_of_findSome?_eq_some hfind
      rw [hfind, Option.some_or] at hchoice
      cases hchoice
      exact ⟨c, by rw [Kernel.choice, hfind, Option.some_or], ((h.rest.member.ready p c).mp
        (List.mem_of_mem_head? ((h.held.ready.links p).head.symm.trans hp))).1⟩
    | none =>
      have hmem := (h.rest.member.ready (prioOf s t) t).mpr ⟨ht, rfl⟩
      have hle := (h.rest.bound t (by rw [ht]; decide)).2
      have hhead :=
        List.findSome?_eq_none_iff.mp hfind (prioOf s t)
          (List.mem_range.mpr (Nat.lt_succ_of_le hle))
      rw [show s.queueHead (prioOf s t) = (q.ready (prioOf s t)).head? from
        (h.held.ready.links _).head,
        List.head?_eq_none_iff] at hhead
      rw [hhead] at hmem
      cases hmem

theorem modify_modify {g : Task → Task} : (s.modify t f).modify t g = s.modify t (g ∘ f) := by
  simp only [Kernel.modify, Function.update_self, Function.update_idem, Function.comp]

theorem deliver_step (h : System s place q) (hready : place c = .ready)
    (hdel : (s.ptable c).messageFlags.delivering = true) :
    let s' := (messageDeliver (s.modify c clearAfterSwitch) c).2
    System s' place q ∧ NoWake s place s' place ∧ Copied s s' ∧
    (s'.ptable c).messageFlags.delivering = false ∧
      s'.currentTask = s.currentTask ∧ s'.idleTask = s.idleTask ∧
      s'.trace = .copied (s.ptable c).messageBuffer c (s.ptable c).messagePtr
        (s.ptable c).messageRecPid :: s.trace := by
  have hself : (s.modify c clearAfterSwitch).ptable c = clearAfterSwitch (s.ptable c) := modify_same
  have heq : (messageDeliver (s.modify c clearAfterSwitch) c).2 =
      (({ s with mem :=
      writeMessage s.mem (s.ptable c).messagePtr (s.ptable c).messageBuffer }).emit
        (.copied (s.ptable c).messageBuffer c (s.ptable c).messagePtr
          (s.ptable c).messageRecPid)).modify c
          (endReceive ∘ clearAfterSwitch) := by
    rw [messageDeliver, hself,
      if_neg (by rw [show (clearAfterSwitch _).messageFlags.delivering = true from hdel]; decide),
      ← modify_modify]
    rfl
  intro s'
  rw [show s' = _ from heq]
  have hno := h.not_queued (t := c) (by rw [hready]; rfl)
  have hask : s.asks c = some ((s.ptable c).messagePtr, (s.ptable c).messageRecPid) :=
    if_pos (.inr hdel)
  have hrest := h.rest.deliver hready
  rw [modify_modify] at hrest
  have hmail := h.mail.deliver (m := .zero) hask hdel hno
  have hpid : (s.modify c (endReceive ∘ clearAfterSwitch)).pid = s.pid :=
    field_modify_same Task.pid rfl
  have hasks : (s.modify c (endReceive ∘ clearAfterSwitch)).asks =
    Function.update s.asks c none := by
    refine (field_modify Task.asks).trans (congrArg _ (if_neg fun ho => ?_))
    rcases ho with ho | ho
    · have hrec : (s.ptable c).messageFlags.receiving = true := ho
      rw [(h.rest.status c).receiving, hready] at hrec
      cases hrec
    · cases ho
  have hbuf : (s.modify c (endReceive ∘ clearAfterSwitch)).buffer =
    Function.update s.buffer c .zero :=
    field_modify Task.messageBuffer
  have hdel' : (s.modify c (endReceive ∘ clearAfterSwitch)).delivering =
    Function.update s.delivering c false :=
    field_modify fun t => t.messageFlags.delivering
  rw [← hpid, ← hasks, ← hbuf, ← hdel'] at hmail
  refine ⟨⟨?_, ?_, hmail⟩, ?_, ?_, ?_, rfl, rfl, rfl⟩
  · exact h.held.setMem.emit.modify (f := endReceive ∘ clearAfterSwitch) (fun _ => rfl)
      (fun _ => rfl) (fun _ => rfl)
      (fun _ => rfl) fun _ => rfl
  · exact hrest.congr ⟨rfl, rfl, h.rest.clock, fun _ => rfl, fun _ => rfl, fun _ => rfl,
      fun _ => rfl, fun _ => rfl,
      fun _ => rfl, fun _ => rfl⟩
  · refine ⟨rfl, fun t ht => ⟨ht, ?_⟩, fun _ => .rfl⟩
    exact modify_field (f := endReceive ∘ clearAfterSwitch) Task.timerExpire (fun _ => rfl) t
  · intro m t ptr origin tr he
    cases he
    exact .inr fun i => writeMessage_at
  · exact congrArg (fun t : Task => t.messageFlags.delivering)
      (modify_same (f := endReceive ∘ clearAfterSwitch))

def switchTo (s : Kernel) (c : Nat) : Kernel := { scheduler s with currentTask := some c }

theorem switchTo_spec (h : System s place q) :
    System (switchTo s c) place q ∧ (switchTo s c).ptable = s.ptable ∧
    (switchTo s c).idleTask = s.idleTask ∧
      (switchTo s c).trace = s.trace ∧ (switchTo s c).clockTicks = s.clockTicks := by
  refine ⟨h.scheduler.frame h.scheduler.rest.clock, ?_⟩
  obtain ⟨b, heq⟩ := scheduler_eq s
  rw [switchTo, heq]
  exact ⟨rfl, rfl, rfl, rfl⟩

theorem resume_step (h : System s place q) :
    ∃ s' c, resume s = some s' ∧ Running s' place q c ∧ s.choice = some c ∧
      s'.idleTask = s.idleTask ∧
      NoWake s place s' place ∧ Copied s s' := by
  obtain ⟨c, hchoice, hselected⟩ := h.choice
  obtain ⟨h₁, hpt, hidle, htrace, hclock⟩ := switchTo_spec (c := c) h
  have hnext := (scheduler_nextTask h.held.lazy).trans hchoice
  have hres : resume s = afterContextSwitch (switchTo s c) := by
    rw [switchTo, ← hnext]
    rfl
  have hwake : NoWake s place (switchTo s c) place :=
    ⟨hclock, fun t ht => ⟨ht, by rw [hpt]⟩, fun _ => .rfl⟩
  rw [← hidle] at hselected
  have hafter := (h₁.rest.status c).afterSwitch
  rw [afterContextSwitch, show (switchTo s c).currentTask = some c from rfl,
    Option.map_some] at hres
  cases hdel : ((switchTo s c).ptable c).messageFlags.delivering with
  | false =>
    rw [hdel] at hafter
    rw [if_neg (by rw [hafter]; decide)] at hres
    exact ⟨_, c, hres, ⟨h₁, rfl, hselected, hdel⟩, hchoice, hidle, hwake, .same htrace⟩
  | true =>
    rw [hdel] at hafter
    rw [if_pos hafter] at hres
    have hready := (h₁.rest.status c).delivering hdel
    obtain ⟨h₂, hwake₂, hcopied, hnd, hcur₂, hidle₂, -⟩ := deliver_step h₁ hready hdel
    have hfst : (messageDeliver ((switchTo s c).modify c clearAfterSwitch) c).1 = true := by
      have hself : ((switchTo s c).modify c clearAfterSwitch).ptable c =
        clearAfterSwitch ((switchTo s c).ptable c) :=
        modify_same
      rw [messageDeliver, hself,
        if_neg (by rw [show (clearAfterSwitch _).messageFlags.delivering = true from hdel]; decide)]
    rw [if_pos hfst] at hres
    refine ⟨_, c, hres, ⟨h₂.quiet quiet_withEax, hcur₂, .inl hready, ?_⟩, hchoice,
      hidle₂.trans hidle,
      (hwake.trans hwake₂).trans (.quiet quiet_withEax), fun m t ptr origin tr he => ?_⟩
    · exact (congrArg (fun t : Task => t.messageFlags.delivering) modify_same).trans hnd
    · rw [← htrace]
      exact hcopied m t ptr origin tr he

end

end ElcoOs.Tasks
