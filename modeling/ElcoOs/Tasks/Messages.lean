import ElcoOs.Tasks.Clock

/-!
# Sending and receiving

A message is handed over in one of two ways: into the buffer of a destination
that waits for it, or by a sender that waits in the destination's queue until
it is received.
-/

namespace ElcoOs.Tasks

variable {s s' : Kernel} {q : Lists} {place : Nat → Place} {t c d : Nat} {xs ys : List Nat}
  {pid : Int} {ptr : Nat}

theorem Held.emit {e : Event} (h : Held s q) : Held (s.emit e) q :=
  h.mk' ⟨rfl, rfl, rfl, rfl, rfl, fun _ => rfl, fun _ => rfl⟩ h.timers h.inbox

theorem Held.setMem {m : Memory} (h : Held s q) : Held { s with mem := m } q :=
  h.mk' ⟨rfl, rfl, rfl, rfl, rfl, fun _ => rfl, fun _ => rfl⟩ h.timers h.inbox

-- ---------------------------------------------------------------------------
-- Direct sends
-- ---------------------------------------------------------------------------

def messageAt (s : Kernel) (ptr : Nat) : Message := readMessage s.mem ptr (sends s.trace)

theorem messageSend_direct (ptr : Nat) (h : Held s q) (hd : findTask s pid = some d)
    (hw : waitsFor (s.ptable d) (s.ptable c)) (hno : ∀ p, d ∉ q.ready p) :
    ∃ s', messageSend s c pid ptr = some (0, s') ∧ Held s' (q.enqueue (prioOf s d) d) ∧
      SameCore ((s.modify d (acceptDirect (messageAt s ptr))).emit
        (.sent (messageAt s ptr) c d true)) s' := by
  have h₁ :
    Held ((s.modify d (acceptDirect (messageAt s ptr))).emit (.sent (messageAt s ptr) c d true))
      q :=
    (h.modify (f := acceptDirect _) (fun _ => rfl) (fun _ => rfl) (fun _ => rfl)
      (fun _ => rfl) fun _ => rfl).emit
  obtain ⟨s', hres, h', hc⟩ := h₁.enqueue hno
  have hprio : prioOf (s.modify d (acceptDirect (messageAt s ptr))) d = prioOf s d :=
    modify_field (f := acceptDirect _) Task.priority (fun _ => rfl) d
  refine ⟨s', ?_, hprio ▸ h', hc⟩
  rw [messageSend, hd]
  simp only [if_pos hw]
  exact congrArg (Option.map _) hres

-- ---------------------------------------------------------------------------
-- Queued sends
-- ---------------------------------------------------------------------------

theorem Member.inbox_once {prio : Nat → Nat} {e : Nat} (h : Member prio place q)
    (hd : t ∈ q.inbox d) (he : t ∈ q.inbox e) :
    e = d := by
  have := ((h.inbox e t).mp he).symm.trans ((h.inbox d t).mp hd)
  simpa using this

theorem Held.appendInbox {prio : Nat → Nat} (h : Held s q) (hm : Member prio place q)
    (hno : ∀ e, c ∉ q.inbox e) :
    Held ((s.setInboxLink d (q.inbox d).getLast? (some c)).setQNext c none)
      (q.setInbox d (q.inbox d ++ [c])) := by
  refine h.mk' (sameReady_setInboxLink.trans sameReady_setQNext) ?_ fun e => ?_
  · rw [timerLinks_setQNext, timerLinks_setInboxLink]
    exact h.timers
  · by_cases he : e = d
    · subst he
      rw [Function.update_self]
      -- as if the caller's link had been cleared first
      have h₀ : Links.Holds ⟨(s.inboxLinks e).head, Function.update (s.inboxLinks e).next c none⟩
        (q.inbox e ++ []) := by
        rw [List.append_nil]
        exact (h.inbox e).congr rfl fun u hu =>
          Function.update_of_ne (fun hx : u = c => hno e (hx ▸ hu)) ..
      have hins := h₀.insert (x := c) (by simpa using hno e) (Function.update_self ..)
      have hlink := inboxLinks_setInboxLink (s := s) (d := e) (b :=
        (q.inbox e).getLast?) (v := some c)
      refine hins.congr ?_ fun u _ => setQNext_messageQNext.trans ?_
      · rw [show (((s.setInboxLink e _ _).setQNext c none).inboxLinks e).head =
          ((s.setInboxLink e _ _).inboxLinks e).head
          from setQNext_messageQHead, hlink]
        cases (q.inbox e).getLast? <;> rfl
      · rw [show ((s.setInboxLink e _ _).ptable u).messageQNext =
          ((s.setInboxLink e _ _).inboxLinks e).next u from rfl, hlink]
        cases hl : (q.inbox e).getLast? with
        | none => exact (Function.update_apply ..).symm
        | some x =>
          have hx : x ≠ c := fun hx => hno e (hx ▸ List.mem_of_getLast? hl)
          simp only [Links.set, Function.update_apply]
          by_cases hux : u = x
          · rw [if_pos hux, if_pos hux, if_neg (hux ▸ hx)]
          · rw [if_neg hux, if_neg hux]
    · rw [Function.update_of_ne he]
      have hother := holds_setInboxLink_other (v := some c) (d := d) (h.inbox e) he (b :=
        (q.inbox d).getLast?)
        fun x hx hxe => he (hm.inbox_once (List.mem_of_getLast? hx) hxe)
      refine hother.congr setQNext_messageQHead fun u hu =>
        setQNext_messageQNext.trans (if_neg fun hx => ?_)
      exact hno e (hx ▸ hu)

theorem appendSender_spec (h : Held s q) (hlen : (q.inbox d).length < s.rounds) :
    appendSender s d c =
    some ((s.setInboxLink d (q.inbox d).getLast? (some c)).setQNext c none) := by
  have hd := h.inbox d
  have hhead : (s.ptable d).messageQHead = (q.inbox d).head? := hd.head
  unfold appendSender
  rw [hhead]
  rcases List.eq_nil_or_concat (q.inbox d) with hnil | ⟨init, last, hlast⟩
  · rw [hnil]
    rfl
  · rw [List.concat_eq_append] at hlast
    rw [hlast] at hd hlen hhead ⊢
    have hseek := hd.seek_eq (p := fun t => ((s.ptable t).messageQNext).isNone) (k := s.rounds)
      (fun x hx => ?_) ?_
      (by simp only [List.length_append] at hlen; omega)
    · cases hh : (init ++ [last]).head? with
      | none => cases init <;> simp at hh
      | some x =>
        rw [show (s.inboxLinks d).head = some x from hhead.trans hh] at hseek
        rw [List.getLast?_concat]
        simp only [hseek, Option.map_some]
        rfl
    · obtain ⟨as, bs, rfl⟩ := List.append_of_mem hx
      have hnext := hd
      rw [List.append_assoc, List.cons_append] at hnext
      have := hnext.next_eq
      cases bs <;> exact congrArg Option.isNone this
    · intro y hy
      cases hy
      exact congrArg Option.isNone hd.next_eq

theorem messageSend_queued {prio : Nat → Nat} (ptr : Nat) (h : Held s q) (hm : Member prio place q)
    (hd : findTask s pid = some d)
    (hw : ¬waitsFor (s.ptable d) (s.ptable c)) (hno : ∀ e, c ∉ q.inbox e)
    (hlen : (q.inbox d).length < s.rounds) (hlen' : (q.ready (prioOf s c)).length < s.rounds) :
    ∃ s', messageSend s c pid ptr = some (0, s') ∧
      Held s' ((q.setInbox d (q.inbox d ++ [c])).dequeue (prioOf s c) c) ∧
      SameCore ((s.modify c (startSend d (messageAt s ptr))).emit
        (.sent (messageAt s ptr) c d false)) s' := by
  have h₁ :
    Held ((s.modify c (startSend d (messageAt s ptr))).emit (.sent (messageAt s ptr) c d false))
      q :=
    (h.modify (f := startSend d _) (fun _ => rfl) (fun _ => rfl) (fun _ => rfl)
      (fun _ => rfl) fun _ => rfl).emit
  generalize hs₁ :
    (s.modify c (startSend d (messageAt s ptr))).emit (.sent (messageAt s ptr) c d false) = s₁ at h₁
  have hrounds : s₁.rounds = s.rounds := by rw [← hs₁]; rfl
  have hprio : prioOf s₁ c = prioOf s c := by
    rw [← hs₁]
    exact modify_field (f := startSend d _) Task.priority (fun _ => rfl) c
  have happ := appendSender_spec (c := c) h₁ (d := d) (by rw [hrounds]; exact hlen)
  have h₂ := h₁.appendInbox (d := d) hm hno
  have hc₂ : SameCore s₁ ((s₁.setInboxLink d (q.inbox d).getLast? (some c)).setQNext c none) :=
    sameCore_setInboxLink.trans sameCore_setQNext
  have hprio₂ := (congrFun hc₂.prioOf c).trans hprio
  obtain ⟨s', hres, h', hc'⟩ := h₂.dequeue (t := c) (by
    rw [show (_ : Task).priority = prioOf s c from hprio₂, Kernel.rounds, hc₂.taskCount]
    exact Nat.lt_of_lt_of_eq hlen' hrounds.symm)
  rw [show (_ : Task).priority = prioOf s c from hprio₂] at h'
  refine ⟨s', ?_, h', hc₂.trans hc'⟩
  rw [messageSend, hd]
  simp only [if_neg hw]
  rw [show readMessage s.mem ptr (sends s.trace) = messageAt s ptr from rfl, hs₁, happ,
    Option.bind_some, blockTask, hres]
  rfl

-- ---------------------------------------------------------------------------
-- Receiving
-- ---------------------------------------------------------------------------

/-- Whether a receive for `pid` takes the message of this task. -/
def wanted (s : Kernel) (pid : Int) (t : Nat) : Bool :=
  pid == pidAllTasks || pid == (s.ptable t).pid

/-- What `message_send` returns and adds to the history: nothing if it finds no such task, and else
one message, in the buffer of the destination just if that waits for the caller. -/
def SendOutcome (s : Kernel) (c : Nat) (pid : Int) (ptr : Nat) (r : Int) (s' : Kernel) : Prop :=
  match findTask s pid with
  | none => r = -1 ∧ s'.trace = s.trace
  | some d =>
    r = 0 ∧ s'.trace = .sent (messageAt s ptr) c d (decide (waitsFor (s.ptable d) (s.ptable c))) ::
    s.trace

/-- What `message_receive` returns and adds to the history: of the senders in the caller's queue the
first that the call names is taken, and only if there is none the caller waits. -/
def ReceiveOutcome (s : Kernel) (c : Nat) (pid : Int) (ptr : Nat) (r : Int) (s' : Kernel) : Prop :=
  if pid = pidNoTask then r = -1 ∧ s'.trace = s.trace
  else r = 0 ∧ ∃ xs, (s.inboxLinks c).Holds xs ∧
    match xs.find? (wanted s pid) with
    | some t =>
      s'.trace = .copied (s.ptable t).messageBuffer c ptr pid :: .asked c ptr pid :: s.trace
    | none => s'.trace = .asked c ptr pid :: s.trace ∧ (s'.ptable c).messageFlags.receiving = true

theorem Held.cutInbox {prio : Nat → Nat} (h : Held s q) (hm : Member prio place q)
    (hq : q.inbox d = xs ++ t :: ys) :
    Held ((s.setInboxLink d xs.getLast? (s.ptable t).messageQNext).modify t endSend)
      (q.setInbox d (xs ++ ys)) := by
  have hd := h.inbox d
  rw [hq] at hd
  have ht : t ∈ q.inbox d := by simp [hq]
  have hcut := hd.remove
  rw [show (s.inboxLinks d).next t = (s.ptable t).messageQNext from rfl, ← inboxLinks_setInboxLink]
    at hcut
  have hno : t ∉ xs ++ ys := (List.nodup_cons.mp (List.nodup_middle.mp hd.nodup)).1
  have hnext : ∀ (k : Kernel) u, u ≠ t → ((k.modify t endSend).ptable u).messageQNext =
    (k.ptable u).messageQNext :=
    fun k u hu => congrArg Task.messageQNext (modify_other hu)
  have hhead : ∀ (k : Kernel) u, ((k.modify t endSend).ptable u).messageQHead =
    (k.ptable u).messageQHead :=
    fun k u => modify_field (f := endSend) Task.messageQHead (fun _ => rfl) u
  refine h.mk' (sameReady_setInboxLink.trans (sameReady_modify (f := endSend)
    (fun _ => rfl) fun _ => rfl)) ?_ fun e => ?_
  · rw [timerLinks_modify (f := endSend) fun _ => rfl, timerLinks_setInboxLink]
    exact h.timers
  · by_cases he : e = d
    · subst he
      rw [Function.update_self]
      exact hcut.congr (hhead _ e) fun u hu => hnext _ u fun hx => hno (hx ▸ hu)
    · rw [Function.update_of_ne he]
      have hother := holds_setInboxLink_other (v := (s.ptable t).messageQNext) (h.inbox e) he (b :=
        xs.getLast?)
        fun x hx hxe =>
        he (hm.inbox_once (by rw [hq]; exact List.mem_append_left _ (List.mem_of_getLast? hx)) hxe)
      exact hother.congr (hhead _ e) fun u hu => hnext _ u fun hx => he (hm.inbox_once ht (hx ▸ hu))

def copyOut (s : Kernel) (c ptr : Nat) (pid : Int) (t : Nat) : Kernel :=
  ({ s.emit (.asked c ptr pid) with mem := writeMessage s.mem ptr (s.ptable t).messageBuffer }).emit
    (.copied (s.ptable t).messageBuffer c ptr pid)

theorem messageReceive_take {prio : Nat → Nat} (ptr : Nat) (h : Held s q) (hm : Member prio place q)
    (hpid : pid ≠ pidNoTask)
    (hq : q.inbox c = xs ++ t :: ys) (hxs : ∀ x ∈ xs, wanted s pid x = false)
    (ht : wanted s pid t = true) (hlen : (q.inbox c).length < s.rounds) (hno : ∀ p, t ∉ q.ready p) :
    ∃ s', messageReceive s c pid ptr = some (0, s') ∧
      Held s' ((q.setInbox c (xs ++ ys)).enqueue (prioOf s t) t) ∧
      SameCore ((copyOut s c ptr pid t).modify t endSend) s' := by
  have hc := h.inbox c
  rw [hq] at hc hlen
  have hseek := hc.seek_eq (p := wanted s pid) (k := s.rounds) hxs (by simpa using ht)
    (by simp only [List.length_append] at hlen; omega)
  have h₁ : Held (copyOut s c ptr pid t) q := (h.emit (e := .asked c ptr pid)).setMem.emit
  have h₂ := h₁.cutInbox hm hq
  obtain ⟨s', hres, h', hc'⟩ := h₂.enqueue (t := t) hno
  have hcore : SameCore (copyOut s c ptr pid t)
      ((copyOut s c ptr pid t).setInboxLink c xs.getLast? (s.ptable t).messageQNext) :=
      sameCore_setInboxLink
  have hcore₂ := (hcore.modify (f := endSend) (t := t) fun _ => rfl).trans hc'
  have hprio :
    prioOf (((copyOut s c ptr pid t).setInboxLink c xs.getLast? (s.ptable t).messageQNext).modify t
      endSend) t =
      prioOf s t :=
    (modify_field (f := endSend) Task.priority (fun _ => rfl) t).trans (congrFun hcore.prioOf t)
  refine ⟨s', ?_, hprio ▸ h', hcore₂⟩
  rw [messageReceive, if_neg hpid]
  refine (congrArg (Option.bind · _) hseek).trans ?_
  exact congrArg (Option.map _) hres

theorem messageReceive_block (ptr : Nat) (h : Held s q) (hpid : pid ≠ pidNoTask)
    (hall : ∀ x ∈ q.inbox c, wanted s pid x = false)
    (hlen : (q.inbox c).length < s.rounds) (hlen' : (q.ready (prioOf s c)).length < s.rounds) :
    ∃ s', messageReceive s c pid ptr = some (0, s') ∧ Held s' (q.dequeue (prioOf s c) c) ∧
      SameCore ((s.emit (.asked c ptr pid)).modify c (startReceive ptr pid)) s' := by
  have hc := h.inbox c
  rw [← List.append_nil (q.inbox c)] at hc
  have hseek := hc.seek_eq (p := wanted s pid) (k := s.rounds) hall (by simp) hlen
  have h₁ : Held ((s.emit (.asked c ptr pid)).modify c (startReceive ptr pid)) q :=
    h.emit.modify (f := startReceive ptr pid) (fun _ => rfl) (fun _ => rfl) (fun _ => rfl)
      (fun _ => rfl) fun _ => rfl
  have hprio : prioOf ((s.emit (.asked c ptr pid)).modify c (startReceive ptr pid)) c =
    prioOf s c :=
    modify_field (f := startReceive ptr pid) Task.priority (fun _ => rfl) c
  obtain ⟨s', hres, h', hc'⟩ := h₁.dequeue (t := c) (by
    rw [show (_ : Task).priority = prioOf s c from hprio]
    exact hlen')
  rw [show (_ : Task).priority = prioOf s c from hprio] at h'
  refine ⟨s', ?_, h', hc'⟩
  rw [messageReceive, if_neg hpid]
  refine (congrArg (Option.bind · _) hseek).trans ?_
  exact congrArg (Option.map _) hres

end ElcoOs.Tasks
