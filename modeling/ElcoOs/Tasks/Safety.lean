import ElcoOs.Tasks.Runs

/-!
# Where tasks can be found

In every state of a run each task that was started is in one list, once, or
waits for a message in none; and nobody waits for a message that is there.
-/

namespace ElcoOs.Tasks

/-- A task in the lists of the kernel, each of which has it once or not at all, and the flags
that go with its place. -/
structure Occupies (s : Kernel) (t : Nat) (P : Place) : Prop where
  ready : ∀ p xs, (s.readyLinks p).Holds xs → xs.count t = if P = .ready ∧
    (s.ptable t).priority = p then 1 else 0
  timers : ∀ xs, s.timerLinks.Holds xs → xs.count t = if P = .asleep then 1 else 0
  inbox : ∀ d xs, (s.inboxLinks d).Holds xs → xs.count t = if P = .sending d then 1 else 0
  sendTo : ∀ d, P = .sending d → (s.ptable t).messageSendTo = some d
  sending : (s.ptable t).messageFlags.sending = P.isSending
  receiving : (s.ptable t).messageFlags.receiving = decide (P = .receiving)

/-- All lists end, without a cycle, and the tails of the ready queues are their last elements. -/
structure Chained (s : Kernel) : Prop where
  ready : ∀ p, ∃ xs, (s.readyLinks p).Holds xs ∧ xs.Nodup ∧ s.queueTail p = xs.getLast?
  timers : ∃ xs, s.timerLinks.Holds xs ∧ xs.Nodup
  inbox : ∀ d, ∃ xs, (s.inboxLinks d).Holds xs ∧ xs.Nodup

section
variable {queued : List Nat} {m : Machine} {place : Nat → Place} {q : Lists} {s : Kernel}
  {t : Nat} {P Q : Place}

theorem Held.chained (h : Held s q) : Chained s :=
  ⟨fun p => ⟨_, h.ready.links p, (h.ready.links p).nodup, h.ready.tail p⟩,
  ⟨_, h.timers, h.timers.nodup⟩,
    fun d => ⟨_, h.inbox d, (h.inbox d).nodup⟩⟩

theorem count_eq {xs : List Nat} {p : Prop} [Decidable p] (hnd : xs.Nodup) (h : t ∈ xs ↔ p) :
    xs.count t = if p then 1 else 0 := by
  split
  · exact List.count_eq_one_of_mem hnd (h.mpr ‹_›)
  · exact List.count_eq_zero.mpr fun ht => ‹¬_› (h.mp ht)

theorem System.occupies (h : System s place q) (t : Nat) : Occupies s t (place t) := by
  refine ⟨fun p xs hxs => ?_, fun xs hxs => ?_, fun d xs hxs => ?_, (h.rest.status t).sendTo,
    (h.rest.status t).sending,
    (h.rest.status t).receiving⟩
  · rw [hxs.unique (h.held.ready.links p)]
    exact count_eq (h.rest.member.readyNodup p) (h.rest.member.ready p t)
  · rw [hxs.unique h.held.timers]
    exact count_eq h.rest.member.timersNodup (h.rest.member.timers t)
  · rw [hxs.unique (h.held.inbox d)]
    exact count_eq (h.rest.member.inboxNodup d) (h.rest.member.inbox d t)

theorem Occupies.unique (hc : Chained s) (h : Occupies s t P) (h' : Occupies s t Q) (hP : P ≠ .away)
    (hQ : Q ≠ .away) :
    P = Q := by
  obtain ⟨xs, hxs, -⟩ := hc.ready (s.ptable t).priority
  obtain ⟨ys, hys, -⟩ := hc.timers
  have hready := (h.ready _ xs hxs).symm.trans (h'.ready _ xs hxs)
  have htimers := (h.timers ys hys).symm.trans (h'.timers ys hys)
  have hsending := h.sending.symm.trans h'.sending
  have hreceiving := h.receiving.symm.trans h'.receiving
  cases P with
  | away => exact absurd rfl hP
  | ready => cases Q <;> simp_all [Place.isSending]
  | asleep => cases Q <;> simp_all [Place.isSending]
  | receiving => cases Q <;> simp_all [Place.isSending]
  | sending d =>
    cases Q with
    | sending e =>
      have := (h.sendTo d rfl).symm.trans (h'.sendTo e rfl)
      rw [Option.some.inj this]
    | _ => simp_all [Place.isSending]

/-- In every state of a run all lists are finite chains, and each task that was enqueued is in
exactly one place. -/
theorem one_place (h : KernelRun queued m) :
    Chained m.kernel ∧ ∀ t ∈ queued, ∃! P, P ≠ .away ∧ Occupies m.kernel t P := by
  obtain ⟨place, q, hok⟩ := KernelRun.ok h
  refine ⟨hok.system.held.chained,
    fun t ht => ⟨place t, ⟨(hok.started t).mpr ht, hok.system.occupies t⟩, ?_⟩⟩
  rintro P ⟨hP, hocc⟩
  exact hocc.unique hok.system.held.chained (hok.system.occupies t) hP ((hok.started t).mpr ht)

/-- One task in each of the four places. -/
theorem one_place_rendezvous :
    (Chained rendezvous.kernel ∧ ∀ t ∈ [2, 1, 3, 4], ∃! P, P ≠ .away ∧
    Occupies rendezvous.kernel t P) ∧
      (rendezvous.kernel.readyLinks 0).Holds [2] ∧ rendezvous.kernel.timerLinks.Holds [4] ∧
      (rendezvous.kernel.inboxLinks 1).Holds [3] ∧
      (rendezvous.kernel.ptable 1).messageFlags.receiving = true :=
  ⟨one_place rendezvous_run, by decide +kernel⟩

/-- In every state of a run a task that waits for a message has none of its kind in its queue,
and the message flags exclude each other. -/
theorem no_missed_rendezvous (h : KernelRun queued m) (r : Nat) :
    (∃ xs, (m.kernel.inboxLinks r).Holds xs ∧ ((m.kernel.ptable r).messageFlags.receiving = true →
      (∀ t ∈ xs, (m.kernel.ptable t).pid ≠ (m.kernel.ptable r).messageRecPid) ∧
        ((m.kernel.ptable r).messageRecPid = pidAllTasks → xs = []))) ∧
      ¬((m.kernel.ptable r).messageFlags.sending = true ∧
      (m.kernel.ptable r).messageFlags.receiving = true) ∧
      ¬((m.kernel.ptable r).messageFlags.sending = true ∧
      (m.kernel.ptable r).messageFlags.delivering = true) ∧
      ¬((m.kernel.ptable r).messageFlags.receiving = true ∧
      (m.kernel.ptable r).messageFlags.delivering = true) ∧
      (m.kernel.ptable r).flags.afterSwitch = (m.kernel.ptable r).messageFlags.delivering := by
  obtain ⟨place, q, hok⟩ := KernelRun.ok h
  have hst := hok.system.rest.status r
  refine ⟨⟨_, hok.system.held.inbox r, fun hrec => ?_⟩, fun hf => ?_, fun hf => ?_,
    fun hf => ?_, hst.afterSwitch⟩
  · have hplace : place r = .receiving := by
      rw [hst.receiving] at hrec
      exact of_decide_eq_true hrec
    have hnone := fun t ht => not_named (hok.system.rest.rendezvous r hplace t ht)
    refine ⟨fun t ht he => hnone t ht (.inr he.symm),
      fun hall => List.eq_nil_iff_forall_not_mem.mpr fun t ht => ?_⟩
    exact hnone t ht (.inl hall)
  · rw [hst.sending, hst.receiving] at hf
    rw [of_decide_eq_true hf.2] at hf
    exact absurd hf.1 (by decide)
  · rw [hst.sending, hst.delivering hf.2] at hf
    exact absurd hf.1 (by decide)
  · rw [hst.receiving, hst.delivering hf.2] at hf
    exact absurd hf.1 (by decide)

/-- Task 1 waits for 2, and 3 is in its queue. -/
theorem no_missed_rendezvous_waiting :
    (rendezvous.kernel.ptable 1).messageFlags.receiving = true ∧
    (rendezvous.kernel.inboxLinks 1).Holds [3] ∧
      (rendezvous.kernel.ptable 3).pid ≠ (rendezvous.kernel.ptable 1).messageRecPid := by
  have hrec : (rendezvous.kernel.ptable 1).messageFlags.receiving = true := by decide +kernel
  have hheld : (rendezvous.kernel.inboxLinks 1).Holds [3] := by decide +kernel
  obtain ⟨⟨xs, hxs, hnone⟩, -⟩ := no_missed_rendezvous rendezvous_run 1
  cases hxs.unique hheld
  exact ⟨hrec, hheld, (hnone hrec).1 3 List.mem_cons_self⟩

end

end ElcoOs.Tasks
