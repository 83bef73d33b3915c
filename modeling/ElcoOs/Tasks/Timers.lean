import Mathlib.Data.List.Infix
import ElcoOs.Tasks.Sleep

/-!
# The timer list

The timers are a queue ordered by the tick at which they expire and, among
those that expire together, by when the sleep began. A tick takes off just
those that have expired, and puts them at the end of the ready queues in the
order of the list.
-/

namespace ElcoOs.Tasks

theorem cut_sorted {α : Type} {f : α → Nat} {xs : List α} (k : Nat)
    (h : xs.Pairwise fun a b => f a ≤ f b) :
    xs.takeWhile (fun x => decide (f x ≤ k)) = xs.filter (fun x => decide (f x ≤ k)) ∧
      xs.dropWhile (fun x => decide (f x ≤ k)) = xs.filter fun x => decide (k < f x) := by
  induction xs with
  | nil => exact ⟨rfl, rfl⟩
  | cons x xs ih =>
    obtain ⟨hx, hxs⟩ := List.pairwise_cons.mp h
    obtain ⟨htake, hdrop⟩ := ih hxs
    by_cases hle : f x ≤ k
    · have hlt : ¬k < f x := Nat.not_lt.mpr hle
      simp only [List.takeWhile_cons, List.dropWhile_cons, List.filter_cons, hle, hlt, decide_true,
        decide_false, if_true,
        Bool.false_eq_true, if_false, htake, hdrop, and_self]
    · have hall : ∀ y ∈ xs, k < f y :=
        fun y hy => Nat.lt_of_lt_of_le (Nat.lt_of_not_le hle) (hx y hy)
      have hnone : xs.filter (fun x => decide (f x ≤ k)) = [] :=
        List.filter_eq_nil_iff.mpr fun y hy => by simpa using hall y hy
      have hself : xs.filter (fun x => decide (k < f x)) = xs :=
        List.filter_eq_self.mpr fun y hy => by simpa using hall y hy
      have hlt : k < f x := Nat.lt_of_not_le hle
      simp only [List.takeWhile_cons, List.dropWhile_cons, List.filter_cons, hle, hlt, decide_true,
        decide_false, if_true,
        Bool.false_eq_true, if_false, hnone, hself, and_self]

def expireOf (s : Kernel) (t : Nat) : Nat := (s.ptable t).timerExpire

def appended (prio : Nat → Nat) (ready : Nat → List Nat) (xs : List Nat) (p : Nat) : List Nat :=
  ready p ++ xs.filter fun t => decide (prio t = p)

section
variable {queued : List Nat} {s s' : Kernel} {place : Nat → Place} {q : Lists} {e : Entry}
  {t c k : Nat} {xs : List Nat} {prio : Nat → Nat} {ready : Nat → List Nat}

-- ---------------------------------------------------------------------------
-- A tick
-- ---------------------------------------------------------------------------

theorem appended_nil : appended prio ready [] = ready := funext fun p => by simp [appended]

theorem appended_cons : appended prio ready (t :: xs) =
    appended prio (Function.update ready (prio t) (ready (prio t) ++ [t])) xs := by
  funext p
  simp only [appended, List.filter_cons, Function.update_apply]
  by_cases hp : prio t = p
  · subst hp
    simp
  · simp [hp, Ne.symm hp]

theorem wakeExpired_exact (h : Held s q) (hno : ∀ t ∈ q.timers, ∀ p, t ∉ q.ready p)
    (hk : q.timers.length < k) :
    ∃ s', wakeExpired k s = some s' ∧ SameCore s s' ∧
      Held s'
        ⟨appended (prioOf s) q.ready (q.timers.takeWhile fun t =>
          decide (expireOf s t ≤ s.clockTicks)),
        q.timers.dropWhile fun t => decide (expireOf s t ≤ s.clockTicks), q.inbox⟩ := by
  induction k generalizing s q with
  | zero => exact absurd hk (Nat.not_lt_zero _)
  | succ k ih =>
    have hhead : s.nextTimerEvent = q.timers.head? := h.timers.head
    obtain ⟨ready, timers, inbox⟩ := q
    cases timers with
    | nil => exact ⟨s, by simp [wakeExpired, hhead], .refl s, by simpa [appended_nil] using h⟩
    | cons t rest =>
      by_cases hexp : expireOf s t ≤ s.clockTicks
      · have hnd := (List.nodup_cons.mp h.timers.nodup)
        have h₁ := h.popTimer rfl
        have hc₁ : SameCore s (s.popTimer t) := sameCore_popTimer
        obtain ⟨s₂, hres₂, hheld₂, hc₂⟩ := h₁.enqueue (hno t List.mem_cons_self)
        have hc := hc₁.trans hc₂
        rw [show ((s.popTimer t).ptable t).priority = prioOf s t from congrFun hc₁.prioOf t]
          at hheld₂
        have hno₂ : ∀ u ∈ rest, ∀ p, u ∉ Function.update ready (prioOf s t)
          (ready (prioOf s t) ++ [t]) p := by
          intro u hu p hp
          have hu' := hno u (List.mem_cons_of_mem _ hu)
          rw [mem_update] at hp
          split at hp
          · rcases List.mem_append.mp hp with hp | hp
            · exact hu' _ hp
            · exact hnd.1 (List.mem_singleton.mp hp ▸ hu)
          · exact hu' _ hp
        obtain ⟨s', hres, hc', h'⟩ := ih hheld₂ hno₂ (Nat.lt_of_succ_lt_succ hk)
        have hexpire : expireOf s₂ = expireOf s := funext hc.timerExpire
        rw [hc.prioOf, hexpire, hc.clockTicks] at h'
        refine ⟨s', ?_, hc.trans hc', ?_⟩
        · rw [wakeExpired, hhead]
          simp only [List.head?_cons,
            if_pos (show (s.ptable t).timerExpire ≤ s.clockTicks from hexp), unblockTask, hres₂,
            Option.bind_some, hres]
        · simp only [List.takeWhile_cons, List.dropWhile_cons, hexp, decide_true,
            if_true, appended_cons]
          exact h'
      · refine ⟨s, ?_, .refl s, ?_⟩
        · rw [wakeExpired, hhead]
          exact if_neg hexp
        · simpa [List.takeWhile_cons, List.dropWhile_cons, hexp, appended_nil] using h

theorem Held.unique {q' : Lists} (h : Held s q) (h' : Held s q') : q = q' := by
  obtain ⟨ready, timers, inbox⟩ := q
  obtain ⟨ready', timers', inbox'⟩ := q'
  obtain rfl : ready = ready' := funext fun p => (h.ready.links p).unique (h'.ready.links p)
  obtain rfl : timers = timers' := h.timers.unique h'.timers
  obtain rfl : inbox = inbox' := funext fun d => (h.inbox d).unique (h'.inbox d)
  rfl

def rotated (s : Kernel) (ready : Nat → List Nat) (c : Nat) : Nat → List Nat :=
  Function.update ready (prioOf s c) ((ready (prioOf s c)).erase c ++ [c])

/-- What a tick makes of the timers and, after the time slice has been counted, of the ready
queues. -/
structure Fires (s s' : Kernel) (timers : List Nat) (ready : Nat → List Nat) : Prop where
  clockTicks : s'.clockTicks = (s.clockTicks + 1) % 4294967296
  expire : expireOf s' = expireOf s
  asleep : s'.timerLinks.Holds (timers.filter fun t => decide (s'.clockTicks < expireOf s t))
  queues : ∀ p, (s'.readyLinks p).Holds
    (appended (prioOf s) ready (timers.filter fun t => decide (expireOf s t ≤ s'.clockTicks)) p)

theorem countTick_exact (h : Running s place q c) :
    ∃ s' ready, countTick s = some s' ∧ System s' place ⟨ready, q.timers, q.inbox⟩ ∧
      (ready = q.ready ∨ ready = rotated s q.ready c) ∧ s'.clockTicks = s.clockTicks ∧
      expireOf s' = expireOf s ∧
      prioOf s' = prioOf s := by
  obtain ⟨s', q', hres, hsys, hclock, -, -, hexp⟩ := countTick_step h
  obtain ⟨s₁, q₁, hres₁, hheld, hcase⟩ :=
    countTick_spec h.system.held h.current (h.system.rest.ready_short _)
  cases hres.symm.trans hres₁
  obtain rfl := hsys.held.unique hheld
  have hprio : ∀ {f} {k : Kernel}, Quiet f → prioOf (k.modify c f) = prioOf k :=
    fun hf => prioOf_modify (hf.field Task.priority fun _ _ _ => rfl)
  have huse : Quiet useTick := fun _ => rfl
  have hrefill : Quiet refill := fun _ => rfl
  rcases hcase with ⟨hcore, rfl⟩ | ⟨-, ⟨hcore, rfl⟩ | ⟨hcore, rfl⟩⟩
  · exact ⟨s', _, hres, hsys, .inl rfl, hclock, funext hexp, hcore.prioOf⟩
  · exact ⟨s', _, hres, hsys, .inl rfl, hclock, funext hexp, hcore.prioOf.trans (hprio huse)⟩
  · refine ⟨s', _, hres, hsys, .inr ?_, hclock, funext hexp,
      hcore.prioOf.trans ((hprio hrefill).trans (hprio huse))⟩
    simp only [Lists.dequeue, Function.update_self, Function.update_idem, rotated]

theorem timerCallback_exact (h : Running s place q c) :
    ∃ s' ready, timerCallback s = some s' ∧ (ready = q.ready ∨ ready = rotated s q.ready c) ∧
      Fires s s' q.timers ready := by
  have h₁ : Running { s with clockTicks := (s.clockTicks + 1) % 4294967296 } place q c :=
    ⟨h.system.frame (Nat.mod_lt _ (by decide)), h.current, h.selected, h.fresh⟩
  obtain ⟨s₂, ready, hres₂, hsys₂, hready, hclock, hexp, hprio⟩ := countTick_exact h₁
  have hno : ∀ t ∈ q.timers, ∀ p, t ∉ ready p := by
    intro t ht p hp
    have hasleep := (hsys₂.rest.member.timers t).mp ht
    rw [((hsys₂.rest.member.ready p t).mp hp).1] at hasleep
    cases hasleep
  obtain ⟨s', hres, hcore, hheld⟩ := wakeExpired_exact hsys₂.held hno hsys₂.rest.timers_short
  obtain ⟨htake, hdrop⟩ := cut_sorted s₂.clockTicks hsys₂.rest.sorted
  have hexp₂ : expireOf s₂ = expireOf s := hexp
  have hprio₂ : prioOf s₂ = prioOf s := hprio
  rw [show (fun t => decide (expireOf s₂ t ≤ s₂.clockTicks)) =
    fun t => decide ((s₂.ptable t).timerExpire ≤ s₂.clockTicks)
    from rfl, htake, hdrop] at hheld
  rw [show (fun t => decide ((s₂.ptable t).timerExpire ≤ s₂.clockTicks)) =
    fun t => decide (expireOf s₂ t ≤ s₂.clockTicks)
    from rfl, show (fun t => decide (s₂.clockTicks < (s₂.ptable t).timerExpire)) =
      fun t => decide (s₂.clockTicks < expireOf s₂ t) from rfl, hexp₂, hprio₂,
      ← hcore.clockTicks] at hheld
  refine ⟨s', ready, ?_, hready, hcore.clockTicks.trans hclock,
    (funext hcore.timerExpire).trans hexp₂, hheld.timers,
    hheld.ready.links⟩
  rw [timerCallback, hres₂]
  exact hres

theorem Fires.none_expired {timers : List Nat} (h : Fires s s' timers ready) :
    ∀ xs, s'.timerLinks.Holds xs → ∀ t ∈ xs, s'.clockTicks < expireOf s' t := by
  intro xs hxs t ht
  rw [hxs.unique h.asleep] at ht
  rw [h.expire]
  exact of_decide_eq_true (List.mem_filter.mp ht).2

theorem tick_fires (h : Running s place q c) (hcall : e.call = false) :
    ∃ s' ready, enter s e = some s' ∧ (ready = q.ready ∨ ready = rotated s q.ready c) ∧
      Fires s s' q.timers ready := by
  have hexp : expireOf (save s c e) = expireOf s := funext fun _ => save_timerExpire
  have hprio : prioOf (save s c e) = prioOf s := prioOf_modify (f := setContext _) fun _ => rfl
  obtain ⟨s', ready, hres, hready, hfires⟩ := timerCallback_exact (h.save (e := e))
  obtain ⟨hclock, hexpire, hasleep, hqueues⟩ := hfires
  rw [hexp] at hexpire hasleep
  rw [hexp, hprio] at hqueues
  rw [rotated, hprio] at hready
  refine ⟨s', ready, ?_, hready, hclock, hexpire, hasleep, hqueues⟩
  rw [enter, h.current, Option.bind_some, if_neg (by rw [hcall]; decide)]
  exact hres

-- ---------------------------------------------------------------------------
-- Going to sleep
-- ---------------------------------------------------------------------------

/-- Who goes to sleep is put in behind all that expire no later, and before all that expire
later. -/
theorem sleep_inserts (h : Running s place q c) (hcall : e.call = true)
    (hidle : s.idleTask ≠ some c) (hnr : e.context.eax = 0) (hms : 0 < toInt32 e.context.ecx) :
    ∃ s' xs ys, enter s e = some s' ∧ q.timers = xs ++ ys ∧ s'.timerLinks.Holds (xs ++ c :: ys) ∧
      expireOf s' = Function.update (expireOf s) c (wakeTick s (toInt32 e.context.ecx)) ∧
      (∀ x ∈ xs, expireOf s x ≤ wakeTick s (toInt32 e.context.ecx)) ∧
      ∀ y ∈ ys.head?, wakeTick s (toInt32 e.context.ecx) < expireOf s y := by
  have h₀ := h.save (e := e)
  have hexp : expireOf (save s c e) = expireOf s := funext fun _ => save_timerExpire
  have hno : c ∉ q.timers := fun hin => by
    have hasleep := (h.system.rest.member.timers c).mp hin
    rw [(h.caller hidle).ready] at hasleep
    cases hasleep
  obtain ⟨s', xs, ys, hres, hq, hheld, hcore, hxs, hys⟩ :=
    sleepMs_spec h₀.system.held h.current hms hno
    h₀.system.rest.timers_short (h₀.system.rest.ready_short _)
  refine ⟨setEax s' c (toUInt32 0), xs, ys, ?_, hq, ?_, ?_, fun x hx => ?_, fun y hy => ?_⟩
  · rw [enter_call h.current hcall, dispatch, hnr]
    simp only [hres]
    rfl
  · rw [setEax, timerLinks_modify (f := withEax _) fun _ => rfl]
    exact hheld.timers
  · funext t
    refine (modify_field (f := withEax _) Task.timerExpire (fun _ => rfl) t).trans
      ((hcore.timerExpire t).trans ?_)
    rw [← hexp]
    exact congrFun (field_modify Task.timerExpire) t
  · rw [← hexp]
    exact hxs x hx
  · rw [← hexp]
    exact hys y hy

-- ---------------------------------------------------------------------------
-- Other steps
-- ---------------------------------------------------------------------------

structure Kept (s s' : Kernel) (xs : List Nat) : Prop where
  asleep : s'.timerLinks.Holds xs
  expire : expireOf s' = expireOf s

theorem Held.kept {s₁ : Kernel} {q' : Lists} (h : Held s' q') (hcore : SameCore s₁ s')
    (hexp : expireOf s₁ = expireOf s) : Kept s s' q'.timers :=
  ⟨h.timers, (funext hcore.timerExpire).trans hexp⟩

theorem expireOf_modify {f : Task → Task} (hf : ∀ x, (f x).timerExpire = x.timerExpire) :
    expireOf (s.modify t f) = expireOf s := funext (modify_field Task.timerExpire hf)

theorem Kept.modify {f : Task → Task} (h : Kept s s' xs) (ht : ∀ x, (f x).timerNext = x.timerNext)
    (hf : ∀ x, (f x).timerExpire = x.timerExpire) : Kept s (s'.modify t f) xs :=
  ⟨by rw [timerLinks_modify ht]; exact h.asleep, (expireOf_modify hf).trans h.expire⟩

theorem send_kept (pid : Int) (ptr : Nat) (h : System s place q) (hc : Caller s place c) :
    ∃ r s', messageSend s c pid ptr = some (r, s') ∧ Kept s s' q.timers := by
  cases hd : findTask s pid with
  | none => exact ⟨-1, s, by rw [messageSend, hd], h.held.timers, rfl⟩
  | some d =>
    by_cases hw : waitsFor (s.ptable d) (s.ptable c)
    · have hready : ∀ p, d ∉ q.ready p := by
        intro p hp
        have hreceiving := (h.rest.status d).receiving
        rw [hw.1, ((h.rest.member.ready p d).mp hp).1] at hreceiving
        cases hreceiving
      obtain ⟨s', hres, hheld, hcore⟩ := messageSend_direct ptr h.held hd hw hready
      exact ⟨0, s', hres, hheld.kept hcore (expireOf_modify (f := acceptDirect _) fun _ => rfl)⟩
    · obtain ⟨s', hres, hheld, hcore⟩ :=
        messageSend_queued ptr h.held h.rest.member hd hw (hc.not_queued h)
        (h.rest.inbox_short d) (h.rest.ready_short _)
      exact ⟨0, s', hres, hheld.kept hcore (expireOf_modify (f := startSend d _) fun _ => rfl)⟩

theorem receive_kept (pid : Int) (ptr : Nat) (h : System s place q) :
    ∃ r s', messageReceive s c pid ptr = some (r, s') ∧ Kept s s' q.timers := by
  by_cases hpid : pid = pidNoTask
  · exact ⟨-1, s, if_pos hpid, h.held.timers, rfl⟩
  · obtain ⟨xs, ys, hq, hxs, hys⟩ := exists_split (wanted s pid) (q.inbox c)
    cases ys with
    | nil =>
      rw [List.append_nil] at hq
      obtain ⟨s', hres, hheld, hcore⟩ :=
        messageReceive_block ptr h.held hpid (fun x hx => hxs x (hq ▸ hx))
        (h.rest.inbox_short c) (h.rest.ready_short _)
      exact ⟨0, s', hres,
        hheld.kept hcore (expireOf_modify (f := startReceive ptr pid) fun _ => rfl)⟩
    | cons t ys =>
      have hready : ∀ p, t ∉ q.ready p := by
        intro p hp
        have hsending := (h.rest.member.inbox c t).mp (by simp [hq])
        rw [((h.rest.member.ready p t).mp hp).1] at hsending
        cases hsending
      obtain ⟨s', hres, hheld, hcore⟩ :=
        messageReceive_take ptr h.held h.rest.member hpid hq hxs (hys t rfl)
        (h.rest.inbox_short c) hready
      exact ⟨0, s', hres, hheld.kept hcore (expireOf_modify (f := endSend) fun _ => rfl)⟩

theorem dispatch_kept (cx : Context) (h : System s place q) (hc : Caller s place c)
    (hcx : ¬(cx.eax = 0 ∧ 0 < toInt32 cx.ecx)) : ∃ r s', dispatch s c cx = some (r, s') ∧
    Kept s s' q.timers := by
  have hself : Kept s s q.timers := ⟨h.held.timers, rfl⟩
  unfold dispatch
  split
  · have hms : toInt32 cx.ecx ≤ 0 := Int.not_lt.mp fun hms => hcx ⟨‹_›, hms⟩
    exact ⟨0, s, by rw [sleepMs, if_pos hms]; rfl, hself⟩
  · obtain ⟨s', hres, hheld, hcore⟩ := preempt_spec h.held hc.current (h.rest.ready_short _)
    exact ⟨0, s', by rw [hres]; rfl, hheld.kept hcore rfl⟩
  · exact ⟨_, s, rfl, hself⟩
  · exact send_kept _ _ h hc
  · exact receive_kept _ _ h
  · exact ⟨0, s, rfl, hself⟩

theorem call_kept (h : Running s place q c) (hcall : e.call = true) (hidle : s.idleTask ≠ some c)
    (hcx : ¬(e.context.eax = 0 ∧ 0 < toInt32 e.context.ecx)) : ∃ s', enter s e = some s' ∧
    Kept s s' q.timers := by
  have h₀ := h.save (e := e)
  obtain ⟨r, s', hres, hkept⟩ := dispatch_kept e.context h₀.system (h₀.caller hidle) hcx
  have hexp : expireOf (save s c e) = expireOf s := funext fun _ => save_timerExpire
  have hkept' : Kept s s' q.timers := ⟨hkept.asleep, hkept.expire.trans hexp⟩
  refine ⟨setEax s' c (toUInt32 r), ?_, hkept'.modify (f := withEax _) (fun _ => rfl) fun _ => rfl⟩
  rw [enter_call h.current hcall, hres]
  rfl

end

-- ---------------------------------------------------------------------------
-- Runs
-- ---------------------------------------------------------------------------

structure Timed where
  machine : Machine
  /-- how many sleeps had begun when the last one of this task did -/
  since : Nat → Nat
  sleeps : Nat

def sleeper (m : Machine) : Action → Option Nat
  | .enter e =>
    if e.call = true ∧ e.context.eax = 0 ∧ 0 < toInt32 e.context.ecx then
      m.kernel.currentTask else none
  | .resume => none

def Timed.step (x : Timed) (a : Action) : Option Timed :=
  (x.machine.step a).map fun m =>
    match sleeper x.machine a with
    | some c => ⟨m, Function.update x.since c x.sleeps, x.sleeps + 1⟩
    | none => ⟨m, x.since, x.sleeps⟩

def withClock (m : Machine) (k : Nat) : Machine :=
  { m with kernel := { m.kernel with clockTicks := k } }

/-- Before the first `resume`, with any value of the counter. -/
def TimedStart (queued : List Nat) (x : Timed) : Prop :=
  ∃ m k, Booted queued m ∧ k < 4294967296 ∧ x.machine = withClock m k

/-- The states in a run of the kernel with these tasks, from any value of the counter. -/
abbrev TimedRun (queued : List Nat) (x : Timed) : Prop :=
  Reach (TimedStart queued) Timed.step (fun x a _ => a.May x.machine) x

def Timed.Before (x : Timed) (a b : Nat) : Prop :=
  expireOf x.machine.kernel a < expireOf x.machine.kernel b ∨
    expireOf x.machine.kernel a = expireOf x.machine.kernel b ∧ x.since a < x.since b

theorem before_iff {m : Machine} {since : Nat → Nat} {n a b : Nat} :
    Timed.Before ⟨m, since, n⟩ a b ↔
    expireOf m.kernel a < expireOf m.kernel b ∨ expireOf m.kernel a = expireOf m.kernel b ∧
    since a < since b := Iff.rfl

structure TimedOk (queued : List Nat) (x : Timed) (place : Nat → Place) (q : Lists) : Prop where
  ok : MachineOk queued x.machine place q
  order : q.timers.Pairwise x.Before
  begun : ∀ t ∈ q.timers, x.since t < x.sleeps

section
variable {queued : List Nat} {x x' : Timed} {m m' : Machine} {place place' : Nat → Place}
  {q q' : Lists} {e : Entry} {a : Action} {c : Nat} {xs ys : List Nat}

theorem TimedStart.ok (h : TimedStart queued x) : ∃ place q, TimedOk queued x place q := by
  obtain ⟨m, k, ⟨hin, created, hs⟩, hk, hx⟩ := h
  obtain ⟨ready, hfresh⟩ := hs.fresh
  refine ⟨fun t => if t ∈ queued then .ready else .away, ⟨ready, [], fun _ => []⟩, ?_,
    List.Pairwise.nil, by simp⟩
  rw [hx]
  refine ⟨hfresh.system.frame hk, fun t => ?_, fun hno => ?_⟩
  · by_cases ht : t ∈ queued <;> simp [ht]
  · rw [show (withClock m k).inKernel = m.inKernel from rfl, hin] at hno
    cases hno

/-- Nobody goes to sleep: those asleep stay as they are, or the first of them leave. -/
theorem TimedOk.keep (h : TimedOk queued x place q) (hok : MachineOk queued m' place' q')
    (hsub : q'.timers.Sublist q.timers)
    (hexp : ∀ t ∈ q.timers, expireOf m'.kernel t = expireOf x.machine.kernel t) :
    TimedOk queued ⟨m', x.since, x.sleeps⟩ place' q' := by
  refine ⟨hok, (h.order.imp_of_mem fun {a b} ha hb hab => ?_).sublist hsub,
    fun t ht => h.begun t (hsub.subset ht)⟩
  rw [before_iff, hexp a ha, hexp b hb]
  exact hab

theorem later_of_head {w : Nat} (h : ys.Pairwise x.Before)
    (hys : ∀ t ∈ ys.head?, w < expireOf x.machine.kernel t) :
    ∀ t ∈ ys, w < expireOf x.machine.kernel t := by
  intro t ht
  cases ys with
  | nil => cases ht
  | cons z zs =>
    have hz := hys z rfl
    rcases List.mem_cons.mp ht with rfl | ht
    · exact hz
    · rcases List.rel_of_pairwise_cons h ht with hlt | ⟨heq, -⟩
      · exact Nat.lt_trans hz hlt
      · exact heq ▸ hz

theorem TimedOk.sleep {w : Nat} (h : TimedOk queued x place q) (hok : MachineOk queued m' place' q')
    (hq : q.timers = xs ++ ys) (hq' : q'.timers = xs ++ c :: ys)
    (hexp : expireOf m'.kernel = Function.update (expireOf x.machine.kernel) c w)
    (hxs : ∀ t ∈ xs, expireOf x.machine.kernel t ≤ w)
    (hys : ∀ t ∈ ys.head?, w < expireOf x.machine.kernel t) :
    TimedOk queued ⟨m', Function.update x.since c x.sleeps, x.sleeps + 1⟩ place' q' := by
  have hnd := hok.system.held.timers.nodup
  rw [hq'] at hnd
  have hno : c ∉ xs ++ ys := (List.nodup_cons.mp (List.nodup_middle.mp hnd)).1
  have hne : ∀ t ∈ xs ++ ys, t ≠ c := fun t ht he => hno (he ▸ ht)
  have horder := h.order
  have hbegun := h.begun
  rw [hq] at horder hbegun
  obtain ⟨hx, hy, hxy⟩ := List.pairwise_append.mp horder
  have hlater := later_of_head hy hys
  -- of two tasks that slept before, nothing has changed
  have hold : ∀ a ∈ xs ++ ys, ∀ b ∈ xs ++ ys, x.Before a b →
      Timed.Before ⟨m', Function.update x.since c x.sleeps, x.sleeps + 1⟩ a b := by
    intro a ha b hb hab
    rw [before_iff, hexp, Function.update_of_ne (hne a ha), Function.update_of_ne (hne b hb),
      Function.update_of_ne (hne a ha), Function.update_of_ne (hne b hb)]
    exact hab
  refine ⟨hok, ?_, fun t ht => ?_⟩
  · rw [hq']
    refine List.pairwise_append.mpr ⟨?_, List.pairwise_cons.mpr ⟨fun t ht => .inl ?_, ?_⟩,
      fun a ha b hb => ?_⟩
    · exact hx.imp_of_mem fun {a b} ha hb =>
        hold a (List.mem_append_left _ ha) b (List.mem_append_left _ hb)
    · show expireOf m'.kernel c < expireOf m'.kernel t
      rw [hexp, Function.update_self, Function.update_of_ne (hne t (List.mem_append_right _ ht))]
      exact hlater t ht
    · exact hy.imp_of_mem fun {a b} ha hb =>
        hold a (List.mem_append_right _ ha) b (List.mem_append_right _ hb)
    · rcases List.mem_cons.mp hb with rfl | hb
      · rw [before_iff, hexp, Function.update_self,
          Function.update_of_ne (hne a (List.mem_append_left _ ha)),
          Function.update_self, Function.update_of_ne (hne a (List.mem_append_left _ ha))]
        rcases Nat.lt_or_eq_of_le (hxs a ha) with hlt | heq
        · exact .inl hlt
        · exact .inr ⟨heq, hbegun a (List.mem_append_left _ ha)⟩
      · exact hold a (List.mem_append_left _ ha) b (List.mem_append_right _ hb) (hxy a ha b hb)
  · show Function.update x.since c x.sleeps t < x.sleeps + 1
    rw [Function.update_apply]
    split
    · exact Nat.lt_succ_self _
    · refine Nat.lt_succ_of_lt (hbegun t ?_)
      rw [hq'] at ht
      simp only [List.mem_append, List.mem_cons] at ht ⊢
      tauto

theorem TimedOk.step (h : TimedOk queued x place q) (hmay : a.May x.machine)
    (hnext : x.step a = some x') :
    ∃ place' q', TimedOk queued x' place' q' := by
  rw [Timed.step, Option.map_eq_some_iff] at hnext
  obtain ⟨m', hstep, hx'⟩ := hnext
  subst hx'
  cases a with
  | resume =>
    obtain ⟨m₁, c, hres, -, hok, -, -, hwake, -⟩ := h.ok.resume
    cases hres.symm.trans hstep
    exact ⟨_, _, h.keep hok (List.Sublist.refl _) fun t ht =>
      (hwake.asleep t ((h.ok.system.rest.member.timers t).mp ht)).2⟩
  | enter e =>
    obtain ⟨c, hrun⟩ := h.ok.running hmay.1
    have hkernel : ∃ s', enter x.machine.kernel e = some s' ∧ m' = ⟨s', true⟩ := by
      obtain ⟨s', hs', rfl⟩ := Option.map_eq_some_iff.mp hstep
      exact ⟨s', hs', rfl⟩
    obtain ⟨s', hs', rfl⟩ := hkernel
    cases hcall : e.call with
    | false =>
      obtain ⟨m₁, place', q', hres, -, hok, -⟩ := h.ok.tick hmay hcall
      cases hres.symm.trans hstep
      obtain ⟨s₁, ready, hres₁, -, hfires⟩ := tick_fires hrun hcall
      cases hres₁.symm.trans hs'
      have hnone : sleeper x.machine (.enter e) = none := if_neg fun hc => by
        rw [hcall] at hc
        cases hc.1
      rw [hnone]
      refine ⟨_, _, h.keep hok ?_ fun t _ => congrFun hfires.expire t⟩
      rw [hok.system.held.timers.unique hfires.asleep]
      exact List.filter_sublist
    | true =>
      have hidle : x.machine.kernel.idleTask ≠ some c :=
        fun hi => hmay.2 hcall (hrun.current.trans hi.symm)
      obtain ⟨m₁, place', q', hres, -, hok, -⟩ := h.ok.call hmay hcall
      cases hres.symm.trans hstep
      by_cases hcx : e.context.eax = 0 ∧ 0 < toInt32 e.context.ecx
      · obtain ⟨s₁, xs, ys, hres₁, hq, hasleep, hexp, hxs, hys⟩ :=
          sleep_inserts hrun hcall hidle hcx.1 hcx.2
        cases hres₁.symm.trans hs'
        have hsome : sleeper x.machine (.enter e) = some c :=
          (if_pos ⟨hcall, hcx⟩).trans hrun.current
        rw [hsome]
        exact ⟨_, _, h.sleep hok hq (hok.system.held.timers.unique hasleep) hexp hxs hys⟩
      · obtain ⟨s₁, hres₁, hkept⟩ := call_kept hrun hcall hidle hcx
        cases hres₁.symm.trans hs'
        have hnone : sleeper x.machine (.enter e) = none := if_neg fun hc => hcx hc.2
        rw [hnone]
        refine ⟨_, _, h.keep hok ?_ fun t _ => congrFun hkept.expire t⟩
        rw [hok.system.held.timers.unique hkept.asleep]

theorem TimedRun.ok (h : TimedRun queued x) : ∃ place q, TimedOk queued x place q := by
  induction h with
  | start h => exact h.ok
  | step _ hnext hmay ih =>
    obtain ⟨place, q, hok⟩ := ih
    exact hok.step hmay hnext

/-- The list of the timers is in the order of the ticks at which the tasks expire and, among those
that expire together, of when they went to sleep; and the next tick takes off just the tasks that
have expired, and puts them at the end of their ready queues in the order of the list, after the
running task has gone to the end of its own if its time slice is over. -/
structure ExactTimers (x : Timed) (timers : List Nat) (ready : Nat → List Nat) : Prop where
  asleep : x.machine.kernel.timerLinks.Holds timers
  queues : ∀ p, (x.machine.kernel.readyLinks p).Holds (ready p)
  order : timers.Pairwise x.Before
  tick : ∀ e, (Action.enter e).May x.machine → e.call = false →
    ∃ m' ready', x.machine.step (.enter e) = some m' ∧
    (ready' = ready ∨ ∃ c, x.machine.kernel.currentTask = some c ∧
    ready' = rotated x.machine.kernel ready c) ∧
    Fires x.machine.kernel m'.kernel timers ready' ∧
    ∀ xs, m'.kernel.timerLinks.Holds xs → ∀ t ∈ xs, m'.kernel.clockTicks < expireOf m'.kernel t
  /-- a sleep puts the caller in behind all that expire no later and before all that expire later -/
  sleep : ∀ e c, (Action.enter e).May x.machine → e.call = true → e.context.eax = 0 →
    0 < toInt32 e.context.ecx →
    x.machine.kernel.currentTask = some c → ∃ m' before behind,
    x.machine.step (.enter e) = some m' ∧
      timers = before ++ behind ∧ m'.kernel.timerLinks.Holds (before ++ c :: behind) ∧
      expireOf m'.kernel = Function.update (expireOf x.machine.kernel) c
        (wakeTick x.machine.kernel (toInt32 e.context.ecx)) ∧
      (∀ t ∈ before, expireOf x.machine.kernel t ≤
      wakeTick x.machine.kernel (toInt32 e.context.ecx)) ∧
      ∀ t ∈ behind, wakeTick x.machine.kernel (toInt32 e.context.ecx) < expireOf x.machine.kernel t

/-- In every state of a run. -/
theorem timers_exact (h : TimedRun queued x) : ∃ timers ready, ExactTimers x timers ready := by
  obtain ⟨place, q, hok⟩ := TimedRun.ok h
  refine ⟨q.timers, q.ready, hok.ok.system.held.timers, hok.ok.system.held.ready.links, hok.order,
    fun e hmay hcall => ?_,
    fun e c hmay hcall hnr hms hcur => ?_⟩
  · obtain ⟨c, hrun⟩ := hok.ok.running hmay.1
    obtain ⟨s', ready', hres, hready, hfires⟩ := tick_fires hrun hcall
    exact ⟨⟨s', true⟩, ready', by rw [Machine.step, hres]; rfl, hready.imp_right fun hr => ⟨c,
      hrun.current, hr⟩, hfires,
      hfires.none_expired⟩
  · obtain ⟨c', hrun⟩ := hok.ok.running hmay.1
    cases hrun.current.symm.trans hcur
    have hidle : x.machine.kernel.idleTask ≠ some c := fun hi => hmay.2 hcall (hcur.trans hi.symm)
    obtain ⟨s', xs, ys, hres, hq, hasleep, hexp, hxs, hys⟩ := sleep_inserts hrun hcall hidle hnr hms
    have horder := hok.order
    rw [hq] at horder
    exact ⟨⟨s', true⟩, xs, ys, by rw [Machine.step, hres]; rfl, hq, hasleep, hexp, hxs,
      later_of_head (List.pairwise_append.mp horder).2.1 hys⟩

theorem KernelRun.timed (h : KernelRun queued m) : ∃ x, TimedRun queued x ∧ x.machine = m := by
  induction h with
  | @start m hb =>
    obtain ⟨hin, created, hs⟩ := hb
    obtain ⟨ready, hfresh⟩ := hs.fresh
    refine ⟨⟨m, fun _ => 0, 0⟩, .start ⟨m, 0, ⟨hin, created, hs⟩, by decide, ?_⟩, rfl⟩
    rw [withClock, ← hfresh.clockTicks]
  | @step m m' a _ hnext hmay ih =>
    obtain ⟨x, hx, rfl⟩ := ih
    cases hs : sleeper x.machine a with
    | none =>
      exact ⟨⟨m', x.since, x.sleeps⟩, .step hx (by rw [Timed.step, hnext, hs]; rfl) hmay, rfl⟩
    | some c =>
      exact ⟨⟨m', Function.update x.since c x.sleeps, x.sleeps + 1⟩,
        .step hx (by rw [Timed.step, hnext, hs]; rfl) hmay,
        rfl⟩

/-- Two tasks sleep, the one that went to sleep last wakes up first, and a third one may go to
sleep. -/
theorem timers_exact_answered :
    ∃ x ready, TimedRun [2, 1, 3, 4] x ∧ x.machine = answered ∧ ExactTimers x [2, 4] ready ∧
      ∃ m' before behind, answered.step (calls 0 70 0) = some m' ∧ [2, 4] = before ++ behind ∧
        m'.kernel.timerLinks.Holds (before ++ 1 :: behind) := by
  obtain ⟨x, hx, hm⟩ := KernelRun.timed answered_run
  obtain ⟨timers, ready, hexact⟩ := timers_exact hx
  have hheld : x.machine.kernel.timerLinks.Holds [2, 4] := by
    rw [hm]
    decide +kernel
  cases hexact.asleep.unique hheld
  have hmay : (calls 0 70 0).May x.machine ∧ x.machine.kernel.currentTask = some 1 := by
    rw [hm]
    decide +kernel
  obtain ⟨m', before, behind, hstep, hsplit, hin, -⟩ :=
    hexact.sleep _ 1 hmay.1 rfl rfl (by decide +kernel) hmay.2
  exact ⟨x, ready, hx, hm, hexact, m', before, behind, hm ▸ hstep, hsplit, hin⟩

end

end ElcoOs.Tasks
