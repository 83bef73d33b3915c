import ElcoOs.Tasks.Runs

/-!
# How long a sleep takes

The task that sleeps is put back by the first tick at which the counter is not
below the tick stored with it. The counter wraps around, and so does the
conversion from milliseconds: this is when a sleep is as long as it should be.
-/

namespace ElcoOs.Tasks

def Action.isTick : Action → Bool
  | .enter e => !e.call
  | .resume => false

def ticks (as : List Action) : Nat := as.countP Action.isTick

abbrev Onward (m : Machine) (as : List Action) (m' : Machine) : Prop :=
  Trail Machine.step (fun m a _ => a.May m) m as m'

def InReady (s : Kernel) (t : Nat) : Prop := ∃ p xs, (s.readyLinks p).Holds xs ∧ t ∈ xs

/-- Whatever happens, the task is in no ready queue before the tick with this number. -/
def NotBefore (m : Machine) (t n : Nat) : Prop := ∀ as m', Onward m as m' → ticks as < n →
    ¬InReady m'.kernel t

def BackAt (m : Machine) (t n : Nat) : Prop :=
  ∀ as e m', Onward m (as ++ [.enter e]) m' → e.call = false → ticks as + 1 = n →
    InReady m'.kernel t

/-- The next ticks find the task asleep, and the tick with this number wakes it. -/
def SleepsFor (m : Machine) (t n : Nat) : Prop := NotBefore m t n ∧ BackAt m t n

/-- The tick, counted from a sleep at `clock` for `n` ticks, that ends this sleep. -/
def wakeAfter (clock n : Nat) : Nat :=
  if clock = 4294967295 then n else if clock + n < 4294967296 then max 1 n else 1

section
variable {queued : List Nat} {m m' : Machine} {place : Nat → Place} {q : Lists} {s : Kernel}
  {e : Entry} {t c n k : Nat} {as : List Action} {ms : Int}

theorem ticks_snoc {a : Action} : ticks (as ++ [a]) = ticks as + if a.isTick then 1 else 0 := by
  rw [ticks, ticks, List.countP_append, List.countP_singleton]

theorem System.inReady (h : System s place q) : InReady s t ↔ place t = .ready := by
  constructor
  · rintro ⟨p, xs, hxs, ht⟩
    rw [hxs.unique (h.held.ready.links p)] at ht
    exact ((h.rest.member.ready p t).mp ht).1
  · intro ht
    exact ⟨prioOf s t, _, h.held.ready.links _, (h.rest.member.ready _ t).mpr ⟨ht, rfl⟩⟩

-- ---------------------------------------------------------------------------
-- Asleep
-- ---------------------------------------------------------------------------

/-- A task sleeps until `expire`, and the counter shows `clock`. -/
structure Sleeping (queued : List Nat) (m : Machine) (t expire clock : Nat) : Prop where
  ok : ∃ place q, MachineOk queued m place q ∧ place t = .asleep
  expire : (m.kernel.ptable t).timerExpire = expire
  clock : m.kernel.clockTicks = clock

theorem Sleeping.lt (h : Sleeping queued m t n k) : k < 4294967296 := by
  obtain ⟨place, q, hok, -⟩ := h.ok
  rw [← h.clock]
  exact hok.system.rest.clock

theorem Sleeping.not_ready (h : Sleeping queued m t n k) : ¬InReady m.kernel t := by
  obtain ⟨place, q, hok, ht⟩ := h.ok
  rw [hok.system.inReady, ht]
  decide

theorem Sleeping.quiet {a : Action} (h : Sleeping queued m t n k)
    (ha : a.isTick = false) (hmay : a.May m)
    (hstep : m.step a = some m') : Sleeping queued m' t n k := by
  obtain ⟨place, q, hok, ht⟩ := h.ok
  cases a with
  | enter e =>
    have hcall : e.call = true := by simpa [Action.isTick] using ha
    obtain ⟨m₁, place', q', hres, -, hok', hwake, -⟩ := hok.call hmay hcall
    cases hres.symm.trans hstep
    obtain ⟨ht', hexp⟩ := hwake.asleep t ht
    exact ⟨⟨place', q', hok', ht'⟩, hexp.trans h.expire, hwake.clockTicks.trans h.clock⟩
  | resume =>
    obtain ⟨m₁, c, hres, -, hok', -, -, hwake, -⟩ := hok.resume
    cases hres.symm.trans hstep
    obtain ⟨ht', hexp⟩ := hwake.asleep t ht
    exact ⟨⟨place, q, hok', ht'⟩, hexp.trans h.expire, hwake.clockTicks.trans h.clock⟩

theorem Sleeping.tick (h : Sleeping queued m t n k) (hcall : e.call = false)
    (hmay : (Action.enter e).May m) (hstep : m.step (.enter e) = some m') :
    ((k + 1) % 4294967296 < n → Sleeping queued m' t n ((k + 1) % 4294967296)) ∧
      (n ≤ (k + 1) % 4294967296 → InReady m'.kernel t) := by
  obtain ⟨place, q, hok, ht⟩ := h.ok
  obtain ⟨m₁, place', q', hres, -, hok', htick⟩ := hok.tick hmay hcall
  cases hres.symm.trans hstep
  have hclock : m'.kernel.clockTicks = (k + 1) % 4294967296 :=
    htick.clockTicks.trans (by rw [← h.clock])
  have hexpire := h.expire
  refine ⟨fun hlt => ?_, fun hle => ?_⟩
  · obtain ⟨ht', hexp⟩ :=
      htick.asleep t ht (by rw [hclock]; exact Nat.lt_of_lt_of_eq hlt hexpire.symm)
    exact ⟨⟨place', q', hok', ht'⟩, hexp.trans hexpire, hclock⟩
  · rw [hok'.system.inReady]
    exact htick.woken t ht (by rw [hclock]; exact Nat.le_trans (Nat.le_of_eq hexpire) hle)

theorem Sleeping.onward {clock N : Nat} (h : Sleeping queued m t n clock)
    (hbefore : ∀ i, 1 ≤ i → i < N → (clock + i) % 4294967296 < n) (ho : Onward m as m')
    (hlt : ticks as < N) :
    Sleeping queued m' t n ((clock + ticks as) % 4294967296) := by
  induction ho with
  | nil =>
    rw [show ticks [] = 0 from rfl, Nat.add_zero, Nat.mod_eq_of_lt h.lt]
    exact h
  | @snoc m₁ m₂ as a ho hstep hmay ih =>
    rw [ticks_snoc] at hlt ⊢
    cases htick : a.isTick with
    | false =>
      rw [htick] at hlt
      exact (ih hlt).quiet htick hmay hstep
    | true =>
      rw [htick] at hlt
      rw [if_pos rfl] at hlt ⊢
      have h₁ := ih (by omega)
      cases a with
      | resume => cases htick
      | enter e =>
        have hcall : e.call = false := by simpa [Action.isTick] using htick
        have hnext := (h₁.tick hcall hmay hstep).1
        rw [Nat.mod_add_mod, Nat.add_assoc] at hnext
        exact hnext (hbefore _ (by omega) hlt)

theorem Sleeping.sleepsFor {clock N : Nat} (h : Sleeping queued m t n clock)
    (hbefore : ∀ i, 1 ≤ i → i < N → (clock + i) % 4294967296 < n)
    (hat : n ≤ (clock + N) % 4294967296) :
    SleepsFor m t N := by
  refine ⟨fun as m' ho hlt => (h.onward hbefore ho hlt).not_ready, fun as e m' ho hcall hN => ?_⟩
  generalize hbs : as ++ [Action.enter e] = bs at ho
  cases ho with
  | nil => simp at hbs
  | snoc ho hstep hmay =>
    obtain ⟨rfl, ha⟩ := List.append_inj' hbs rfl
    cases ha
    have h₁ := h.onward hbefore ho (by omega)
    have hwoken := (h₁.tick hcall hmay hstep).2
    rw [Nat.mod_add_mod, Nat.add_assoc, hN] at hwoken
    exact hwoken hat

theorem MachineOk.exists_ticks (h : MachineOk queued m place q)
    (hin : m.inKernel = true) (n : Nat) :
    ∃ as m', Onward m as m' ∧ ticks as = n ∧ m'.inKernel = false ∧
      ∃ place q, MachineOk queued m' place q := by
  induction n with
  | zero =>
    obtain ⟨m', c, hres, hout, hok, -⟩ := h.resume
    exact ⟨_, m', .snoc .nil hres hin, rfl, hout, _, _, hok⟩
  | succ n ih =>
    obtain ⟨as, m₁, ho, hn, hout, place₁, q₁, hok₁⟩ := ih
    have hmay : (Action.enter ⟨⟨0, 0, 0⟩, fun _ => 0, false⟩).May m₁ :=
      ⟨hout, fun hc => (nomatch hc)⟩
    obtain ⟨m₂, place₂, q₂, hres₂, hin₂, hok₂, -⟩ := hok₁.tick hmay rfl
    obtain ⟨m₃, c, hres₃, hout₃, hok₃, -⟩ := hok₂.resume
    refine ⟨_, m₃, .snoc (.snoc ho hres₂ hmay) hres₃ hin₂, ?_, hout₃, _, _, hok₃⟩
    rw [ticks_snoc, ticks_snoc, hn]
    rfl

theorem SleepsFor.notBefore_iff (h : SleepsFor m t n) (hok : MachineOk queued m place q)
    (hin : m.inKernel = true) (hn : 1 ≤ n) : NotBefore m t k ↔ k ≤ n := by
  refine ⟨fun hk => ?_, fun hk as m' ho hlt => h.1 as m' ho (by omega)⟩
  by_contra hlt
  obtain ⟨as, m₁, ho, hticks, hout, place₁, q₁, hok₁⟩ := hok.exists_ticks hin (n - 1)
  have hmay : (Action.enter ⟨⟨0, 0, 0⟩, fun _ => 0, false⟩).May m₁ := ⟨hout, fun hc => (nomatch hc)⟩
  obtain ⟨m₂, place₂, q₂, hres₂, -⟩ := hok₁.tick hmay rfl
  have ho₂ : Onward m _ m₂ := .snoc ho hres₂ hmay
  refine hk _ m₂ ho₂ ?_ (h.2 as _ m₂ ho₂ rfl (by omega))
  rw [ticks_snoc]
  simp only [Action.isTick, Bool.not_false, if_true]
  omega

theorem SleepsFor.unique (h : SleepsFor m t n) (h' : SleepsFor m t k)
    (hok : MachineOk queued m place q)
    (hin : m.inKernel = true) (hn : 1 ≤ n) (hk : 1 ≤ k) : n = k :=
  Nat.le_antisymm ((h'.notBefore_iff hok hin hk).mp h.1) ((h.notBefore_iff hok hin hn).mp h'.1)

-- ---------------------------------------------------------------------------
-- Going to sleep
-- ---------------------------------------------------------------------------

theorem sleep_call (h : MachineOk queued m place q) (hmay : (Action.enter e).May m)
    (hcall : e.call = true) (hnr : e.context.eax = 0) (hms : 0 < toInt32 e.context.ecx)
    (hcur : m.kernel.currentTask = some c) :
    ∃ m', m.step (.enter e) = some m' ∧ m'.inKernel = true ∧
      Sleeping queued m' c (wakeTick m.kernel (toInt32 e.context.ecx)) m.kernel.clockTicks := by
  obtain ⟨c', hrun⟩ := h.running hmay.1
  cases hrun.current.symm.trans hcur
  have hidle : m.kernel.idleTask ≠ some c := fun hi => hmay.2 hcall (hcur.trans hi.symm)
  have h₀ := hrun.save (e := e)
  obtain ⟨s', place', q', hres, hok, hplace, hexp⟩ := sleep_step h₀.system (h₀.caller hidle) hms
  have hstep : m.step (.enter e) = some ⟨setEax s' c (toUInt32 0), true⟩ := by
    rw [Machine.step, enter_call hcur hcall, dispatch, hnr]
    simp only [hres]
    rfl
  have hok' := hok.setEax (c := c) (v := toUInt32 0)
  refine ⟨_, hstep, rfl,
    ⟨⟨place', q', ⟨hok'.system, fun t => ?_, fun hno => (by cases hno)⟩, hplace⟩, ?_, ?_⟩⟩
  · exact (not_congr (hok'.noWake.away t)).trans (h.started t)
  · exact (modify_field (f := withEax _) Task.timerExpire (fun _ => rfl) c).trans hexp
  · exact hok'.noWake.clockTicks

theorem sleep_wakes (h : MachineOk queued m place q) (hmay : (Action.enter e).May m)
    (hcall : e.call = true) (hnr : e.context.eax = 0) (hms : 0 < toInt32 e.context.ecx)
    (hcur : m.kernel.currentTask = some c) :
    ∃ m' place' q', m.step (.enter e) = some m' ∧ m'.inKernel = true ∧
      MachineOk queued m' place' q' ∧
      SleepsFor m' c (wakeAfter m.kernel.clockTicks (sleepTicks (toInt32 e.context.ecx))) := by
  obtain ⟨m', hstep, hin, hsleep⟩ := sleep_call h hmay hcall hnr hms hcur
  obtain ⟨place', q', hok', -⟩ := hsleep.ok
  have hclock := h.system.rest.clock
  have hle : sleepTicks (toInt32 e.context.ecx) ≤ 4294967 := by
    unfold sleepTicks toUInt32
    omega
  refine ⟨m', place', q', hstep, hin, hok', hsleep.sleepsFor (fun i hi hlt => ?_) ?_⟩
  · rw [wakeTick]
    unfold wakeAfter at hlt
    split at hlt
    · omega
    · split at hlt <;> omega
  · rw [wakeTick]
    unfold wakeAfter
    split
    · omega
    · split <;> omega

-- ---------------------------------------------------------------------------
-- The conversion
-- ---------------------------------------------------------------------------

/-- `ms * KERNEL_CLOCK_FREQ / 1000` ticks, rounded up. -/
def wholeTicks (ms : Int) : Nat := ((ms * kernelClockFreq + 999) / 1000).toNat

theorem wholeTicks_eq (ms : Int) : wholeTicks ms = ms.toNat := by
  unfold wholeTicks kernelClockFreq
  omega

theorem sleepTicks_eq (hms : 0 < ms) (hle : ms ≤ 4294966) : sleepTicks ms = ms.toNat := by
  unfold sleepTicks toUInt32 kernelClockFreq
  omega

/-- From 2³² microseconds on the conversion has lost the upper bits. -/
theorem sleepTicks_lt (hms : 4294966 < ms) : sleepTicks ms < ms.toNat := by
  unfold sleepTicks toUInt32 kernelClockFreq
  omega

theorem not_sleepOverflows_iff (hms : 0 < ms) : ¬sleepOverflows ms ↔ ms ≤ 2147482 := by
  unfold sleepOverflows kernelClockFreq
  omega

theorem MachineOk.sleep_span_iff (h : MachineOk queued m place q) (hmay : (Action.enter e).May m)
    (hcall : e.call = true) (hnr : e.context.eax = 0) (hms : 0 < toInt32 e.context.ecx)
    (hle : toInt32 e.context.ecx ≤ 1000000) (hcur : m.kernel.currentTask = some c) :
    (∃ m', m.step (.enter e) = some m' ∧ SleepsFor m' c (wholeTicks (toInt32 e.context.ecx))) ↔
      m.kernel.clockTicks + wholeTicks (toInt32 e.context.ecx) < 4294967296 ∨
      m.kernel.clockTicks = 4294967295 := by
  obtain ⟨m', place', q', hstep, hin, hok', hsleep⟩ := sleep_wakes h hmay hcall hnr hms hcur
  rw [sleepTicks_eq hms (by omega)] at hsleep
  rw [wholeTicks_eq]
  have hclock := h.system.rest.clock
  have hpos : 1 ≤ wakeAfter m.kernel.clockTicks (toInt32 e.context.ecx).toNat := by
    unfold wakeAfter
    split
    · omega
    · split <;> omega
  have heq : wakeAfter m.kernel.clockTicks (toInt32 e.context.ecx).toNat =
    (toInt32 e.context.ecx).toNat ↔
      m.kernel.clockTicks + (toInt32 e.context.ecx).toNat < 4294967296 ∨
      m.kernel.clockTicks = 4294967295 := by
    unfold wakeAfter
    split
    · omega
    · split <;> omega
  rw [← heq]
  constructor
  · rintro ⟨m₁, hstep₁, hsleep₁⟩
    cases hstep.symm.trans hstep₁
    exact hsleep.unique hsleep₁ hok' hin hpos (by omega)
  · intro he
    rw [he] at hsleep
    exact ⟨m', hstep, hsleep⟩

theorem MachineOk.sleep_long_iff (h : MachineOk queued m place q) (hmay : (Action.enter e).May m)
    (hcall : e.call = true) (hnr : e.context.eax = 0) (hms : 0 < toInt32 e.context.ecx)
    (hfit : m.kernel.clockTicks + (toInt32 e.context.ecx).toNat < 4294967296)
    (hcur : m.kernel.currentTask = some c) :
    (∃ m', m.step (.enter e) = some m' ∧ NotBefore m' c (wholeTicks (toInt32 e.context.ecx))) ↔
      toInt32 e.context.ecx ≤ 4294966 := by
  obtain ⟨m', place', q', hstep, hin, hok', hsleep⟩ := sleep_wakes h hmay hcall hnr hms hcur
  rw [wholeTicks_eq]
  have hle : sleepTicks (toInt32 e.context.ecx) ≤ (toInt32 e.context.ecx).toNat := by
    by_cases hlarge : 4294966 < toInt32 e.context.ecx
    · exact Nat.le_of_lt (sleepTicks_lt hlarge)
    · exact Nat.le_of_eq (sleepTicks_eq hms (Int.not_lt.mp hlarge))
  have hwake : wakeAfter m.kernel.clockTicks (sleepTicks (toInt32 e.context.ecx)) =
      max 1 (sleepTicks (toInt32 e.context.ecx)) := by
    unfold wakeAfter
    rw [if_neg (by omega), if_pos (by omega)]
  rw [hwake] at hsleep
  have hiff := hsleep.notBefore_iff (k := (toInt32 e.context.ecx).toNat) hok' hin (by omega)
  constructor
  · rintro ⟨m₁, hstep₁, hnot⟩
    cases hstep.symm.trans hstep₁
    have hlong := hiff.mp hnot
    by_contra hlarge
    have := sleepTicks_lt (show 4294966 < toInt32 e.context.ecx by omega)
    omega
  · intro hsmall
    refine ⟨m', hstep, hiff.mpr ?_⟩
    rw [sleepTicks_eq hms hsmall]
    omega

/-- In every state of a run: a sleep of up to 1000 seconds ends with its last tick if and only if
the counter does not pass 2³² within it, or has just one tick to go. -/
theorem sleep_exact_iff (h : KernelRun queued m) (hmay : (Action.enter e).May m)
    (hcall : e.call = true) (hnr : e.context.eax = 0) (hms : 0 < toInt32 e.context.ecx)
    (hle : toInt32 e.context.ecx ≤ 1000000) (hcur : m.kernel.currentTask = some c) :
    (∃ m', m.step (.enter e) = some m' ∧ SleepsFor m' c (wholeTicks (toInt32 e.context.ecx))) ↔
      m.kernel.clockTicks + wholeTicks (toInt32 e.context.ecx) < 4294967296 ∨
      m.kernel.clockTicks = 4294967295 := by
  obtain ⟨place, q, hok⟩ := KernelRun.ok h
  exact hok.sleep_span_iff hmay hcall hnr hms hle hcur

/-- In every state of a run, when the counter does not wrap around: the arithmetic of a sleep does
not overflow and the sleep is not cut short if and only if it is for up to 2147482 ms. -/
theorem sleep_safe_iff (h : KernelRun queued m) (hmay : (Action.enter e).May m)
    (hcall : e.call = true) (hnr : e.context.eax = 0) (hms : 0 < toInt32 e.context.ecx)
    (hfit : m.kernel.clockTicks + (toInt32 e.context.ecx).toNat < 4294967296)
    (hcur : m.kernel.currentTask = some c) :
    ((¬sleepOverflows (toInt32 e.context.ecx) ∧
        sleepTicks (toInt32 e.context.ecx) + m.kernel.clockTicks < 4294967296) ∧
      ∃ m', m.step (.enter e) = some m' ∧ NotBefore m' c (wholeTicks (toInt32 e.context.ecx))) ↔
      toInt32 e.context.ecx ≤ 2147482 := by
  obtain ⟨place, q, hok⟩ := KernelRun.ok h
  rw [hok.sleep_long_iff hmay hcall hnr hms hfit hcur, not_sleepOverflows_iff hms]
  constructor
  · intro hsafe
    exact hsafe.1.1
  · intro hle
    rw [sleepTicks_eq hms (by omega)]
    omega

-- ---------------------------------------------------------------------------
-- A long uptime
-- ---------------------------------------------------------------------------

def alone (t : Nat) : Place := if t ∈ [1] then .ready else .away

/-- With one task alone, which never sleeps, this is the task that runs. -/
structure Alone (m : Machine) (q : Lists) : Prop where
  run : KernelRun [1] m
  ok : MachineOk [1] m alone q

theorem Alone.resume (h : Alone m q) (hin : m.inKernel = true) :
    ∃ m', Alone m' q ∧ m'.inKernel = false ∧ m'.kernel.currentTask = some 1 ∧
      m'.kernel.clockTicks = m.kernel.clockTicks := by
  obtain ⟨m', c, hres, hout, hok, hrun, hchoice, hwake, -⟩ := h.ok.resume
  obtain ⟨c', hchoice', hready⟩ := h.ok.system.choice_ready (t := 1) rfl
  cases hchoice.symm.trans hchoice'
  have hc : c = 1 := by
    unfold alone at hready
    split at hready
    · exact List.mem_singleton.mp ‹_›
    · cases hready
  subst hc
  exact ⟨m', ⟨.step h.run hres hin, hok⟩, hout, hrun.current, hwake.clockTicks⟩

theorem Alone.tick (h : Alone m q) (hout : m.inKernel = false) :
    ∃ m' q', Alone m' q' ∧ m'.inKernel = true ∧
      m'.kernel.clockTicks = (m.kernel.clockTicks + 1) % 4294967296 := by
  have hmay : (Action.enter ⟨⟨0, 0, 0⟩, fun _ => 0, false⟩).May m := ⟨hout, fun hc => (nomatch hc)⟩
  obtain ⟨m', place', q', hres, hin, hok, htick⟩ := h.ok.tick hmay rfl
  have hplace : place' = alone := funext fun t => htick.others t (by unfold alone; split <;> decide)
  subst hplace
  exact ⟨m', q', ⟨.step h.run hres hmay, hok⟩, hin, htick.clockTicks⟩

theorem alone_at (n : Nat) :
    ∃ m q, Alone m q ∧ m.inKernel = false ∧ m.kernel.currentTask = some 1 ∧
      m.kernel.clockTicks = n % 4294967296 := by
  induction n with
  | zero =>
    obtain ⟨ready, hfresh⟩ := oneTask_setUp.fresh
    have hok : MachineOk [1] ⟨oneTask, true⟩ alone ⟨ready, [], fun _ => []⟩ :=
      ⟨hfresh.system, fun t => by unfold alone; split <;> simp_all, fun hno => (nomatch hno)⟩
    obtain ⟨m', h', hout, hcur, hclock⟩ := Alone.resume ⟨oneTask_run, hok⟩ rfl
    exact ⟨m', _, h', hout, hcur, hclock⟩
  | succ n ih =>
    obtain ⟨m₁, q₁, h₁, hout₁, -, hclock₁⟩ := ih
    obtain ⟨m₂, q₂, h₂, hin₂, hclock₂⟩ := h₁.tick hout₁
    obtain ⟨m₃, h₃, hout₃, hcur₃, hclock₃⟩ := h₂.resume hin₂
    refine ⟨m₃, q₂, h₃, hout₃, hcur₃, ?_⟩
    rw [hclock₃, hclock₂, hclock₁, Nat.mod_add_mod]

theorem alone_call (n ms : Nat) :
    ∃ m q, Alone m q ∧ m.kernel.currentTask = some 1 ∧ m.kernel.clockTicks = n % 4294967296 ∧
      (Action.enter ⟨⟨0, ms, 0⟩, fun _ => 0, true⟩).May m := by
  obtain ⟨m, q, h, hout, hcur, hclock⟩ := alone_at n
  refine ⟨m, q, h, hcur, hclock, hout, fun _ hidle => ?_⟩
  obtain ⟨i, hi, haway, -⟩ := h.ok.system.rest.idle
  cases hi.symm.trans (hidle.symm.trans hcur)
  cases haway

/-- Two ticks before the counter wraps around, a sleep of 3 ms does not take three ticks. -/
theorem sleep_not_exact :
    ¬∀ (queued : List Nat) (m : Machine) (e : Entry) (c : Nat), KernelRun queued m →
    (Action.enter e).May m →
      e.call = true → e.context.eax = 0 → 0 < toInt32 e.context.ecx →
      toInt32 e.context.ecx ≤ 1000000 →
      m.kernel.currentTask = some c →
      ∃ m', m.step (.enter e) = some m' ∧ SleepsFor m' c (wholeTicks (toInt32 e.context.ecx)) := by
  intro hall
  obtain ⟨m, q, h, hcur, hclock, hmay⟩ := alone_call 4294967294 3
  have hexact := hall [1] m _ 1 h.run hmay rfl rfl (by decide) (by decide) hcur
  have := (h.ok.sleep_span_iff hmay rfl rfl (by decide) (by decide) hcur).mp hexact
  rw [hclock] at this
  revert this
  decide

/-- At an early counter, a sleep of 4294968 ms is cut short. -/
theorem sleep_not_safe :
    ¬∀ (queued : List Nat) (m : Machine) (e : Entry) (c : Nat), KernelRun queued m →
    (Action.enter e).May m →
      e.call = true → e.context.eax = 0 → 0 < toInt32 e.context.ecx →
      m.kernel.clockTicks + (toInt32 e.context.ecx).toNat < 4294967296 →
      m.kernel.currentTask = some c →
      (¬sleepOverflows (toInt32 e.context.ecx) ∧
      sleepTicks (toInt32 e.context.ecx) + m.kernel.clockTicks < 4294967296) ∧
        ∃ m', m.step (.enter e) = some m' ∧
          NotBefore m' c (wholeTicks (toInt32 e.context.ecx)) := by
  intro hall
  obtain ⟨m, q, h, hcur, hclock, hmay⟩ := alone_call 0 4294968
  have hfit : m.kernel.clockTicks + (toInt32 4294968).toNat < 4294967296 := by
    rw [hclock]
    decide
  have hlong := (hall [1] m _ 1 h.run hmay rfl rfl (by decide) hfit hcur).2
  have := (h.ok.sleep_long_iff hmay rfl rfl (by decide) hfit hcur).mp hlong
  revert this
  decide

theorem sleep_exact_iff_alone :
    ∃ m, KernelRun [1] m ∧ ((∃ m', m.step (.enter ⟨⟨0, 3, 0⟩, fun _ => 0, true⟩) = some m' ∧
        SleepsFor m' 1 (wholeTicks (toInt32 3))) ↔
      m.kernel.clockTicks + wholeTicks (toInt32 3) < 4294967296 ∨
      m.kernel.clockTicks = 4294967295) := by
  obtain ⟨m, q, h, hcur, -, hmay⟩ := alone_call 5 3
  exact ⟨m, h.run, sleep_exact_iff h.run hmay rfl rfl (by decide) (by decide) hcur⟩

theorem sleep_safe_iff_alone :
    ∃ m, KernelRun [1] m ∧
      (((¬sleepOverflows (toInt32 3) ∧ sleepTicks (toInt32 3) + m.kernel.clockTicks < 4294967296) ∧
        ∃ m', m.step (.enter ⟨⟨0, 3, 0⟩, fun _ => 0, true⟩) = some m' ∧
          NotBefore m' 1 (wholeTicks (toInt32 3))) ↔
      toInt32 3 ≤ 2147482) := by
  obtain ⟨m, q, h, hcur, hclock, hmay⟩ := alone_call 5 3
  have hfit : m.kernel.clockTicks + (toInt32 3).toNat < 4294967296 := by
    rw [hclock]
    decide
  exact ⟨m, h.run, sleep_safe_iff h.run hmay rfl rfl (by decide) hfit hcur⟩

end

end ElcoOs.Tasks
