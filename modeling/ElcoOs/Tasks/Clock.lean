import ElcoOs.Tasks.Core

/-!
# Time slices, sleeping and waking

The timers are kept in the order of the ticks at which they expire. A task that
goes to sleep is put in behind those that expire no later than it does; a tick
takes those off the front that have expired.
-/

namespace ElcoOs.Tasks

variable {s s' : Kernel} {q : Lists} {place : Nat → Place} {t c : Nat} {xs ys : List Nat}

def prioOf (s : Kernel) (t : Nat) : Nat := (s.ptable t).priority

theorem SameCore.prioOf (h : SameCore s s') : prioOf s' = prioOf s :=
  funext (h.field Task.priority fun _ => rfl)

theorem SameCore.timerExpire (h : SameCore s s') (t : Nat) :
    (s'.ptable t).timerExpire = (s.ptable t).timerExpire :=
  h.field Task.timerExpire (fun _ => rfl) t

-- ---------------------------------------------------------------------------
-- preempt
-- ---------------------------------------------------------------------------

theorem preempt_spec (h : Held s q) (hcur : s.currentTask = some c)
    (hlen : (q.ready (prioOf s c)).length < s.rounds) :
    ∃ s', preempt s = some s' ∧ Held s' ((q.dequeue (prioOf s c) c).enqueue (prioOf s c) c) ∧
      SameCore s s' := by
  obtain ⟨s₁, hres₁, h₁, hc₁⟩ := h.dequeue hlen
  have hprio : (s₁.ptable c).priority = prioOf s c := congrFun hc₁.prioOf c
  have hno : ∀ p, c ∉ (q.dequeue (s.ptable c).priority c).ready p := by
    intro p hp
    rw [Lists.dequeue, mem_update] at hp
    split at hp
    · exact (h.ready.links _).nodup.not_mem_erase hp
    · exact ‹¬_› (h.ready.eq hp)
  obtain ⟨s₂, hres₂, h₂, hc₂⟩ := h₁.enqueue hno
  rw [hprio] at h₂
  refine ⟨s₂, ?_, h₂, hc₁.trans hc₂⟩
  rw [preempt, hcur, Option.bind_eq_bind, Option.bind_some, hres₁, Option.bind_eq_bind,
    Option.bind_some, hres₂]

theorem countTick_spec (h : Held s q) (hcur : s.currentTask = some c)
    (hlen : (q.ready (prioOf s c)).length < s.rounds) :
    ∃ s' q', countTick s = some s' ∧ Held s' q' ∧
      (SameCore s s' ∧ q' = q ∨ (s.ptable c).flags.preemptible ∧
        (SameCore (s.modify c useTick) s' ∧ q' = q ∨
        SameCore ((s.modify c useTick).modify c refill) s' ∧
          q' = (q.dequeue (prioOf s c) c).enqueue (prioOf s c) c)) := by
  rw [countTick, hcur, Option.bind_eq_bind, Option.bind_some]
  by_cases hp : (s.ptable c).flags.preemptible = true
  · rw [if_pos hp]
    have h₁ : Held (s.modify c useTick) q :=
      h.modify (f := useTick) (fun _ => rfl) (fun _ => rfl) (fun _ => rfl) (fun _ => rfl) fun _ =>
      rfl
    by_cases hz : ((s.modify c useTick).ptable c).ticksLeft = 0
    · have h₂ : Held ((s.modify c useTick).modify c refill) q :=
        h₁.modify (f := refill) (fun _ => rfl) (fun _ => rfl) (fun _ => rfl) (fun _ => rfl) fun _ =>
        rfl
      have hprio : prioOf ((s.modify c useTick).modify c refill) c = prioOf s c := by
        exact (modify_field (f := refill) Task.priority (fun _ => rfl) c).trans
          (modify_field (f := useTick) Task.priority (fun _ => rfl) c)
      obtain ⟨s', hres, h', hc⟩ := preempt_spec h₂ hcur (by rw [hprio]; exact hlen)
      rw [hprio] at h'
      exact ⟨s', _, (if_pos hz).trans hres, h', .inr ⟨hp, .inr ⟨hc, rfl⟩⟩⟩
    · exact ⟨_, _, if_neg hz, h₁, .inr ⟨hp, .inl ⟨.refl _, rfl⟩⟩⟩
  · rw [if_neg hp]
    exact ⟨s, q, rfl, h, .inl ⟨.refl s, rfl⟩⟩

-- ---------------------------------------------------------------------------
-- Waking
-- ---------------------------------------------------------------------------

theorem Held.popTimer (h : Held s q) (hq : q.timers = t :: xs) :
    Held (s.popTimer t) (q.setTimers xs) := by
  have ht := h.timers
  rw [hq] at ht
  have hcut : (s.timerLinks.set none (s.timerLinks.next t)).Holds xs := ht.pop
  have hno : t ∉ xs := (List.nodup_cons.mp ht.nodup).1
  refine h.mk' ?_ ?_ fun d => ?_
  · unfold Kernel.popTimer
    exact (SameReady.mk rfl rfl rfl rfl rfl (fun _ => rfl) (fun _ => rfl) :
      SameReady s { s with nextTimerEvent := (s.ptable t).timerNext }).trans sameReady_setTimerNext
  · exact hcut.congr rfl fun u hu => setTimerNext_timerNext.trans (if_neg fun he :
      u = t => hno (he ▸ hu))
  · rw [Kernel.popTimer, inboxLinks_setTimerNext]
    exact h.inbox d

def wake (place : Nat → Place) (xs : List Nat) (u : Nat) : Place :=
  if u ∈ xs then .ready else place u

theorem wakeExpired_spec {k : Nat} (h : Held s q) (hm : Member (prioOf s) place q)
    (hk : q.timers.length < k) :
    ∃ s' q' xs ys, wakeExpired k s = some s' ∧ q.timers = xs ++ ys ∧ Held s' q' ∧ SameCore s s' ∧
      Member (prioOf s') (wake place xs) q' ∧ q'.timers = ys ∧ q'.inbox = q.inbox ∧
      (∀ x ∈ xs, (s.ptable x).timerExpire ≤ s.clockTicks) ∧ ∀ y ∈ ys.head?, s.clockTicks <
      (s.ptable y).timerExpire := by
  induction k generalizing s q place with
  | zero => exact absurd hk (Nat.not_lt_zero _)
  | succ k ih =>
    have hhead : s.nextTimerEvent = q.timers.head? := h.timers.head
    cases hq : q.timers with
    | nil =>
      rw [hq] at hhead
      refine ⟨s, q, [], [], by simp [wakeExpired, hhead], rfl, h, .refl s, ?_, hq, rfl, by
        simp, by simp⟩
      exact hm
    | cons t rest =>
      rw [hq, List.length_cons] at hk
      rw [hq, List.head?_cons] at hhead
      by_cases hexp : (s.ptable t).timerExpire ≤ s.clockTicks
      · have h₁ := h.popTimer hq
        have hc₁ : SameCore s (s.popTimer t) := sameCore_popTimer
        have hm₁ := hm.leaveTimers hq
        have hno : ∀ p, t ∉ (q.setTimers rest).ready p := by
          intro p hp
          have := ((hm₁.ready p t).mp hp).1
          rw [Function.update_self] at this
          cases this
        obtain ⟨s₂, hres₂, h₂, hc₂⟩ := h₁.enqueue hno
        have hc := hc₁.trans hc₂
        have hprio : ((s.popTimer t).ptable t).priority = prioOf s t := congrFun hc₁.prioOf t
        have hm₂ := hm₁.enterReady (Function.update_self ..)
        rw [Function.update_idem, ← hc.prioOf] at hm₂
        rw [hprio, ← congrFun hc.prioOf t] at h₂
        obtain ⟨s', q', xs, ys, hres, hxs, h', hc', hm', hys, hin, hle, hlt⟩ :=
          ih h₂ hm₂ (Nat.lt_of_succ_lt_succ hk)
        have hwake : wake (Function.update place t .ready) xs = wake place (t :: xs) := by
          funext u
          simp only [wake, Function.update_apply, List.mem_cons]
          by_cases hu : u ∈ xs
          · rw [if_pos hu, if_pos (.inr hu)]
          · rw [if_neg hu]
            exact if_congr (by simp [hu]) rfl rfl
        rw [hwake] at hm'
        have hrest : rest = xs ++ ys := hxs
        refine ⟨s', q', t :: xs, ys, ?_,
          by rw [hrest]; rfl, h', hc.trans hc', hm', hys, hin, fun x hx => ?_, fun y hy => ?_⟩
        · rw [wakeExpired, hhead]
          simp only [if_pos hexp, unblockTask, hres₂, Option.bind_some, hres]
        · rcases List.mem_cons.mp hx with rfl | hx
          · exact hexp
          · rw [← hc.timerExpire, ← hc.clockTicks]
            exact hle x hx
        · rw [← hc.timerExpire, ← hc.clockTicks]
          exact hlt y hy
      · refine ⟨s, q, [], t :: rest, ?_, rfl, h, .refl s, hm, hq, rfl, by simp, fun y hy => ?_⟩
        · rw [wakeExpired, hhead]
          exact if_neg hexp
        · cases hy
          exact Nat.lt_of_not_le hexp

-- ---------------------------------------------------------------------------
-- Sleeping
-- ---------------------------------------------------------------------------

theorem Held.insertTimer (h : Held s q) (hq : q.timers = xs ++ ys) (hno : t ∉ q.timers) :
    Held ((s.setTimerNext t ys.head?).setTimerLink xs.getLast? (some t))
      (q.setTimers (xs ++ t :: ys)) := by
  rw [hq] at hno
  have ht := h.timers
  rw [hq] at ht
  have hnext : ∀ u ∈ xs ++ ys, (s.setTimerNext t ys.head?).timerLinks.next u =
    s.timerLinks.next u :=
    fun u hu => setTimerNext_timerNext.trans (if_neg fun he : u = t => hno (he ▸ hu))
  have hins :=
    Links.Holds.insert (show (s.setTimerNext t ys.head?).timerLinks.Holds _ from
      ht.congr rfl hnext) hno
    (setTimerNext_timerNext.trans (if_pos rfl))
  refine h.mk' (sameReady_setTimerNext.trans sameReady_setTimerLink) ?_ fun d => ?_
  · rw [timerLinks_setTimerLink]
    exact hins
  · rw [inboxLinks_setTimerLink, inboxLinks_setTimerNext]
    exact h.inbox d

theorem sleepMs_spec {ms : Int} (h : Held s q) (hcur : s.currentTask = some c) (hms : 0 < ms)
    (hno : c ∉ q.timers)
    (hlen : q.timers.length < s.rounds) (hlen' : (q.ready (prioOf s c)).length < s.rounds) :
    ∃ s' xs ys, sleepMs s ms = some s' ∧ q.timers = xs ++ ys ∧
      Held s' ((q.setTimers (xs ++ c :: ys)).dequeue (prioOf s c) c) ∧
      SameCore (s.modify c (setExpire (wakeTick s ms))) s' ∧
      (∀ x ∈ xs, (s.ptable x).timerExpire ≤ wakeTick s ms) ∧
      ∀ y ∈ ys.head?, wakeTick s ms < (s.ptable y).timerExpire := by
  have h₁ : Held (s.modify c (setExpire (wakeTick s ms))) q :=
    h.modify (f := setExpire _) (fun _ => rfl) (fun _ => rfl) (fun _ => rfl) (fun _ => rfl) fun _ =>
    rfl
  have hexp : ∀ u ∈ q.timers, ((s.modify c (setExpire (wakeTick s ms))).ptable u).timerExpire =
    (s.ptable u).timerExpire :=
    fun u hu => congrArg Task.timerExpire (modify_other fun he : u = c => hno (he ▸ hu))
  obtain ⟨xs, ys, hq, hxs, hys, hseek⟩ := h₁.timers.seek_split
    (fun t =>
    decide (((s.modify c (setExpire (wakeTick s ms))).ptable t).timerExpire > wakeTick s ms)) hlen
  have h₂ := h₁.insertTimer hq hno
  have hc₂ : SameCore (s.modify c (setExpire (wakeTick s ms)))
      (((s.modify c (setExpire (wakeTick s ms))).setTimerNext c ys.head?).setTimerLink
        xs.getLast? (some c)) :=
    (sameCore_modify (by intro; rfl)).trans sameCore_setTimerLink
  have hprio : prioOf (s.modify c (setExpire (wakeTick s ms))) c = prioOf s c :=
    modify_field (f := setExpire _) Task.priority (fun _ => rfl) c
  have hprio₂ := (congrFun hc₂.prioOf c).trans hprio
  obtain ⟨s', hres, h', hc'⟩ := h₂.dequeue (t := c) (by
    rw [show (_ : Task).priority = prioOf s c from hprio₂]
    exact Nat.lt_of_lt_of_eq hlen' (by rw [Kernel.rounds, Kernel.rounds, hc₂.taskCount]; rfl))
  rw [show (_ : Task).priority = prioOf s c from hprio₂] at h'
  refine ⟨s', xs, ys, ?_, hq, h', hc₂.trans hc', fun x hx => ?_, fun y hy => ?_⟩
  · rw [sleepMs, if_neg (by omega), hcur, Option.bind_eq_bind, Option.bind_some]
    exact (congrArg (Option.bind · _) hseek).trans hres
  · have := hxs x hx
    rw [hexp x (hq ▸ List.mem_append_left _ hx)] at this
    exact Nat.le_of_not_lt (of_decide_eq_false this)
  · have := hys y hy
    rw [hexp y (hq ▸ List.mem_append_right _ (List.mem_of_mem_head? hy))] at this
    exact of_decide_eq_true this

end ElcoOs.Tasks
