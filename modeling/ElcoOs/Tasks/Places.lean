import Mathlib.Data.List.Nodup
import Mathlib.Logic.Function.Basic

/-!
# Where the tasks are

Every started task has one place: it is ready, asleep, sending or receiving. The
lists of the kernel are the ready queues by priority, the timers, and the
messages that wait for a task by their senders. `Member` says that each list has
just the tasks that belong there; a task moves by leaving one place and
entering another.
-/

namespace ElcoOs.Tasks

inductive Place where
  /-- in none of the other places -/
  | away
  | ready
  | asleep
  | sending (dest : Nat)
  | receiving
  deriving DecidableEq, Repr

def Place.isSending : Place → Bool
  | .sending _ => true
  | _ => false

structure Lists where
  ready : Nat → List Nat
  timers : List Nat
  inbox : Nat → List Nat

structure Member (prio : Nat → Nat) (place : Nat → Place) (q : Lists) : Prop where
  ready : ∀ p t, t ∈ q.ready p ↔ place t = .ready ∧ prio t = p
  timers : ∀ t, t ∈ q.timers ↔ place t = .asleep
  inbox : ∀ d t, t ∈ q.inbox d ↔ place t = .sending d
  readyNodup : ∀ p, (q.ready p).Nodup
  timersNodup : q.timers.Nodup
  inboxNodup : ∀ d, (q.inbox d).Nodup

namespace Lists

def enqueue (q : Lists) (p t : Nat) : Lists :=
  { q with ready := Function.update q.ready p (q.ready p ++ [t]) }

def dequeue (q : Lists) (p t : Nat) : Lists :=
  { q with ready := Function.update q.ready p ((q.ready p).erase t) }

def setTimers (q : Lists) (xs : List Nat) : Lists := { q with timers := xs }

def setInbox (q : Lists) (d : Nat) (xs : List Nat) : Lists :=
  { q with inbox := Function.update q.inbox d xs }

end Lists

section
variable {prio : Nat → Nat} {place : Nat → Place} {q : Lists} {t d : Nat} {xs ys : List Nat}

theorem mem_update {f : Nat → List Nat} {p r u : Nat} :
    u ∈ Function.update f p xs r ↔ if r = p then u ∈ xs else u ∈ f r := by
  rw [Function.update_apply]
  split <;> rfl

theorem nodup_update {f : Nat → List Nat} {p : Nat} (hf : ∀ r, (f r).Nodup)
    (hxs : xs.Nodup) (r : Nat) :
    (Function.update f p xs r).Nodup := by
  rw [Function.update_apply]
  split
  · exact hxs
  · exact hf r

theorem nodup_insert (h : (xs ++ ys).Nodup) (ht : t ∉ xs ++ ys) : (xs ++ t :: ys).Nodup :=
  List.nodup_middle.mpr (List.nodup_cons.mpr ⟨ht, h⟩)

theorem mem_without {u : Nat} (ht : t ∉ xs) : u ∈ xs ↔ u ≠ t ∧ (u = t ∨ u ∈ xs) := by
  constructor
  · intro hu
    exact ⟨fun he => ht (he ▸ hu), .inr hu⟩
  · rintro ⟨hne, hu⟩
    exact hu.resolve_left hne

theorem place_in {P : Place} {u : Nat} : Function.update place t P u = P ↔ u = t ∨ place u = P := by
  rw [Function.update_apply]
  split
  · exact iff_of_true rfl (.inl ‹_›)
  · exact (or_iff_right ‹_›).symm

theorem place_out {P Q : Place} {u : Nat} (h : P ≠ Q) : Function.update place t P u = Q ↔
    u ≠ t ∧ place u = Q := by
  rw [Function.update_apply]
  split
  · exact iff_of_false h fun hu => hu.1 ‹_›
  · exact (and_iff_right ‹_›).symm

theorem place_rest {P Q : Place} {u : Nat} (ht : place t ≠ Q) (h : P ≠ Q) :
    Function.update place t P u = Q ↔ place u = Q := by
  rw [place_out h, and_iff_right_of_imp]
  rintro hu rfl
  exact ht hu

theorem Member.leaveReady (h : Member prio place q) (ht : place t = .ready) :
    Member prio (Function.update place t .away) (q.dequeue (prio t) t) := by
  have hnd := h.readyNodup (prio t)
  refine ⟨fun p u => ?_, fun u => ?_, fun d u => ?_, nodup_update h.readyNodup (hnd.erase t),
    h.timersNodup,
    h.inboxNodup⟩
  · rw [Lists.dequeue, mem_update, place_out (by decide), hnd.mem_erase_iff, h.ready, h.ready]
    split
    · subst p
      exact and_assoc.symm
    · rw [and_assoc, iff_and_self]
      rintro ⟨-, hp⟩ rfl
      exact ‹¬_› hp.symm
  · rw [Lists.dequeue, h.timers, place_rest (by simp [ht]) (by decide)]
  · rw [Lists.dequeue, h.inbox, place_rest (by simp [ht]) (by simp)]

theorem Member.enterReady (h : Member prio place q) (ht : place t = .away) :
    Member prio (Function.update place t .ready) (q.enqueue (prio t) t) := by
  have hno : t ∉ q.ready (prio t) := by simp [h.ready, ht]
  have hnd : (q.ready (prio t) ++ [t]).Nodup := by
    simpa using (h.readyNodup (prio t)).concat hno
  refine ⟨fun p u => ?_, fun u => ?_, fun d u => ?_, nodup_update h.readyNodup hnd,
    h.timersNodup, h.inboxNodup⟩
  · rw [Lists.enqueue, mem_update, place_in, List.mem_append, List.mem_singleton, h.ready, h.ready]
    split
    · subst p
      constructor
      · rintro (hu | rfl)
        · exact ⟨.inr hu.1, hu.2⟩
        · exact ⟨.inl rfl, rfl⟩
      · rintro ⟨rfl | hu, hp⟩
        · exact .inr rfl
        · exact .inl ⟨hu, hp⟩
    · rw [or_and_right, iff_or_self]
      rintro ⟨rfl, hp⟩
      exact absurd hp.symm ‹_›
  · rw [Lists.enqueue, h.timers, place_rest (by simp [ht]) (by decide)]
  · rw [Lists.enqueue, h.inbox, place_rest (by simp [ht]) (by simp)]

theorem Member.enterTimers (h : Member prio place q) (ht : place t = .away)
    (hq : q.timers = xs ++ ys) :
    Member prio (Function.update place t .asleep) (q.setTimers (xs ++ t :: ys)) := by
  have hno : t ∉ xs ++ ys := by simp [← hq, h.timers, ht]
  have hnd : (xs ++ t :: ys).Nodup := nodup_insert (hq ▸ h.timersNodup) hno
  refine ⟨fun p u => ?_, fun u => ?_, fun d u => ?_, h.readyNodup, hnd, h.inboxNodup⟩
  · rw [Lists.setTimers, h.ready, place_rest (by simp [ht]) (by decide)]
  · rw [Lists.setTimers, List.perm_middle.mem_iff, List.mem_cons, place_in, ← hq, h.timers]
  · rw [Lists.setTimers, h.inbox, place_rest (by simp [ht]) (by simp)]

theorem Member.leaveTimers (h : Member prio place q) (hq : q.timers = t :: xs) :
    Member prio (Function.update place t .away) (q.setTimers xs) := by
  have hnd := h.timersNodup
  rw [hq] at hnd
  obtain ⟨hno, hnd⟩ := List.nodup_cons.mp hnd
  have ht : place t = .asleep := (h.timers t).mp (by simp [hq])
  refine ⟨fun p u => ?_, fun u => ?_, fun d u => ?_, h.readyNodup, hnd, h.inboxNodup⟩
  · rw [Lists.setTimers, h.ready, place_rest (by simp [ht]) (by decide)]
  · rw [Lists.setTimers, place_out (by decide), ← h.timers, hq, List.mem_cons]
    exact mem_without hno
  · rw [Lists.setTimers, h.inbox, place_rest (by simp [ht]) (by simp)]

theorem Member.enterInbox (h : Member prio place q) (ht : place t = .away) :
    Member prio (Function.update place t (.sending d)) (q.setInbox d (q.inbox d ++ [t])) := by
  have hno : t ∉ q.inbox d := by simp [h.inbox, ht]
  have hnd : (q.inbox d ++ [t]).Nodup := by
    simpa using (h.inboxNodup d).concat hno
  refine ⟨fun p u => ?_, fun u => ?_, fun e u => ?_, h.readyNodup, h.timersNodup,
    nodup_update h.inboxNodup hnd⟩
  · rw [Lists.setInbox, h.ready, place_rest (by simp [ht]) (by simp)]
  · rw [Lists.setInbox, h.timers, place_rest (by simp [ht]) (by simp)]
  · rw [Lists.setInbox, mem_update, List.mem_append, List.mem_singleton, h.inbox, h.inbox]
    split
    · subst e
      rw [place_in, or_comm]
    · rw [place_rest (by simp [ht]) (by simpa using Ne.symm ‹_›)]

theorem Member.leaveInbox (h : Member prio place q) (hq : q.inbox d = xs ++ t :: ys) :
    Member prio (Function.update place t .away) (q.setInbox d (xs ++ ys)) := by
  have hnd := h.inboxNodup d
  rw [hq] at hnd
  have ht : place t = .sending d := (h.inbox d t).mp (by simp [hq])
  obtain ⟨hno, hnd⟩ := List.nodup_cons.mp (List.nodup_middle.mp hnd)
  refine ⟨fun p u => ?_, fun u => ?_, fun e u => ?_, h.readyNodup, h.timersNodup,
    nodup_update h.inboxNodup hnd⟩
  · rw [Lists.setInbox, h.ready, place_rest (by simp [ht]) (by simp)]
  · rw [Lists.setInbox, h.timers, place_rest (by simp [ht]) (by simp)]
  · rw [Lists.setInbox, mem_update, h.inbox]
    split
    · subst e
      rw [place_out (by simp), ← h.inbox, hq, List.perm_middle.mem_iff, List.mem_cons]
      exact mem_without hno
    · rw [place_rest (by simpa [ht] using Ne.symm ‹_›) (by simp)]

theorem Member.enterReceiving (h : Member prio place q) (ht : place t = .away) :
    Member prio (Function.update place t .receiving) q := by
  refine ⟨fun p u => ?_, fun u => ?_, fun e u => ?_, h.readyNodup, h.timersNodup, h.inboxNodup⟩
  · rw [h.ready, place_rest (by simp [ht]) (by decide)]
  · rw [h.timers, place_rest (by simp [ht]) (by decide)]
  · rw [h.inbox, place_rest (by simp [ht]) (by simp)]

theorem Member.leaveReceiving (h : Member prio place q) (ht : place t = .receiving) :
    Member prio (Function.update place t .away) q := by
  refine ⟨fun p u => ?_, fun u => ?_, fun e u => ?_, h.readyNodup, h.timersNodup, h.inboxNodup⟩
  · rw [h.ready, place_rest (by simp [ht]) (by decide)]
  · rw [h.timers, place_rest (by simp [ht]) (by decide)]
  · rw [h.inbox, place_rest (by simp [ht]) (by simp)]

end

end ElcoOs.Tasks
