import ElcoOs.Tasks.Calls

/-!
# Histories of messages

The events of the message calls, latest first. In a faithful history every copy
answers an open receive call, with a message that was sent to that task by one
the call named, that was not copied before, and before which no such message
waits.
-/

namespace ElcoOs.Tasks

/-- A receive call for `origin` asks for messages of this task. -/
def named (pid : Nat → Int) (origin : Int) (t : Nat) : Prop := origin = pidAllTasks ∨ origin = pid t

/-- The receive call that a task has not got a message for: where to put it, and from whom. -/
def openAsk (t : Nat) : List Event → Option (Nat × Int)
  | [] => none
  | .sent .. :: tr => openAsk t tr
  | .asked u ptr origin :: tr => if u = t then some (ptr, origin) else openAsk t tr
  | .copied _ u _ _ :: tr => if u = t then none else openAsk t tr

def copiedStamps : List Event → List Nat
  | [] => []
  | .copied m .. :: tr => m.stamp :: copiedStamps tr
  | _ :: tr => copiedStamps tr

/-- A message that has been sent and not been copied. -/
def Pending (tr : List Event) (m : Message) (c d : Nat) (direct : Bool) : Prop :=
  .sent m c d direct ∈ tr ∧ m.stamp ∉ copiedStamps tr

/-- After `tr`, to copy `m` to `ptr` for `t` is to answer its receive call. -/
structure Answers (pid : Nat → Int) (tr : List Event) (m : Message) (t ptr : Nat)
    (origin : Int) : Prop where
  sent : ∃ c b, .sent m c t b ∈ tr ∧ named pid origin c
  once : m.stamp ∉ copiedStamps tr
  asked : openAsk t tr = some (ptr, origin)
  first : ∀ m' c b, .sent m' c t b ∈ tr → named pid origin c → m'.stamp < m.stamp →
    m'.stamp ∈ copiedStamps tr

def Faithful (pid : Nat → Int) : List Event → Prop
  | [] => True
  | .sent m _ _ _ :: tr => m.stamp = sends tr ∧ Faithful pid tr
  | .asked t _ _ :: tr => openAsk t tr = none ∧ Faithful pid tr
  | .copied m t ptr origin :: tr => Answers pid tr m t ptr origin ∧ Faithful pid tr

section
variable {pid : Nat → Int} {tr : List Event} {m m' : Message} {c c' d d' t ptr : Nat}
  {b b' : Bool} {origin : Int} {e : Event}

theorem sends_sent : sends (.sent m c d b :: tr) = sends tr + 1 := List.countP_cons_of_pos rfl

theorem sends_le : sends tr ≤ sends (e :: tr) :=
  List.Sublist.countP_le (List.sublist_cons_self e tr)

theorem Faithful.tail (h : Faithful pid (e :: tr)) : Faithful pid tr := by
  cases e <;> exact h.2

theorem Faithful.stamp_lt (h : Faithful pid tr) (hs : .sent m c d b ∈ tr) : m.stamp < sends tr := by
  induction tr with
  | nil => cases hs
  | cons e tr ih =>
    rcases List.mem_cons.mp hs with rfl | hs
    · rw [h.1, sends_sent]
      exact Nat.lt_succ_self _
    · exact Nat.lt_of_lt_of_le (ih h.tail hs) sends_le

theorem Faithful.unique (h : Faithful pid tr) (hs : .sent m c d b ∈ tr)
    (hs' : .sent m' c' d' b' ∈ tr)
    (heq : m.stamp = m'.stamp) : m = m' ∧ c = c' ∧ d = d' ∧ b = b' := by
  induction tr with
  | nil => cases hs
  | cons e tr ih =>
    rcases List.mem_cons.mp hs with rfl | hin
    · rcases List.mem_cons.mp hs' with he | hin'
      · cases he
        exact ⟨rfl, rfl, rfl, rfl⟩
      · have := h.2.stamp_lt hin'
        rw [← heq, h.1] at this
        exact absurd this (Nat.lt_irrefl _)
    · rcases List.mem_cons.mp hs' with rfl | hin'
      · have := h.2.stamp_lt hin
        rw [heq, h.1] at this
        exact absurd this (Nat.lt_irrefl _)
      · exact ih h.tail hin hin'

theorem Faithful.copied_lt {n : Nat} (h : Faithful pid tr) (hn : n ∈ copiedStamps tr) :
    n < sends tr := by
  induction tr with
  | nil => cases hn
  | cons e tr ih =>
    cases e with
    | sent m c d b => exact Nat.lt_of_lt_of_le (ih h.2 hn) sends_le
    | asked t ptr o => exact ih h.2 hn
    | copied m t ptr o =>
      rcases List.mem_cons.mp hn with rfl | hn
      · obtain ⟨c, b, hs, -⟩ := h.1.sent
        exact h.2.stamp_lt hs
      · exact ih h.2 hn

theorem Faithful.nodup (h : Faithful pid tr) : (copiedStamps tr).Nodup := by
  induction tr with
  | nil => exact List.nodup_nil
  | cons e tr ih =>
    cases e with
    | sent m c d b => exact ih h.2
    | asked t ptr o => exact ih h.2
    | copied m t ptr o => exact List.nodup_cons.mpr ⟨h.1.once, ih h.2⟩

theorem Pending.unique (h : Faithful pid tr) (hp : Pending tr m c d b)
    (hp' : Pending tr m' c' d' b')
    (heq : m.stamp = m'.stamp) : m = m' ∧ c = c' ∧ d = d' ∧ b = b' := h.unique hp.1 hp'.1 heq

theorem Pending.stamp_lt (h : Faithful pid tr) (hp : Pending tr m c d b) : m.stamp < sends tr :=
  h.stamp_lt hp.1

theorem Pending.sent (hp : Pending tr m c d b) : Pending (.sent m' c' d' b' :: tr) m c d b :=
  ⟨List.mem_cons_of_mem _ hp.1, hp.2⟩

theorem Faithful.sent (h : Faithful pid tr) (hm : m.stamp = sends tr) :
    Pending (.sent m c d b :: tr) m c d b :=
  ⟨List.mem_cons_self, fun hn => absurd (h.copied_lt hn) (by omega)⟩

theorem Pending.asked (hp : Pending tr m c d b) : Pending (.asked t ptr origin :: tr) m c d b :=
  ⟨List.mem_cons_of_mem _ hp.1, hp.2⟩

theorem Pending.copied (hp : Pending tr m c d b) (hne : m.stamp ≠ m'.stamp) :
    Pending (.copied m' t ptr origin :: tr) m c d b :=
  ⟨List.mem_cons_of_mem _ hp.1, fun hn => (List.mem_cons.mp hn).elim hne hp.2⟩

theorem Pending.of_copied (hp : Pending (.copied m' t ptr origin :: tr) m c d b) :
    Pending tr m c d b ∧ m.stamp ≠ m'.stamp := by
  obtain ⟨hs, hn⟩ := hp
  refine ⟨⟨(List.mem_cons.mp hs).resolve_left (by simp), fun h => hn (List.mem_cons_of_mem _ h)⟩,
    fun he => hn ?_⟩
  rw [he]
  exact List.mem_cons_self

theorem Pending.of_asked (hp : Pending (.asked t ptr origin :: tr) m c d b) : Pending tr m c d b :=
  ⟨(List.mem_cons.mp hp.1).resolve_left (by simp), hp.2⟩

end

end ElcoOs.Tasks
