import Mathlib.Data.List.Nodup
import Mathlib.Logic.Function.Basic

/-!
# Singly linked lists

Elements that carry a link to the next one, and a head. `Links.Holds` says that
the links lead through a list; `seek` is the loop that follows them. Writes to
one link cut an element out or put one in.
-/

/-- Along `next`, `a` leads through the elements to `b`. -/
def Leads {ι : Type} (next : ι → Option ι) : Option ι → List ι → Option ι → Prop
  | a, [], b => a = b
  | a, x :: xs, b => a = some x ∧ Leads next (next x) xs b

instance decidableLeads {ι : Type} [DecidableEq ι] (next : ι → Option ι) :
    (a : Option ι) → (xs : List ι) → (b : Option ι) → Decidable (Leads next a xs b)
  | a, [], b => inferInstanceAs (Decidable (a = b))
  | a, x :: xs, b => @instDecidableAnd (a = some x) _ _ (decidableLeads next (next x) xs b)

/-- The loop along the links: the element before the first one that `p` picks, and
that one. It fails when it has not ended after `fuel` rounds. -/
def seek {ι : Type} (next : ι → Option ι) (p : ι → Bool) :
    Nat → Option ι → Option ι → Option (Option ι × Option ι)
  | 0, _, _ => none
  | _ + 1, before, none => some (before, none)
  | fuel + 1, before, some x =>
    if p x then some (before, some x) else seek next p fuel (some x) (next x)

@[ext] structure Links (ι : Type) where
  head : Option ι
  next : ι → Option ι

namespace Links

variable {ι : Type}

def Holds (l : Links ι) (xs : List ι) : Prop := Leads l.next l.head xs none

instance [DecidableEq ι] (l : Links ι) (xs : List ι) : Decidable (l.Holds xs) :=
  decidableLeads l.next l.head xs none

def set [DecidableEq ι] (l : Links ι) (before v : Option ι) : Links ι :=
  match before with
  | none => { l with head := v }
  | some x => { l with next := Function.update l.next x v }

end Links

section
variable {ι : Type} {next next' : ι → Option ι} {a b : Option ι} {x : ι}
  {xs ys : List ι} {p : ι → Bool} {l l' : Links ι}

-- ---------------------------------------------------------------------------
-- Paths
-- ---------------------------------------------------------------------------

theorem leads_append : Leads next a (xs ++ ys) b ↔ ∃ m, Leads next a xs m ∧ Leads next m ys b := by
  induction xs generalizing a with
  | nil => simp [Leads]
  | cons x xs ih =>
    simp only [List.cons_append, Leads, ih]
    constructor
    · rintro ⟨h, m, hxs, hys⟩
      exact ⟨m, ⟨h, hxs⟩, hys⟩
    · rintro ⟨m, ⟨h, hxs⟩, hys⟩
      exact ⟨h, m, hxs, hys⟩

theorem Leads.congr (h : Leads next a xs b) (hn : ∀ x ∈ xs, next' x = next x) :
    Leads next' a xs b := by
  induction xs generalizing a with
  | nil => exact h
  | cons x xs ih =>
    refine ⟨h.1, ?_⟩
    rw [hn x List.mem_cons_self]
    exact ih h.2 fun y hy => hn y (List.mem_cons_of_mem _ hy)

theorem Leads.head (h : Leads next a xs none) : a = xs.head? := by
  cases xs with
  | nil => exact h
  | cons x xs => exact h.1

theorem Leads.unique (h : Leads next a xs none) (h' : Leads next a ys none) : xs = ys := by
  induction xs generalizing a ys with
  | nil =>
    cases ys with
    | nil => rfl
    | cons y ys => exact absurd (h.symm.trans h'.1) (by simp)
  | cons x xs ih =>
    cases ys with
    | nil => exact absurd (h'.symm.trans h.1) (by simp)
    | cons y ys =>
      obtain rfl := Option.some.inj (h.1.symm.trans h'.1)
      rw [ih h.2 h'.2]

theorem Leads.nodup (h : Leads next a xs none) : xs.Nodup := by
  induction xs generalizing a with
  | nil => exact List.nodup_nil
  | cons x xs ih =>
    refine List.nodup_cons.mpr ⟨fun hx => ?_, ih h.2⟩
    obtain ⟨as, bs, rfl⟩ := List.append_of_mem hx
    obtain ⟨m, -, hm⟩ := leads_append.mp h.2
    have hlen := congrArg List.length (Leads.unique h.2 hm.2)
    simp only [List.length_append, List.length_cons] at hlen
    omega

theorem Leads.seek_eq (h : Leads next a (xs ++ ys) none) (hxs : ∀ x ∈ xs, p x = false)
    (hys : ∀ y ∈ ys.head?, p y = true) {k : Nat} (hk : xs.length < k) (before : Option ι) :
    seek next p k before a = some (xs.getLast?.or before, ys.head?) := by
  induction xs generalizing a before k with
  | nil =>
    obtain ⟨k, rfl⟩ := Nat.exists_eq_add_of_lt hk
    have ha := Leads.head h
    subst ha
    cases ys with
    | nil => simp [seek]
    | cons y ys => simp [seek, hys y rfl]
  | cons x xs ih =>
    obtain ⟨k, rfl⟩ := Nat.exists_eq_add_of_lt hk
    obtain ⟨rfl, h⟩ := h
    have hx := hxs x List.mem_cons_self
    have := ih h (fun y hy => hxs y (List.mem_cons_of_mem _ hy)) (k := xs.length + 1 + k)
      (by omega) (some x)
    simp only [List.length_cons, seek, hx, Bool.false_eq_true, if_false, this]
    cases xs with
    | nil => simp
    | cons y ys => simp [List.getLast?_cons]

-- ---------------------------------------------------------------------------
-- Lists with a head
-- ---------------------------------------------------------------------------

theorem Links.Holds.congr (h : l.Holds xs) (hhead : l'.head = l.head)
    (hnext : ∀ x ∈ xs, l'.next x = l.next x) :
    l'.Holds xs := by
  rw [Links.Holds, hhead]
  exact Leads.congr h hnext

theorem Links.Holds.head (h : l.Holds xs) : l.head = xs.head? := Leads.head h

theorem Links.Holds.nodup (h : l.Holds xs) : xs.Nodup := Leads.nodup h

theorem Links.Holds.unique (h : l.Holds xs) (h' : l.Holds ys) : xs = ys := Leads.unique h h'

theorem Links.Holds.next_eq (h : l.Holds (xs ++ x :: ys)) : l.next x = ys.head? := by
  obtain ⟨m, -, hm⟩ := leads_append.mp h
  exact Leads.head hm.2

theorem Links.Holds.seek_eq (h : l.Holds (xs ++ ys)) (hxs : ∀ x ∈ xs, p x = false)
    (hys : ∀ y ∈ ys.head?, p y = true) {k : Nat} (hk : xs.length < k) :
    seek l.next p k none l.head = some (xs.getLast?, ys.head?) := by
  have := Leads.seek_eq h hxs hys hk none
  rwa [Option.or_none] at this

theorem Links.Holds.seek_none (h : l.Holds xs) (hxs : ∀ x ∈ xs, p x = false) {k : Nat}
    (hk : xs.length < k) :
    seek l.next p k none l.head = some (xs.getLast?, none) := by
  rw [← List.append_nil xs] at h
  exact h.seek_eq hxs (by simp) hk

theorem exists_split (p : ι → Bool) (xs : List ι) :
    ∃ as bs, xs = as ++ bs ∧ (∀ a ∈ as, p a = false) ∧ ∀ b ∈ bs.head?, p b = true := by
  induction xs with
  | nil => exact ⟨[], [], rfl, by simp, by simp⟩
  | cons x xs ih =>
    by_cases hx : p x = true
    · exact ⟨[], x :: xs, rfl, by simp, by simpa using hx⟩
    · obtain ⟨as, bs, rfl, has, hbs⟩ := ih
      refine ⟨x :: as, bs, rfl, fun a ha => ?_, hbs⟩
      rcases List.mem_cons.mp ha with rfl | ha
      · exact Bool.not_eq_true _ ▸ hx
      · exact has a ha

theorem Links.Holds.seek_split (h : l.Holds xs) (p : ι → Bool) {k : Nat} (hk : xs.length < k) :
    ∃ as bs, xs = as ++ bs ∧ (∀ a ∈ as, p a = false) ∧ (∀ b ∈ bs.head?, p b = true) ∧
      seek l.next p k none l.head = some (as.getLast?, bs.head?) := by
  obtain ⟨as, bs, rfl, has, hbs⟩ := exists_split p xs
  rw [List.length_append] at hk
  exact ⟨as, bs, rfl, has, hbs, h.seek_eq has hbs (by omega)⟩

variable [DecidableEq ι]

theorem Links.Holds.relink (h : Leads l.next l.head xs a) (hxs : xs.Nodup)
    (hys : Leads l.next b ys none)
    (hd : ∀ x ∈ ys, x ∉ xs) : (l.set xs.getLast? b).Holds (xs ++ ys) := by
  rcases List.eq_nil_or_concat xs with rfl | ⟨as, x, rfl⟩
  · exact hys
  · rw [List.concat_eq_append] at h hxs hd ⊢
    rw [List.getLast?_concat]
    obtain ⟨m, has, hm⟩ := leads_append.mp h
    have hx : x ∉ as := fun hm => (List.nodup_append.mp hxs).2.2 x hm x (by simp) rfl
    refine leads_append.mpr ⟨b, leads_append.mpr ⟨m, ?_, ?_⟩, ?_⟩
    · exact Leads.congr has fun y hy => Function.update_of_ne (fun he : y = x => hx (he ▸ hy)) ..
    · exact ⟨hm.1, Function.update_self ..⟩
    · exact Leads.congr hys fun y hy =>
        Function.update_of_ne (fun he : y = x => hd y hy (by simp [he])) ..

theorem Links.Holds.remove (h : l.Holds (xs ++ x :: ys)) :
    (l.set xs.getLast? (l.next x)).Holds (xs ++ ys) := by
  obtain ⟨m, hxs, hm⟩ := leads_append.mp h
  have hnd := h.nodup
  refine Links.Holds.relink hxs (hnd.sublist (List.sublist_append_left ..)) hm.2 fun y hy hyx => ?_
  exact (List.nodup_append.mp hnd).2.2 y hyx y (List.mem_cons_of_mem _ hy) rfl

theorem Links.Holds.pop (h : l.Holds (x :: ys)) : (l.set none (l.next x)).Holds ys := by
  rw [← List.nil_append (x :: ys)] at h
  exact h.remove

theorem Links.Holds.insert (h : l.Holds (xs ++ ys)) (hx : x ∉ xs ++ ys)
    (hnext : l.next x = ys.head?) :
    (l.set xs.getLast? (some x)).Holds (xs ++ x :: ys) := by
  obtain ⟨m, hxs, hm⟩ := leads_append.mp h
  have hnd := h.nodup
  refine Links.Holds.relink hxs (hnd.sublist (List.sublist_append_left ..)) ⟨rfl,
    ?_⟩ fun y hy hyx => ?_
  · rw [hnext, ← Leads.head hm]
    exact hm
  · rcases List.mem_cons.mp hy with rfl | hy
    · exact hx (List.mem_append_left _ hyx)
    · exact (List.nodup_append.mp hnd).2.2 y hyx y hy rfl

theorem Links.Holds.append (h : l.Holds xs) (hx : x ∉ xs) (hnext : l.next x = none) :
    (l.set xs.getLast? (some x)).Holds (xs ++ [x]) := by
  rw [← List.append_nil xs] at h
  exact h.insert (by simpa using hx) hnext

end
