import ElcoOs.Mmap.Mmap
import ElcoOs.Lib.Regions

/-!
# The open entries

An entry gives two change points, and in the sorted list the one at its start
comes first. So after any part of the list an entry is open when its first
change has been made and its second has not; an empty entry, both of whose
changes look like starts, is opened twice and never closed. Between two
addresses the highest open type is that of the entries there; at an address it
lies between the one before and the one after.
-/

namespace ElcoOs.Mmap

open Regions (Between before before_succ)

/-- An entry that is used: its position in memory, itself and where it ends. -/
structure Item where
  ptr : Nat
  entry : MultibootMmapEntry
  stop : Nat

def Item.first (i : Item) : ChangePoint := ⟨i.entry.addrLow, i.ptr, i.entry⟩
def Item.last (i : Item) : ChangePoint := ⟨i.stop, i.ptr, i.entry⟩
def Item.changes (i : Item) : List ChangePoint := [i.first, i.last]
def Item.Empty (i : Item) : Prop := i.stop = i.entry.addrLow

@[simp] theorem Item.first_isStart (i : Item) : i.first.isStart = true := decide_eq_true rfl

@[simp] theorem Item.last_isStart (i : Item) : i.last.isStart = true ↔ i.Empty := decide_eq_true_iff

def Item.Live (i : Item) (p : Nat) : Prop := i.entry.addrLow ≤ p ∧ (p < i.stop ∨ i.Empty)

instance (i : Item) : Decidable i.Empty := inferInstanceAs (Decidable (_ = _))
instance (i : Item) (p : Nat) : Decidable (i.Live p) := inferInstanceAs (Decidable (_ ∧ _))

def typeAt (is : List Item) (p : Nat) : Nat :=
  ((is.filter fun i => i.Live p).map fun i => i.entry.type).foldr max 0

variable {is : List Item} {i : Item} {cs done todo : List ChangePoint}
  {c : ChangePoint} {p b t : Nat} {overlap : List (Nat × MultibootMmapEntry)}

theorem foldr_max_le {ts : List Nat} : ts.foldr max 0 ≤ t ↔ ∀ x ∈ ts, x ≤ t := by
  induction ts with
  | nil => simp
  | cons x ts ih => simp [ih]

theorem typeAt_le : typeAt is p ≤ t ↔ ∀ i ∈ is, i.Live p → i.entry.type ≤ t := by
  simp only [typeAt, foldr_max_le, List.mem_map, List.mem_filter, decide_eq_true_eq,
    forall_exists_index, and_imp]
  constructor
  · exact fun h i hi hl => h _ i hi hl rfl
  · rintro h _ i hi hl rfl
    exact h i hi hl

theorem foldl_type_le {a : Nat} :
    overlap.foldl (fun t o => if o.2.type > t then o.2.type else t) a ≤ t ↔
      a ≤ t ∧ ∀ o ∈ overlap, o.2.type ≤ t := by
  induction overlap generalizing a with
  | nil => simp
  | cons o os ih =>
    rw [List.foldl_cons, ih]
    simp only [List.mem_cons, forall_eq_or_imp]
    split <;> constructor <;> rintro ⟨h1, h2⟩
    · exact ⟨by omega, h1, h2⟩
    · exact ⟨h2.1, h2.2⟩
    · exact ⟨h1, by omega, h2⟩
    · exact ⟨h1, h2.2⟩

theorem curType_le : curType overlap ≤ t ↔ ∀ o ∈ overlap, o.2.type ≤ t := by
  rw [curType, foldl_type_le]
  exact and_iff_right (Nat.zero_le t)

-- ---------------------------------------------------------------------------
-- The sorted list of changes
-- ---------------------------------------------------------------------------

structure Sorted (is : List Item) (cs : List ChangePoint) : Prop where
  ptrs : (is.map Item.ptr).Nodup
  order : ∀ i ∈ is, i.entry.addrLow ≤ i.stop
  perm : cs.Perm (is.flatMap Item.changes)
  sorted : cs.Pairwise fun a b => misplaced b a = false

theorem misplaced_iff {a b : ChangePoint} :
    misplaced b a = true ↔ b.addr < a.addr ∨ b.addr = a.addr ∧ b.isStart = true ∧
    a.isStart = false := by
  simp [misplaced, and_assoc]

theorem not_misplaced {a b : ChangePoint} (h : misplaced b a = false) :
    a.addr ≤ b.addr ∧ (b.addr = a.addr → b.isStart = true → a.isStart = true) := by
  have hn : ¬ (b.addr < a.addr ∨ b.addr = a.addr ∧ b.isStart = true ∧ a.isStart = false) :=
    fun hc => Bool.eq_false_iff.mp h (misplaced_iff.mpr hc)
  refine ⟨Nat.le_of_not_lt fun hlt => hn (.inl hlt), fun he hb => ?_⟩
  by_contra ha
  exact hn (.inr ⟨he, hb, by simpa using ha⟩)

theorem flatMap_filter (hnd : (is.map Item.ptr).Nodup) (hi : i ∈ is) :
    (is.flatMap Item.changes).filter (fun c => c.ptr = i.ptr) = i.changes := by
  induction is with
  | nil => cases hi
  | cons j js ih =>
    obtain ⟨hj, hjs⟩ := List.nodup_cons.mp hnd
    rw [List.flatMap_cons, List.filter_append]
    rcases List.mem_cons.mp hi with rfl | hi
    · have hnone : (js.flatMap Item.changes).filter (fun c => c.ptr = i.ptr) = [] := by
        refine List.filter_eq_nil_iff.mpr fun c hc he => ?_
        obtain ⟨k, hk, hck⟩ := List.mem_flatMap.mp hc
        have hptr : c.ptr = k.ptr := by
          simp only [Item.changes, List.mem_cons, List.not_mem_nil, or_false] at hck
          rcases hck with rfl | rfl <;> rfl
        exact hj (List.mem_map.mpr ⟨k, hk, hptr.symm.trans (of_decide_eq_true he)⟩)
      rw [hnone, List.append_nil]
      simp [Item.changes, Item.first, Item.last]
    · have hne : ¬ j.ptr = i.ptr := fun he => hj (he ▸ List.mem_map_of_mem hi)
      rw [ih hjs hi]
      simp [Item.changes, Item.first, Item.last, hne]

theorem Sorted.filter (h : Sorted is cs) (hi : i ∈ is) :
    cs.filter (fun c => c.ptr = i.ptr) = i.changes := by
  have hperm := h.perm.filter fun c => decide (c.ptr = i.ptr)
  rw [flatMap_filter h.ptrs hi] at hperm
  have hle := h.order i hi
  have hown : i.changes.Pairwise fun a b => misplaced b a = false := by
    refine List.pairwise_pair.mpr (Bool.eq_false_iff.mpr fun hm => ?_)
    rcases misplaced_iff.mp hm with hlt | ⟨he, hs, hf⟩
    · exact absurd hle (Nat.not_le_of_lt hlt)
    · exact absurd (i.first_isStart.symm.trans hf) (by decide)
  refine hperm.eq_of_pairwise (fun a b ha hb hab hba => ?_) (h.sorted.filter _) hown
  have ha' := hperm.mem_iff.mp ha
  by_cases hempty : i.Empty
  · have hfirst : ∀ x ∈ i.changes, x = i.first := by
      simp only [Item.changes, List.mem_cons, List.not_mem_nil, or_false]
      rintro x (rfl | rfl)
      · rfl
      · exact congrArg (fun n => (⟨n, i.ptr, i.entry⟩ : ChangePoint)) hempty
    exact (hfirst a ha').trans (hfirst b hb).symm
  · have heq := Nat.le_antisymm (not_misplaced hab).1 (not_misplaced hba).1
    simp only [Item.changes, List.mem_cons, List.not_mem_nil, or_false] at ha' hb
    rcases ha' with rfl | rfl <;> rcases hb with rfl | rfl
    · rfl
    · exact absurd heq.symm hempty
    · exact absurd heq hempty
    · rfl

inductive Phase (i : Item) (done todo : List ChangePoint) : Nat → Prop where
  | ahead : i.first ∈ todo → i.last ∈ todo → Phase i done todo 0
  | opened : i.first ∈ done → i.last ∈ todo → Phase i done todo 1
  | passed : i.first ∈ done → i.last ∈ done → Phase i done todo 2

theorem Sorted.phase (h : Sorted is (done ++ todo)) (hi : i ∈ is) :
    Phase i done todo (done.countP fun c => c.ptr = i.ptr) := by
  have hf := h.filter hi
  rw [List.filter_append] at hf
  have hmem : ∀ {l : List ChangePoint} {c : ChangePoint},
    c ∈ l.filter (fun c => c.ptr = i.ptr) → c ∈ l :=
    fun hc => List.mem_of_mem_filter hc
  rw [List.countP_eq_length_filter]
  rcases hd : done.filter (fun c => c.ptr = i.ptr) with _ | ⟨x, _ | ⟨y, zs⟩⟩ <;> rw [hd] at hf <;>
    simp only [Item.changes, List.nil_append, List.cons_append, List.cons.injEq] at hf
  · rw [hd]
    exact .ahead (hmem (hf ▸ List.mem_cons_self)) (hmem (hf ▸ by simp))
  · obtain ⟨rfl, hf⟩ := hf
    rw [hd]
    exact .opened (hmem (hd ▸ List.mem_cons_self)) (hmem (hf ▸ List.mem_cons_self))
  · obtain ⟨rfl, rfl, hf⟩ := hf
    obtain rfl := (List.append_eq_nil_iff.mp hf).1
    rw [hd]
    exact .passed (hmem (hd ▸ List.mem_cons_self)) (hmem (hd ▸ by simp))

-- ---------------------------------------------------------------------------
-- The set of open entries
-- ---------------------------------------------------------------------------

/-- How often an entry is in the set when `n` of its changes have been made. -/
def Item.opened (i : Item) (n : Nat) : Nat := if i.Empty then n else if n = 1 then 1 else 0

structure Open (is : List Item) (done : List ChangePoint)
    (overlap : List (Nat × MultibootMmapEntry)) : Prop where
  known : ∀ o ∈ overlap, ∃ i ∈ is, o = (i.ptr, i.entry)
  count : ∀ i ∈ is, overlap.count (i.ptr, i.entry) = i.opened (done.countP fun c => c.ptr = i.ptr)

theorem Open.nil : Open is [] [] where
  known _ h := absurd h List.not_mem_nil
  count i _ := by simp [Item.opened]

theorem Open.mem_iff (h : Open is done overlap) (hi : i ∈ is) :
    (i.ptr, i.entry) ∈ overlap ↔ 0 < i.opened (done.countP fun c => c.ptr = i.ptr) := by
  rw [← h.count i hi]
  exact List.count_pos_iff.symm

theorem replaceFirst_split {last o : Nat × MultibootMmapEntry}
    {pre post : List (Nat × MultibootMmapEntry)} (hpre : ∀ x ∈ pre, x.1 ≠ o.1) :
    removeOverlap.replaceFirst o.1 last (pre ++ o :: post) = pre ++ last :: post := by
  induction pre with
  | nil => simp [removeOverlap.replaceFirst]
  | cons x pre ih =>
    rw [List.cons_append, removeOverlap.replaceFirst, if_neg (hpre x List.mem_cons_self),
      ih fun y hy => hpre y (List.mem_cons_of_mem _ hy)]
    rfl

theorem removeOverlap_spec {o : Nat × MultibootMmapEntry} (ho : o ∈ overlap)
    (hunique : ∀ x ∈ overlap, x.1 = o.1 → x = o) :
    ∃ rest, removeOverlap overlap o.1 = some rest ∧ rest.Perm (overlap.erase o) := by
  obtain ⟨pre, post, hnot, rfl, herase⟩ := List.exists_erase_eq ho
  have hpre : ∀ x ∈ pre, x.1 ≠ o.1 := fun x hx he =>
    hnot (hunique x (List.mem_append_left _ hx) he ▸ hx)
  rw [herase]
  rcases List.eq_nil_or_concat post with rfl | ⟨mid, last, rfl⟩
  · refine ⟨pre, ?_, by simp⟩
    simp [removeOverlap, replaceFirst_split hpre]
  · refine ⟨pre ++ last :: mid, ?_, ?_⟩
    · have hlast : (pre ++ o :: (mid ++ [last])).getLast? = some last := by
        rw [← List.cons_append, ← List.append_assoc, List.getLast?_concat]
      rw [removeOverlap, List.concat_eq_append, hlast]
      simp only [replaceFirst_split hpre]
      rw [← List.cons_append, ← List.append_assoc, List.dropLast_concat]
    · rw [List.concat_eq_append]
      exact (List.perm_append_comm : ([last] ++ mid).Perm (mid ++ [last])).append_left pre

theorem Sorted.head (h : Sorted is (done ++ c :: todo)) (hi : i ∈ is) (hc : c.ptr = i.ptr) :
    (done.countP fun c => c.ptr = i.ptr) = 0 ∧ c = i.first ∨ (done.countP fun c => c.ptr = i.ptr) =
    1 ∧ c = i.last := by
  have hf := h.filter hi
  rw [List.filter_append, List.filter_cons_of_pos (by simpa using hc)] at hf
  rw [List.countP_eq_length_filter]
  rcases hd : done.filter (fun c => c.ptr = i.ptr) with _ | ⟨x, _ | ⟨y, zs⟩⟩ <;> rw [hd] at hf <;>
    simp only [Item.changes, List.nil_append, List.cons_append, List.cons.injEq] at hf
  · rw [hd]
    exact .inl ⟨rfl, hf.1⟩
  · rw [hd]
    exact .inr ⟨rfl, hf.2.1⟩
  · exact absurd hf.2.2 (by simp)

theorem Sorted.item (h : Sorted is cs) (hc : c ∈ cs) : ∃ i ∈ is, c.ptr = i.ptr ∧
    c.entry = i.entry := by
  obtain ⟨i, hi, hci⟩ := List.mem_flatMap.mp (h.perm.mem_iff.mp hc)
  simp only [Item.changes, List.mem_cons, List.not_mem_nil, or_false] at hci
  refine ⟨i, hi, ?_⟩
  rcases hci with rfl | rfl <;> exact ⟨rfl, rfl⟩

theorem ptr_inj (hnd : (is.map Item.ptr).Nodup) {i j : Item} (hi : i ∈ is) (hj : j ∈ is)
    (he : j.ptr = i.ptr) :
    j = i :=
  List.inj_on_of_nodup_map hnd hj hi he

theorem Open.step (h : Open is done overlap) (hs : Sorted is (done ++ c :: todo)) :
    ∃ next, updateOverlap overlap c = some next ∧ Open is (done ++ [c]) next := by
  obtain ⟨i, hi, hptr, hentry⟩ := hs.item (c := c) (by simp)
  have hcount : ∀ j : Item, (done ++ [c]).countP (fun c => c.ptr = j.ptr) =
      done.countP (fun c => c.ptr = j.ptr) + if c.ptr = j.ptr then 1 else 0 := by
    intro j
    simp [List.countP_append, List.countP_singleton]
  -- what happens to the entry of the change decides; the others stay as they are
  have key : ∀ next : List (Nat × MultibootMmapEntry),
    (∀ o ∈ next, o ∈ overlap ∨ o = (i.ptr, i.entry)) →
      (∀ o, o ≠ (i.ptr, i.entry) → next.count o = overlap.count o) →
      next.count (i.ptr, i.entry) = i.opened (done.countP (fun c => c.ptr = i.ptr) + 1) →
      Open is (done ++ [c]) next := by
    intro next hmem hother hown
    refine ⟨fun o ho => ?_, fun j hj => ?_⟩
    · rcases hmem o ho with ho | rfl
      · exact h.known o ho
      · exact ⟨i, hi, rfl⟩
    · rw [hcount]
      by_cases he : j.ptr = i.ptr
      · obtain rfl := ptr_inj hs.ptrs hi hj he
        rw [if_pos hptr]
        exact hown
      · rw [if_neg fun hc => he (hc.symm.trans hptr), Nat.add_zero,
          hother _ fun ho => he (congrArg Prod.fst ho)]
        exact h.count j hj
  have happend : overlap.count (i.ptr, i.entry) + 1 =
    i.opened (done.countP (fun c => c.ptr = i.ptr) + 1) →
      Open is (done ++ [c]) (overlap ++ [(c.ptr, c.entry)]) := by
    intro hone
    rw [hptr, hentry]
    refine key _ (fun o ho => ?_) (fun o ho => ?_) ?_
    · simpa using ho
    · simp [List.count_append, Ne.symm ho]
    · simpa [List.count_append, List.count_singleton] using hone
  rw [h.count i hi] at happend
  unfold updateOverlap
  rcases hs.head hi hptr with ⟨hn, rfl⟩ | ⟨hn, rfl⟩
  · rw [if_pos i.first_isStart]
    exact ⟨_, rfl, happend (by rw [hn]; simp [Item.opened])⟩
  · by_cases hempty : i.Empty
    · rw [if_pos (i.last_isStart.mpr hempty)]
      exact ⟨_, rfl, happend (by rw [hn]; simp [Item.opened, hempty])⟩
    · rw [if_neg (mt i.last_isStart.mp hempty)]
      have hone : overlap.count (i.ptr, i.entry) = 1 := by
        rw [h.count i hi, hn]
        simp [Item.opened, hempty]
      obtain ⟨rest, hrest, hperm⟩ := removeOverlap_spec (o := (i.ptr, i.entry))
        (List.count_pos_iff.mp (hone ▸ Nat.one_pos)) fun x hx he => by
          obtain ⟨j, hj, rfl⟩ := h.known x hx
          obtain rfl := ptr_inj hs.ptrs hi hj he
          rfl
      refine ⟨rest, hrest, key rest (fun o ho => .inl (List.mem_of_mem_erase (hperm.mem_iff.mp ho)))
        (fun o ho => ?_) ?_⟩
      · rw [hperm.count_eq, List.count_erase_of_ne ho]
      · rw [hperm.count_eq, List.count_erase_self, hone, hn]
        simp [Item.opened, hempty]

-- ---------------------------------------------------------------------------
-- The highest open type
-- ---------------------------------------------------------------------------

theorem curType_le_typeAt (h : Open is done overlap)
    (hopen : ∀ i ∈ is, (i.ptr, i.entry) ∈ overlap → i.Live p) :
    curType overlap ≤ typeAt is p := by
  refine curType_le.mpr fun o ho => ?_
  obtain ⟨i, hi, rfl⟩ := h.known o ho
  exact typeAt_le.mp (Nat.le_refl _) i hi (hopen i hi ho)

theorem typeAt_le_curType (hlive : ∀ i ∈ is, i.Live p → (i.ptr, i.entry) ∈ overlap) :
    typeAt is p ≤ curType overlap :=
  typeAt_le.mpr fun i hi hl => curType_le.mp (Nat.le_refl _) _ (hlive i hi hl)

theorem Open.curType_eq (h : Open is done overlap) (hs : Sorted is (done ++ todo))
    (hd : ∀ c ∈ done, c.addr ≤ p)
    (ht : ∀ c ∈ todo, p < c.addr) : curType overlap = typeAt is p := by
  have hiff : ∀ i ∈ is, (i.ptr, i.entry) ∈ overlap ↔ i.Live p := by
    intro i hi
    rw [h.mem_iff hi]
    generalize hn : (done.countP fun c => c.ptr = i.ptr) = n
    have hphase := hs.phase hi
    rw [hn] at hphase
    cases hphase with
    | ahead hf _ =>
      have hlt : p < i.entry.addrLow := ht _ hf
      exact iff_of_false (by simp [Item.opened]) fun hl => absurd hl.1 (Nat.not_le_of_lt hlt)
    | opened hf hl =>
      exact iff_of_true (by unfold Item.opened; split <;> simp) ⟨hd _ hf, .inl (ht _ hl)⟩
    | passed hf hl =>
      have hle : i.stop ≤ p := hd _ hl
      have hstart : i.entry.addrLow ≤ p := hd _ hf
      by_cases hempty : i.Empty
      · exact iff_of_true (by simp [Item.opened, hempty]) ⟨hstart, .inr hempty⟩
      · exact iff_of_false (by simp [Item.opened, hempty]) fun hlive =>
          hlive.2.elim (fun hlt => absurd hle (Nat.not_le_of_lt hlt)) hempty
  exact Nat.le_antisymm (curType_le_typeAt h fun i hi hm => (hiff i hi).mp hm)
    (typeAt_le_curType fun i hi hl => (hiff i hi).mpr hl)

theorem Open.curType_between (h : Open is done overlap) (hs : Sorted is (done ++ todo))
    (hd : ∀ c ∈ done, c.addr ≤ b)
    (ht : ∀ c ∈ todo, b ≤ c.addr) : Between (before (typeAt is) b) (curType overlap)
    (typeAt is b) := by
  have hlower : typeAt is b ≤ curType overlap ∨ before (typeAt is) b ≤ curType overlap := by
    by_cases hend : ∃ x ∈ done, x.addr = b ∧ x.isStart = false
    · -- an end has been made, so all starts here have
      obtain ⟨x, hx, hxb, hxs⟩ := hend
      refine .inl (typeAt_le_curType fun i hi hl => (h.mem_iff hi).mpr ?_)
      generalize hn : (done.countP fun c => c.ptr = i.ptr) = n
      have hphase := hs.phase hi
      rw [hn] at hphase
      cases hphase with
      | ahead hf _ =>
        have hpair := not_misplaced ((List.pairwise_append.mp hs.sorted).2.2 x hx _ hf)
        have hstart : i.entry.addrLow = b := Nat.le_antisymm hl.1 (ht _ hf)
        have := hpair.2 (hstart.trans hxb.symm) i.first_isStart
        rw [hxs] at this
        cases this
      | opened _ _ => unfold Item.opened; split <;> simp
      | passed _ hlast =>
        have hle : i.stop ≤ b := hd _ hlast
        have hempty : i.Empty := hl.2.resolve_left (Nat.not_lt_of_le hle)
        simp [Item.opened, hempty]
    · -- only starts have been made here, so what was open is open
      refine .inr ?_
      unfold before
      split
      · exact Nat.zero_le _
      refine typeAt_le_curType fun i hi hl => (h.mem_iff hi).mpr ?_
      generalize hn : (done.countP fun c => c.ptr = i.ptr) = n
      have hphase := hs.phase hi
      rw [hn] at hphase
      cases hphase with
      | ahead hf _ =>
        have hle : b ≤ i.entry.addrLow := ht _ hf
        have := hl.1
        omega
      | opened _ _ => unfold Item.opened; split <;> simp
      | passed _ hlast =>
        have hle : i.stop ≤ b := hd _ hlast
        by_cases hempty : i.Empty
        · simp [Item.opened, hempty]
        · have hlt : b - 1 < i.stop := hl.2.resolve_right hempty
          exact absurd ⟨_, hlast, show i.stop = b by omega,
            Bool.eq_false_iff.mpr (mt i.last_isStart.mp hempty)⟩ hend
  have hupper : curType overlap ≤ max (before (typeAt is) b) (typeAt is b) := by
    refine curType_le.mpr fun o ho => ?_
    obtain ⟨i, hi, rfl⟩ := h.known o ho
    have hat : i.Live b → i.entry.type ≤ max (before (typeAt is) b) (typeAt is b) := fun hl =>
      Nat.le_trans (typeAt_le.mp (Nat.le_refl _) i hi hl) (Nat.le_max_right _ _)
    have hopen := (h.mem_iff hi).mp ho
    generalize hn : (done.countP fun c => c.ptr = i.ptr) = n at hopen
    have hphase := hs.phase hi
    rw [hn] at hphase
    cases hphase with
    | ahead _ _ => simp [Item.opened] at hopen
    | opened hf hlast =>
      have hle : i.entry.addrLow ≤ b := hd _ hf
      have hge : b ≤ i.stop := ht _ hlast
      rcases Nat.eq_or_lt_of_le hle with he | hlt
      · refine hat ⟨hle, ?_⟩
        rcases Nat.eq_or_lt_of_le hge with hstop | hlt
        · exact .inr (hstop.symm.trans he.symm)
        · exact .inl hlt
      · refine Nat.le_trans ?_ (Nat.le_max_left _ _)
        rw [before_succ (by omega)]
        exact typeAt_le.mp (Nat.le_refl _) i hi ⟨by omega, .inl (by omega)⟩
    | passed hf _ =>
      refine hat ⟨hd _ hf, .inr ?_⟩
      by_contra hempty
      simp [Item.opened, hempty] at hopen
  refine ⟨?_, hupper⟩
  rcases hlower with hl | hl
  · exact Nat.le_trans (Nat.min_le_right _ _) hl
  · exact Nat.le_trans (Nat.min_le_left _ _) hl

end ElcoOs.Mmap
