import Mathlib.Data.List.Sort
import Mathlib.Order.Lattice
import Mathlib.Order.Basic

/-!
# Regions of a step function

A function from positions to labels, zero where there is nothing, is drawn as
the list of its runs: the maximal stretches with one positive label. `Scan`
draws it from left to right, one change of the label at a time. Several changes
at one position may pass through labels that hold nowhere, as long as they lie
between the one before and the one after.
-/

namespace Regions

@[ext] structure Region where
  start : Nat
  stop : Nat
  label : Nat
  deriving DecidableEq, Repr

def Region.Contains (r : Region) (p : Nat) : Prop := r.start ≤ p ∧ p < r.stop

instance (r : Region) (p : Nat) : Decidable (r.Contains p) := inferInstanceAs (Decidable (_ ∧ _))

def before (g : Nat → Nat) (b : Nat) : Nat := if b = 0 then 0 else g (b - 1)

/-- A maximal stretch on which `g` has one positive label. -/
structure IsRun (g : Nat → Nat) (r : Region) : Prop where
  nonempty : r.start < r.stop
  pos : 0 < r.label
  const : ∀ p, r.Contains p → g p = r.label
  starts : before g r.start ≠ r.label
  stops : g r.stop ≠ r.label

/-- The list is the runs of `g`, from left to right, and they are all of it. -/
structure Depicts (rs : List Region) (g : Nat → Nat) : Prop where
  sorted : rs.Pairwise fun r r' => r.stop ≤ r'.start
  run : ∀ r, r ∈ rs ↔ IsRun g r
  covers : ∀ p, g p ≠ 0 → ∃ r ∈ rs, r.Contains p

variable {g f : Nat → Nat} {r r' : Region} {rs rs' : List Region} {p : Nat}

-- ---------------------------------------------------------------------------
-- Runs
-- ---------------------------------------------------------------------------

theorem before_succ (h : 0 < p) : before g p = g (p - 1) := if_neg (Nat.pos_iff_ne_zero.mp h)

theorem IsRun.start_le (h : IsRun g r) (h' : IsRun g r') (hp : r.Contains p) (hp' : r'.Contains p) :
    r'.start ≤ r.start := by
  by_contra hlt
  have hlabel : r.label = r'.label := (h.const p hp).symm.trans (h'.const p hp')
  refine h'.starts ?_
  rw [before_succ (by omega), ← hlabel]
  exact h.const _ ⟨by omega, by have := hp.2; have := hp'.1; omega⟩

theorem IsRun.stop_le (h : IsRun g r) (h' : IsRun g r') (hp : r.Contains p) (hp' : r'.Contains p) :
    r.stop ≤ r'.stop := by
  by_contra hlt
  have hlabel : r.label = r'.label := (h.const p hp).symm.trans (h'.const p hp')
  refine h'.stops ?_
  rw [← hlabel]
  exact h.const _ ⟨by have := hp.1; have := hp'.2; omega, by omega⟩

theorem IsRun.unique (h : IsRun g r) (h' : IsRun g r') (hp : r.Contains p)
    (hp' : r'.Contains p) : r = r' :=
  Region.ext (Nat.le_antisymm (h'.start_le h hp' hp) (h.start_le h' hp hp'))
    (Nat.le_antisymm (h.stop_le h' hp hp') (h'.stop_le h hp' hp))
    ((h.const p hp).symm.trans (h'.const p hp'))

theorem Depicts.nodup (h : Depicts rs g) : rs.Nodup := by
  refine h.sorted.imp_of_mem fun {r r'} hr _ hle he => ?_
  have := ((h.run r).mp hr).nonempty
  subst he
  omega

theorem Depicts.unique (h : Depicts rs g) (h' : Depicts rs' g) : rs = rs' := by
  have hperm : rs.Perm rs' :=
    (List.perm_ext_iff_of_nodup h.nodup h'.nodup).mpr fun r => (h.run r).trans (h'.run r).symm
  refine hperm.eq_of_pairwise (fun r r' hr hr' hle hle' => ?_) h.sorted h'.sorted
  have := ((h.run r).mp hr).nonempty
  have := ((h'.run r').mp hr').nonempty
  omega

theorem Depicts.label_eq (h : Depicts rs g) (h' : Depicts rs f) (hp : g p ≠ 0) : f p = g p := by
  obtain ⟨r, hr, hc⟩ := h.covers p hp
  exact (((h'.run r).mp hr).const p hc).trans (((h.run r).mp hr).const p hc).symm

theorem Depicts.function_unique (h : Depicts rs g) (h' : Depicts rs f) : g = f := by
  funext p
  by_cases hp : g p = 0
  · by_contra hne
    exact hne (h'.label_eq h fun he => hne (hp.trans he.symm))
  · exact (h.label_eq h' hp).symm

theorem Depicts.touching (h : Depicts rs g) (hr : r ∈ rs) (hr' : r' ∈ rs) (ht : r.stop = r'.start) :
    r.label ≠ r'.label := by
  have h1 := (h.run r).mp hr
  have h2 := (h.run r').mp hr'
  have hg := h2.const r'.start ⟨Nat.le_refl _, h2.nonempty⟩
  exact fun he => h1.stops (ht ▸ hg.trans he.symm)

theorem Depicts.label_iff (h : Depicts rs g) {t : Nat} (ht : 0 < t) :
    g p = t ↔ ∃ r, rs.filter (fun r => r.Contains p) = [r] ∧ r.label = t := by
  constructor
  · intro hg
    obtain ⟨r, hr, hc⟩ := h.covers p (by omega)
    refine ⟨r, ?_, (((h.run r).mp hr).const p hc).symm.trans hg⟩
    have hnodup := h.nodup.filter (fun r => decide (r.Contains p))
    refine List.perm_singleton.mp
      ((List.perm_ext_iff_of_nodup hnodup (List.nodup_singleton r)).mpr fun x => ?_)
    simp only [List.mem_filter, decide_eq_true_eq, List.mem_singleton]
    constructor
    · exact fun hx => ((h.run x).mp hx.1).unique ((h.run r).mp hr) hx.2 hc
    · rintro rfl
      exact ⟨hr, hc⟩
  · rintro ⟨r, hrs, rfl⟩
    have hr : r ∈ rs.filter fun r => r.Contains p := hrs ▸ List.mem_singleton_self r
    simp only [List.mem_filter, decide_eq_true_eq] at hr
    exact ((h.run r).mp hr.1).const p hr.2

theorem Depicts.nothing (h : Depicts rs g) (hg : g p = 0) :
    rs.filter (fun r => r.Contains p) = [] := by
  refine List.filter_eq_nil_iff.mpr fun r hr hc => ?_
  have hrun := (h.run r).mp hr
  have := hrun.const p (of_decide_eq_true hc)
  have := hrun.pos
  omega

-- ---------------------------------------------------------------------------
-- The part that ends
-- ---------------------------------------------------------------------------

def Ends (g : Nat → Nat) (p : Nat) : Prop := ∃ q > p, g q ≠ g p

open Classical in
noncomputable def shown (g : Nat → Nat) (p : Nat) : Nat := if Ends g p then g p else 0

theorem shown_of_ends (h : Ends g p) : shown g p = g p := if_pos h

theorem shown_ne (h : shown g p ≠ 0) : Ends g p ∧ g p ≠ 0 := by
  by_cases he : Ends g p
  · exact ⟨he, shown_of_ends he ▸ h⟩
  · exact absurd (if_neg he) h

theorem shown_zero_or (g : Nat → Nat) (p : Nat) : shown g p = 0 ∨ shown g p = g p := by
  by_cases he : Ends g p
  · exact .inr (shown_of_ends he)
  · exact .inl (if_neg he)

theorem IsRun.shown (h : IsRun g r) : IsRun (shown g) r where
  nonempty := h.nonempty
  pos := h.pos
  const p hp := by
    have hg := h.const p hp
    exact (shown_of_ends ⟨r.stop, hp.2, fun he => h.stops (he.trans hg)⟩).trans hg
  starts := by
    have hpos := h.pos
    have hstarts := h.starts
    unfold before at hstarts ⊢
    split
    · omega
    · rename_i hne
      rw [if_neg hne] at hstarts
      rcases shown_zero_or g (r.start - 1) with h0 | h0 <;> omega
  stops := by
    have hpos := h.pos
    have hstops := h.stops
    rcases shown_zero_or g r.stop with h0 | h0 <;> omega

theorem shown_eq (h : ∀ p, ∃ q > p, g q = 0) : shown g = g := by
  funext p
  by_cases hp : g p = 0
  · rcases shown_zero_or g p with h0 | h0 <;> omega
  · obtain ⟨q, hq, h0⟩ := h p
    exact shown_of_ends ⟨q, hq, fun he => hp (he ▸ h0)⟩

/-- The last position at which a positive label ends, zero if there is none. -/
def LastEnd (g : Nat → Nat) (b : Nat) : Prop :=
  (b = 0 ∨ before g b ≠ 0 ∧ g b ≠ before g b) ∧ ∀ c, b < c → before g c ≠ 0 → g c = before g c

theorem LastEnd.shown {b : Nat} (h : LastEnd g b) (p : Nat) :
    shown g p = if p < b then g p else 0 := by
  split
  · rename_i hp
    rcases h.1 with rfl | ⟨-, hend⟩
    · exact absurd hp (Nat.not_lt_zero p)
    · refine shown_of_ends (Classical.not_not.mp fun hno => hend ?_)
      have hconst : ∀ q, p ≤ q → g q = g p := fun q hq => by
        rcases Nat.eq_or_lt_of_le hq with rfl | hlt
        · rfl
        · exact Classical.not_not.mp fun hne => hno ⟨q, hlt, hne⟩
      rw [before_succ (by omega), hconst b (by omega), hconst (b - 1) (by omega)]
  · rename_i hp
    by_contra hne
    obtain ⟨⟨q, hq, hchange⟩, hg⟩ := shown_ne hne
    -- from `p` on the label cannot change
    have hconst : ∀ n, g (p + n) = g p := by
      intro n
      induction n with
      | zero => rfl
      | succ n ih =>
        have hbefore : before g (p + n + 1) = g (p + n) := before_succ (Nat.succ_pos _)
        exact (h.2 (p + n + 1) (by omega) (by rw [hbefore, ih]; exact hg)).trans (hbefore.trans ih)
    have hq' := hconst (q - p)
    rw [Nat.add_sub_cancel' (Nat.le_of_lt hq)] at hq'
    exact hchange hq'

theorem LastEnd.le {b c : Nat} (h : LastEnd g b) (h' : LastEnd f c)
    (he : Regions.shown g = Regions.shown f) : b ≤ c := by
  rcases h.1 with rfl | ⟨hne, -⟩
  · exact Nat.zero_le c
  by_contra hlt
  have hb : 0 < b := by omega
  have hat := congrFun he (b - 1)
  rw [h.shown, h'.shown, if_pos (by omega), if_neg (by omega)] at hat
  exact hne ((before_succ hb).trans hat)

/-- Two functions show the same when they end at the same place and agree up to there. -/
theorem LastEnd.shown_eq_iff {b c : Nat} (h : LastEnd g b) (h' : LastEnd f c) :
    Regions.shown g = Regions.shown f ↔ b = c ∧ ∀ p < b, f p = g p := by
  constructor
  · intro he
    obtain rfl := Nat.le_antisymm (h.le h' he) (h'.le h he.symm)
    refine ⟨rfl, fun p hp => ?_⟩
    have hat := congrFun he p
    rw [h.shown, h'.shown, if_pos hp, if_pos hp] at hat
    exact hat.symm
  · rintro ⟨rfl, hagree⟩
    funext p
    rw [h.shown, h'.shown]
    split
    · rename_i hp
      exact (hagree p hp).symm
    · rfl

theorem Depicts.lastEnd (h : Depicts rs (Regions.shown g)) : ∃ b, LastEnd g b := by
  have hlate : ∀ c, before g c ≠ 0 → g c ≠ before g c → ∃ r ∈ rs, c ≤ r.stop := by
    intro c hc hend
    have hpos : 0 < c := by
      by_contra hz
      exact hc (if_pos (by omega))
    rw [before_succ hpos] at hc hend
    have hshown : Regions.shown g (c - 1) = g (c - 1) := shown_of_ends ⟨c, by omega, hend⟩
    obtain ⟨r, hr, hcontains⟩ := h.covers (c - 1) (by rwa [hshown])
    exact ⟨r, hr, by have := hcontains.2; omega⟩
  rcases List.eq_nil_or_concat rs with rfl | ⟨init, r, rfl⟩
  · refine ⟨0, .inl rfl, fun c _ hc => Classical.not_not.mp fun hend => ?_⟩
    obtain ⟨r, hr, -⟩ := hlate c hc hend
    exact absurd hr List.not_mem_nil
  · rw [List.concat_eq_append] at h hlate
    have hr := (h.run r).mp (by simp)
    have hpos : 0 < r.stop := Nat.lt_of_le_of_lt (Nat.zero_le _) hr.nonempty
    have hlast : r.Contains (r.stop - 1) := ⟨by have := hr.nonempty; omega, by omega⟩
    have hlabel := hr.const _ hlast
    have hshown :=
      shown_ne (g := g) (p := r.stop - 1) (by rw [hlabel]; exact Nat.pos_iff_ne_zero.mp hr.pos)
    rw [shown_of_ends hshown.1] at hlabel
    refine ⟨r.stop, .inr ?_, fun c hc hne => Classical.not_not.mp fun hend => ?_⟩
    · rw [before_succ hpos]
      refine ⟨hshown.2, fun he => ?_⟩
      -- otherwise the label would go on to an end further right, in a region of its own
      have hstop := hr.stops
      rcases shown_zero_or g r.stop with h0 | h0
      · obtain ⟨q, hq, hne⟩ := hshown.1
        have hlt : r.stop < q := by
          refine Nat.lt_of_le_of_ne (by omega) fun hqe => hne ?_
          rw [← hqe, he]
        have hat := shown_of_ends ⟨q, hlt, fun hqe => hne (hqe.trans he)⟩
        rw [h0, he, hlabel] at hat
        exact absurd hr.pos (by omega)
      · exact hstop (h0.trans (he.trans hlabel))
    · obtain ⟨r', hr', hle⟩ := hlate c hne hend
      rcases List.mem_append.mp hr' with hr' | hr'
      · have := (List.pairwise_append.mp h.sorted).2.2 r' hr' r (List.mem_singleton_self r)
        have := hr.nonempty
        omega
      · obtain rfl := List.mem_singleton.mp hr'
        omega

/-- The label raised to at least `t` from position `x` on. -/
def raise (g : Nat → Nat) (x t p : Nat) : Nat := if x ≤ p then max (g p) t else g p

/-- Raising a function changes nothing in its picture exactly when the picture
ends where it did and no label in it is below the new one. -/
theorem shown_raise_iff {x t b : Nat} (h : LastEnd g b) (hex : ∃ c, LastEnd (raise g x t) c) :
    Regions.shown g = Regions.shown (raise g x t) ↔
      ∃ b, LastEnd g b ∧ LastEnd (raise g x t) b ∧ ∀ p, x ≤ p → p < b → t ≤ g p := by
  obtain ⟨c, hc⟩ := hex
  have hagree : ∀ p, raise g x t p = g p ↔ (x ≤ p → t ≤ g p) := by
    intro p
    unfold raise
    split
    · rename_i hp
      rw [sup_eq_left]
      exact ⟨fun ht _ => ht, fun ht => ht hp⟩
    · rename_i hp
      exact iff_of_true rfl fun hc => absurd hc hp
  constructor
  · intro he
    obtain ⟨rfl, heq⟩ := (h.shown_eq_iff hc).mp he
    exact ⟨b, h, hc, fun p hx hp => (hagree p).mp (heq p hp) hx⟩
  · rintro ⟨b', h', hc', hle⟩
    exact (h'.shown_eq_iff hc').mpr ⟨rfl, fun p hp => (hagree p).mpr fun hx => hle p hx hp⟩

-- ---------------------------------------------------------------------------
-- Drawing
-- ---------------------------------------------------------------------------

structure Scan where
  closed : List Region
  addr : Nat
  label : Nat

/-- A change at position `b` to the label `w`. -/
def Scan.change (s : Scan) (b w : Nat) : Scan :=
  if w = s.label then s
  else
    { closed := if s.label ≠ 0 ∧ s.addr ≠ b then s.closed ++ [⟨s.addr, b, s.label⟩] else s.closed
      addr := if w ≠ 0 then b else s.addr
      label := w }

theorem Scan.change_same {s : Scan} {b w : Nat} (h : w = s.label) : s.change b w = s := if_pos h

theorem Scan.change_other {s : Scan} {b w : Nat} (h : w ≠ s.label) :
    s.change b w =
      { closed := if s.label ≠ 0 ∧ s.addr ≠ b then s.closed ++ [⟨s.addr, b, s.label⟩] else s.closed
        addr := if w ≠ 0 then b else s.addr
        label := w } :=
  if_neg h

def Between (x w y : Nat) : Prop := min x y ≤ w ∧ w ≤ max x y

/-- What has been drawn of `g` when the changes before position `b`, and some of
those at `b`, have been made. -/
structure Drawn (g : Nat → Nat) (b : Nat) (s : Scan) : Prop where
  mid : Between (before g b) s.label (g b)
  runs : ∀ r ∈ s.closed, IsRun g r ∧ r.stop ≤ b ∧ (s.label ≠ 0 → r.stop ≤ s.addr)
  sorted : s.closed.Pairwise fun r r' => r.stop ≤ r'.start
  covers : ∀ p < b, g p ≠ 0 → (∃ r ∈ s.closed, r.Contains p) ∨ s.label ≠ 0 ∧ s.addr ≤ p
  opened : s.label ≠ 0 → s.addr ≤ b ∧ before g s.addr ≠ g s.addr ∧ ∀ p, s.addr ≤ p →
    p < b → g p = s.label

theorem Drawn.start : Drawn g 0 ⟨[], 0, 0⟩ where
  mid := ⟨Nat.min_le_left _ _, Nat.zero_le _⟩
  runs _ h := absurd h List.not_mem_nil
  sorted := List.Pairwise.nil
  covers _ h := absurd h (Nat.not_lt_zero _)
  opened h := absurd rfl h

variable {s : Scan} {b c w : Nat}

theorem Between.eq {x : Nat} (h : Between x w x) : w = x := by
  obtain ⟨h1, h2⟩ := h
  rw [Nat.min_self] at h1
  rw [Nat.max_self] at h2
  omega

theorem Drawn.next (h : Drawn g b s) (hle : b ≤ c) (hconst : ∀ p, b ≤ p → p < c → g p = s.label) :
    Drawn g c s := by
  rcases Nat.eq_or_lt_of_le hle with rfl | hlt
  · exact h
  refine ⟨?_, ?_, h.sorted, ?_, ?_⟩
  · rw [before_succ (by omega), hconst (c - 1) (by omega) (by omega)]
    exact ⟨Nat.min_le_left _ _, Nat.le_max_left _ _⟩
  · intro r hr
    obtain ⟨h1, h2, h3⟩ := h.runs r hr
    exact ⟨h1, by omega, h3⟩
  · intro p hp hg
    by_cases hpb : p < b
    · exact h.covers p hpb hg
    · have hlabel := hconst p (by omega) hp
      have hne : s.label ≠ 0 := hlabel ▸ hg
      exact .inr ⟨hne, by have := (h.opened hne).1; omega⟩
  · intro hne
    obtain ⟨h1, h2, h3⟩ := h.opened hne
    refine ⟨by omega, h2, fun p hp hpc => ?_⟩
    by_cases hpb : p < b
    · exact h3 p hp hpb
    · exact hconst p (by omega) hpc

theorem Drawn.close (h : Drawn g b s) (hw : Between (before g b) w (g b)) (hne : w ≠ s.label)
    (hopen : s.label ≠ 0) (hb : s.addr ≠ b) : IsRun g ⟨s.addr, b, s.label⟩ := by
  obtain ⟨hle, hedge, hconst⟩ := h.opened hopen
  have hlt : s.addr < b := by omega
  refine ⟨hlt, Nat.pos_of_ne_zero hopen, fun p hp => hconst p hp.1 hp.2, ?_, ?_⟩
  · show before g s.addr ≠ s.label
    rw [← hconst s.addr (Nat.le_refl _) hlt]
    exact hedge
  · intro he
    have hbefore : before g b = s.label :=
      (before_succ (by omega)).trans (hconst (b - 1) (by omega) (by omega))
    rw [hbefore, show g b = s.label from he] at hw
    exact hne hw.eq

theorem Drawn.change (h : Drawn g b s) (hw : Between (before g b) w (g b)) :
    Drawn g b (s.change b w) := by
  unfold Scan.change
  split
  · exact h
  rename_i hne
  have hclosed :
    ∀ r ∈ (if s.label ≠ 0 ∧ s.addr ≠ b then s.closed ++ [⟨s.addr, b, s.label⟩] else s.closed),
      IsRun g r ∧ r.stop ≤ b := by
    intro r hr
    split at hr
    · rename_i hc
      rcases List.mem_append.mp hr with hr | hr
      · exact ⟨(h.runs r hr).1, (h.runs r hr).2.1⟩
      · obtain rfl := List.mem_singleton.mp hr
        exact ⟨h.close hw hne hc.1 hc.2, Nat.le_refl _⟩
    · exact ⟨(h.runs r hr).1, (h.runs r hr).2.1⟩
  refine ⟨hw, fun r hr => ⟨(hclosed r hr).1, (hclosed r hr).2, fun hw0 => ?_⟩, ?_, ?_, ?_⟩
  · rw [if_pos hw0]
    exact (hclosed r hr).2
  · show List.Pairwise _ (ite _ _ _)
    split
    · rename_i hc
      exact List.pairwise_append.mpr ⟨h.sorted, List.pairwise_singleton _ _, fun r hr r' hr' =>
        List.mem_singleton.mp hr' ▸ (h.runs r hr).2.2 hc.1⟩
    · exact h.sorted
  · intro p hp hg
    refine .inl ?_
    rcases h.covers p hp hg with ⟨r, hr, hc⟩ | ⟨hopen, hle⟩
    · refine ⟨r, ?_, hc⟩
      show r ∈ ite _ _ _
      split
      · exact List.mem_append_left _ hr
      · exact hr
    · refine ⟨⟨s.addr, b, s.label⟩, ?_, hle, hp⟩
      show _ ∈ ite _ _ _
      rw [if_pos ⟨hopen, by omega⟩]
      exact List.mem_append_right _ (List.mem_singleton_self _)
  · intro hw0
    rw [if_pos hw0]
    refine ⟨Nat.le_refl _, fun he => ?_, fun p hp hpb => absurd (Nat.lt_of_le_of_lt hp hpb)
      (Nat.lt_irrefl b)⟩
    have hmid := h.mid
    rw [he] at hw hmid
    exact hne (hw.eq.trans hmid.eq.symm)

theorem Drawn.depicts (h : Drawn g b s) (hrest : ∀ p, b ≤ p → g p = s.label) :
    Depicts s.closed (shown g) := by
  have hcovers : ∀ p, Regions.shown g p ≠ 0 → ∃ r ∈ s.closed, r.Contains p := by
    intro p hp
    obtain ⟨⟨q, hq, hne⟩, hg⟩ := shown_ne hp
    have hpb : p < b := by
      by_contra hge
      exact hne ((hrest q (by omega)).trans (hrest p (by omega)).symm)
    rcases h.covers p hpb hg with hr | ⟨hopen, hle⟩
    · exact hr
    · obtain ⟨-, -, hconst⟩ := h.opened hopen
      refine absurd (Eq.trans ?_ (hconst p hle hpb).symm) hne
      by_cases hqb : q < b
      · exact hconst q (by omega) hqb
      · exact hrest q (by omega)
  refine ⟨h.sorted, fun r => ⟨fun hr => (h.runs r hr).1.shown, fun hr => ?_⟩, hcovers⟩
  have hstart : r.Contains r.start := ⟨Nat.le_refl _, hr.nonempty⟩
  have hne : Regions.shown g r.start ≠ 0 := by
    rw [hr.const _ hstart]
    have := hr.pos
    omega
  obtain ⟨r₀, hr₀, hc⟩ := hcovers _ hne
  exact ((h.runs r₀ hr₀).1.shown.unique hr hc hstart) ▸ hr₀

end Regions
