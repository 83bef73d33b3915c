import ElcoOs.Paging.Lifo

/-!
# Frames

What the functions for pages do to the free frames and to the tables. Each has
a few outcomes, and those that report an error leave the state as it is.
-/

namespace ElcoOs.Paging

open Word32

-- ---------------------------------------------------------------------------
-- Pages by number
-- ---------------------------------------------------------------------------

theorem pdeNum_page (v : Nat) : pdeNum v = v / 4096 / 1024 := by
  rw [pdeNum_eq]
  omega

theorem pteNum_page (v : Nat) : pteNum v = v / 4096 % 1024 := pteNum_eq v

theorem pdeNum_below {v : Nat} (h : v < kernelPstackBottom) : pdeNum v < 1022 := by
  rw [kernelPstackBottom] at h
  rw [pdeNum_eq]
  omega

theorem same_page {v v' : Nat} (ht : pdeNum v = pdeNum v') (hp : pteNum v = pteNum v') :
    v / 4096 = v' / 4096 := by
  rw [pdeNum_page, pdeNum_page] at ht
  rw [pteNum_page, pteNum_page] at hp
  omega

theorem pageFlags_bounds (u w : Bool) : State.pageFlags u w < 4096 ∧
    State.pageFlags u w % 2 = 1 := by
  cases u <;> cases w <;> decide

namespace State

def HasTable (s : State) (t : Nat) : Prop := ¬ s.Large t ∧ s.Present t

instance (s : State) (t : Nat) : Decidable (s.HasTable t) := inferInstanceAs (Decidable (_ ∧ _))

def frameAt (s : State) (n : Nat) : Nat := s.entry (n / 1024) (n % 1024) &&& not32 ptableFlagsMask

def tableFrame (s : State) (t : Nat) : Nat := s.ptable t &&& not32 ptableFlagsMask

def HasPage (s : State) (n : Nat) : Prop := s.HasTable (n / 1024) ∧ s.EntryPresent (n / 1024)
    (n % 1024)

end State

variable {s s' s₁ : State} {fs : List Nat} {f t v n : Nat} {u w : Bool}

theorem setPage_of_table (ht : s.ptableIsSet v) (hf : f % 4096 = 0)
    (hw : f < 4294967296) (hn : n < 4096) :
    s.setPage v f n = (0, s.setEntry (pdeNum v) (pteNum v) (f + n)) := by
  rw [State.setPage, if_neg (by rintro (hc | hc); exact hc ht.2; exact ht.1 hc), entry_eq hf hn hw]

theorem setPage_zero (ht : s.ptableIsSet v) :
    s.setPage v 0 0 = (0, s.setEntry (pdeNum v) (pteNum v) 0) := by
  rw [State.setPage, if_neg (by rintro (hc | hc); exact hc ht.2; exact ht.1 hc)]
  rfl

def State.install (s : State) (t table : Nat) : State :=
  { s with
    ptable := Function.update s.ptable t (table + 3)
    entry := Function.update s.entry t fun _ => 0 }

theorem setPageTable_eq (hf : f % 4096 = 0) (hw : f < 4294967296) :
    s.setPageTable v f (ptableFlagPresent ||| ptableFlagWrite) true = s.install (pdeNum v) f := by
  simp only [State.setPageTable, State.install, if_true]
  rw [entry_eq hf (by decide) hw]
  rfl

theorem install_table (hf : f % 4096 = 0) : (s.install t f).HasTable t := by
  have hat : (s.install t f).ptable t = f + 3 := Function.update_self _ _ _
  refine ⟨not_not_intro ?_, ?_⟩
  · -- the flags of the entry are those of the set bits alone
    rw [hat, show f + 3 = f ||| 3 from (or_low 12 hf (by decide)).symm, Nat.and_or_distrib_right]
    have hlow : f &&& ptableFlagLargepage = 0 := by
      refine Nat.eq_of_testBit_eq fun i => ?_
      rw [Nat.testBit_and, Nat.zero_testBit, show ptableFlagLargepage = 2 ^ 7 from rfl,
        Nat.testBit_two_pow]
      by_cases hi : 7 = i
      · subst hi
        have : f.testBit 7 = false := by
          rw [Nat.testBit_eq_decide_div_mod_eq]
          simp only [decide_eq_false_iff_not]
          omega
        simp [this]
      · simp [hi]
    rw [hlow]
    rfl
  · unfold State.Present
    rw [hat]
    exact entry_present hf rfl

theorem install_other {t' : Nat} (h : t' ≠ t) :
    (s.install t f).ptable t' = s.ptable t' ∧ (s.install t f).entry t' = s.entry t' :=
  ⟨Function.update_of_ne h _ _, Function.update_of_ne h _ _⟩

-- ---------------------------------------------------------------------------
-- memory_allocate_page
-- ---------------------------------------------------------------------------

theorem SameRest.table (h : SameRest s s') (v : Nat) : s'.ptableIsSet v ↔ s.ptableIsSet v := by
  simp only [State.ptableIsSet, State.Large, State.Present, h.ptable]

theorem SameRest.mapped (h : SameRest s s') (hv : v < kernelPstackBottom) : s'.pageIsMapped v ↔
    s.pageIsMapped v := by
  have hne : pdeNum v ≠ 1022 := Nat.ne_of_lt (pdeNum_below hv)
  simp only [State.pageIsMapped, State.Large, State.Present, State.EntryPresent,
    h.ptable, h.entry _ hne]

theorem Pstack.setEntry (h : Pstack s fs) (ht : t ≠ 1022) (p x : Nat) :
    Pstack (s.setEntry t p x) fs :=
  h.congr rfl rfl (setEntry_other (Ne.symm ht)) rfl

theorem Pstack.install (h : Pstack s fs) (ht : t ≠ 1022) : Pstack (s.install t f) fs :=
  h.congr rfl (install_other (Ne.symm ht)).1 (install_other (Ne.symm ht)).2 rfl

theorem allocate_mapped (hm : s.pageIsMapped v) : s.memoryAllocatePage v u w = some (1, s) :=
  if_pos hm

theorem allocate_empty (h : Pstack s []) (hm : ¬ s.pageIsMapped v) :
    s.memoryAllocatePage v u w = some (1, s) := by
  rw [State.memoryAllocatePage, if_neg hm, h.pop_nil]
  rfl

theorem allocate_single (h : Pstack s [f]) (hm : ¬ s.pageIsMapped v)
    (ht : ¬ s.ptableIsSet v) : s.memoryAllocatePage v u w = some (1, s) := by
  obtain ⟨s₁, hpop, hok, hsame, hpush⟩ := Pstack.pop (show Pstack s ([] ++ [f]) from h)
  have ht₁ : ¬ s₁.ptableIsSet v := mt (hsame.table v).mp ht
  simp only [State.memoryAllocatePage, if_neg hm, hpop, bind, Option.bind, if_neg ht₁,
    hok.pop_nil, hpush, pure]

theorem allocate_page (h : Pstack s (fs ++ [f])) (hm : ¬ s.pageIsMapped v) (ht : s.ptableIsSet v) :
    ∃ s₁, Pstack s₁ fs ∧ SameRest s s₁ ∧ s₁.pstackPush f = some (0, s) ∧
      s.memoryAllocatePage v u w =
      some (0, s₁.setEntry (pdeNum v) (pteNum v) (f + State.pageFlags u w)) := by
  obtain ⟨s₁, hpop, hok, hsame, hpush⟩ := h.pop
  have ht₁ : s₁.ptableIsSet v := (hsame.table v).mpr ht
  obtain ⟨halign, hword⟩ := h.frames.2 f (by simp)
  refine ⟨s₁, hok, hsame, hpush, ?_⟩
  simp only [State.memoryAllocatePage, if_neg hm, hpop, bind, Option.bind, if_pos ht₁, pure,
    setPage_of_table ht₁ halign hword (pageFlags_bounds u w).1]

theorem allocate_table (h : Pstack s (fs ++ [t] ++ [f])) (hm : ¬ s.pageIsMapped v)
    (ht : ¬ s.ptableIsSet v) :
    ∃ s₁, Pstack s₁ fs ∧ SameRest s s₁ ∧
      s.memoryAllocatePage v u w =
        some (0, (s₁.install (pdeNum v) t).setEntry (pdeNum v) (pteNum v)
          (f + State.pageFlags u w)) := by
  obtain ⟨s₀, hpop, hok, hsame, -⟩ := h.pop
  obtain ⟨s₁, hpop₁, hok₁, hsame₁, -⟩ := hok.pop
  have ht₀ : ¬ s₀.ptableIsSet v := mt (hsame.table v).mp ht
  obtain ⟨halign, hword⟩ := h.frames.2 f (by simp)
  obtain ⟨halign', hword'⟩ := h.frames.2 t (by simp)
  have hset : (s₁.install (pdeNum v) t).ptableIsSet v := install_table halign'
  refine ⟨s₁, hok₁, hsame.trans hsame₁, ?_⟩
  simp only [State.memoryAllocatePage, if_neg hm, hpop, bind, Option.bind, if_neg ht₀, hpop₁, pure,
    setPageTable_eq halign' hword', setPage_of_table hset halign hword (pageFlags_bounds u w).1]

theorem allocate_cases (h : Pstack s fs) (u w : Bool) (v : Nat) :
    ∃ r s', s.memoryAllocatePage v u w = some (r, s') ∧
      (r = 1 ∧ s' = s ∨
        r = 0 ∧ ¬ s.pageIsMapped v ∧ s.ptableIsSet v ∧
        (∃ fs₁ f s₁, fs = fs₁ ++ [f] ∧ Pstack s₁ fs₁ ∧ SameRest s s₁ ∧
          s₁.pstackPush f = some (0, s) ∧
          s' = s₁.setEntry (pdeNum v) (pteNum v) (f + State.pageFlags u w)) ∨
        r = 0 ∧ ¬ s.pageIsMapped v ∧ ¬ s.ptableIsSet v ∧ ∃ fs₁ t f s₁, fs = fs₁ ++ [t] ++ [f] ∧
        Pstack s₁ fs₁ ∧
          SameRest s s₁ ∧
          s' = (s₁.install (pdeNum v) t).setEntry (pdeNum v) (pteNum v)
            (f + State.pageFlags u w)) := by
  by_cases hm : s.pageIsMapped v
  · exact ⟨1, s, allocate_mapped hm, .inl ⟨rfl, rfl⟩⟩
  rcases List.eq_nil_or_concat fs with rfl | ⟨fs, f, rfl⟩
  · exact ⟨1, s, allocate_empty h hm, .inl ⟨rfl, rfl⟩⟩
  rw [List.concat_eq_append] at h ⊢
  by_cases ht : s.ptableIsSet v
  · obtain ⟨s₁, hok, hsame, hpush, hres⟩ := allocate_page (u := u) (w := w) h hm ht
    exact ⟨0, _, hres, .inr (.inl ⟨rfl, hm, ht, fs, f, s₁, rfl, hok, hsame, hpush, rfl⟩)⟩
  rcases List.eq_nil_or_concat fs with rfl | ⟨fs, t, rfl⟩
  · exact ⟨1, s, allocate_single h hm ht, .inl ⟨rfl, rfl⟩⟩
  rw [List.concat_eq_append] at h ⊢
  obtain ⟨s₁, hok, hsame, hres⟩ := allocate_table (u := u) (w := w) h hm ht
  exact ⟨0, _, hres, .inr (.inr ⟨rfl, hm, ht, fs, t, f, s₁, rfl, hok, hsame, rfl⟩)⟩

-- ---------------------------------------------------------------------------
-- memory_map_addr
-- ---------------------------------------------------------------------------

/-- The entry that `set_page` writes for a frame of the caller's. -/
def mapEntry (frame : Nat) (u w : Bool) : Nat :=
  (frame &&& not32 ptableFlagsMask) ||| (State.pageFlags u w &&& ptableFlagsMask)

theorem setPage_map (ht : s.ptableIsSet v) :
    s.setPage v f (State.pageFlags u w) =
    (0, s.setEntry (pdeNum v) (pteNum v) (mapEntry f u w)) := by
  rw [State.setPage, if_neg (by rintro (hc | hc); exact hc ht.2; exact ht.1 hc)]
  rfl

theorem mapEntry_present : mapEntry f u w &&& ptableFlagPresent ≠ 0 := by
  have hbit : (mapEntry f u w).testBit 0 = true := by
    rw [mapEntry, Nat.testBit_or]
    cases u <;> cases w <;> simp [State.pageFlags, ptableFlagPresent, ptableFlagWrite,
      ptableFlagUsermode, ptableFlagsMask]
  rw [ptableFlagPresent, and_one]
  have := Nat.testBit_zero (mapEntry f u w)
  rw [hbit] at this
  simpa using this.symm

theorem map_cases (h : Pstack s fs) (u w : Bool) (v f : Nat) :
    ∃ r s', s.memoryMapAddr v f u w = some (r, s') ∧
      (r = 1 ∧ s' = s ∨
        r = 0 ∧ ¬ s.pageIsMapped v ∧ s.ptableIsSet v ∧
        s' = s.setEntry (pdeNum v) (pteNum v) (mapEntry f u w) ∨
        r = 0 ∧ ¬ s.pageIsMapped v ∧ ¬ s.ptableIsSet v ∧ ∃ fs₁ t s₁, fs = fs₁ ++ [t] ∧
        Pstack s₁ fs₁ ∧ SameRest s s₁ ∧
          s' = (s₁.install (pdeNum v) t).setEntry (pdeNum v) (pteNum v) (mapEntry f u w)) := by
  by_cases hm : s.pageIsMapped v
  · exact ⟨1, s, if_pos hm, .inl ⟨rfl, rfl⟩⟩
  by_cases ht : s.ptableIsSet v
  · refine ⟨0, _, ?_, .inr (.inl ⟨rfl, hm, ht, rfl⟩)⟩
    rw [State.memoryMapAddr, if_neg hm, if_pos ht, setPage_map ht]
  rcases List.eq_nil_or_concat fs with rfl | ⟨fs, t, rfl⟩
  · refine ⟨1, s, ?_, .inl ⟨rfl, rfl⟩⟩
    rw [State.memoryMapAddr, if_neg hm, if_neg ht, h.pop_nil]
    rfl
  rw [List.concat_eq_append] at h ⊢
  obtain ⟨s₁, hpop, hok, hsame, -⟩ := h.pop
  obtain ⟨halign, hword⟩ := h.frames.2 t (by simp)
  have hset : (s₁.install (pdeNum v) t).ptableIsSet v := install_table halign
  refine ⟨0, _, ?_, .inr (.inr ⟨rfl, hm, ht, fs, t, s₁, rfl, hok, hsame, rfl⟩)⟩
  simp only [State.memoryMapAddr, if_neg hm, if_neg ht, hpop, bind, Option.bind, pure,
    setPageTable_eq halign hword,
    setPage_map hset]

-- ---------------------------------------------------------------------------
-- memory_free_page
-- ---------------------------------------------------------------------------

theorem hasPage_mapped (h : s.HasPage (v / 4096)) : s.pageIsMapped v ∧ s.ptableIsSet v := by
  rw [State.HasPage, ← pdeNum_page, ← pteNum_page] at h
  exact ⟨⟨h.1.2, .inr h.2⟩, h.1⟩

theorem free_eq (h : s.HasPage (v / 4096)) :
    s.memoryFreePage v = (s.setEntry (pdeNum v) (pteNum v) 0).pstackPush
      (s.frameAt (v / 4096)) := by
  obtain ⟨hm, ht⟩ := hasPage_mapped h
  have hget :
    s.getPage v = some (s.frameAt (v / 4096),
      s.entry (pdeNum v) (pteNum v) &&& ptableFlagsMask) := by
    rw [State.getPage, if_neg (by rintro (hc | hc); exact hc ht.2; exact ht.1 hc),
      State.frameAt, ← pdeNum_page,
      ← pteNum_page]
  rw [State.memoryFreePage, if_neg (not_not_intro hm), hget]
  simp only [setPage_zero ht]
  rw [if_neg (not_not_intro rfl)]

theorem free_page (h : Pstack s fs) (hv : v < kernelPstackBottom) (hp : s.HasPage (v / 4096))
    (hf : Frames (fs ++ [s.frameAt (v / 4096)])) :
    ∃ s', s.memoryFreePage v = some (0, s') ∧ Pstack s' (fs ++ [s.frameAt (v / 4096)]) ∧
      SameRest (s.setEntry (pdeNum v) (pteNum v) 0) s' := by
  rw [free_eq hp]
  exact (h.setEntry (Nat.ne_of_lt (pdeNum_below hv)) _ _).push hf

end ElcoOs.Paging
