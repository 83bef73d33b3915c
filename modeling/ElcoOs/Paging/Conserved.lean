import ElcoOs.Paging.Ledger

/-!
# What the page stack holds, and what a failure leaves

The words of the page stack and the pages of its window are its frames, each
once. A call that fails leaves no trace.
-/

namespace ElcoOs.Paging

open Word32

variable {s₀ s s' : State} {initial fs : List Nat} {x : Ledger} {v : Nat}

-- ---------------------------------------------------------------------------
-- The frames of the page stack
-- ---------------------------------------------------------------------------

/-- The pages of the stack come at every 1025th place, the stored frames between them. -/
theorem range_split (n : Nat) :
    (List.range n).Perm ((List.range (pages n)).map (1025 * ·) ++
      (List.range (entries n)).map fun i => 1025 * (i / 1024) + 1 + i % 1024) := by
  refine (List.perm_ext_iff_of_nodup List.nodup_range (List.nodup_append.mpr ⟨?_, ?_, ?_⟩)).mpr
    fun i => ?_
  · exact List.nodup_range.map_on fun a _ b _ he => by omega
  · exact List.nodup_range.map_on fun a _ b _ he => by omega
  · intro a ha b hb he
    obtain ⟨k, -, rfl⟩ := List.mem_map.mp ha
    obtain ⟨j, -, rfl⟩ := List.mem_map.mp hb
    omega
  · simp only [List.mem_append, List.mem_map, List.mem_range, pages, entries]
    constructor
    · intro hi
      by_cases hr : i % 1025 = 0
      · exact .inl ⟨i / 1025, by omega, by omega⟩
      · exact .inr ⟨1024 * (i / 1025) + (i % 1025 - 1), by omega, by omega⟩
    · rintro (⟨k, hk, rfl⟩ | ⟨j, hj, rfl⟩)
      · omega
      · omega

theorem Pstack.split (h : Pstack s fs) :
    ∃ stored, storedFrames s = stored.map some ∧ fs.Perm (backingFrames s ++ stored) := by
  have hle := h.pages_le
  have hlen := h.frames.length_le
  refine ⟨(List.range (entries fs.length)).map fun i =>
    fs.getD (1025 * (i / 1024) + 1 + i % 1024) 0, ?_, ?_⟩
  · have hcount : (kernelPstackTop - s.pstackPointer) / 4 = entries fs.length := by
      rw [h.pointer, kernelPstackTop, entries, pages]
      omega
    rw [storedFrames, hcount, List.map_map]
    refine List.map_congr_left fun i hi => ?_
    rw [List.mem_range, entries, pages] at hi
    have hlt : 1025 * (i / 1024) + 1 + i % 1024 < fs.length := by omega
    have hslot : kernelPstackTop - 4 * (i + 1) = slot (i / 1024) (i % 1024) := by
      rw [slot, kernelPstackTop]
      omega
    rw [State.load, hslot, h.translate_slot (by unfold pages; omega) (Nat.mod_lt _ (by decide)),
      Option.map_some,
      h.words _ _ (Nat.mod_lt _ (by decide)) hlt]
    rfl
  · -- the mapped entries of the window are those from its end down
    have hback :
      (backingFrames s).Perm ((List.range (pages fs.length)).map fun k =>
        fs.getD (1025 * k) 0) := by
      have hfilter : ((List.range 1024).filter fun p => s.EntryPresent 1022 p).Perm
          ((List.range (pages fs.length)).map (1023 - ·)) := by
        refine (List.perm_ext_iff_of_nodup (List.nodup_range.filter _)
          (List.nodup_range.map_on ?_)).mpr fun p => ?_
        · intro a ha b hb he
          rw [List.mem_range] at ha hb
          omega
        · simp only [List.mem_filter, List.mem_range, decide_eq_true_eq, List.mem_map]
          constructor
          · rintro ⟨hp, hpresent⟩
            refine ⟨1023 - p, ?_, by omega⟩
            by_contra hno
            have := h.unmapped (1023 - p) (by omega) (by omega)
            rw [show 1023 - (1023 - p) = p by omega] at this
            exact this hpresent
          · rintro ⟨k, hk, rfl⟩
            refine ⟨by omega, ?_⟩
            rw [State.EntryPresent, h.mapped k hk]
            exact entry_present (h.page_frame hk).1 rfl
      refine (hfilter.map _).trans (List.Perm.of_eq ?_)
      rw [List.map_map]
      refine List.map_congr_left fun k hk => ?_
      rw [List.mem_range] at hk
      obtain ⟨halign, hword⟩ := h.page_frame hk
      have hdiv : (1022 * 1024 + (1023 - k)) / 1024 = 1022 := by omega
      have hmod : (1022 * 1024 + (1023 - k)) % 1024 = 1023 - k := by omega
      show s.frameAt (1022 * 1024 + (1023 - k)) = _
      rw [State.frameAt, hdiv, hmod, h.mapped k hk, entry_frame halign (by decide) (by omega)]
    have hself : fs = (List.range fs.length).map fun i => fs.getD i 0 := by
      refine List.ext_getElem (by simp) fun i hi hi' => ?_
      rw [List.getElem_map, List.getElem_range, List.getD_eq_getElem _ _ hi]
    refine (List.Perm.of_eq hself).trans (((range_split fs.length).map _).trans ?_)
    rw [List.map_append, List.map_map, List.map_map]
    exact (List.Perm.append hback (List.Perm.refl _)).symm

-- ---------------------------------------------------------------------------
-- Failure leaves no trace
-- ---------------------------------------------------------------------------

def PageRun (x : Ledger) : Prop :=
  Reach (fun x => ∃ s₀ initial, Blank s₀ ∧ Tidy s₀ ∧ Frames initial ∧
  Begun s₀ initial x) pageStep PageMay x

theorem PageRun.tidy (h : PageRun x) : (∃ fs, Pstack x.state fs) ∧ Tidy x.state := by
  have hbal : ∃ s₀ initial fs, Tidy s₀ ∧ Frames initial ∧
    Balance s₀ initial x.state x.alloc fs x.lost := by
    refine Reach.invariant
      (p := fun x => ∃ s₀ initial fs, Tidy s₀ ∧ Frames initial ∧
      Balance s₀ initial x.state x.alloc fs x.lost) ?_ ?_ h
    · rintro x ⟨s₀, initial, hs, ht, hf, hx⟩
      exact ⟨s₀, initial, initial, ht, hf, hx.balance hs hf⟩
    · rintro x a y ⟨s₀, initial, fs, ht, hf, hbal⟩ hstep hmay
      obtain ⟨y', fs', hres, hbal'⟩ := hbal.step hf hmay
      rw [hstep, Option.some.injEq] at hres
      obtain rfl := hres
      exact ⟨s₀, initial, fs', ht, hf, hbal'⟩
  obtain ⟨s₀, initial, fs, ht, -, hbal⟩ := hbal
  exact ⟨⟨fs, hbal.pstack⟩, hbal.tidy ht⟩

theorem free_undoes {s₁ : State} {f e : Nat} (hok : Pstack s (fs ++ [f])) (htidy : Tidy s)
    (hv : v < kernelPstackBottom)
    (hm : ¬ s.pageIsMapped v) (ht : s.ptableIsSet v) (hsame : SameRest s s₁)
    (hpush : s₁.pstackPush f = some (0, s)) (hlow : e < 4096) (hbit : e % 2 = 1) :
    (s₁.setEntry (pdeNum v) (pteNum v) (f + e)).memoryFreePage v = some (0, s) := by
  obtain ⟨halign, hword⟩ := hok.frames.2 f (by simp)
  have hpde := pdeNum_below hv
  have habsent : ¬ s.EntryPresent (pdeNum v) (pteNum v) := fun hp => hm ⟨ht.2, .inr hp⟩
  have hzero : s₁.entry (pdeNum v) (pteNum v) = 0 := by
    rw [hsame.entry _ (Nat.ne_of_lt hpde)]
    refine htidy _ hpde ht _ ?_ habsent
    rw [pteNum_page]
    omega
  have hpage : (s₁.setEntry (pdeNum v) (pteNum v) (f + e)).HasPage (v / 4096) := by
    rw [pdeNum_page, pteNum_page]
    refine ⟨(hsame.hasTable _).mpr (pdeNum_page v ▸ ht), ?_⟩
    rw [State.EntryPresent, setEntry_apply, if_pos rfl]
    exact entry_present halign hbit
  have hframe : (s₁.setEntry (pdeNum v) (pteNum v) (f + e)).frameAt (v / 4096) = f := by
    rw [pdeNum_page, pteNum_page, State.frameAt, setEntry_apply, if_pos rfl,
      entry_frame halign hlow (by omega)]
  rw [free_eq hpage, hframe, setEntry_undo hzero, hpush]

/-- Both functions change nothing when they fail, and `memory_free_page` undoes
an allocation that needed no new table. -/
theorem page_atomic (h : PageRun x) (hv : v < kernelPstackBottom) (u w : Bool) (frame : Nat) :
    (∃ r s', x.state.memoryAllocatePage v u w = some (r, s') ∧ (r ≠ 0 → s' = x.state) ∧
      (r = 0 → x.state.ptableIsSet v → s'.memoryFreePage v = some (0, x.state))) ∧
    ∃ r s', x.state.memoryMapAddr v frame u w = some (r, s') ∧ (r ≠ 0 → s' = x.state) := by
  obtain ⟨⟨fs, hok⟩, htidy⟩ := h.tidy
  obtain ⟨hlow, hbit⟩ := pageFlags_bounds u w
  refine ⟨?_, ?_⟩
  · obtain ⟨r, s', hres, hcase⟩ := allocate_cases hok u w v
    refine ⟨r, s', hres, ?_⟩
    rcases hcase with ⟨rfl, rfl⟩ | ⟨rfl, hm, ht, fs₁, f, s₁, rfl, hok₁, hsame, hpush,
      rfl⟩ | ⟨rfl, hm, ht, -⟩
    · exact ⟨fun _ => rfl, fun hr => absurd hr (by decide)⟩
    · exact ⟨fun hr => absurd rfl hr,
        fun _ _ => free_undoes hok htidy hv hm ht hsame hpush hlow hbit⟩
    · exact ⟨fun hr => absurd rfl hr, fun _ hset => absurd hset ht⟩
  · obtain ⟨r, s', hres, hcase⟩ := map_cases hok u w v frame
    refine ⟨r, s', hres, fun hr => ?_⟩
    rcases hcase with ⟨rfl, rfl⟩ | ⟨rfl, -⟩ | ⟨rfl, -⟩
    · rfl
    · exact absurd rfl hr
    · exact absurd rfl hr

theorem bootState_tidy : Tidy bootState := fun _ _ _ _ _ _ => rfl

def onePage : Ledger :=
  let x : Ledger := ⟨(bootState.pushAll [0x5000, 0x6000, 0x7000]).getD bootState, [], []⟩
  (pageStep x (.allocate 0x1000 false true)).getD x

theorem onePage_run : PageRun onePage := by
  have hf : Frames [0x5000, 0x6000, 0x7000] := by
    refine ⟨by decide, fun f hf => ?_⟩
    simp only [List.mem_cons, List.not_mem_nil, or_false] at hf
    rcases hf with rfl | rfl | rfl <;> decide
  obtain ⟨s, hs⟩ :=
    Option.isSome_iff_exists.mp (show (bootState.pushAll [0x5000, 0x6000, 0x7000]).isSome by
      decide +kernel)
  have hstart : PageRun ⟨s, [], []⟩ :=
    .start ⟨bootState, _, bootState_blank, bootState_tidy, hf, hs, rfl, rfl⟩
  have hlow : 0x1000 < kernelPstackBottom := by decide
  obtain ⟨r, s', hres, -⟩ := (page_atomic hstart hlow false true 0).1
  refine hstart.step (a := .allocate 0x1000 false true) ?_ hlow
  rw [onePage]
  simp only [hs, Option.getD_some, pageStep, hres, Option.map_some]

/-- The last frame goes to a page and comes back; it is not enough for a page in
another table, and without it there is none for a mapping there. -/
theorem page_atomic_onePage : ∃ s s' : State,
    s.memoryAllocatePage 0x2000 false true = some (0, s') ∧ s'.memoryFreePage 0x2000 = some (0, s) ∧
      s.memoryAllocatePage 0x400000 false true = some (1, s) ∧
      s'.memoryMapAddr 0x400000 0x9000 false true = some (1, s') := by
  have hlow : 0x2000 < kernelPstackBottom := by decide
  have hhigh : 0x400000 < kernelPstackBottom := by decide
  obtain ⟨r, s', hres, -, hundo⟩ := (page_atomic onePage_run hlow false true 0).1
  obtain ⟨r₁, s₁, hres₁, hsame₁, -⟩ := (page_atomic onePage_run hhigh false true 0).1
  have hr : (onePage.state.memoryAllocatePage 0x2000 false true).map Prod.fst = some 0 :=
    by decide +kernel
  have hr₁ : (onePage.state.memoryAllocatePage 0x400000 false true).map Prod.fst = some 1 :=
    by decide +kernel
  rw [hres, Option.map_some, Option.some.injEq] at hr
  rw [hres₁, Option.map_some, Option.some.injEq] at hr₁
  obtain rfl : r = 0 := hr
  obtain rfl : r₁ = 1 := hr₁
  obtain rfl := hsame₁ (by decide)
  have hrun : PageRun ⟨s', 2 :: onePage.alloc, onePage.lost⟩ :=
    onePage_run.step (a := .allocate 0x2000 false true) (by rw [pageStep, hres]; rfl) hlow
  obtain ⟨r₂, s₂, hres₂, hsame₂⟩ := (page_atomic hrun hhigh false true 0x9000).2
  have hr₂ : ((onePage.state.memoryAllocatePage 0x2000 false true).bind fun q =>
      q.2.memoryMapAddr 0x400000 0x9000 false true).map Prod.fst = some 1 := by decide +kernel
  rw [hres, Option.bind_some] at hr₂
  simp only [hres₂, Option.map_some, Option.some.injEq] at hr₂
  obtain rfl : r₂ = 1 := hr₂
  obtain rfl := hsame₂ (by decide)
  exact ⟨_, _, hres, hundo rfl (by decide +kernel), hres₁, hres₂⟩

end ElcoOs.Paging
