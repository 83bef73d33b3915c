import ElcoOs.Paging.Ledger

/-!
# Rights to a page

The processor grants a right to a page only where the directory and the table
both do. The tables that the kernel makes are for the kernel alone, so that no
page below the page stack is ever open to user mode.
-/

namespace ElcoOs.Paging

open Word32

-- ---------------------------------------------------------------------------
-- The walk of the processor
-- ---------------------------------------------------------------------------

def allows (entry flag : Nat) : Bool := entry &&& flag != 0

structure Access where
  frame : Nat
  usermode : Bool
  writable : Bool
  deriving DecidableEq, Repr

namespace State

def walk (s : State) (vaddr : Nat) : Option Access :=
  let table := pdeNum vaddr
  let pde := s.ptable table
  let pte := s.entry table (pteNum vaddr)
  if ¬ s.Present table then none
  else if s.Large table then
    some ⟨(pde &&& ptableDirMask) + vaddr % 0x400000 / pageSize * pageSize,
    allows pde ptableFlagUsermode,
      allows pde ptableFlagWrite⟩
  else if ¬ s.EntryPresent table (pteNum vaddr) then none
  else some ⟨pte &&& not32 ptableFlagsMask,
    allows pde ptableFlagUsermode && allows pte ptableFlagUsermode,
    allows pde ptableFlagWrite && allows pte ptableFlagWrite⟩

/-- The end of `memory_init`: the entries of the identity mapping are cleared. -/
def unmapIdentity (s : State) (n : Nat) : State :=
  { s with ptable := fun t => if t < n then 0 else s.ptable t }

end State

/-- One page is mapped with these rights, and no other page below the page stack is touched; in a
new table there is no other page. -/
structure Grants (s s' : State) (v : Nat) (a : Access) : Prop where
  page : s'.walk v = some a
  others : ∀ v' < kernelPstackBottom, v' / 4096 ≠ v / 4096 → s'.walk v' = s.walk v'
  fresh : ¬ s.ptableIsSet v → ∀ p, p ≠ pteNum v → ¬ s'.EntryPresent (pdeNum v) p

variable {s₀ s s' s₁ : State} {initial fs alloc hand : List Nat} {f t v n m e : Nat}
  {u w : Bool} {a : Access}

-- ---------------------------------------------------------------------------
-- Flags
-- ---------------------------------------------------------------------------

theorem allows_flags (hf : f % 4096 = 0) (hn : n < 4096) (hm : m < 4096) :
    allows (f + n) m = allows n m := by
  have hzero : f &&& m = 0 := by
    have hmod : (f &&& m) % 4096 = f % 4096 &&& m % 4096 := Nat.and_mod_two_pow (n := 12)
    rw [hf, Nat.zero_and, Nat.mod_eq_of_lt (Nat.lt_of_le_of_lt Nat.and_le_right hm)] at hmod
    exact hmod
  rw [allows, allows, ← or_low 12 hf hn, Nat.and_or_distrib_right, hzero, Nat.zero_or]

theorem allows_pageFlags (hf : f % 4096 = 0) :
    allows (f + State.pageFlags u w) ptableFlagUsermode = u ∧
    allows (f + State.pageFlags u w) ptableFlagWrite = w := by
  obtain ⟨hlow, -⟩ := pageFlags_bounds u w
  rw [allows_flags hf hlow (by decide), allows_flags hf hlow (by decide)]
  cases u <;> cases w <;> decide

theorem frame_aligned (f : Nat) : (f &&& not32 ptableFlagsMask) % 4096 = 0 ∧
    (f &&& not32 ptableFlagsMask) ≤ 4294963200 := by
  refine ⟨?_, Nat.and_le_right⟩
  have hmod : (f &&& not32 ptableFlagsMask) % 4096 = f % 4096 &&& not32 ptableFlagsMask % 4096 :=
    Nat.and_mod_two_pow (n := 12)
  rw [hmod, show not32 ptableFlagsMask % 4096 = 0 from rfl, Nat.and_zero]

theorem mapEntry_eq : mapEntry f u w = (f &&& not32 ptableFlagsMask) + State.pageFlags u w := by
  have hflags : State.pageFlags u w &&& ptableFlagsMask = State.pageFlags u w :=
    by cases u <;> cases w <;> decide
  rw [mapEntry, hflags, or_low 12 (frame_aligned f).1 (pageFlags_bounds u w).1]

-- ---------------------------------------------------------------------------
-- Tables of the kernel
-- ---------------------------------------------------------------------------

/-- Below the page stack the tables are writable, and closed to user mode. -/
def KernelTables (s : State) : Prop := ∀ t < 1022, s.HasTable t →
  allows (s.ptable t) ptableFlagWrite = true ∧ allows (s.ptable t) ptableFlagUsermode = false

theorem KernelTables.congr (h : KernelTables s) (hp : s'.ptable = s.ptable) : KernelTables s' := by
  intro t ht hset
  rw [hp]
  refine h t ht ?_
  unfold State.HasTable State.Large State.Present at hset ⊢
  rwa [hp] at hset

theorem KernelTables.install (h : KernelTables s) (hf : f % 4096 = 0) (t : Nat) :
    KernelTables (s.install t f) := by
  intro t' ht' hset
  by_cases he : t' = t
  · rw [he, show (s.install t f).ptable t = f + 3 from Function.update_self ..,
      allows_flags hf (by decide) (by decide),
      allows_flags hf (by decide) (by decide)]
    decide
  · rw [(install_other he).1]
    exact h t' ht' ((install_hasTable he).mp hset)

theorem KernelTables.walk (h : KernelTables s) (hv : v < kernelPstackBottom) (ht : s.ptableIsSet v)
    (hf : f % 4096 = 0)
    (hw : f ≤ 4294963200) (he : s.entry (pdeNum v) (pteNum v) = f + State.pageFlags u w) :
    s.walk v = some ⟨f, false, w⟩ := by
  obtain ⟨hlow, hbit⟩ := pageFlags_bounds u w
  obtain ⟨hwrite, huser⟩ := h (pdeNum v) (pdeNum_below hv) ht
  have hpresent : s.EntryPresent (pdeNum v) (pteNum v) := by
    rw [State.EntryPresent, he]
    exact entry_present hf hbit
  rw [State.walk, if_neg (not_not_intro ht.2), if_neg ht.1, if_neg (not_not_intro hpresent), he,
    entry_frame hf hlow (by omega), hwrite, huser, (allows_pageFlags hf).2,
    Bool.false_and, Bool.true_and]

theorem walk_congr (hp : s'.ptable (pdeNum v) = s.ptable (pdeNum v))
    (he : s'.entry (pdeNum v) (pteNum v) = s.entry (pdeNum v) (pteNum v)) :
    s'.walk v = s.walk v := by
  have hpresent : s'.Present (pdeNum v) ↔ s.Present (pdeNum v) :=
    by rw [State.Present, State.Present, hp]
  have hlarge : s'.Large (pdeNum v) ↔ s.Large (pdeNum v) := by rw [State.Large, State.Large, hp]
  have hentry : s'.EntryPresent (pdeNum v) (pteNum v) ↔ s.EntryPresent (pdeNum v) (pteNum v) := by
    rw [State.EntryPresent, State.EntryPresent, he]
  simp only [State.walk, hpresent, hlarge, hentry, hp, he]

theorem walk_absent (h : ¬ s.Present (pdeNum v)) : s.walk v = none := if_pos h

theorem KernelTables.grants_page (h : KernelTables s) (hv : v < kernelPstackBottom)
    (ht : s.ptableIsSet v) (hsame : SameRest s s₁) (hf : f % 4096 = 0) (hw : f ≤ 4294963200) :
    Grants s (s₁.setEntry (pdeNum v) (pteNum v) (f + State.pageFlags u w)) v ⟨f, false, w⟩ := by
  have htables : KernelTables (s₁.setEntry (pdeNum v) (pteNum v) (f + State.pageFlags u w)) :=
    h.congr hsame.ptable
  refine ⟨htables.walk (u := u) hv ((hsame.table v).mpr ht) hf hw ?_, fun v' hv' hne => ?_,
    fun hno => absurd ht hno⟩
  · rw [setEntry_apply, if_pos rfl]
  · have hentry : s₁.entry (pdeNum v') = s.entry (pdeNum v') :=
      hsame.entry _ (Nat.ne_of_lt (pdeNum_below hv'))
    refine walk_congr (congrFun hsame.ptable _) ?_
    by_cases hd : pdeNum v' = pdeNum v
    · have hp : pteNum v' ≠ pteNum v := fun hp => hne (same_page hd hp)
      rw [hd, setEntry_apply, if_neg hp, ← hd, hentry]
    · rw [setEntry_other hd, hentry]

theorem KernelTables.grants_table (h : KernelTables s) (hv : v < kernelPstackBottom)
    (hm : ¬ s.pageIsMapped v)
    (ht : ¬ s.ptableIsSet v) (hsame : SameRest s s₁) (htable : t % 4096 = 0) (hf : f % 4096 = 0)
    (hw : f ≤ 4294963200) :
    Grants s ((s₁.install (pdeNum v) t).setEntry (pdeNum v) (pteNum v) (f + State.pageFlags u w)) v
      ⟨f, false, w⟩ := by
  have htables :
    KernelTables ((s₁.install (pdeNum v) t).setEntry (pdeNum v) (pteNum v)
      (f + State.pageFlags u w)) :=
    ((h.congr hsame.ptable).install htable _).congr rfl
  have hset :
    ((s₁.install (pdeNum v) t).setEntry (pdeNum v) (pteNum v) (f + State.pageFlags u w)).HasTable
      (pdeNum v) :=
    install_table htable
  have habsent : ¬ s.Present (pdeNum v) := fun hp => ht ⟨fun hl => hm ⟨hp, .inl hl⟩, hp⟩
  have hempty : ∀ p, p ≠ pteNum v →
      ¬ ((s₁.install (pdeNum v) t).setEntry (pdeNum v) (pteNum v)
        (f + State.pageFlags u w)).EntryPresent (pdeNum v) p := by
    intro p hp
    rw [State.EntryPresent, setEntry_apply, if_neg hp]
    simp [State.install]
  refine ⟨htables.walk (u := u) hv hset hf hw ?_, fun v' hv' hne => ?_, fun _ => hempty⟩
  · rw [setEntry_apply, if_pos rfl]
  · by_cases hd : pdeNum v' = pdeNum v
    · have hp : pteNum v' ≠ pteNum v := fun hp => hne (same_page hd hp)
      rw [walk_absent (s := s) (by rwa [hd]), State.walk, hd, if_neg (not_not_intro hset.2),
        if_neg hset.1,
        if_pos (hempty _ hp)]
    · have hother := install_other (s := s₁) (f := t) hd
      refine walk_congr (hother.1.trans (congrFun hsame.ptable _)) ?_
      rw [setEntry_other hd, hother.2, hsame.entry _ (Nat.ne_of_lt (pdeNum_below hv'))]

-- ---------------------------------------------------------------------------
-- The two functions
-- ---------------------------------------------------------------------------

/-- A successful `memory_allocate_page` maps the frame that it popped first, for the kernel
alone. -/
theorem KernelTables.allocate (h : KernelTables s) (hok : Pstack s fs) (hv : v < kernelPstackBottom)
    (u w : Bool) :
    ∃ r s', s.memoryAllocatePage v u w = some (r, s') ∧ KernelTables s' ∧
      (r = 0 → ∃ f s₁, s.pstackPop = some (some f, s₁) ∧ Grants s s' v ⟨f, false, w⟩) := by
  obtain ⟨r, s', hres, hcase⟩ := allocate_cases hok u w v
  refine ⟨r, s', hres, ?_⟩
  rcases hcase with ⟨rfl, rfl⟩ | ⟨rfl, -, ht, fs₁, f, s₁, rfl, -, hsame, -, rfl⟩ |
    ⟨rfl, hm, ht, fs₁, t, f, s₁, rfl, -, hsame, rfl⟩
  · exact ⟨h, fun hr => absurd hr (by decide)⟩
  · obtain ⟨halign, hword⟩ := hok.frames.2 f (by simp)
    obtain ⟨s₂, hpop, -⟩ := hok.pop
    exact ⟨h.congr hsame.ptable,
      fun _ => ⟨f, s₂, hpop, h.grants_page hv ht hsame halign (by omega)⟩⟩
  · obtain ⟨halign, hword⟩ := hok.frames.2 f (by simp)
    obtain ⟨halign', -⟩ := hok.frames.2 t (by simp)
    obtain ⟨s₂, hpop, -⟩ := hok.pop
    exact ⟨((h.congr hsame.ptable).install halign' _).congr rfl,
      fun _ => ⟨f, s₂, hpop, h.grants_table hv hm ht hsame halign' halign (by omega)⟩⟩

/-- A successful `memory_map_addr` maps the frame that the given address is in, for the kernel
alone. -/
theorem KernelTables.map (h : KernelTables s) (hok : Pstack s fs) (hv : v < kernelPstackBottom)
    (f : Nat) (u w : Bool) :
    ∃ r s', s.memoryMapAddr v f u w = some (r, s') ∧ KernelTables s' ∧
      (r = 0 → Grants s s' v ⟨f &&& not32 ptableFlagsMask, false, w⟩) := by
  obtain ⟨halign, hword⟩ := frame_aligned f
  obtain ⟨r, s', hres, hcase⟩ := map_cases hok u w v f
  refine ⟨r, s', hres, ?_⟩
  rw [mapEntry_eq] at hcase
  rcases hcase with ⟨rfl, rfl⟩ | ⟨rfl, -, ht, rfl⟩ | ⟨rfl, hm, ht, fs₁, t, s₁, rfl, -, hsame, rfl⟩
  · exact ⟨h, fun hr => absurd hr (by decide)⟩
  · exact ⟨h.congr rfl, fun _ => h.grants_page hv ht .refl halign hword⟩
  · obtain ⟨halign', -⟩ := hok.frames.2 t (by simp)
    exact ⟨((h.congr hsame.ptable).install halign' _).congr rfl,
      fun _ => h.grants_table hv hm ht hsame halign' halign hword⟩

/-- What is granted to the kernel alone is what was asked for if and only if nothing else was. -/
theorem Grants.user_iff (h : Grants s s' v ⟨f, false, w⟩) : Grants s s' v ⟨f, u, w⟩ ↔
    u = false := by
  constructor
  · intro hu
    have := h.page.symm.trans hu.page
    simp only [Option.some.injEq, Access.mk.injEq] at this
    exact this.2.1.symm
  · rintro rfl
    exact h

-- ---------------------------------------------------------------------------
-- Runs
-- ---------------------------------------------------------------------------

/-- `KERNEL_PD_NUMBER` -/
def kernelPdNumber : Nat := 0xC0000000 >>> 22

/-- The page directory as `boot.S` makes it: large pages for the identity mapping, the table of the
kernel, and the table of the page stack, with no page in it. -/
structure BootTables (s : State) : Prop where
  identity : ∀ t < kernelPdNumber, s.ptable t = 0x400000 * t + 0x83
  kernel : ∃ f, f % 4096 = 0 ∧ s.ptable kernelPdNumber = f + 3
  unused : ∀ t, kernelPdNumber < t → t < 1022 → s.ptable t = 0
  window : ∃ f, f % 4096 = 0 ∧ s.ptable 1022 = f + 3
  unmapped : ∀ p, s.entry 1022 p = 0
  pointer : s.pstackPointer = kernelPstackTop

inductive TableAction where
  | page (a : PageAction)
  | unmapIdentity (n : Nat)

def tableStep (x : Ledger) : TableAction → Option Ledger
  | .page a => pageStep x a
  | .unmapIdentity n => some { x with state := x.state.unmapIdentity n }

/-- The identity mapping is cleared while there are no tables beside its large pages. -/
def TableMay (x : Ledger) : TableAction → Ledger → Prop
  | .page a, y => PageMay x a y
  | .unmapIdentity n, _ => n ≤ kernelPdNumber ∧ ∀ t < n, ¬ x.state.HasTable t

def TableRun (x : Ledger) : Prop :=
  Reach (fun x => ∃ s₀ initial, BootTables s₀ ∧ Frames initial ∧
  Begun s₀ initial x) tableStep TableMay x

theorem table_flags (hf : f % 4096 = 0) (hat : s.ptable t = f + 3) : s.HasTable t := by
  have hlarge := allows_flags (n := 3) hf (by decide) (show ptableFlagLargepage < 4096 by decide)
  rw [show allows 3 ptableFlagLargepage = false from rfl, allows, bne_eq_false_iff_eq] at hlarge
  refine ⟨fun hl => hl ?_, ?_⟩
  · rw [hat]
    exact hlarge
  · rw [State.Present, hat]
    exact entry_present hf rfl

theorem BootTables.blank (h : BootTables s) : Blank s := by
  obtain ⟨f, hf, hat⟩ := h.window
  obtain ⟨hsmall, hpresent⟩ := table_flags hf hat
  refine ⟨hpresent, hsmall, h.pointer, fun p _ hp => hp ?_⟩
  rw [h.unmapped]
  rfl

theorem BootTables.kernelTables (h : BootTables s) : KernelTables s := by
  intro t ht hset
  rcases Nat.lt_trichotomy t kernelPdNumber with hlt | rfl | hgt
  · -- the large pages are no tables
    refine absurd ?_ hset.1
    have hlarge := allows_flags (f := 0x400000 * t) (n := 0x83) (by omega) (by decide)
      (show ptableFlagLargepage < 4096 by decide)
    rw [State.Large, h.identity t hlt]
    exact bne_iff_ne.mp (hlarge.trans rfl)
  · obtain ⟨f, hf, hat⟩ := h.kernel
    rw [hat, allows_flags hf (by decide) (by decide), allows_flags hf (by decide) (by decide)]
    decide
  · refine absurd hset.2 (fun hp => hp ?_)
    rw [h.unused t hgt ht]
    rfl

theorem unmapIdentity_at (h : n ≤ t) : (s.unmapIdentity n).ptable t = s.ptable t :=
  if_neg (Nat.not_lt.mpr h)

theorem unmapIdentity_hasTable (hno : ∀ t < n, ¬ s.HasTable t) (t : Nat) :
    (s.unmapIdentity n).HasTable t ↔ s.HasTable t := by
  by_cases ht : t < n
  · refine iff_of_false (fun hset => hset.2 ?_) (hno t ht)
    rw [show (s.unmapIdentity n).ptable t = 0 from if_pos ht]
    rfl
  · rw [State.HasTable, State.HasTable, State.Large, State.Large, State.Present, State.Present,
      unmapIdentity_at (Nat.not_lt.mp ht)]

theorem KernelTables.unmapIdentity (h : KernelTables s) (hno : ∀ t < n, ¬ s.HasTable t) :
    KernelTables (s.unmapIdentity n) := by
  intro t ht hset
  have hset' := (unmapIdentity_hasTable hno t).mp hset
  rw [unmapIdentity_at (Nat.not_lt.mp fun hlt => hno t hlt hset')]
  exact h t ht hset'

theorem Balance.unmapIdentity (h : Balance s₀ initial s alloc fs hand) (hn : n ≤ kernelPdNumber)
    (hno : ∀ t < n, ¬ s.HasTable t) : Balance s₀ initial (s.unmapIdentity n) alloc fs hand where
  pstack := h.pstack.congr rfl (unmapIdentity_at (Nat.le_trans hn (by decide))) rfl rfl
  perm := by
    have htables : (newTables s₀ (s.unmapIdentity n)).map (s.unmapIdentity n).tableFrame =
        (newTables s₀ s).map s.tableFrame := by
      rw [newTables_congr fun t _ => unmapIdentity_hasTable hno t]
      refine List.map_congr_left fun t ht => ?_
      have hset : s.HasTable t := (of_decide_eq_true (List.mem_filter.mp ht).2).2
      rw [State.tableFrame, unmapIdentity_at (Nat.not_lt.mp fun hlt => hno t hlt hset)]
      rfl
    rw [htables]
    exact h.perm
  nodup := h.nodup
  mapped m hm := ⟨(h.mapped m hm).1, (unmapIdentity_hasTable hno _).mpr (h.mapped m hm).2.1,
  (h.mapped m hm).2.2⟩
  kept t ht := by
    have hle : n ≤ t := by
      by_contra hlt
      refine ht.elim (fun h₀ => hno t (Nat.not_le.mp hlt) (h.hasTable h₀)) fun hle => hlt ?_
      exact Nat.le_trans hn (Nat.le_trans (by decide) hle)
    exact (unmapIdentity_at hle).trans (h.kept t ht)
  tidy h₀ := fun t ht hset => h.tidy h₀ t ht ((unmapIdentity_hasTable hno t).mp hset)

theorem setPage_ptable (s : State) (v f e : Nat) : (s.setPage v f e).2.ptable = s.ptable := by
  simp only [State.setPage]
  split <;> rfl

theorem setPointer_ptable {p : Nat} : (s.setPointer p).ptable = s.ptable := rfl

theorem store_ptable (h : s.store v e = some s') : s'.ptable = s.ptable := by
  unfold State.store at h
  obtain ⟨a, -, rfl⟩ := Option.map_eq_some_iff.mp h
  rfl

theorem pstackPush_ptable {r : Nat × State} (h : s.pstackPush f = some r) :
    r.2.ptable = s.ptable := by
  unfold State.pstackPush at h
  split at h
  · cases h
    rfl
  · split at h
    · cases h
      exact setPage_ptable ..
    · simp only [bind, Option.bind_eq_some_iff, pure, Option.some.injEq] at h
      obtain ⟨s₁, hstore, rfl⟩ := h
      exact (store_ptable hstore).trans setPointer_ptable

theorem memoryFreePage_ptable {r : Nat × State} (h : s.memoryFreePage v = some r) :
    r.2.ptable = s.ptable := by
  unfold State.memoryFreePage at h
  split at h
  · cases h
    rfl
  · split at h
    · cases h
      rfl
    · dsimp only at h
      split at h
      · cases h
        exact setPage_ptable ..
      · exact (pstackPush_ptable h).trans (setPage_ptable ..)

theorem memoryUnmapAddr_ptable (s : State) (v : Nat) :
    (s.memoryUnmapAddr v).2.ptable = s.ptable := by
  unfold State.memoryUnmapAddr
  split
  · rfl
  · exact setPage_ptable ..

theorem KernelTables.step {x y : Ledger} {a : PageAction} (h : KernelTables x.state)
    (hok : Pstack x.state fs)
    (hmay : PageMay x a y) (hstep : pageStep x a = some y) : KernelTables y.state := by
  cases a with
  | allocate v u w =>
    obtain ⟨r, s', hres, htables, -⟩ := h.allocate hok hmay u w
    simp only [pageStep, hres, Option.map_some, Option.some.injEq] at hstep
    exact hstep ▸ htables
  | map v f u w =>
    obtain ⟨r, s', hres, htables, -⟩ := h.map hok hmay f u w
    simp only [pageStep, hres, Option.map_some, Option.some.injEq] at hstep
    exact hstep ▸ htables
  | free v =>
    obtain ⟨r, hres, rfl⟩ := Option.map_eq_some_iff.mp hstep
    exact h.congr (memoryFreePage_ptable hres)
  | unmap v =>
    cases hstep
    exact h.congr (memoryUnmapAddr_ptable ..)

theorem TableRun.tables {x : Ledger} (h : TableRun x) : (∃ fs, Pstack x.state fs) ∧
    KernelTables x.state := by
  have hinv : (∃ s₀ initial fs, Frames initial ∧ Balance s₀ initial x.state x.alloc fs x.lost) ∧
    KernelTables x.state := by
    refine Reach.invariant (p := fun x => (∃ s₀ initial fs, Frames initial ∧
      Balance s₀ initial x.state x.alloc fs x.lost) ∧ KernelTables x.state) ?_ ?_ h
    · rintro x ⟨s₀, initial, hboot, hf, hx⟩
      obtain ⟨s', hpush, -, hsame⟩ := push_all hboot.blank.pstack (by rwa [List.nil_append])
      have hstate : s' = x.state := Option.some.inj (hpush.symm.trans hx.1)
      exact ⟨⟨s₀, initial, initial, hf, hx.balance hboot.blank hf⟩,
        hboot.kernelTables.congr (hstate ▸ hsame.ptable)⟩
    · rintro x a y ⟨⟨s₀, initial, fs, hf, hbal⟩, htables⟩ hstep hmay
      cases a with
      | page a =>
        obtain ⟨y', fs', hres, hbal'⟩ := hbal.step hf hmay
        cases hres.symm.trans hstep
        exact ⟨⟨s₀, initial, fs', hf, hbal'⟩, htables.step hbal.pstack hmay hres⟩
      | unmapIdentity n =>
        obtain ⟨hn, hno⟩ := hmay
        cases hstep
        exact ⟨⟨s₀, initial, fs, hf, hbal.unmapIdentity hn hno⟩, htables.unmapIdentity hno⟩
  obtain ⟨⟨s₀, initial, fs, -, hbal⟩, htables⟩ := hinv
  exact ⟨⟨fs, hbal.pstack⟩, htables⟩

/-- In every state of a run, when a page is mapped the frame, the right to write, the other pages
and the rest of a new table are as they should be; so the rights are those that were asked for if
and only if user mode was not. -/
theorem access_iff {x : Ledger} (h : TableRun x) (hv : v < kernelPstackBottom) (u w : Bool) :
    (∃ r s', x.state.memoryAllocatePage v u w = some (r, s') ∧ (r = 0 → ∃ f s₁,
      x.state.pstackPop = some (some f, s₁) ∧ (Grants x.state s' v ⟨f, u, w⟩ ↔ u = false))) ∧
    ∀ f, ∃ r s', x.state.memoryMapAddr v f u w = some (r, s') ∧
      (r = 0 → (Grants x.state s' v ⟨f &&& not32 ptableFlagsMask, u, w⟩ ↔ u = false)) := by
  obtain ⟨⟨fs, hok⟩, htables⟩ := h.tables
  refine ⟨?_, fun f => ?_⟩
  · obtain ⟨r, s', hres, -, hgrants⟩ := htables.allocate hok hv u w
    refine ⟨r, s', hres, fun hr => ?_⟩
    obtain ⟨f, s₁, hpop, hf⟩ := hgrants hr
    exact ⟨f, s₁, hpop, hf.user_iff⟩
  · obtain ⟨r, s', hres, -, hgrants⟩ := htables.map hok hv f u w
    exact ⟨r, s', hres, fun hr => (hgrants hr).user_iff⟩

/-- A directory as after the boot; the tables are at 0x1000 and the two pages behind it. -/
def bootTables : State :=
  { bootState with
    ptable := fun t =>
      if t < kernelPdNumber then 0x400000 * t + 0x83
      else if t = kernelPdNumber then 0x1003
      else if t = 1022 then 0x2003
      else if t = 1023 then 0x3003
      else 0 }

theorem bootTables_boot : BootTables bootTables where
  identity t ht := if_pos ht
  kernel := ⟨0x1000, rfl, rfl⟩
  unused t hlt hlt' := by
    simp only [bootTables]
    rw [if_neg (by omega), if_neg (by omega), if_neg (by omega), if_neg (by omega)]
  window := ⟨0x2000, rfl, rfl⟩
  unmapped _ := rfl
  pointer := rfl

theorem bootTables_run : TableRun ⟨bootTables, [], []⟩ :=
  .start ⟨bootTables, [], bootTables_boot, ⟨List.nodup_nil, by simp⟩, rfl, rfl, rfl⟩

/-- A page for user mode is mapped, but user mode cannot get at it. -/
theorem access_denied : ¬∀ x, TableRun x → ∀ v < kernelPstackBottom, ∀ u w f s',
    x.state.memoryMapAddr v f u w = some (0, s') →
    Grants x.state s' v ⟨f &&& not32 ptableFlagsMask, u, w⟩ := by
  intro hall
  have hset : bootTables.ptableIsSet 0xC03FF000 := by decide
  have hmapped : ¬ bootTables.pageIsMapped 0xC03FF000 := by decide
  have hres : bootTables.memoryMapAddr 0xC03FF000 0x5000 true true =
      some (0, bootTables.setEntry (pdeNum 0xC03FF000) (pteNum 0xC03FF000)
        (mapEntry 0x5000 true true)) := by
    rw [State.memoryMapAddr, if_neg hmapped, if_pos hset, setPage_map hset]
  have hgrants := hall _ bootTables_run 0xC03FF000 (by decide) true true 0x5000 _ hres
  obtain ⟨⟨fs, hok⟩, htables⟩ := bootTables_run.tables
  obtain ⟨r, s', hres', -, hown⟩ := htables.map hok (v := 0xC03FF000) (by decide) 0x5000 true true
  cases hres.symm.trans hres'
  have := (hown rfl).user_iff.mp hgrants
  cases this

theorem access_iff_bootTables : ∃ r s', bootTables.memoryMapAddr 0xC03FF000 0x5000 true true =
    some (r, s') ∧
    (r = 0 → (Grants bootTables s' 0xC03FF000 ⟨0x5000 &&& not32 ptableFlagsMask, true, true⟩ ↔
    true = false)) :=
  (access_iff bootTables_run (v := 0xC03FF000) (by decide) true true).2 0x5000

end ElcoOs.Paging
