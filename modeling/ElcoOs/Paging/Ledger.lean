import ElcoOs.Lib.Reach
import ElcoOs.Paging.Frames

/-!
# Where the frames are

Runs of the page functions, beside the pages that `memory_allocate_page` has
mapped. No frame is lost or duplicated on the way: each is stored on the page
stack, a page of the stack, behind one allocated page, or a page table; only a
page that is unmapped without being freed takes its frame along.
-/

namespace ElcoOs.Paging

open Word32

-- ---------------------------------------------------------------------------
-- Runs
-- ---------------------------------------------------------------------------

structure Ledger where
  state : State
  /-- the numbers of the pages that `memory_allocate_page` mapped -/
  alloc : List Nat
  /-- the frames of such pages that `memory_unmap_addr` unmapped -/
  lost : List Nat

inductive PageAction where
  | allocate (vaddr : Nat) (usermode writable : Bool)
  | free (vaddr : Nat)
  | map (vaddr frame : Nat) (usermode writable : Bool)
  | unmap (vaddr : Nat)

def pageStep (x : Ledger) : PageAction → Option Ledger
  | .allocate v u w => (x.state.memoryAllocatePage v u w).map fun r =>
      { x with state := r.2, alloc := if r.1 = 0 then v / 4096 :: x.alloc else x.alloc }
  | .free v => (x.state.memoryFreePage v).map fun r =>
      { x with state := r.2, alloc := if r.1 = 0 then x.alloc.erase (v / 4096) else x.alloc }
  | .map v frame u w => (x.state.memoryMapAddr v frame u w).map fun r => { x with state := r.2 }
  | .unmap v =>
      let r := x.state.memoryUnmapAddr v
      some {
        state := r.2
        alloc := x.alloc.erase (v / 4096)
        lost := if v / 4096 ∈ x.alloc then x.state.frameAt (v / 4096) :: x.lost else x.lost }

/-- Addresses are below the page stack, and only what was allocated is freed. -/
def PageMay (x : Ledger) : PageAction → Ledger → Prop
  | .allocate v _ _, _ => v < kernelPstackBottom
  | .free v, _ => v < kernelPstackBottom ∧ v / 4096 ∈ x.alloc
  | .map v _ _ _, _ => v < kernelPstackBottom
  | .unmap v, _ => v < kernelPstackBottom

def State.pushAll (s : State) (frames : List Nat) : Option State :=
  frames.foldlM (fun s frame => (s.pstackPush frame).map Prod.snd) s

def Begun (s₀ : State) (initial : List Nat) (x : Ledger) : Prop :=
  s₀.pushAll initial = some x.state ∧ x.alloc = [] ∧ x.lost = []

/-- The tables that were made since `s₀`. -/
def newTables (s₀ s : State) : List Nat := (List.range 1022).filter fun t =>
    ¬ s₀.HasTable t ∧ s.HasTable t

def storedFrames (s : State) : List (Option Nat) :=
  (List.range ((kernelPstackTop - s.pstackPointer) / 4)).map fun i =>
  s.load (kernelPstackTop - 4 * (i + 1))

def backingFrames (s : State) : List Nat :=
  ((List.range 1024).filter fun p => s.EntryPresent 1022 p).map fun p => s.frameAt (1022 * 1024 + p)

-- ---------------------------------------------------------------------------
-- What an entry or a table changes
-- ---------------------------------------------------------------------------

variable {s₀ s s' : State} {initial fs : List Nat} {x y : Ledger} {f n m t e : Nat}

theorem entry_other (h : n ≠ m) (e : Nat) :
    (s.setEntry (n / 1024) (n % 1024) e).entry (m / 1024) (m % 1024) =
    s.entry (m / 1024) (m % 1024) := by
  by_cases ht : m / 1024 = n / 1024
  · rw [ht, setEntry_apply, if_neg (by omega)]
  · rw [setEntry_other ht]

theorem frameAt_other (h : n ≠ m) :
    (s.setEntry (n / 1024) (n % 1024) e).frameAt m = s.frameAt m := by
  rw [State.frameAt, entry_other h]
  rfl

theorem hasPage_other (h : n ≠ m) : (s.setEntry (n / 1024) (n % 1024) e).HasPage m ↔
    s.HasPage m := by
  simp only [State.HasPage, State.EntryPresent, entry_other h]
  rfl

theorem SameRest.hasTable (h : SameRest s s') (t : Nat) : s'.HasTable t ↔ s.HasTable t := by
  simp only [State.HasTable, State.Large, State.Present, h.ptable]

theorem SameRest.tableFrame (h : SameRest s s') (t : Nat) : s'.tableFrame t = s.tableFrame t := by
  rw [State.tableFrame, h.ptable]
  rfl

theorem SameRest.frameAt (h : SameRest s s') (hn : n / 1024 < 1022) :
    s'.frameAt n = s.frameAt n := by
  rw [State.frameAt, h.entry _ (Nat.ne_of_lt hn)]
  rfl

theorem SameRest.hasPage (h : SameRest s s') (hn : n / 1024 < 1022) :
    s'.HasPage n ↔ s.HasPage n := by
  simp only [State.HasPage, State.EntryPresent, h.hasTable, h.entry _ (Nat.ne_of_lt hn)]

theorem install_hasTable (h : m ≠ t) : (s.install t f).HasTable m ↔ s.HasTable m := by
  simp only [State.HasTable, State.Large, State.Present, (install_other h).1]

theorem install_tableFrame (hf : f % 4096 = 0) (hw : f < 4294967296) :
    (s.install t f).tableFrame t = f := by
  have hat : (s.install t f).ptable t = f + 3 := Function.update_self _ _ _
  rw [State.tableFrame, hat, entry_frame hf (by decide) (by omega)]

theorem HasPage.ne_table (h : s.HasPage m) (ht : ¬ s.HasTable t) : m / 1024 ≠ t :=
  fun he => ht (he ▸ h.1)

theorem install_hasPage (h : m / 1024 ≠ t) : (s.install t f).HasPage m ↔ s.HasPage m := by
  simp only [State.HasPage, State.EntryPresent, install_hasTable h, (install_other h).2]

theorem install_frameAt (h : m / 1024 ≠ t) : (s.install t f).frameAt m = s.frameAt m := by
  rw [State.frameAt, (install_other h).2]
  rfl

theorem newTables_congr (h : ∀ t < 1022, s'.HasTable t ↔ s.HasTable t) :
    newTables s₀ s' = newTables s₀ s := by
  unfold newTables
  refine List.filter_congr fun t ht => ?_
  rw [List.mem_range] at ht
  simp [h t ht]

theorem newTables_install (ht : t < 1022) (hno : ¬ s.HasTable t)
    (hkept : s₀.HasTable t → s.HasTable t)
    (hf : f % 4096 = 0) : (newTables s₀ (s.install t f)).Perm (t :: newTables s₀ s) := by
  have hnot : t ∉ newTables s₀ s := by
    simp [newTables, hno]
  refine (List.perm_ext_iff_of_nodup (List.nodup_range.filter _)
    (List.nodup_cons.mpr ⟨hnot, List.nodup_range.filter _⟩)).mpr fun t' => ?_
  by_cases he : t' = t
  · subst he
    simp [newTables, ht, install_table hf, mt hkept hno]
  · simp [newTables, install_hasTable he, he]

-- ---------------------------------------------------------------------------
-- Entries that are not present
-- ---------------------------------------------------------------------------

def Tidy (s : State) : Prop := ∀ t < 1022, s.HasTable t → ∀ p < 1024, ¬ s.EntryPresent t p →
    s.entry t p = 0

theorem Tidy.same (h : Tidy s) (hsame : SameRest s s') : Tidy s' := by
  intro t ht htable p hp hno
  unfold State.EntryPresent at hno
  rw [hsame.entry t (Nat.ne_of_lt ht)] at hno ⊢
  exact h t ht ((hsame.hasTable t).mp htable) p hp hno

theorem Tidy.install (h : Tidy s) : Tidy (s.install t f) := by
  intro t' ht htable p hp hno
  by_cases he : t' = t
  · subst he
    simp [State.install]
  · unfold State.EntryPresent at hno
    rw [(install_other he).2] at hno ⊢
    exact h t' ht ((install_hasTable he).mp htable) p hp hno

theorem Tidy.setEntry {p : Nat} (h : Tidy s) (he : e &&& ptableFlagPresent ≠ 0 ∨ e = 0) :
    Tidy (s.setEntry t p e) := by
  intro t' ht htable p' hp hno
  unfold State.EntryPresent at hno
  by_cases ht' : t' = t
  · subst ht'
    rw [setEntry_apply] at hno ⊢
    by_cases hp' : p' = p
    · rw [if_pos hp'] at hno ⊢
      exact he.resolve_left hno
    · rw [if_neg hp'] at hno ⊢
      exact h t' ht htable p' hp hno
  · rw [setEntry_other ht'] at hno ⊢
    exact h t' ht htable p' hp hno

-- ---------------------------------------------------------------------------
-- The balance of the frames
-- ---------------------------------------------------------------------------

/-- The frames on the stack, behind the allocated pages, of the new tables, and
those in hand make up the initial ones. -/
structure Balance (s₀ : State) (initial : List Nat) (s : State)
    (alloc fs hand : List Nat) : Prop where
  pstack : Pstack s fs
  perm : (fs ++ (alloc.map s.frameAt ++ ((newTables s₀ s).map s.tableFrame ++ hand))).Perm initial
  nodup : alloc.Nodup
  mapped : ∀ n ∈ alloc, n / 1024 < 1022 ∧ s.HasPage n
  kept : ∀ t, s₀.HasTable t ∨ 1022 ≤ t → s.ptable t = s₀.ptable t
  tidy : Tidy s₀ → Tidy s

variable {alloc hand : List Nat}

theorem hasTable_congr (h : s'.ptable t = s.ptable t) : s'.HasTable t ↔ s.HasTable t := by
  simp only [State.HasTable, State.Large, State.Present, h]

/-- No table is given up. -/
theorem Balance.hasTable (h : Balance s₀ initial s alloc fs hand)
    (ht : s₀.HasTable t) : s.HasTable t :=
  (hasTable_congr (h.kept t (.inl ht))).mpr ht

theorem Balance.fresh (h : Balance s₀ initial s alloc fs (f :: hand)) (hf : Frames initial) :
    Frames (fs ++ [f]) := by
  refine (hf.perm h.perm.symm).sublist ((List.Sublist.refl fs).append ?_)
  exact List.singleton_sublist.mpr (by simp)

theorem Balance.in_hand (h : Balance s₀ initial s alloc fs (f :: hand)) (hf : Frames initial) :
    f % 4096 = 0 ∧ f < 4294967296 := (h.fresh hf).2 f (by simp)

theorem Balance.restack (h : Balance s₀ initial s alloc fs hand) {fs' : List Nat} (hand' : List Nat)
    (hok : Pstack s' fs') (hsame : SameRest s s') (hperm : (fs' ++ hand').Perm (fs ++ hand)) :
    Balance s₀ initial s' alloc fs' hand' where
  pstack := hok
  perm := by
    have hmap : alloc.map s'.frameAt = alloc.map s.frameAt :=
      List.map_congr_left fun n hn => hsame.frameAt (h.mapped n hn).1
    have htables : (newTables s₀ s').map s'.tableFrame = (newTables s₀ s).map s.tableFrame := by
      rw [newTables_congr fun t _ => hsame.hasTable t]
      exact List.map_congr_left fun t _ => hsame.tableFrame t
    rw [hmap, htables]
    refine List.Perm.trans ?_ h.perm
    rw [List.perm_iff_count] at hperm ⊢
    intro a
    have := hperm a
    simp only [List.count_append] at this ⊢
    omega
  nodup := h.nodup
  mapped n hn := ⟨(h.mapped n hn).1, (hsame.hasPage (h.mapped n hn).1).mpr (h.mapped n hn).2⟩
  kept t ht := (congrFun hsame.ptable t).trans (h.kept t ht)
  tidy h₀ := (h.tidy h₀).same hsame

theorem Balance.install (h : Balance s₀ initial s alloc fs (f :: hand))
    (hf : Frames initial) (ht : t < 1022)
    (hno : ¬ s.HasTable t) : Balance s₀ initial (s.install t f) alloc fs hand where
  pstack := h.pstack.install (Nat.ne_of_lt ht)
  perm := by
    obtain ⟨halign, hword⟩ := h.in_hand hf
    have hmap : alloc.map (s.install t f).frameAt = alloc.map s.frameAt :=
      List.map_congr_left fun n hn => install_frameAt (HasPage.ne_table (h.mapped n hn).2 hno)
    have htables : ((newTables s₀ (s.install t f)).map (s.install t f).tableFrame).Perm
        (f :: (newTables s₀ s).map s.tableFrame) := by
      refine ((newTables_install ht hno h.hasTable halign).map _).trans ?_
      rw [List.map_cons, install_tableFrame halign hword]
      refine List.Perm.of_eq (congrArg _ (List.map_congr_left fun t' ht' => ?_))
      have hne : t' ≠ t := fun he => by simp [newTables, he, hno] at ht'
      rw [State.tableFrame, (install_other hne).1]
      rfl
    rw [hmap]
    refine List.Perm.trans ?_ h.perm
    rw [List.perm_iff_count] at htables ⊢
    intro a
    have := htables a
    simp only [List.count_append, List.count_cons] at this ⊢
    omega
  nodup := h.nodup
  mapped n hn :=
    ⟨(h.mapped n hn).1,
    (install_hasPage (HasPage.ne_table (h.mapped n hn).2 hno)).mpr (h.mapped n hn).2⟩
  kept t' ht' := by
    have hne : t' ≠ t := by
      rintro rfl
      exact ht'.elim (fun h₀ => hno (h.hasTable h₀)) fun hle => Nat.not_le.mpr ht hle
    exact (install_other hne).1.trans (h.kept t' ht')
  tidy h₀ := (h.tidy h₀).install

theorem Balance.setEntry (h : Balance s₀ initial s alloc fs hand)
    (hn : n / 1024 < 1022) (hno : n ∉ alloc) (he : e &&& ptableFlagPresent ≠ 0 ∨ e = 0) :
    Balance s₀ initial (s.setEntry (n / 1024) (n % 1024) e) alloc fs hand where
  pstack := h.pstack.setEntry (Nat.ne_of_lt hn) _ _
  perm := by
    have hmap : alloc.map (s.setEntry (n / 1024) (n % 1024) e).frameAt = alloc.map s.frameAt :=
      List.map_congr_left fun m hm => frameAt_other fun he => hno (he ▸ hm)
    rw [hmap]
    exact h.perm
  nodup := h.nodup
  mapped m hm :=
  ⟨(h.mapped m hm).1, (hasPage_other (n := n) fun he => hno (he ▸ hm)).mpr (h.mapped m hm).2⟩
  kept := h.kept
  tidy h₀ := (h.tidy h₀).setEntry he

theorem Balance.allocate (h : Balance s₀ initial s alloc fs (f :: hand)) (hf : Frames initial)
    (hn : n / 1024 < 1022)
    (hno : n ∉ alloc) (ht : s.HasTable (n / 1024)) (hlow : e < 4096) (hbit : e % 2 = 1) :
    Balance s₀ initial (s.setEntry (n / 1024) (n % 1024) (f + e)) (n :: alloc) fs hand where
  pstack := h.pstack.setEntry (Nat.ne_of_lt hn) _ _
  perm := by
    obtain ⟨halign, hword⟩ := h.in_hand hf
    have hmap : alloc.map (s.setEntry (n / 1024) (n % 1024) (f + e)).frameAt =
      alloc.map s.frameAt :=
      List.map_congr_left fun m hm => frameAt_other fun he => hno (he ▸ hm)
    have hat : (s.setEntry (n / 1024) (n % 1024) (f + e)).frameAt n = f := by
      rw [State.frameAt, setEntry_apply, if_pos rfl, entry_frame halign hlow (by omega)]
    rw [List.map_cons, hmap, hat]
    refine List.Perm.trans ?_ h.perm
    rw [List.perm_iff_count]
    intro a
    simp only [List.count_append, List.count_cons]
    show _ + (_ + (if f == a then 1 else 0) + (((newTables s₀ s).map s.tableFrame).count a + _)) = _
    omega
  nodup := List.nodup_cons.mpr ⟨hno, h.nodup⟩
  mapped m hm := by
    by_cases he : n = m
    · subst he
      refine ⟨hn, ht, ?_⟩
      rw [State.EntryPresent, setEntry_apply, if_pos rfl]
      exact entry_present (h.in_hand hf).1 hbit
    · have hm : m ∈ alloc := (List.mem_cons.mp hm).resolve_left (Ne.symm he)
      exact ⟨(h.mapped m hm).1, (hasPage_other he).mpr (h.mapped m hm).2⟩
  kept := h.kept
  tidy h₀ := (h.tidy h₀).setEntry (.inl (entry_present (h.in_hand hf).1 hbit))

theorem Balance.clear (h : Balance s₀ initial s alloc fs hand) (hn : n ∈ alloc) :
    Balance s₀ initial (s.setEntry (n / 1024) (n % 1024) 0)
      (alloc.erase n) fs (s.frameAt n :: hand) where
  pstack := h.pstack.setEntry (Nat.ne_of_lt (h.mapped n hn).1) _ _
  perm := by
    have hmap : (alloc.erase n).map (s.setEntry (n / 1024) (n % 1024) 0).frameAt =
      (alloc.erase n).map s.frameAt :=
      List.map_congr_left fun m hm => frameAt_other fun he =>
      ((h.nodup.mem_erase_iff).mp hm).1 he.symm
    have herase := (List.perm_cons_erase hn).map s.frameAt
    rw [hmap]
    refine List.Perm.trans ?_ h.perm
    rw [List.perm_iff_count] at herase ⊢
    intro a
    have := herase a
    simp only [List.map_cons, List.count_append, List.count_cons] at this ⊢
    show _ + (_ + (((newTables s₀ s).map s.tableFrame).count a + _)) = _
    omega
  nodup := h.nodup.erase n
  mapped m hm := by
    obtain ⟨hne, hm⟩ := h.nodup.mem_erase_iff.mp hm
    exact ⟨(h.mapped m hm).1, (hasPage_other (Ne.symm hne)).mpr (h.mapped m hm).2⟩
  kept := h.kept
  tidy h₀ := (h.tidy h₀).setEntry (.inr rfl)

-- ---------------------------------------------------------------------------
-- Runs keep the balance
-- ---------------------------------------------------------------------------

theorem push_all (h : Pstack s fs) (hf : Frames (fs ++ initial)) :
    ∃ s', s.pushAll initial = some s' ∧ Pstack s' (fs ++ initial) ∧ SameRest s s' := by
  induction initial generalizing s fs with
  | nil => exact ⟨s, rfl, by rwa [List.append_nil], .refl⟩
  | cons f rest ih =>
    rw [List.append_cons] at hf
    obtain ⟨s₁, hpush, hok, hsame⟩ := h.push (hf.sublist (List.sublist_append_left _ _))
    obtain ⟨s', hrest, hok', hsame'⟩ := ih hok hf
    refine ⟨s', ?_, by rwa [List.append_cons], hsame.trans hsame'⟩
    rw [State.pushAll] at hrest ⊢
    rw [List.foldlM_cons, hpush]
    exact hrest

theorem Begun.balance (h : Begun s₀ initial x) (hs : Blank s₀) (hf : Frames initial) :
    Balance s₀ initial x.state x.alloc initial x.lost := by
  obtain ⟨s', hpush, hok, hsame⟩ := push_all hs.pstack (by rwa [List.nil_append])
  obtain ⟨hbegun, halloc, hlost⟩ := h
  rw [hpush, Option.some.injEq] at hbegun
  rw [← hbegun, halloc, hlost]
  have hnone : newTables s₀ s' = [] := by
    rw [newTables_congr (s := s₀) fun t _ => hsame.hasTable t, newTables]
    exact List.filter_eq_nil_iff.mpr fun t _ => by simp
  refine ⟨hok, ?_, List.nodup_nil, fun n hn => absurd hn List.not_mem_nil,
    fun t _ => congrFun hsame.ptable t, fun h₀ => h₀.same hsame⟩
  rw [hnone]
  simp

theorem Balance.not_alloc {v : Nat} (h : Balance s₀ initial s alloc fs hand)
    (hm : ¬ s.pageIsMapped v) :
    v / 4096 ∉ alloc := fun hn => hm (hasPage_mapped (h.mapped _ hn).2).1

theorem Balance.step {a : PageAction} (h : Balance s₀ initial x.state x.alloc fs x.lost)
    (hf : Frames initial) (hmay : PageMay x a y) :
    ∃ y fs', pageStep x a = some y ∧ Balance s₀ initial y.state y.alloc fs' y.lost := by
  cases a with
  | allocate v u w =>
    have hv : v / 4096 / 1024 < 1022 := pdeNum_page v ▸ pdeNum_below hmay
    obtain ⟨hlow, hbit⟩ := pageFlags_bounds u w
    obtain ⟨r, s', hres, hcase⟩ := allocate_cases h.pstack u w v
    simp only [pageStep, hres, Option.map_some]
    rw [pdeNum_page, pteNum_page] at hcase
    rcases hcase with ⟨rfl, rfl⟩ | ⟨rfl, hm, ht, fs₁, f, s₁, rfl, hok, hsame, -, rfl⟩ |
      ⟨rfl, hm, ht, fs₁, t, f, s₁, rfl, hok, hsame, rfl⟩
    · exact ⟨_, fs, rfl, h⟩
    · have hpop := h.restack (f :: x.lost) hok hsame (by simp)
      have htable : s₁.HasTable (v / 4096 / 1024) := (hsame.hasTable _).mpr (pdeNum_page v ▸ ht)
      exact ⟨_, fs₁, rfl, hpop.allocate hf hv (h.not_alloc hm) htable hlow hbit⟩
    · have hpop := h.restack (t :: f :: x.lost) hok hsame (by simp)
      have hno : ¬ s₁.HasTable (v / 4096 / 1024) := mt (hsame.hasTable _).mp (pdeNum_page v ▸ ht)
      have hinstall := hpop.install hf hv hno
      exact ⟨_, fs₁, rfl, hinstall.allocate hf hv (h.not_alloc hm)
        (install_table (hpop.in_hand hf).1) hlow hbit⟩
  | free v =>
    obtain ⟨hv, hn⟩ := hmay
    have hclear := h.clear hn
    have hfree := free_eq (h.mapped _ hn).2
    obtain ⟨s', hpush, hok, hsame⟩ := hclear.pstack.push (hclear.fresh hf)
    rw [← pdeNum_page, ← pteNum_page] at hpush
    simp only [pageStep, hfree, hpush, Option.map_some]
    exact ⟨_, _, rfl, hclear.restack _ hok hsame (by simp)⟩
  | map v frame u w =>
    have hv : v / 4096 / 1024 < 1022 := pdeNum_page v ▸ pdeNum_below hmay
    obtain ⟨r, s', hres, hcase⟩ := map_cases h.pstack u w v frame
    simp only [pageStep, hres, Option.map_some]
    rw [pdeNum_page, pteNum_page] at hcase
    rcases hcase with ⟨rfl, rfl⟩ | ⟨rfl, hm, ht, rfl⟩ | ⟨rfl, hm, ht, fs₁, t, s₁,
      rfl, hok, hsame, rfl⟩
    · exact ⟨_, fs, rfl, h⟩
    · exact ⟨_, fs, rfl, h.setEntry hv (h.not_alloc hm) (.inl mapEntry_present)⟩
    · have hpop := h.restack (t :: x.lost) hok hsame (by simp)
      have hno : ¬ s₁.HasTable (v / 4096 / 1024) := mt (hsame.hasTable _).mp (pdeNum_page v ▸ ht)
      exact ⟨_, fs₁, rfl, (hpop.install hf hv hno).setEntry hv (h.not_alloc hm)
        (.inl mapEntry_present)⟩
  | unmap v =>
    have hv : v / 4096 / 1024 < 1022 := pdeNum_page v ▸ pdeNum_below hmay
    refine ⟨_, fs, rfl, ?_⟩
    by_cases hn : v / 4096 ∈ x.alloc
    · obtain ⟨hm, ht⟩ := hasPage_mapped (h.mapped _ hn).2
      simp only [State.memoryUnmapAddr, if_neg (not_not_intro hm), setPage_zero ht, if_pos hn,
        pdeNum_page, pteNum_page]
      exact h.clear hn
    · simp only [if_neg hn, List.erase_of_not_mem hn, State.memoryUnmapAddr]
      by_cases hm : x.state.pageIsMapped v
      · rw [if_neg (not_not_intro hm)]
        by_cases ht : x.state.ptableIsSet v
        · rw [setPage_zero ht, pdeNum_page, pteNum_page]
          exact h.setEntry hv hn (.inr rfl)
        · -- a large page is not touched
          rw [State.setPage, if_pos (Decidable.or_iff_not_imp_left.mpr fun hp =>
            Decidable.not_not.mp fun hl => ht ⟨hl, Decidable.not_not.mp hp⟩)]
          exact h
      · rw [if_pos hm]
        exact h

end ElcoOs.Paging
