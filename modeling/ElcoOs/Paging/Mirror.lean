import ElcoOs.Paging.Ledger
import ElcoOs.Paging.Physical

/-!
# Tables in memory

As long as no frame on the page stack is a table's, one memory does what a
memory with tables of their own does: nothing that is stored on the stack lands
in a table.
-/

namespace ElcoOs.Paging

open Word32

namespace State

/-- No table is in the frame. -/
def Spare (s : State) (f : Nat) : Prop := ∀ t < 1024, s.HasTable t → s.tableFrame t ≠ f

/-- No table has the address. -/
def Outside (s : State) (a : Nat) : Prop :=
  ∀ t < 1024, s.HasTable t → a < s.tableFrame t ∨ s.tableFrame t + 4096 ≤ a

end State

/-- The tables of `s` are in the memory of `p`, each in a frame of its own, with
the directory as the last of them; the rest of the memory is the same. -/
structure Mirrors (p : Phys) (s : State) : Prop where
  align : p.cr3 % 4096 = 0
  word : p.cr3 < 4294967296
  recursive : s.ptable 1023 = p.cr3 + 3
  apart : ∀ t < 1024, ∀ t' < 1024, s.HasTable t → s.HasTable t' →
    s.tableFrame t = s.tableFrame t' → t = t'
  pointer : p.pstackPointer = s.pstackPointer
  ptable : ∀ t < 1024, p.ram (p.cr3 + 4 * t) = s.ptable t
  entry : ∀ t < 1023, s.HasTable t → ∀ i < 1024, p.ram (s.tableFrame t + 4 * i) = s.entry t i
  ram : ∀ a, s.Outside a → p.ram a = s.ram a

variable {p p' : Phys} {s s' : State} {fs : List Nat} {a e f i n r t t' v : Nat}

-- ---------------------------------------------------------------------------
-- Where the tables are
-- ---------------------------------------------------------------------------

theorem tableFrame_aligned (s : State) (t : Nat) : s.tableFrame t % 4096 = 0 := by
  rw [State.tableFrame, show (4096 : Nat) = 2 ^ 12 from rfl, Nat.and_mod_two_pow,
    show not32 ptableFlagsMask % 2 ^ 12 = 0 from rfl, Nat.and_zero]

theorem entry_not_large (hf : f % 4096 = 0) : ¬ (f + 3) &&& ptableFlagLargepage ≠ 0 :=
  (install_table (s := bootState) (t := 0) hf).1

theorem Mirrors.directory (h : Mirrors p s) : s.HasTable 1023 ∧ s.tableFrame 1023 = p.cr3 := by
  have hlow := h.align
  have hword := h.word
  refine ⟨⟨?_, ?_⟩, ?_⟩
  · rw [State.Large, h.recursive]
    exact entry_not_large h.align
  · rw [State.Present, h.recursive]
    exact entry_present h.align rfl
  · rw [State.tableFrame, h.recursive, entry_frame h.align (by decide) (by omega)]

theorem Mirrors.outside_directory (h : Mirrors p s) (ha : s.Outside a) (ht : t < 1024) :
    a ≠ p.cr3 + 4 * t := by
  have hdir := ha 1023 (by decide) h.directory.1
  rw [h.directory.2] at hdir
  omega

theorem Mirrors.entry_ne (h : Mirrors p s) (ht : t < 1024) (ht' : t' < 1024) (hset : s.HasTable t)
    (hset' : s.HasTable t') (hne : t ≠ t') (hi : i < 1024) (hn : n < 1024) :
    s.tableFrame t + 4 * i ≠ s.tableFrame t' + 4 * n := by
  have hframe : s.tableFrame t ≠ s.tableFrame t' :=
    fun he => hne (h.apart t ht t' ht' hset hset' he)
  have := tableFrame_aligned s t
  have := tableFrame_aligned s t'
  omega

theorem State.Spare.outside (h : s.Spare f) (hf : f % 4096 = 0) (hlo : f ≤ a)
    (hhi : a < f + 4096) : s.Outside a := by
  intro t ht hset
  have hne := h t ht hset
  have := tableFrame_aligned s t
  omega

theorem spare_congr (h : s'.ptable = s.ptable) : s'.Spare f ↔ s.Spare f := by
  simp only [State.Spare, State.HasTable, State.Large, State.Present, State.tableFrame, h]

theorem outside_congr (h : s'.ptable = s.ptable) : s'.Outside a ↔ s.Outside a := by
  simp only [State.Outside, State.HasTable, State.Large, State.Present, State.tableFrame, h]

-- ---------------------------------------------------------------------------
-- What the processor reads
-- ---------------------------------------------------------------------------

theorem Mirrors.view_entry (h : Mirrors p s) (ht : t < 1024) :
    p.view.entry t i = p.ram (s.tableFrame t + 4 * i) := by
  rw [State.tableFrame, ← h.ptable t ht]
  rfl

theorem Mirrors.view_table (h : Mirrors p s) (ht : t < 1024) : p.view.HasTable t ↔ s.HasTable t :=
  hasTable_congr (h.ptable t ht)

/-- The recursive entry shows all tables. -/
theorem Mirrors.translate_table (h : Mirrors p s) (ht : t < 1024)
    (hset : s.HasTable t) (hi : i < 1024) :
    p.view.translate (kernelPtableAddr + pageSize * t + 4 * i) = some (s.tableFrame t + 4 * i) := by
  have hpde : pdeNum (kernelPtableAddr + pageSize * t + 4 * i) = 1023 := by
    rw [pdeNum_eq, kernelPtableAddr, pageSize]
    omega
  have hpte : pteNum (kernelPtableAddr + pageSize * t + 4 * i) = t := by
    rw [pteNum_eq, kernelPtableAddr, pageSize]
    omega
  have hdir := (h.view_table (t := 1023) (by decide)).mpr h.directory.1
  have hentry : p.view.entry 1023 t = s.ptable t := by
    rw [h.view_entry (by decide), h.directory.2, h.ptable t ht]
  have hpresent : p.view.EntryPresent 1023 t := by
    rw [State.EntryPresent, hentry]
    exact hset.2
  simp only [State.translate, hpde, hpte]
  rw [if_neg (not_not_intro hdir.2), if_neg hdir.1, if_neg (not_not_intro hpresent),
    hentry, State.tableFrame,
    kernelPtableAddr, pageSize]
  congr 2
  omega

theorem Mirrors.translate_pde (h : Mirrors p s) (ht : t < 1024) :
    p.view.translate (kernelPdeAddr + 4 * t) = some (p.cr3 + 4 * t) := by
  rw [← h.directory.2]
  exact h.translate_table (t := 1023) (by decide) h.directory.1 ht

theorem Mirrors.pde (h : Mirrors p s) (ht : t < 1024) : p.pde t = some (s.ptable t) := by
  rw [Phys.pde, Phys.load, h.translate_pde ht, Option.map_some, h.ptable t ht]

theorem Mirrors.pte (h : Mirrors p s) (ht : t < 1023) (hset : s.HasTable t) (hi : i < 1024) :
    p.pte t i = some (s.entry t i) := by
  rw [Phys.pte, Phys.load, h.translate_table (Nat.lt_succ_of_lt ht) hset hi, Option.map_some,
    h.entry t ht hset i hi]

theorem pdeNum_window (hv : v < kernelPtableAddr) : pdeNum v < 1023 := by
  rw [kernelPtableAddr] at hv
  rw [pdeNum_eq]
  omega

theorem pteNum_lt (v : Nat) : pteNum v < 1024 := by
  rw [pteNum_eq]
  exact Nat.mod_lt _ (by decide)

theorem translate_congr (htable : s'.ptable (pdeNum v) = s.ptable (pdeNum v))
    (hentry : s.HasTable (pdeNum v) →
    s'.entry (pdeNum v) (pteNum v) = s.entry (pdeNum v) (pteNum v)) :
    s'.translate v = s.translate v := by
  have hpresent : s'.Present (pdeNum v) ↔ s.Present (pdeNum v) :=
    by rw [State.Present, State.Present, htable]
  have hlarge : s'.Large (pdeNum v) ↔ s.Large (pdeNum v) := by rw [State.Large, State.Large, htable]
  simp only [State.translate, htable]
  by_cases hp : s.Present (pdeNum v)
  swap
  · rw [if_pos hp, if_pos (mt hpresent.mp hp)]
  rw [if_neg (not_not_intro hp), if_neg (not_not_intro (hpresent.mpr hp))]
  by_cases hl : s.Large (pdeNum v)
  · rw [if_pos hl, if_pos (hlarge.mpr hl)]
  have hpage : s'.EntryPresent (pdeNum v) (pteNum v) ↔ s.EntryPresent (pdeNum v) (pteNum v) := by
    rw [State.EntryPresent, State.EntryPresent, hentry ⟨hl, hp⟩]
  rw [if_neg hl, if_neg (mt hlarge.mp hl), hentry ⟨hl, hp⟩]
  exact if_congr (not_congr hpage) rfl rfl

theorem Mirrors.translate (h : Mirrors p s) (hv : v < kernelPtableAddr) :
    p.view.translate v = s.translate v := by
  have ht : pdeNum v < 1023 := pdeNum_window hv
  refine translate_congr (h.ptable _ (by omega)) fun hset => ?_
  rw [h.view_entry (by omega), h.entry _ ht hset _ (pteNum_lt v)]

theorem Mirrors.load (h : Mirrors p s) (hv : v < kernelPtableAddr)
    (hout : ∀ a, s.translate v = some a → s.Outside a) : p.load v = s.load v := by
  rw [Phys.load, State.load, h.translate hv]
  cases hres : s.translate v with
  | none => rfl
  | some a => rw [Option.map_some, Option.map_some, h.ram a (hout a hres)]

theorem Mirrors.pageIsMapped (h : Mirrors p s) (hv : v < kernelPtableAddr) :
    p.pageIsMapped v = some (decide (s.pageIsMapped v)) := by
  have ht := pdeNum_window hv
  rw [Phys.pageIsMapped, h.pde (by omega)]
  simp only [Option.bind_eq_bind, Option.bind_some, Option.pure_def]
  by_cases hpresent : s.ptable (pdeNum v) &&& ptableFlagPresent = 0
  · rw [if_pos hpresent, decide_eq_false fun hm => hm.1 hpresent]
  by_cases hlarge : s.ptable (pdeNum v) &&& ptableFlagLargepage ≠ 0
  · rw [if_neg hpresent, if_pos hlarge, decide_eq_true ⟨hpresent, .inl hlarge⟩]
  · rw [if_neg hpresent, if_neg hlarge, h.pte ht ⟨hlarge, hpresent⟩ (pteNum_lt v)]
    simp only [Option.bind_some, Option.some.injEq, decide_eq_decide]
    exact ⟨fun he => ⟨hpresent, .inr he⟩, fun hm => hm.2.resolve_left hlarge⟩

theorem Mirrors.ptableIsSet (h : Mirrors p s) (hv : v < kernelPtableAddr) :
    p.ptableIsSet v = some (decide (s.ptableIsSet v)) := by
  have ht := pdeNum_window hv
  rw [Phys.ptableIsSet, h.pde (by omega)]
  simp only [Option.bind_eq_bind, Option.bind_some, Option.pure_def]
  by_cases hlarge : s.ptable (pdeNum v) &&& ptableFlagLargepage ≠ 0
  · rw [if_pos hlarge, decide_eq_false fun hset => hset.1 hlarge]
  · rw [if_neg hlarge, Option.some.injEq, decide_eq_decide]
    exact ⟨fun hpresent => ⟨hlarge, hpresent⟩, fun hset => hset.2⟩

theorem no_table_iff :
    (s.ptable t &&& ptableFlagPresent = 0 ∨ s.ptable t &&& ptableFlagLargepage ≠ 0) ↔
    (¬ s.Present t ∨ s.Large t) := by
  rw [State.Present, State.Large, not_not]

theorem Mirrors.getPage (h : Mirrors p s) (hv : v < kernelPtableAddr) :
    p.getPage v = some (s.getPage v) := by
  have ht := pdeNum_window hv
  rw [Phys.getPage, State.getPage, h.pde (by omega)]
  simp only [Option.bind_eq_bind, Option.bind_some, Option.pure_def, no_table_iff]
  by_cases hno : ¬ s.Present (pdeNum v) ∨ s.Large (pdeNum v)
  · rw [if_pos hno, if_pos hno]
  · have hset : s.HasTable (pdeNum v) :=
      ⟨fun hl => hno (.inr hl), by_contra fun hp => hno (.inl hp)⟩
    rw [if_neg hno, if_neg hno, h.pte ht hset (pteNum_lt v)]
    rfl

-- ---------------------------------------------------------------------------
-- Writes
-- ---------------------------------------------------------------------------

theorem Mirrors.congr (h : Mirrors p s) (hptable : s'.ptable = s.ptable)
    (hpointer : s'.pstackPointer = s.pstackPointer)
    (hentry : ∀ t, s.HasTable t → ∀ i < 1024, s'.entry t i = s.entry t i) (hram : s'.ram = s.ram) :
    Mirrors p s' := by
  have hset : ∀ t, s'.HasTable t ↔ s.HasTable t := fun t => hasTable_congr (congrFun hptable t)
  have hframe : ∀ t, s'.tableFrame t = s.tableFrame t := fun t => by
    rw [State.tableFrame, hptable, State.tableFrame]
  refine ⟨h.align, h.word, (congrFun hptable _).trans h.recursive, fun t ht t' ht' hs hs' he => ?_,
    h.pointer.trans hpointer.symm, fun t ht => (h.ptable t ht).trans (congrFun hptable t).symm,
    fun t ht hs i hi => ?_, fun a ha => ?_⟩
  · rw [hframe, hframe] at he
    exact h.apart t ht t' ht' ((hset t).mp hs) ((hset t').mp hs') he
  · rw [hframe, h.entry t ht ((hset t).mp hs) i hi, hentry t ((hset t).mp hs) i hi]
  · rw [hram]
    refine h.ram a fun t ht hs => ?_
    rw [← hframe]
    exact ha t ht ((hset t).mpr hs)

theorem Mirrors.setPointer (h : Mirrors p s) (a : Nat) : Mirrors (p.setPointer a)
    (s.setPointer a) :=
  ⟨h.align, h.word, h.recursive, h.apart, rfl, h.ptable, h.entry, h.ram⟩

theorem Mirrors.setEntry (h : Mirrors p s) (ht : t < 1023) (hset : s.HasTable t)
    (hi : i < 1024) (v : Nat) :
    Mirrors (p.write (s.tableFrame t + 4 * i) v) (s.setEntry t i v) := by
  refine ⟨h.align, h.word, h.recursive, h.apart, h.pointer, fun t' ht' => ?_,
    fun t' ht' hset' n hn => ?_,
    fun a ha => ?_⟩
  · have hne := h.entry_ne (t := 1023) (i := t') (n := i) (by decide)
      (by omega) h.directory.1 hset (by omega) ht' hi
    rw [h.directory.2] at hne
    exact (Function.update_of_ne hne _ _).trans (h.ptable t' ht')
  · by_cases he : t' = t
    · subst he
      rw [setEntry_apply]
      by_cases hin : n = i
      · subst hin
        exact (Function.update_self _ _ _).trans (if_pos rfl).symm
      · rw [if_neg hin]
        refine (Function.update_of_ne (fun heq => ?_) _ _).trans (h.entry t' ht' hset' n hn)
        have heq : s.tableFrame t' + 4 * n = s.tableFrame t' + 4 * i := heq
        omega
    · rw [setEntry_other he]
      exact (Function.update_of_ne (h.entry_ne (by omega) (by omega) hset' hset he hn hi) _ _).trans
        (h.entry t' ht' hset' n hn)
  · have hout := ha t (by omega) hset
    refine (Function.update_of_ne ?_ _ _).trans (h.ram a ha)
    change a < s.tableFrame t ∨ s.tableFrame t + 4096 ≤ a at hout
    omega

theorem Mirrors.setPte (h : Mirrors p s) (ht : t < 1023) (hset : s.HasTable t)
    (hi : i < 1024) (v : Nat) :
    ∃ p', p.setPte t i v = some p' ∧ Mirrors p' (s.setEntry t i v) := by
  refine ⟨_, ?_, h.setEntry ht hset hi v⟩
  rw [Phys.setPte, Phys.store, h.translate_table (by omega) hset hi, Option.map_some]

theorem Mirrors.setPage (h : Mirrors p s) (hv : v < kernelPtableAddr) (f n : Nat) :
    ∃ p', p.setPage v f n = some ((s.setPage v f n).1, p') ∧ Mirrors p' (s.setPage v f n).2 := by
  have ht := pdeNum_window hv
  rw [Phys.setPage, State.setPage, h.pde (by omega)]
  simp only [Option.bind_eq_bind, Option.bind_some, Option.pure_def, no_table_iff]
  by_cases hno : ¬ s.Present (pdeNum v) ∨ s.Large (pdeNum v)
  · rw [if_pos hno, if_pos hno]
    exact ⟨p, rfl, h⟩
  · have hset : s.HasTable (pdeNum v) :=
      ⟨fun hl => hno (.inr hl), by_contra fun hp => hno (.inl hp)⟩
    obtain ⟨p', hres, h'⟩ := h.setPte ht hset (pteNum_lt v)
      ((f &&& not32 ptableFlagsMask) ||| (n &&& ptableFlagsMask))
    rw [if_neg hno, if_neg hno, hres]
    exact ⟨p', rfl, h'⟩

theorem Mirrors.store (h : Mirrors p s) (hv : v < kernelPtableAddr)
    (hout : ∀ a, s.translate v = some a → s.Outside a) (hres : s.store v e = some s') :
    ∃ p', p.store v e = some p' ∧ Mirrors p' s' := by
  rw [State.store] at hres
  obtain ⟨a, ha, rfl⟩ := Option.map_eq_some_iff.mp hres
  have hout := hout a ha
  refine ⟨p.write a e,
    by rw [Phys.store, h.translate hv, ha, Option.map_some], h.align, h.word, h.recursive, h.apart,
    h.pointer, fun t ht => ?_, fun t ht hset i hi => ?_, fun b hb => ?_⟩
  · exact (Function.update_of_ne (h.outside_directory hout ht).symm _ _).trans (h.ptable t ht)
  · have hframe := hout t (by omega) hset
    refine (Function.update_of_ne (show s.tableFrame t + 4 * i ≠ a from ?_) _ _).trans
      (h.entry t ht hset i hi)
    omega
  · show Function.update p.ram a e b = Function.update s.ram a e b
    rw [Function.update_apply, Function.update_apply, h.ram b hb]

-- ---------------------------------------------------------------------------
-- New tables
-- ---------------------------------------------------------------------------

theorem Mirrors.newTable (h : Mirrors p s) (ht : t < 1023) (hno : ¬ s.HasTable t)
    (hf : f % 4096 = 0) (hw : f < 4294967296) (hsp : s.Spare f) :
    Mirrors (p.write (p.cr3 + 4 * t) (f + 3))
      { s.install t f with entry := Function.update s.entry t fun i => p.ram (f + 4 * i) } := by
  have hcr3 := hsp 1023 (by decide) h.directory.1
  rw [h.directory.2] at hcr3
  have halign := h.align
  -- away from the directory nothing is written
  have hram : ∀ a, (∀ t < 1024, a ≠ p.cr3 + 4 * t) →
    (p.write (p.cr3 + 4 * t) (f + 3)).ram a = p.ram a :=
    fun a ha => Function.update_of_ne (ha t (by omega)) _ _
  have hset : ∀ t', t' ≠ t → ((s.install t f).HasTable t' ↔ s.HasTable t') :=
    fun t' hne => install_hasTable hne
  have hframe : ∀ t', t' ≠ t → (s.install t f).tableFrame t' = s.tableFrame t' := fun t' hne => by
    rw [State.tableFrame, (install_other hne).1, State.tableFrame]
  have hnew : (s.install t f).tableFrame t = f := install_tableFrame hf hw
  refine ⟨h.align, h.word, (install_other (by omega)).1.trans h.recursive,
    fun t₁ h₁ t₂ h₂ hs₁ hs₂ he => ?_, h.pointer,
    fun t' ht' => ?_, fun t' ht' hs i hi => ?_, fun a ha => ?_⟩
  · change (s.install t f).tableFrame t₁ = (s.install t f).tableFrame t₂ at he
    by_cases e₁ : t₁ = t <;> by_cases e₂ : t₂ = t
    · rw [e₁, e₂]
    · rw [e₁, hnew, hframe t₂ e₂] at he
      exact absurd he.symm (hsp t₂ h₂ ((hset t₂ e₂).mp hs₂))
    · rw [e₂, hnew, hframe t₁ e₁] at he
      exact absurd he (hsp t₁ h₁ ((hset t₁ e₁).mp hs₁))
    · rw [hframe t₁ e₁, hframe t₂ e₂] at he
      exact h.apart t₁ h₁ t₂ h₂ ((hset t₁ e₁).mp hs₁) ((hset t₂ e₂).mp hs₂) he
  · show Function.update p.ram _ _ (p.cr3 + 4 * t') = Function.update s.ptable t (f + 3) t'
    by_cases he : t' = t
    · rw [he, Function.update_self, Function.update_self]
    · rw [Function.update_of_ne (by omega), Function.update_of_ne he, h.ptable t' ht']
  · change (p.write (p.cr3 + 4 * t) (f + 3)).ram ((s.install t f).tableFrame t' + 4 * i) =
      Function.update s.entry t (fun i => p.ram (f + 4 * i)) t' i
    by_cases he : t' = t
    · subst he
      rw [hnew, Function.update_self, hram _ fun t ht => by omega]
    · have hs' := (hset t' he).mp hs
      rw [hframe t' he, Function.update_of_ne he, hram _ fun n hn => ?_, h.entry t' ht' hs' i hi]
      have hne : s.tableFrame t' + 4 * i ≠ s.tableFrame 1023 + 4 * n :=
        h.entry_ne (by omega) (by decide) hs' h.directory.1 (by omega) hi hn
      rwa [h.directory.2] at hne
  · have hout : s.Outside a := fun t' ht' hs => by
      have hne : t' ≠ t := fun he => hno (he ▸ hs)
      rw [← hframe t' hne]
      exact ha t' ht' ((hset t' hne).mpr hs)
    rw [hram a fun n hn => h.outside_directory hout hn]
    exact h.ram a hout

theorem Mirrors.clearEntries (h : Mirrors p s) (ht : t < 1023)
    (hset : s.HasTable t) (hn : n ≤ 1024) :
    ∃ p', p.clearEntries t n = some p' ∧
      Mirrors p' { s with
        entry := Function.update s.entry t fun i => if i < n then 0 else s.entry t i } := by
  induction n with
  | zero =>
    refine ⟨p, rfl, h.congr rfl rfl (fun t' _ i _ => ?_) rfl⟩
    simp only [Nat.not_lt_zero, if_false]
    exact congrFun (congrFun (Function.update_eq_self t s.entry) t') i
  | succ n ih =>
    obtain ⟨p₁, hres, h₁⟩ := ih (by omega)
    obtain ⟨p', hres', h'⟩ := h₁.setPte (i := n) ht hset (by omega) 0
    refine ⟨p',
      by rw [Phys.clearEntries, hres]; exact hres', h'.congr rfl rfl (fun t' _ i _ => ?_) rfl⟩
    by_cases he : t' = t
    · subst he
      rw [setEntry_apply]
      simp only [Function.update_self]
      by_cases hin : i = n
      · rw [if_pos hin, if_pos (by omega)]
      · rw [if_neg hin]
        exact if_congr (by omega) rfl rfl
    · rw [setEntry_other he]
      show Function.update s.entry t _ t' i = Function.update s.entry t _ t' i
      rw [Function.update_of_ne he, Function.update_of_ne he]

theorem Mirrors.setPageTable (h : Mirrors p s) (hv : v < kernelPtableAddr) (hno : ¬ s.ptableIsSet v)
    (hf : f % 4096 = 0) (hw : f < 4294967296) (hsp : s.Spare f) :
    ∃ p', p.setPageTable v f (ptableFlagPresent ||| ptableFlagWrite) true = some p' ∧
      Mirrors p' (s.setPageTable v f (ptableFlagPresent ||| ptableFlagWrite) true) := by
  have ht := pdeNum_window hv
  have hnew := h.newTable ht hno hf hw hsp
  obtain ⟨p', hres, h'⟩ := hnew.clearEntries (n := pteMax) ht (install_table hf) (Nat.le_refl _)
  refine ⟨p', ?_, ?_⟩
  · rw [Phys.setPageTable, entry_eq hf (by decide) hw, Phys.setPde, Phys.store,
      h.translate_pde (by omega)]
    simp only [Option.map_some, Option.bind_eq_bind, Option.bind_some, if_true]
    exact hres
  · rw [setPageTable_eq hf hw]
    refine h'.congr rfl rfl (fun t' _ i hi => ?_) rfl
    show Function.update s.entry (pdeNum v) _ t' i =
      Function.update (Function.update s.entry _ _) _ _ t' i
    by_cases he : t' = pdeNum v
    · rw [he, Function.update_self, Function.update_self, if_pos (show i < pteMax from hi)]
    · rw [Function.update_of_ne he, Function.update_of_ne he, Function.update_of_ne he]

-- ---------------------------------------------------------------------------
-- The page stack
-- ---------------------------------------------------------------------------

theorem Pstack.outside (hok : Pstack s fs) (hsp : ∀ f ∈ fs, s.Spare f)
    (hlo : kernelPstackBottom ≤ v)
    (hhi : v < kernelPstackTop) (hres : s.translate v = some a) : s.Outside a := by
  rw [kernelPstackBottom] at hlo
  rw [kernelPstackTop] at hhi
  obtain ⟨k, hk⟩ : ∃ k, v / 4096 = 1047551 - k := ⟨1047551 - v / 4096, by omega⟩
  by_cases hpage : k < pages fs.length
  · rw [hok.translate_page hpage hk, Option.some.injEq] at hres
    obtain ⟨hmem, halign, -⟩ :=
      frame_getD (i := 1025 * k) hok.frames (by unfold pages at hpage; omega)
    exact (hsp _ hmem).outside halign (by omega) (by omega)
  · have hpde : pdeNum v = 1022 := by
      rw [pdeNum_eq]
      omega
    have hpte : pteNum v = 1023 - (1047551 - v / 4096) := by
      rw [pteNum_eq]
      omega
    have habsent := hok.unmapped (1047551 - v / 4096) (by omega) (by omega)
    simp only [State.translate, hpde, hpte, if_neg (not_not_intro hok.present), if_neg hok.small,
      if_pos habsent] at hres
    cases hres

theorem Pstack.pointer_bounds (hok : Pstack s fs) :
    kernelPstackBottom < s.pstackPointer ∧ s.pstackPointer ≤ kernelPstackTop := by
  have hlen := hok.frames.length_le
  rw [hok.pointer, kernelPstackBottom, kernelPstackTop, entries, pages]
  omega

theorem Mirrors.mappedBelow (h : Mirrors p s) (hok : Pstack s fs) (d : Bool) :
    p.mappedBelow d = some (if s.pstackPointer &&& 0xFFF = 0 then
    decide (s.pageIsMapped (sub s.pstackPointer 1)) else d) := by
  obtain ⟨hlo, hhi⟩ := hok.pointer_bounds
  rw [kernelPstackBottom] at hlo
  rw [kernelPstackTop] at hhi
  rw [Phys.mappedBelow, h.pointer]
  split
  · exact h.pageIsMapped (by rw [sub_of_le (by omega) (by omega), kernelPtableAddr]; omega)
  · rfl

theorem Mirrors.storeFrame (h : Mirrors p s) (hok : Pstack s fs) (hsp : ∀ f ∈ fs, s.Spare f)
    (hlo : kernelPstackBottom ≤ v) (hhi : v < kernelPtableAddr)
    (hres : (s.setPointer v).store v f = some s') :
    ∃ p', (p.setPointer v).store v f = some p' ∧ Mirrors p' s' := by
  refine (h.setPointer v).store hhi (fun a ha => ?_) hres
  have hsame : (s.setPointer v).translate v = s.translate v := translate_congr rfl fun _ => rfl
  rw [hsame] at ha
  have hout : s.Outside a := hok.outside hsp hlo hhi ha
  exact (outside_congr rfl).mpr hout

theorem Mirrors.push (h : Mirrors p s) (hok : Pstack s fs) (hsp : ∀ f ∈ fs, s.Spare f)
    (hres : s.pstackPush f = some (r, s')) : ∃ p', p.pstackPush f = some (r, p') ∧
    Mirrors p' s' := by
  obtain ⟨hlo, hhi⟩ := hok.pointer_bounds
  have hlo' := hlo
  have hhi' := hhi
  rw [kernelPstackBottom] at hlo'
  rw [kernelPstackTop] at hhi'
  have hbelow : ∀ n, 0 < n → n ≤ 4 → sub s.pstackPointer n = s.pstackPointer - n ∧
      sub s.pstackPointer n < kernelPtableAddr := fun n hpos hn => by
    rw [sub_of_le (by omega) (by omega), kernelPtableAddr]
    omega
  rw [State.pstackPush, if_neg (Nat.ne_of_gt hlo)] at hres
  rw [Phys.pstackPush, h.pointer, if_neg (Nat.ne_of_gt hlo), h.mappedBelow hok]
  simp only [Option.bind_eq_bind, Option.bind_some, Option.pure_def]
  by_cases hpage : s.pstackPointer &&& 0xFFF = 0 ∧ ¬ s.pageIsMapped (sub s.pstackPointer 1)
  · rw [if_pos hpage, Option.some.injEq] at hres
    rw [if_pos hpage.1, if_pos (decide_eq_false hpage.2)]
    obtain ⟨p', hset, h'⟩ :=
      h.setPage (hbelow 1 (by decide) (by decide)).2 f (ptableFlagPresent ||| ptableFlagWrite)
    rw [hres] at hset h'
    exact ⟨p', hset, h'⟩
  · rw [if_neg hpage] at hres
    obtain ⟨s₁, hstore, hret⟩ := Option.bind_eq_some_iff.mp hres
    cases hret
    have hno :
      ¬ (if s.pstackPointer &&& 0xFFF = 0 then decide (s.pageIsMapped (sub s.pstackPointer 1)) else
        true) = false := by
      split
      · rename_i hzero
        rw [decide_eq_false_iff_not]
        exact fun hun => hpage ⟨hzero, hun⟩
      · exact Bool.noConfusion
    rw [if_neg hno]
    obtain ⟨hsub, hword⟩ := hbelow 4 (by decide) (by decide)
    -- the pointer is a multiple of 4 above the bottom of the window
    have hfits : kernelPstackBottom ≤ sub s.pstackPointer 4 := by
      have hptr := hok.pointer
      rw [hsub, kernelPstackBottom]
      omega
    obtain ⟨p', hres', h'⟩ := h.storeFrame hok hsp hfits hword hstore
    exact ⟨p', congrArg (Option.bind · _) hres', h'⟩

theorem Mirrors.pop (h : Mirrors p s) (hok : Pstack s fs) (hsp : ∀ f ∈ fs, s.Spare f)
    {got : Option Nat}
    (hres : s.pstackPop = some (got, s')) : ∃ p', p.pstackPop = some (got, p') ∧ Mirrors p' s' := by
  obtain ⟨hlo, hhi⟩ := hok.pointer_bounds
  have hlo' := hlo
  have hhi' := hhi
  rw [kernelPstackBottom] at hlo'
  rw [kernelPstackTop] at hhi'
  have hbelow : sub s.pstackPointer 1 < kernelPtableAddr := by
    rw [sub_of_le (by omega) (by omega), kernelPtableAddr]
    omega
  rw [State.pstackPop] at hres
  rw [Phys.pstackPop, h.mappedBelow hok, h.pointer]
  simp only [Option.bind_eq_bind, Option.bind_some, Option.pure_def]
  by_cases hpage : s.pstackPointer &&& 0xFFF = 0 ∧ s.pageIsMapped (sub s.pstackPointer 1)
  · rw [if_pos hpage] at hres
    rw [if_pos hpage.1, if_pos (decide_eq_true hpage.2), h.getPage hbelow]
    obtain ⟨p', hset, h'⟩ := h.setPage hbelow 0 0
    simp only [Option.bind_some, hset, Option.some.injEq, Prod.mk.injEq] at hres ⊢
    obtain ⟨rfl, rfl⟩ := hres
    exact ⟨p', ⟨rfl, rfl⟩, h'⟩
  · have hno :
      ¬ (if s.pstackPointer &&& 0xFFF = 0 then decide (s.pageIsMapped (sub s.pstackPointer 1)) else
        false) = true := by
      split
      · rename_i hzero
        rw [decide_eq_true_eq]
        exact fun hm => hpage ⟨hzero, hm⟩
      · exact Bool.noConfusion
    rw [if_neg hpage] at hres
    rw [if_neg hno]
    by_cases htop : s.pstackPointer ≥ kernelPstackTop
    · rw [if_pos htop, Option.some.injEq, Prod.mk.injEq] at hres
      obtain ⟨rfl, rfl⟩ := hres
      rw [if_pos htop]
      exact ⟨p, rfl, h⟩
    · rw [if_neg htop] at hres
      rw [if_neg htop]
      have htop := Nat.not_le.mp htop
      have hload := h.load htop fun a ha => hok.outside hsp (Nat.le_of_lt hlo) htop ha
      obtain ⟨f, hf, hret⟩ := Option.bind_eq_some_iff.mp hres
      cases hret
      exact ⟨_, by rw [hload, hf]; rfl, h.setPointer _⟩

-- ---------------------------------------------------------------------------
-- Pages
-- ---------------------------------------------------------------------------

theorem below_window (hv : v < kernelPstackBottom) : v < kernelPtableAddr :=
  Nat.lt_trans hv (by decide)

theorem Mirrors.memoryAllocatePage (h : Mirrors p s) (hok : Pstack s fs) (hsp : ∀ f ∈ fs, s.Spare f)
    (hv : v < kernelPstackBottom) {u w : Bool} (hres : s.memoryAllocatePage v u w = some (r, s')) :
    ∃ p', p.memoryAllocatePage v u w = some (r, p') ∧ Mirrors p' s' := by
  have hv' := below_window hv
  rw [State.memoryAllocatePage] at hres
  rw [Phys.memoryAllocatePage, h.pageIsMapped hv']
  simp only [Option.bind_eq_bind, Option.bind_some, Option.pure_def, decide_eq_true_eq] at hres ⊢
  by_cases hm : s.pageIsMapped v
  · rw [if_pos hm, Option.some.injEq, Prod.mk.injEq] at hres
    obtain ⟨rfl, rfl⟩ := hres
    exact ⟨p, by rw [if_pos hm], h⟩
  rw [if_neg hm] at hres ⊢
  rcases List.eq_nil_or_concat fs with rfl | ⟨fs, f, rfl⟩
  · -- no frame
    obtain ⟨p₁, hpop, h₁⟩ := h.pop hok hsp hok.pop_nil
    simp only [hok.pop_nil, hpop, Option.bind_some, Option.some.injEq, Prod.mk.injEq] at hres ⊢
    obtain ⟨rfl, rfl⟩ := hres
    exact ⟨p₁, ⟨rfl, rfl⟩, h₁⟩
  rw [List.concat_eq_append] at hok hsp
  obtain ⟨s₁, hpop, hok₁, hsame₁, -⟩ := hok.pop
  obtain ⟨p₁, hpop', h₁⟩ := h.pop hok hsp hpop
  have hsp₁ : ∀ f ∈ fs, s₁.Spare f :=
    fun f hf => (spare_congr hsame₁.ptable).mpr (hsp f (List.mem_append_left _ hf))
  simp only [hpop, hpop', Option.bind_some, h₁.ptableIsSet hv', decide_eq_true_eq] at hres ⊢
  by_cases hset : s₁.ptableIsSet v
  · obtain ⟨p', hpage, h'⟩ := h₁.setPage hv' f (State.pageFlags u w)
    rw [if_pos hset, Option.some.injEq, Prod.mk.injEq] at hres
    obtain ⟨rfl, rfl⟩ := hres
    exact ⟨p', by rw [if_pos hset, hpage]; rfl, h'⟩
  rw [if_neg hset] at hres ⊢
  rcases List.eq_nil_or_concat fs with rfl | ⟨fs, g, rfl⟩
  · -- none for the table
    obtain ⟨p₂, hpop₂, h₂⟩ := h₁.pop hok₁ hsp₁ hok₁.pop_nil
    simp only [hok₁.pop_nil, hpop₂, Option.bind_some] at hres ⊢
    obtain ⟨⟨q, s₂⟩, hpush, hret⟩ := Option.bind_eq_some_iff.mp hres
    cases hret
    obtain ⟨p', hpush', h'⟩ := h₂.push hok₁ hsp₁ hpush
    exact ⟨p', by rw [hpush']; rfl, h'⟩
  · rw [List.concat_eq_append] at hok₁ hsp₁
    obtain ⟨s₂, hpop₂, hok₂, hsame₂, -⟩ := hok₁.pop
    obtain ⟨p₂, hpop₂', h₂⟩ := h₁.pop hok₁ hsp₁ hpop₂
    obtain ⟨halign, hword⟩ := hok₁.frames.2 g (by simp)
    have hno : ¬ s₂.ptableIsSet v := mt (hsame₂.table v).mp hset
    obtain ⟨p₃, htable, h₃⟩ := h₂.setPageTable hv' hno halign hword
      ((spare_congr hsame₂.ptable).mpr (hsp₁ g (by simp)))
    obtain ⟨p', hpage, h'⟩ := h₃.setPage hv' f (State.pageFlags u w)
    simp only [hpop₂, hpop₂', Option.bind_some, htable, Option.some.injEq, Prod.mk.injEq] at hres ⊢
    obtain ⟨rfl, rfl⟩ := hres
    exact ⟨p', by rw [hpage]; rfl, h'⟩

theorem Mirrors.memoryFreePage (h : Mirrors p s) (hok : Pstack s fs) (hsp : ∀ f ∈ fs, s.Spare f)
    (hv : v < kernelPstackBottom) (hres : s.memoryFreePage v = some (r, s')) :
    ∃ p', p.memoryFreePage v = some (r, p') ∧ Mirrors p' s' := by
  have hv' := below_window hv
  rw [State.memoryFreePage] at hres
  rw [Phys.memoryFreePage, h.pageIsMapped hv', h.getPage hv']
  simp only [Option.bind_eq_bind, Option.bind_some, Option.pure_def, decide_eq_false_iff_not]
    at hres ⊢
  by_cases hm : s.pageIsMapped v
  swap
  · rw [if_pos hm, Option.some.injEq, Prod.mk.injEq] at hres
    obtain ⟨rfl, rfl⟩ := hres
    exact ⟨p, by rw [if_pos hm], h⟩
  rw [if_neg (not_not_intro hm)] at hres ⊢
  cases hgot : s.getPage v with
  | none =>
    simp only [hgot, Option.some.injEq, Prod.mk.injEq] at hres ⊢
    obtain ⟨rfl, rfl⟩ := hres
    exact ⟨p, ⟨rfl, rfl⟩, h⟩
  | some e =>
    obtain ⟨p₁, hpage, h₁⟩ := h.setPage hv' 0 0
    simp only [hgot, hpage, Option.bind_some] at hres ⊢
    by_cases hfail : (s.setPage v 0 0).1 ≠ 0
    · rw [if_pos hfail, Option.some.injEq, Prod.mk.injEq] at hres
      obtain ⟨rfl, rfl⟩ := hres
      exact ⟨p₁, by rw [if_pos hfail], h₁⟩
    · rw [if_neg hfail] at hres ⊢
      have hset : ¬ (¬ s.Present (pdeNum v) ∨ s.Large (pdeNum v)) := fun hno => hfail (by
        rw [State.setPage, if_pos hno]
        exact Nat.one_ne_zero)
      have heq : (s.setPage v 0 0).2 = s.setEntry (pdeNum v) (pteNum v) 0 := by
        rw [State.setPage, if_neg hset]
        rfl
      rw [heq] at hres h₁
      exact h₁.push (hok.setEntry (Nat.ne_of_lt (pdeNum_below hv)) _ _) hsp hres

theorem Mirrors.memoryMapAddr (h : Mirrors p s) (hok : Pstack s fs) (hsp : ∀ f ∈ fs, s.Spare f)
    (hv : v < kernelPstackBottom) {u w : Bool} (hres : s.memoryMapAddr v f u w = some (r, s')) :
    ∃ p', p.memoryMapAddr v f u w = some (r, p') ∧ Mirrors p' s' := by
  have hv' := below_window hv
  rw [State.memoryMapAddr] at hres
  rw [Phys.memoryMapAddr, h.pageIsMapped hv', h.ptableIsSet hv']
  simp only [Option.bind_eq_bind, Option.bind_some, Option.pure_def, decide_eq_true_eq] at hres ⊢
  by_cases hm : s.pageIsMapped v
  · rw [if_pos hm, Option.some.injEq, Prod.mk.injEq] at hres
    obtain ⟨rfl, rfl⟩ := hres
    exact ⟨p, by rw [if_pos hm], h⟩
  rw [if_neg hm] at hres ⊢
  by_cases hset : s.ptableIsSet v
  · obtain ⟨p', hpage, h'⟩ := h.setPage hv' f (State.pageFlags u w)
    rw [if_pos hset, Option.some.injEq, Prod.mk.injEq] at hres
    obtain ⟨rfl, rfl⟩ := hres
    exact ⟨p', by rw [if_pos hset, hpage]; rfl, h'⟩
  rw [if_neg hset] at hres ⊢
  rcases List.eq_nil_or_concat fs with rfl | ⟨fs, g, rfl⟩
  · obtain ⟨p₁, hpop, h₁⟩ := h.pop hok hsp hok.pop_nil
    simp only [hok.pop_nil, hpop, Option.bind_some, Option.some.injEq, Prod.mk.injEq] at hres ⊢
    obtain ⟨rfl, rfl⟩ := hres
    exact ⟨p₁, ⟨rfl, rfl⟩, h₁⟩
  · rw [List.concat_eq_append] at hok hsp
    obtain ⟨s₁, hpop, hok₁, hsame, -⟩ := hok.pop
    obtain ⟨p₁, hpop', h₁⟩ := h.pop hok hsp hpop
    obtain ⟨halign, hword⟩ := hok.frames.2 g (by simp)
    have hno : ¬ s₁.ptableIsSet v := mt (hsame.table v).mp hset
    obtain ⟨p₂, htable, h₂⟩ :=
      h₁.setPageTable hv' hno halign hword ((spare_congr hsame.ptable).mpr (hsp g (by simp)))
    obtain ⟨p', hpage, h'⟩ := h₂.setPage hv' f (State.pageFlags u w)
    simp only [hpop, hpop', Option.bind_some, htable, Option.some.injEq, Prod.mk.injEq] at hres ⊢
    obtain ⟨rfl, rfl⟩ := hres
    exact ⟨p', by rw [hpage]; rfl, h'⟩

theorem Mirrors.memoryUnmapAddr (h : Mirrors p s) (hv : v < kernelPstackBottom) :
    ∃ p', p.memoryUnmapAddr v = some ((s.memoryUnmapAddr v).1, p') ∧
      Mirrors p' (s.memoryUnmapAddr v).2 := by
  have hv' := below_window hv
  rw [Phys.memoryUnmapAddr, h.pageIsMapped hv']
  simp only [Option.bind_eq_bind, Option.bind_some, Option.pure_def, decide_eq_false_iff_not,
    State.memoryUnmapAddr]
  by_cases hm : s.pageIsMapped v
  · rw [if_neg (not_not_intro hm), if_neg (not_not_intro hm)]
    exact h.setPage hv' 0 0
  · rw [if_pos hm, if_pos hm]
    exact ⟨p, rfl, h⟩

end ElcoOs.Paging
