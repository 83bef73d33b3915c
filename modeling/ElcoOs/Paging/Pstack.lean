import ElcoOs.Paging.Paging
import Mathlib.Data.List.Nodup
import Mathlib.Data.List.Perm.Subperm

/-!
# The page stack

The free frames as one list, oldest first. Every 1025th of them, from the first
on, is not stored but mapped: it holds the 1024 frames pushed after it. So the
length of the list decides where the pointer is and which pages of the window
are mapped.
-/

namespace ElcoOs.Paging

open Word32

-- ---------------------------------------------------------------------------
-- Addresses and entries
-- ---------------------------------------------------------------------------

theorem pdeNum_eq (v : Nat) : pdeNum v = v / 4194304 := Nat.shiftRight_eq_div_pow v 22

theorem pteNum_eq (v : Nat) : pteNum v = v / 4096 % 1024 := by
  have hmask : v &&& 0x3FFFFF = v % 4194304 := Nat.and_two_pow_sub_one_eq_mod v 22
  rw [pteNum, show not32 ptableDirMask = 0x3FFFFF from rfl, hmask, Nat.shiftRight_eq_div_pow]
  omega

theorem and_fff (v : Nat) : v &&& 0xFFF = v % 4096 := Nat.and_two_pow_sub_one_eq_mod v 12

theorem entry_frame {f n : Nat} (hf : f % 4096 = 0) (hn : n < 4096) (hw : f + n < 4294967296) :
    (f + n) &&& not32 ptableFlagsMask = f := by
  rw [ptableFlagsMask, and_not32_4095 hw]
  omega

theorem entry_eq {f n : Nat} (hf : f % 4096 = 0) (hn : n < 4096) (hw : f < 4294967296) :
    ((f &&& not32 ptableFlagsMask) ||| (n &&& ptableFlagsMask)) = f + n := by
  rw [ptableFlagsMask, and_not32_4095 hw, and_fff, Nat.mod_eq_of_lt hn,
    Nat.div_mul_cancel (Nat.dvd_of_mod_eq_zero hf)]
  exact or_low 12 hf hn

theorem entry_present {f n : Nat} (hf : f % 4096 = 0) (hn : n % 2 = 1) :
    (f + n) &&& ptableFlagPresent ≠ 0 := by
  rw [ptableFlagPresent, and_one]
  omega

def Frames (fs : List Nat) : Prop := fs.Nodup ∧ ∀ f ∈ fs, f % 4096 = 0 ∧ f < 4294967296

theorem Frames.length_le {fs : List Nat} (h : Frames fs) : fs.length ≤ 1048576 := by
  have hnd : (fs.map (· / 4096)).Nodup := by
    refine List.Nodup.map_on (fun a ha b hb he => ?_) h.1
    have := (h.2 a ha).1
    have := (h.2 b hb).1
    omega
  have hsub : fs.map (· / 4096) ⊆ List.range 1048576 := by
    intro x hx
    obtain ⟨f, hf, rfl⟩ := List.mem_map.mp hx
    have := (h.2 f hf).2
    exact List.mem_range.mpr (by omega)
  have hle := (List.subperm_of_subset hnd hsub).length_le
  rwa [List.length_map, List.length_range] at hle

theorem Frames.sublist {fs gs : List Nat} (h : Frames gs) (hs : fs.Sublist gs) : Frames fs :=
  ⟨h.1.sublist hs, fun f hf => h.2 f (hs.subset hf)⟩

theorem Frames.perm {fs gs : List Nat} (h : Frames fs) (hp : fs.Perm gs) : Frames gs :=
  ⟨hp.nodup_iff.mp h.1, fun f hf => h.2 f (hp.mem_iff.mpr hf)⟩

-- ---------------------------------------------------------------------------
-- The stack as a list
-- ---------------------------------------------------------------------------

/-- How many of `n` frames hold the others. -/
def pages (n : Nat) : Nat := (n + 1024) / 1025

def entries (n : Nat) : Nat := n - pages n

structure Pstack (s : State) (fs : List Nat) : Prop where
  present : s.Present 1022
  small : ¬ s.Large 1022
  pointer : s.pstackPointer = 0xFFC00000 - 4 * entries fs.length
  mapped : ∀ k < pages fs.length, s.entry 1022 (1023 - k) = fs.getD (1025 * k) 0 + 3
  unmapped : ∀ k, pages fs.length ≤ k → k < 1024 → ¬ s.EntryPresent 1022 (1023 - k)
  words : ∀ k j, j < 1024 → 1025 * k + 1 + j < fs.length →
    s.ram (fs.getD (1025 * k) 0 + (4092 - 4 * j)) = fs.getD (1025 * k + 1 + j) 0
  frames : Frames fs

structure SameRest (s s' : State) : Prop where
  ptable : s'.ptable = s.ptable
  entry : ∀ t, t ≠ 1022 → s'.entry t = s.entry t
  heapAddr : s'.kernelHeapAddr = s.kernelHeapAddr
  heapSize : s'.kernelHeapSize = s.kernelHeapSize

variable {s s' : State} {fs : List Nat} {f k j : Nat}

theorem SameRest.refl : SameRest s s := ⟨rfl, fun _ _ => rfl, rfl, rfl⟩

theorem SameRest.trans {s'' : State} (h : SameRest s s') (h' : SameRest s' s'') : SameRest s s'' :=
  ⟨h'.ptable.trans h.ptable, fun t ht => (h'.entry t ht).trans (h.entry t ht),
  h'.heapAddr.trans h.heapAddr,
    h'.heapSize.trans h.heapSize⟩

theorem frame_getD (h : Frames fs) {i : Nat} (hi : i < fs.length) :
    fs.getD i 0 ∈ fs ∧ fs.getD i 0 % 4096 = 0 ∧ fs.getD i 0 < 4294967296 := by
  have hmem : fs.getD i 0 ∈ fs := by
    rw [List.getD_eq_getElem _ _ hi]
    exact List.getElem_mem hi
  exact ⟨hmem, h.2 _ hmem⟩

theorem getD_inj (h : fs.Nodup) {i j : Nat} (hi : i < fs.length) (hj : j < fs.length)
    (he : fs.getD i 0 = fs.getD j 0) : i = j := by
  rw [List.getD_eq_getElem _ _ hi, List.getD_eq_getElem _ _ hj] at he
  exact (List.Nodup.getElem_inj_iff h).mp he

theorem Pstack.congr (h : Pstack s fs) (hp : s'.pstackPointer = s.pstackPointer)
    (ht : s'.ptable 1022 = s.ptable 1022)
    (he : s'.entry 1022 = s.entry 1022) (hr : s'.ram = s.ram) : Pstack s' fs where
  present := by
    unfold State.Present
    rw [ht]
    exact h.present
  small := by
    unfold State.Large
    rw [ht]
    exact h.small
  pointer := hp.trans h.pointer
  mapped k hk := (congrFun he _).trans (h.mapped k hk)
  unmapped k hk hk' := by
    unfold State.EntryPresent
    rw [he]
    exact h.unmapped k hk hk'
  words k j hj hlt := (congrFun hr _).trans (h.words k j hj hlt)
  frames := h.frames

/-- The virtual address of the `j`th frame that page `k` of the stack holds. -/
def slot (k j : Nat) : Nat := 0xFFC00000 - 4096 * k - 4 * (j + 1)

theorem Pstack.pages_le (h : Pstack s fs) : pages fs.length ≤ 1024 := by
  have := h.frames.length_le
  unfold pages
  omega

theorem Pstack.page_frame (h : Pstack s fs) (hk : k < pages fs.length) :
    fs.getD (1025 * k) 0 % 4096 = 0 ∧ fs.getD (1025 * k) 0 < 4294967296 := by
  refine (frame_getD h.frames ?_).2
  unfold pages at hk
  omega

theorem Pstack.translate_page (h : Pstack s fs) (hk : k < pages fs.length) {v : Nat}
    (hv : v / 4096 = 1047551 - k) :
    s.translate v = some (fs.getD (1025 * k) 0 + v % 4096) := by
  have hlt : k < 1024 := Nat.lt_of_lt_of_le hk h.pages_le
  obtain ⟨halign, hword⟩ := h.page_frame hk
  have hpde : pdeNum v = 1022 := by
    rw [pdeNum_eq]
    omega
  have hpte : pteNum v = 1023 - k := by
    rw [pteNum_eq]
    omega
  have hentry := h.mapped k hk
  have hpresent : s.EntryPresent 1022 (1023 - k) := by
    unfold State.EntryPresent
    rw [hentry]
    exact entry_present halign rfl
  simp only [State.translate, hpde, hpte]
  rw [if_neg (not_not_intro h.present), if_neg h.small, if_neg (not_not_intro hpresent), hentry,
    entry_frame halign (by decide) (by omega), pageSize]

theorem Pstack.translate_slot (h : Pstack s fs) (hk : k < pages fs.length) (hj : j < 1024) :
    s.translate (slot k j) = some (fs.getD (1025 * k) 0 + (4092 - 4 * j)) := by
  have hlt : k < 1024 := Nat.lt_of_lt_of_le hk h.pages_le
  rw [h.translate_page hk (by rw [slot]; omega)]
  congr 2
  rw [slot]
  omega

theorem below_table {q : Nat} (hq : q < 1024) :
    pdeNum (0xFFC00000 - 4096 * q - 1) = 1022 ∧ pteNum (0xFFC00000 - 4096 * q - 1) = 1023 - q := by
  rw [pdeNum_eq, pteNum_eq]
  omega

theorem setEntry_other {t t' p v : Nat} (h : t' ≠ t) : (s.setEntry t p v).entry t' = s.entry t' :=
  Function.update_of_ne h _ _

theorem setEntry_apply (s : State) (t p v p' : Nat) :
    (s.setEntry t p v).entry t p' = if p' = p then v else s.entry t p' := by
  simp only [State.setEntry, Function.update_self, Function.update_apply]

-- ---------------------------------------------------------------------------
-- Push
-- ---------------------------------------------------------------------------

theorem getD_append_left (hi : k < fs.length) : (fs ++ [f]).getD k 0 = fs.getD k 0 :=
  List.getD_append _ _ _ _ hi

theorem getD_append_last : (fs ++ [f]).getD fs.length 0 = f := by
  rw [List.getD_append_right _ _ _ _ (Nat.le_refl _), Nat.sub_self]
  rfl

theorem Pstack.push_page (h : Pstack s fs) (hf : Frames (fs ++ [f])) {q : Nat}
    (hq : fs.length = 1025 * q) :
    s.pstackPush f = some (0, s.setEntry 1022 (1023 - q) (f + 3)) ∧
      Pstack (s.setEntry 1022 (1023 - q) (f + 3)) (fs ++ [f]) := by
  obtain ⟨halign, hword⟩ := hf.2 f (by simp)
  have hlen := hf.length_le
  simp only [List.length_append, List.length_singleton] at hlen
  have hpages : pages fs.length = q := by
    unfold pages
    omega
  have hpages' : pages (fs ++ [f]).length = q + 1 := by
    simp only [pages, List.length_append, List.length_singleton]
    omega
  have hptr : s.pstackPointer = 0xFFC00000 - 4096 * q := by
    rw [h.pointer, entries, hpages]
    omega
  have hq' : q < 1024 := by omega
  obtain ⟨hpde, hpte⟩ := below_table hq'
  have hsub : sub s.pstackPointer 1 = 0xFFC00000 - 4096 * q - 1 := by
    rw [hptr]
    exact sub_of_le (by omega) (by omega)
  have hun : ¬ s.pageIsMapped (sub s.pstackPointer 1) := by
    rw [hsub, State.pageIsMapped, hpde, hpte]
    rintro ⟨-, hlarge | hpresent⟩
    · exact h.small hlarge
    · exact h.unmapped q (Nat.le_of_eq hpages) hq' hpresent
  refine ⟨?_, ?_⟩
  · rw [State.pstackPush, if_neg (by rw [hptr, kernelPstackBottom]; omega),
      if_pos ⟨by rw [and_fff, hptr]; omega, hun⟩, hsub]
    simp only [State.setPage, hpde, hpte]
    rw [if_neg (by rintro (hc | hc); exact hc h.present; exact h.small hc),
      entry_eq halign (by decide) hword]
    rfl
  · refine ⟨h.present, h.small, ?_, fun k hk => ?_, fun k hk hk' => ?_, fun k j hj hlt => ?_, hf⟩
    · show s.pstackPointer = _
      rw [hptr, entries, hpages']
      simp only [List.length_append, List.length_singleton]
      omega
    · rw [hpages'] at hk
      rw [setEntry_apply]
      by_cases he : k = q
      · subst he
        rw [if_pos rfl, ← hq, getD_append_last]
      · rw [if_neg (by omega), getD_append_left (by omega)]
        exact h.mapped k (by omega)
    · rw [hpages'] at hk
      unfold State.EntryPresent
      rw [setEntry_apply, if_neg (by omega)]
      exact h.unmapped k (by omega) hk'
    · simp only [List.length_append, List.length_singleton] at hlt
      rw [getD_append_left (by omega), getD_append_left (by omega)]
      exact h.words k j hj (by omega)

theorem Pstack.push_word (h : Pstack s fs) (hf : Frames (fs ++ [f])) {q j : Nat}
    (hq : fs.length = 1025 * q + 1 + j) (hj : j < 1024) :
    s.pstackPush f = some (0, { s with
        pstackPointer := slot q j
        ram := Function.update s.ram (fs.getD (1025 * q) 0 + (4092 - 4 * j)) f }) ∧
      Pstack { s with
        pstackPointer := slot q j
        ram := Function.update s.ram (fs.getD (1025 * q) 0 + (4092 - 4 * j)) f } (fs ++ [f]) := by
  have hlen := hf.length_le
  simp only [List.length_append, List.length_singleton] at hlen
  have hpages : pages fs.length = q + 1 := by
    unfold pages
    omega
  have hpages' : pages (fs ++ [f]).length = q + 1 := by
    simp only [pages, List.length_append, List.length_singleton]
    omega
  have hptr : s.pstackPointer = 0xFFC00000 - 4096 * q - 4 * j := by
    rw [h.pointer, entries, hpages]
    omega
  have hq' : q < 1024 := by omega
  have hnot : ¬ (s.pstackPointer &&& 0xFFF = 0 ∧ ¬ s.pageIsMapped (sub s.pstackPointer 1)) := by
    rintro ⟨hbound, hun⟩
    rw [and_fff, hptr] at hbound
    obtain rfl : j = 0 := by omega
    refine hun ?_
    have hsub : sub s.pstackPointer 1 = 0xFFC00000 - 4096 * q - 1 := by
      rw [hptr]
      exact sub_of_le (by omega) (by omega)
    obtain ⟨hpde, hpte⟩ := below_table hq'
    have halign := (frame_getD (i := 1025 * q) h.frames (by omega)).2.1
    refine ⟨by rw [hsub, hpde]; exact h.present, .inr ?_⟩
    rw [hsub, hpde, hpte, State.EntryPresent, h.mapped q (by omega)]
    exact entry_present halign rfl
  have hsub : sub s.pstackPointer 4 = slot q j := by
    rw [hptr, slot]
    have := sub_of_le (a := 0xFFC00000 - 4096 * q - 4 * j) (b := 4) (by omega) (by omega)
    rw [this]
    omega
  have hstore : (s.setPointer (slot q j)).translate (slot q j) =
    some (fs.getD (1025 * q) 0 + (4092 - 4 * j)) :=
    h.translate_slot (show q < pages fs.length by omega) hj
  refine ⟨?_, ?_⟩
  · rw [State.pstackPush, if_neg (by rw [hptr, kernelPstackBottom]; omega), if_neg hnot, hsub]
    simp only [State.store, State.setPointer] at hstore ⊢
    rw [hstore]
    rfl
  · refine ⟨h.present, h.small, ?_, fun k hk => ?_, fun k hk hk' => ?_, fun k i hi hlt => ?_, hf⟩
    · show slot q j = _
      rw [slot, entries, hpages']
      simp only [List.length_append, List.length_singleton]
      omega
    · rw [hpages'] at hk
      rw [getD_append_left (show 1025 * k < fs.length by omega)]
      exact h.mapped k (by omega)
    · rw [hpages', ← hpages] at hk
      exact h.unmapped k hk hk'
    · simp only [List.length_append, List.length_singleton] at hlt
      rw [getD_append_left (show 1025 * k < fs.length by omega)]
      show Function.update s.ram _ f _ = _
      by_cases he : 1025 * k + 1 + i = fs.length
      · obtain rfl : k = q := by omega
        obtain rfl : i = j := by omega
        rw [Function.update_self, he, getD_append_last]
      · rw [getD_append_left (by omega), Function.update_of_ne]
        · exact h.words k i hi (by omega)
        · -- another page is another frame, and on one page the words are apart
          intro hsame
          have h1 := (frame_getD (i := 1025 * k) h.frames (by omega)).2.1
          have h2 := (frame_getD (i := 1025 * q) h.frames (by omega)).2.1
          have hkq := getD_inj (i := 1025 * k) (j := 1025 * q) h.frames.1 (by omega)
            (by omega) (by omega)
          obtain rfl : k = q := by omega
          omega

theorem Pstack.push (h : Pstack s fs) (hf : Frames (fs ++ [f])) :
    ∃ s', s.pstackPush f = some (0, s') ∧ Pstack s' (fs ++ [f]) ∧ SameRest s s' := by
  by_cases hr : fs.length % 1025 = 0
  · obtain ⟨hres, hok⟩ := h.push_page hf (q := fs.length / 1025) (by omega)
    exact ⟨_, hres, hok, rfl, fun t ht => setEntry_other ht, rfl, rfl⟩
  · obtain ⟨hres, hok⟩ := h.push_word hf (q := fs.length / 1025) (j := fs.length % 1025 - 1)
      (by omega) (by omega)
    exact ⟨_, hres, hok, rfl, fun _ _ => rfl, rfl, rfl⟩

-- ---------------------------------------------------------------------------
-- Pop
-- ---------------------------------------------------------------------------

theorem setEntry_undo {t p v w : Nat} (h : s.entry t p = v) :
    (s.setEntry t p w).setEntry t p v = s := by
  have hrow : Function.update (Function.update (s.entry t) p w) p v = s.entry t := by
    rw [Function.update_idem, ← h, Function.update_eq_self]
  simp only [State.setEntry, Function.update_self, Function.update_idem, hrow,
    Function.update_eq_self]

/-- The last page of the stack holds nothing any more: it is given away itself. -/
theorem Pstack.pop_page (h : Pstack s (fs ++ [f])) {q : Nat} (hq : fs.length = 1025 * q) :
    s.pstackPop = some (some f, s.setEntry 1022 (1023 - q) 0) ∧
    Pstack (s.setEntry 1022 (1023 - q) 0) fs := by
  obtain ⟨halign, hword⟩ := h.frames.2 f (by simp)
  have hlen := h.frames.length_le
  simp only [List.length_append, List.length_singleton] at hlen
  have hpages : pages (fs ++ [f]).length = q + 1 := by
    simp only [pages, List.length_append, List.length_singleton]
    omega
  have hpages' : pages fs.length = q := by
    unfold pages
    omega
  have hptr : s.pstackPointer = 0xFFC00000 - 4096 * q := by
    rw [h.pointer, entries, hpages]
    simp only [List.length_append, List.length_singleton]
    omega
  have hq' : q < 1024 := by omega
  have hsub : sub s.pstackPointer 1 = 0xFFC00000 - 4096 * q - 1 := by
    rw [hptr]
    exact sub_of_le (by omega) (by omega)
  obtain ⟨hpde, hpte⟩ := below_table hq'
  have hentry : s.entry 1022 (1023 - q) = f + 3 := by
    rw [h.mapped q (by omega), ← hq, getD_append_last]
  have hmapped : s.pageIsMapped (sub s.pstackPointer 1) := by
    rw [hsub, State.pageIsMapped, hpde, hpte]
    refine ⟨h.present, .inr ?_⟩
    rw [State.EntryPresent, hentry]
    exact entry_present halign rfl
  refine ⟨?_, ?_⟩
  · have hno : ¬ (¬ s.Present 1022 ∨ s.Large 1022) := by
      rintro (hc | hc)
      · exact hc h.present
      · exact h.small hc
    rw [State.pstackPop, if_pos ⟨by rw [and_fff, hptr]; omega, hmapped⟩, hsub]
    simp only [State.setPage, State.getPage, hpde, hpte]
    rw [if_neg hno, if_neg hno, hentry, entry_frame halign (by decide) (by omega)]
    rfl
  · refine ⟨h.present, h.small, ?_, fun k hk => ?_, fun k hk hk' => ?_, fun k j hj hlt => ?_,
      h.frames.sublist (List.sublist_append_left fs [f])⟩
    · show s.pstackPointer = _
      rw [hptr, entries, hpages']
      omega
    · rw [hpages'] at hk
      rw [setEntry_apply, if_neg (by omega), h.mapped k (by omega), getD_append_left (by omega)]
    · rw [hpages'] at hk
      unfold State.EntryPresent
      rw [setEntry_apply]
      by_cases he : k = q
      · rw [if_pos (by omega)]
        simp
      · rw [if_neg (by omega)]
        exact h.unmapped k (by omega) hk'
    · have hword := h.words k j hj (by simp only [List.length_append, List.length_singleton]; omega)
      rwa [getD_append_left (by omega), getD_append_left (by omega)] at hword

theorem Pstack.pop_word (h : Pstack s (fs ++ [f])) {q j : Nat} (hq : fs.length = 1025 * q + 1 + j)
    (hj : j < 1024) :
    s.pstackPointer = slot q j ∧ s.ram (fs.getD (1025 * q) 0 + (4092 - 4 * j)) = f ∧
      s.pstackPop = some (some f, s.setPointer (slot q j + 4)) ∧
      Pstack (s.setPointer (slot q j + 4)) fs := by
  have hlen := h.frames.length_le
  simp only [List.length_append, List.length_singleton] at hlen
  have hpages : pages (fs ++ [f]).length = q + 1 := by
    simp only [pages, List.length_append, List.length_singleton]
    omega
  have hpages' : pages fs.length = q + 1 := by
    unfold pages
    omega
  have hq' : q < 1024 := by omega
  have hptr : s.pstackPointer = slot q j := by
    rw [h.pointer, entries, hpages, slot]
    simp only [List.length_append, List.length_singleton]
    omega
  have hnot : ¬ (s.pstackPointer &&& 0xFFF = 0 ∧ s.pageIsMapped (sub s.pstackPointer 1)) := by
    rintro ⟨hbound, -, hm⟩
    rw [and_fff, hptr, slot] at hbound
    obtain rfl : j = 1023 := by omega
    have hq1 : q + 1 < 1024 := by omega
    have hsub : sub s.pstackPointer 1 = 0xFFC00000 - 4096 * (q + 1) - 1 := by
      rw [hptr, slot]
      have := sub_of_le (a := 0xFFC00000 - 4096 * q - 4 * (1023 + 1)) (b := 1) (by omega) (by omega)
      rw [this]
      omega
    obtain ⟨hpde, hpte⟩ := below_table hq1
    rw [hsub, hpde, hpte] at hm
    exact hm.elim h.small (h.unmapped (q + 1) (by omega) hq1)
  have hram : s.ram (fs.getD (1025 * q) 0 + (4092 - 4 * j)) = f := by
    have hword := h.words q j hj (by simp only [List.length_append, List.length_singleton]; omega)
    rwa [getD_append_left (show 1025 * q < fs.length by omega), ← hq, getD_append_last] at hword
  have hslot := h.translate_slot (k := q) (by omega) hj
  rw [getD_append_left (show 1025 * q < fs.length by omega)] at hslot
  refine ⟨hptr, hram, ?_, ?_⟩
  · have hadd : add (slot q j) 4 = slot q j + 4 := add_of_lt (by rw [slot]; omega)
    rw [State.pstackPop, if_neg hnot, if_neg (by rw [hptr, slot, kernelPstackTop]; omega), hptr,
      State.load, hslot, hadd]
    simp only [Option.map_some, hram]
    rfl
  · refine ⟨h.present, h.small, ?_, fun k hk => ?_, fun k hk hk' => ?_, fun k i hi hlt => ?_,
      h.frames.sublist (List.sublist_append_left fs [f])⟩
    · show slot q j + 4 = _
      rw [slot, entries, hpages']
      omega
    · rw [← getD_append_left (f := f) (show 1025 * k < fs.length by omega)]
      exact h.mapped k (by omega)
    · exact h.unmapped k (by omega) hk'
    · have hword := h.words k i hi (by simp only [List.length_append, List.length_singleton]; omega)
      rwa [getD_append_left (by omega), getD_append_left (by omega)] at hword

theorem Pstack.pop (h : Pstack s (fs ++ [f])) :
    ∃ s', s.pstackPop = some (some f, s') ∧ Pstack s' fs ∧ SameRest s s' ∧
      s'.pstackPush f = some (0, s) := by
  by_cases hr : fs.length % 1025 = 0
  · have hq : fs.length = 1025 * (fs.length / 1025) := by omega
    obtain ⟨hres, hok⟩ := h.pop_page hq
    refine ⟨_, hres, hok, ⟨rfl, fun t ht => setEntry_other ht, rfl, rfl⟩, ?_⟩
    have hentry : s.entry 1022 (1023 - fs.length / 1025) = f + 3 := by
      have hlen : pages (fs ++ [f]).length = fs.length / 1025 + 1 := by
        simp only [pages, List.length_append, List.length_singleton]
        omega
      rw [h.mapped (fs.length / 1025) (by omega), ← hq, getD_append_last]
    rw [(hok.push_page h.frames hq).1, setEntry_undo hentry]
  · have hq : fs.length = 1025 * (fs.length / 1025) + 1 + (fs.length % 1025 - 1) := by omega
    obtain ⟨hptr, hram, hres, hok⟩ := h.pop_word hq (by omega)
    refine ⟨_, hres, hok, ⟨rfl, fun _ _ => rfl, rfl, rfl⟩, ?_⟩
    rw [(hok.push_word h.frames hq (by omega)).1]
    simp only [State.setPointer]
    rw [← hptr, ← hram, Function.update_eq_self]

theorem Pstack.pop_nil (h : Pstack s []) : s.pstackPop = some (none, s) := by
  have hptr : s.pstackPointer = 0xFFC00000 := h.pointer
  have hsub : sub s.pstackPointer 1 = 0xFFC00000 - 4096 * 0 - 1 := by
    rw [hptr]
    rfl
  obtain ⟨hpde, hpte⟩ := below_table (q := 0) (by decide)
  have hnot : ¬ (s.pstackPointer &&& 0xFFF = 0 ∧ s.pageIsMapped (sub s.pstackPointer 1)) := by
    rintro ⟨-, -, hm⟩
    rw [hsub, hpde, hpte] at hm
    exact hm.elim h.small (h.unmapped 0 (Nat.zero_le _) (by decide))
  rw [State.pstackPop, if_neg hnot, if_pos (by rw [hptr, kernelPstackTop])]

end ElcoOs.Paging
