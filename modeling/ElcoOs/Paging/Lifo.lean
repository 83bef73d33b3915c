import ElcoOs.Paging.Pstack

/-!
# Last in, first out

A pop after a push gives back the frame and leaves the window and what is stored
behind it as they were.
-/

namespace ElcoOs.Paging

open Word32

/-- The window has its table but no page, and the pointer is at its top. -/
structure Blank (s : State) : Prop where
  present : s.Present 1022
  small : ¬ s.Large 1022
  pointer : s.pstackPointer = kernelPstackTop
  unmapped : ∀ p < 1024, ¬ s.EntryPresent 1022 p

theorem Blank.pstack {s : State} (h : Blank s) : Pstack s [] where
  present := h.present
  small := h.small
  pointer := h.pointer
  mapped k hk := absurd hk (Nat.not_lt_zero _)
  unmapped k _ hk := h.unmapped _ (by omega)
  words k j _ hlt := absurd hlt (Nat.not_lt_zero _)
  frames := ⟨List.nodup_nil, fun f hf => absurd hf List.not_mem_nil⟩

def Fresh (fs : List Nat) (f : Nat) : Prop := f % 4096 = 0 ∧ f < 4294967296 ∧ f ∉ fs

/-- The same addresses of the stack window are mapped, and to the same places. -/
def SameWindow (s s' : State) : Prop :=
  ∀ v, kernelPstackBottom ≤ v → v < kernelPstackTop → s'.translate v = s.translate v

def SameStored (s s' : State) : Prop :=
  ∀ v, s.pstackPointer ≤ v → v < kernelPstackTop → s'.load v = s.load v

variable {s s' : State} {fs l : List Nat} {f : Nat}

theorem Fresh.frames (h : Fresh fs f) (hfs : Frames fs) : Frames (fs ++ [f]) := by
  refine ⟨?_, fun g hg => ?_⟩
  · exact List.nodup_append.mpr ⟨hfs.1, List.nodup_singleton f, fun a ha b hb he =>
      h.2.2 (List.mem_singleton.mp hb ▸ he ▸ ha)⟩
  · rcases List.mem_append.mp hg with hg | hg
    · exact hfs.2 g hg
    · exact List.mem_singleton.mp hg ▸ ⟨h.1, h.2.1⟩

theorem translate_setEntry_absent {t p v : Nat} (h : ¬ s.EntryPresent t p) (a : Nat) :
    ((s.setEntry t p v).setEntry t p 0).translate a = s.translate a := by
  have hzero : ¬ ((s.setEntry t p v).setEntry t p 0).EntryPresent t p := by
    unfold State.EntryPresent
    rw [setEntry_apply, if_pos rfl]
    simp
  simp only [State.translate]
  by_cases ht : pdeNum a = t
  · by_cases hp : pteNum a = p
    · subst ht hp
      rw [if_pos h, if_pos hzero]
      rfl
    · have he : ((s.setEntry t p v).setEntry t p 0).entry (pdeNum a) (pteNum a) =
        s.entry (pdeNum a) (pteNum a) := by
        subst ht
        rw [setEntry_apply, if_neg hp, setEntry_apply, if_neg hp]
      simp only [State.EntryPresent, he]
      rfl
  · have he : ((s.setEntry t p v).setEntry t p 0).entry (pdeNum a) = s.entry (pdeNum a) :=
      (setEntry_other ht).trans (setEntry_other ht)
    simp only [State.EntryPresent, he]
    rfl

theorem Pstack.push_pop (h : Pstack s fs) (hf : Frames (fs ++ [f])) :
    ∃ s' s'', s.pstackPush f = some (0, s') ∧ s'.pstackPop = some (some f, s'') ∧
      Pstack s' (fs ++ [f]) ∧
      s''.pstackPointer = s.pstackPointer ∧ SameWindow s s'' ∧ SameStored s s'' := by
  have hlen := hf.length_le
  simp only [List.length_append, List.length_singleton] at hlen
  by_cases hr : fs.length % 1025 = 0
  · have hq : fs.length = 1025 * (fs.length / 1025) := by omega
    obtain ⟨hpush, hok⟩ := h.push_page hf hq
    have habsent := h.unmapped (fs.length / 1025) (by unfold pages; omega) (by omega)
    have htranslate := translate_setEntry_absent (v := f + 3) habsent
    refine ⟨_, _, hpush, (hok.pop_page hq).1, hok, rfl, fun v _ _ => htranslate v, fun v _ _ => ?_⟩
    rw [State.load, htranslate]
    rfl
  · have hq : fs.length = 1025 * (fs.length / 1025) + 1 + (fs.length % 1025 - 1) := by omega
    have hj : fs.length % 1025 - 1 < 1024 := by omega
    obtain ⟨hpush, hok⟩ := h.push_word hf hq hj
    generalize fs.length / 1025 = q at hq hpush hok
    generalize fs.length % 1025 - 1 = j at hq hj hpush hok
    have hpages : pages fs.length = q + 1 := by
      unfold pages
      omega
    have hptr : slot q j + 4 = s.pstackPointer := by
      rw [h.pointer, slot, entries, hpages]
      omega
    refine ⟨_, _, hpush, (hok.pop_word hq hj).2.2.1, hok, hptr, fun v _ _ => rfl,
      fun v hv htop => ?_⟩
    -- the word that was written is below the pointer
    rw [← hptr, slot] at hv
    rw [kernelPstackTop] at htop
    have hk : 1047551 - v / 4096 < pages fs.length := by omega
    have hpage := h.translate_page hk (v := v) (by omega)
    obtain ⟨halign, -⟩ := h.page_frame hk
    obtain ⟨halign', -⟩ := h.page_frame (show q < pages fs.length by omega)
    rw [State.load, State.load, hpage]
    refine Eq.trans (congrArg (Option.map _) hpage) ?_
    simp only [Option.map_some, State.setPointer]
    rw [Function.update_of_ne]
    intro hsame
    have hkq := getD_inj (i := 1025 * (1047551 - v / 4096)) (j := 1025 * q) h.frames.1
      (by unfold pages at hk; omega) (by omega) (by omega)
    rw [hkq] at hsame
    omega

/-- The tables as `boot.S` leaves them, as far as the page stack goes. -/
def bootState : State where
  ptable t := if t = 1022 then 3 else 0
  entry _ _ := 0
  ram _ := 0
  pstackPointer := kernelPstackTop
  kernelHeapAddr := 0
  kernelHeapSize := 0

theorem bootState_blank : Blank bootState where
  present := by decide
  small := by decide
  pointer := rfl
  unmapped _ := by simp [State.EntryPresent, bootState]

end ElcoOs.Paging
