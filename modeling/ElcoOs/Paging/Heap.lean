import ElcoOs.Paging.Ledger

/-!
# The pages of the kernel heap

`heap_callback` maps pages behind the heap, or unmaps its last ones. The heap
is mapped page by page, and a page that cannot be mapped undoes the others.
-/

namespace ElcoOs.Paging

open Word32

def kernelInitialHeapSize : Nat := 8192
def kernelHeapLimit : Nat := 0xFF800000

namespace State

/-- The loop that frees the pages from `page` down to the one above `stop`, whatever the results. -/
def freeDown : Nat → State → Nat → Nat → Option State
  | 0, _, _, _ => none
  | fuel + 1, s, page, stop =>
    if page > stop then (s.memoryFreePage page).bind fun r =>
      freeDown fuel r.2 (sub page pageSize) stop
    else some s

/-- The loop that allocates the pages from `page` up to `stop`: the page that was refused, if
any. -/
def allocateUp : Nat → State → Nat → Nat → Option (Option Nat × State)
  | 0, _, _, _ => none
  | fuel + 1, s, page, stop =>
    if page ≤ stop then (s.memoryAllocatePage page false true).bind fun r =>
      if r.1 ≠ 0 then some (some page, r.2) else allocateUp fuel r.2 (add page pageSize) stop
    else some (none, s)

def heapCallback (s : State) (difference : Int) : Option (Int × State) :=
  let currentHeapEnd := add s.kernelHeapAddr s.kernelHeapSize
  let curEndPage := pageFloor (sub currentHeapEnd 1)
  if difference = 0 then some (0, s)
  else if difference < 0 then
    let amount := (-difference).toNat
    if amount > currentHeapEnd then some (-1, s)
    else if sub s.kernelHeapSize amount < kernelInitialHeapSize then some (-1, s)
    else
      let newEndPage := pageFloor (sub (sub currentHeapEnd amount) 1)
      (s.freeDown pageRounds curEndPage newEndPage).map fun s =>
        (0, { s with kernelHeapSize := sub s.kernelHeapSize amount })
  else
    let amount := difference.toNat
    if add currentHeapEnd amount ≥ kernelHeapLimit then some (-1, s)
    else if add currentHeapEnd amount < currentHeapEnd then some (-1, s)
    else
      let newEndPage := pageFloor (sub (add currentHeapEnd amount) 1)
      (s.allocateUp pageRounds (add curEndPage pageSize) newEndPage).bind fun r =>
        match r.1 with
        | some page => (r.2.freeDown pageRounds (sub page pageSize) curEndPage).map fun s => (-1, s)
        | none => some (0, { r.2 with kernelHeapSize := add r.2.kernelHeapSize amount })

end State

-- ---------------------------------------------------------------------------
-- Pages in a row
-- ---------------------------------------------------------------------------

def limitPage : Nat := 1046528

/-- The pages from `lo` on are mapped up to `hi`, each to a frame of its own, and not from there
on. -/
structure HeapPages (s : State) (fs : List Nat) (lo hi : Nat) : Prop where
  pstack : Pstack s fs
  mapped : ∀ n, lo ≤ n → n < hi → s.HasPage n
  unmapped : ∀ n, hi ≤ n → n < limitPage → ¬ s.pageIsMapped (4096 * n)
  frames : Frames (fs ++ (List.range' lo (hi - lo)).map s.frameAt)
  le : lo ≤ hi
  bound : hi ≤ limitPage

structure KeepsBelow (s s' : State) (lo : Nat) : Prop where
  addr : s'.kernelHeapAddr = s.kernelHeapAddr
  size : s'.kernelHeapSize = s.kernelHeapSize
  below : ∀ n < lo, s'.pageIsMapped (4096 * n) ↔ s.pageIsMapped (4096 * n)

variable {s s' s₁ : State} {fs : List Nat} {lo hi n m e f t : Nat}

theorem KeepsBelow.refl : KeepsBelow s s lo := ⟨rfl, rfl, fun _ _ => .rfl⟩

theorem KeepsBelow.trans {s'' : State} (h : KeepsBelow s s' lo) (h' : KeepsBelow s' s'' lo) :
    KeepsBelow s s'' lo :=
  ⟨h'.addr.trans h.addr, h'.size.trans h.size, fun n hn => (h'.below n hn).trans (h.below n hn)⟩

theorem pdeNum_mul (n : Nat) : pdeNum (4096 * n) = n / 1024 := by rw [pdeNum_page]; omega

theorem pteNum_mul (n : Nat) : pteNum (4096 * n) = n % 1024 := by rw [pteNum_page]; omega

theorem mapped_iff : s.pageIsMapped (4096 * n) ↔
    s.Present (n / 1024) ∧ (s.Large (n / 1024) ∨ s.EntryPresent (n / 1024) (n % 1024)) := by
  rw [State.pageIsMapped, pdeNum_mul, pteNum_mul]

theorem mapped_setEntry (h : n ≠ m) :
    (s.setEntry (n / 1024) (n % 1024) e).pageIsMapped (4096 * m) ↔ s.pageIsMapped (4096 * m) := by
  rw [mapped_iff, mapped_iff, State.EntryPresent, State.EntryPresent, entry_other h]
  rfl

theorem HasPage.mapped (h : s.HasPage n) : s.pageIsMapped (4096 * n) :=
  mapped_iff.mpr ⟨h.1.2, .inr h.2⟩

theorem mapped_bottom (h : n < limitPage) : 4096 * n < kernelPstackBottom := by
  rw [limitPage] at h
  rw [kernelPstackBottom]
  omega

theorem table_lt (h : n < limitPage) : n / 1024 < 1022 := by
  rw [limitPage] at h
  omega

theorem range'_snoc {k : Nat} (h : lo ≤ k) :
    List.range' lo (k + 1 - lo) = List.range' lo (k - lo) ++ [k] := by
  rw [Nat.succ_sub h, List.range'_concat, Nat.one_mul, Nat.add_sub_cancel' h]

-- ---------------------------------------------------------------------------
-- One page
-- ---------------------------------------------------------------------------

theorem HeapPages.free (h : HeapPages s fs lo (hi + 1)) (hlo : lo ≤ hi) :
    ∃ s' fs', s.memoryFreePage (4096 * hi) = some (0, s') ∧ HeapPages s' fs' lo hi ∧
      KeepsBelow s s' lo := by
  have hbound : hi < limitPage := h.bound
  have hpage := h.mapped hi hlo (Nat.lt_succ_self _)
  have hat : s.frameAt (4096 * hi / 4096) = s.frameAt hi :=
    by rw [Nat.mul_div_cancel_left _ (by decide)]
  have hframes := h.frames
  rw [range'_snoc hlo, List.map_append, List.map_singleton] at hframes
  obtain ⟨s', hres, hok, hsame⟩ := free_page h.pstack (mapped_bottom hbound)
    (by rwa [Nat.mul_div_cancel_left _ (by decide)])
    (hat ▸ hframes.sublist ((List.sublist_append_right _ _).append_left fs))
  rw [hat] at hok
  rw [pdeNum_mul, pteNum_mul] at hsame
  have hkept : ∀ n, n < limitPage → n ≠ hi →
    (s'.pageIsMapped (4096 * n) ↔ s.pageIsMapped (4096 * n)) :=
    fun n hn hne => (hsame.mapped (mapped_bottom hn)).trans (mapped_setEntry (Ne.symm hne))
  have hfree : ¬ s'.pageIsMapped (4096 * hi) := by
    rw [hsame.mapped (mapped_bottom hbound), mapped_iff]
    rintro ⟨-, hlarge | hpresent⟩
    · exact hpage.1.1 hlarge
    · refine hpresent ?_
      rw [setEntry_apply, if_pos rfl]
      rfl
  refine ⟨s', _, hres, ⟨hok, fun n hn hlt => ?_, fun n hn hlt => ?_, ?_, hlo, Nat.le_of_lt hbound⟩,
    hsame.heapAddr,
    hsame.heapSize, fun n hn => hkept n (by omega) (by omega)⟩
  · have htable := table_lt (show n < limitPage by omega)
    exact (hsame.hasPage htable).mpr
      ((hasPage_other (Nat.ne_of_gt hlt)).mpr (h.mapped n hn (by omega)))
  · by_cases hne : n = hi
    · exact hne ▸ hfree
    · rw [hkept n hlt hne]
      exact h.unmapped n (by omega) hlt
  · have hmap : (List.range' lo (hi - lo)).map s'.frameAt =
      (List.range' lo (hi - lo)).map s.frameAt := by
      refine List.map_congr_left fun n hn => ?_
      rw [List.mem_range'_1] at hn
      rw [hsame.frameAt (table_lt (by omega)), frameAt_other (by omega)]
    rw [hmap]
    refine hframes.perm ?_
    rw [List.append_assoc]
    exact List.perm_append_comm.append_left fs

theorem HeapPages.extend (h : HeapPages s fs lo hi) {fs' : List Nat} (hbound : hi < limitPage)
    (hok : Pstack s' fs')
    (hpage : s'.HasPage hi) (hat : s'.frameAt hi = f) (hperm : (fs' ++ [f]).Sublist fs)
    (hmapped : ∀ n < limitPage, n ≠ hi → (s'.pageIsMapped (4096 * n) ↔ s.pageIsMapped (4096 * n)))
    (hkept : ∀ n < hi, s.HasPage n → s'.HasPage n ∧ s'.frameAt n = s.frameAt n) :
    HeapPages s' fs' lo (hi + 1) := by
  refine ⟨hok, fun n hn hlt => ?_, fun n hn hlt => ?_, ?_, Nat.le_succ_of_le h.le, hbound⟩
  · by_cases hne : n = hi
    · exact hne ▸ hpage
    · have hlt' : n < hi := by omega
      exact (hkept n hlt' (h.mapped n hn hlt')).1
  · rw [hmapped n hlt (by omega)]
    exact h.unmapped n (by omega) hlt
  · have hmap : (List.range' lo (hi - lo)).map s'.frameAt =
      (List.range' lo (hi - lo)).map s.frameAt := by
      refine List.map_congr_left fun n hn => ?_
      rw [List.mem_range'_1] at hn
      have hlt : n < hi := by omega
      exact (hkept n hlt (h.mapped n hn.1 hlt)).2
    rw [range'_snoc h.le, List.map_append, List.map_singleton, hmap, hat]
    refine (h.frames.sublist (hperm.append_right _)).perm ?_
    rw [List.append_assoc]
    exact List.perm_append_comm.append_left fs'

theorem HeapPages.allocate (h : HeapPages s fs lo hi) (hbound : hi < limitPage) (u w : Bool) :
    ∃ r s', s.memoryAllocatePage (4096 * hi) u w = some (r, s') ∧
      (r = 1 ∧ s' = s ∨ r = 0 ∧ ∃ fs', HeapPages s' fs' lo (hi + 1) ∧ KeepsBelow s s' lo) := by
  obtain ⟨hlow, hbit⟩ := pageFlags_bounds u w
  have htable := table_lt hbound
  obtain ⟨r, s', hres, hcase⟩ := allocate_cases h.pstack u w (4096 * hi)
  rw [pdeNum_mul, pteNum_mul] at hcase
  refine ⟨r, s', hres, ?_⟩
  rcases hcase with ⟨rfl, rfl⟩ | ⟨rfl, hm, ht, fs₁, f, s₁, rfl, hok, hsame, -, rfl⟩ |
    ⟨rfl, hm, ht, fs₁, t, f, s₁, rfl, hok, hsame, rfl⟩
  · exact .inl ⟨rfl, rfl⟩
  · obtain ⟨halign, hword⟩ := h.pstack.frames.2 f (by simp)
    rw [State.ptableIsSet, pdeNum_mul] at ht
    have hmapped : ∀ n < limitPage, n ≠ hi →
        ((s₁.setEntry (hi / 1024) (hi % 1024) (f + State.pageFlags u w)).pageIsMapped (4096 * n) ↔
          s.pageIsMapped (4096 * n)) :=
      fun n hn hne => (mapped_setEntry (Ne.symm hne)).trans (hsame.mapped (mapped_bottom hn))
    refine .inr ⟨rfl, fs₁, ?_, hsame.heapAddr, hsame.heapSize, fun n hn => ?_⟩
    · refine h.extend (f := f) hbound (hok.setEntry (Nat.ne_of_lt htable) _ _) ?_ ?_
        (List.Sublist.refl _) hmapped
        fun n hn hpage => ⟨?_, ?_⟩
      · refine ⟨(hsame.hasTable _).mpr ht, ?_⟩
        rw [State.EntryPresent, setEntry_apply, if_pos rfl]
        exact entry_present halign hbit
      · rw [State.frameAt, setEntry_apply, if_pos rfl, entry_frame halign hlow (by omega)]
      · exact (hasPage_other (Nat.ne_of_gt hn)).mpr
          ((hsame.hasPage (table_lt (by omega))).mpr hpage)
      · rw [frameAt_other (Nat.ne_of_gt hn), hsame.frameAt (table_lt (by omega))]
    · have := h.le
      exact hmapped n (by omega) (by omega)
  · obtain ⟨halign, hword⟩ := h.pstack.frames.2 f (by simp)
    obtain ⟨halign', -⟩ := h.pstack.frames.2 t (by simp)
    rw [State.ptableIsSet, pdeNum_mul] at ht
    have hno : ¬ s.HasTable (hi / 1024) := ht
    have habsent : ¬ s.Present (hi / 1024) :=
      fun hp => ht ⟨fun hl => hm (mapped_iff.mpr ⟨hp, .inl hl⟩), hp⟩
    have hmapped : ∀ n < limitPage, n ≠ hi →
        (((s₁.install (hi / 1024) t).setEntry (hi / 1024) (hi % 1024)
          (f + State.pageFlags u w)).pageIsMapped (4096 * n) ↔
          s.pageIsMapped (4096 * n)) := by
      intro n hn hne
      rw [mapped_setEntry (Ne.symm hne)]
      by_cases hd : n / 1024 = hi / 1024
      · -- neither the new table nor the one missing before has the page
        refine iff_of_false ?_ fun hmap => habsent (hd ▸ (mapped_iff.mp hmap).1)
        rw [mapped_iff, hd]
        rintro ⟨-, hlarge | hpresent⟩
        · exact (install_table halign').1 hlarge
        · refine hpresent ?_
          simp [State.install]
      · obtain ⟨hp, he⟩ := install_other (s := s₁) (f := t) hd
        rw [← hsame.mapped (mapped_bottom hn), mapped_iff, mapped_iff]
        unfold State.Present State.Large State.EntryPresent
        rw [hp, he]
    refine .inr ⟨rfl, fs₁, ?_, hsame.heapAddr, hsame.heapSize, fun n hn => ?_⟩
    · refine h.extend (f :=
        f) hbound ((hok.install (Nat.ne_of_lt htable)).setEntry (Nat.ne_of_lt htable) _ _) ?_ ?_
          ?_ hmapped
        fun n hn hpage => ?_
      · refine ⟨install_table halign', ?_⟩
        rw [State.EntryPresent, setEntry_apply, if_pos rfl]
        exact entry_present halign hbit
      · rw [State.frameAt, setEntry_apply, if_pos rfl, entry_frame halign hlow (by omega)]
      · exact (List.sublist_append_left fs₁ [t]).append_right [f]
      · have hne : n / 1024 ≠ hi / 1024 := HasPage.ne_table hpage hno
        have hlt : n / 1024 < 1022 := table_lt (by omega)
        refine ⟨?_, ?_⟩
        · exact (hasPage_other (Nat.ne_of_gt hn)).mpr
            ((install_hasPage hne).mpr ((hsame.hasPage hlt).mpr hpage))
        · rw [frameAt_other (Nat.ne_of_gt hn), install_frameAt hne, hsame.frameAt hlt]
    · have := h.le
      exact hmapped n (by omega) (by omega)

-- ---------------------------------------------------------------------------
-- The loops
-- ---------------------------------------------------------------------------

theorem HeapPages.freeDown (h : HeapPages s fs lo hi) (stop fuel : Nat) (hlo : lo ≤ stop)
    (hto : stop ≤ hi) (hpos : 0 < stop) (hk : hi - stop < fuel) :
    ∃ s' fs', s.freeDown fuel (4096 * (hi - 1)) (4096 * (stop - 1)) = some s' ∧
      HeapPages s' fs' lo stop ∧
      KeepsBelow s s' lo := by
  induction fuel generalizing s fs hi with
  | zero => exact absurd hk (Nat.not_lt_zero _)
  | succ fuel ih =>
    rw [State.freeDown]
    rcases Nat.lt_or_eq_of_le hto with hlt | rfl
    · obtain ⟨k, rfl⟩ : ∃ k, hi = k + 1 := ⟨hi - 1, by omega⟩
      have hbound : k + 1 ≤ limitPage := h.bound
      rw [limitPage] at hbound
      obtain ⟨s₁, fs₁, hres₁, h₁, hkeep₁⟩ := h.free (by omega)
      obtain ⟨s', fs', hres, h', hkeep⟩ := ih h₁ (by omega) (by omega)
      have hsub : sub (4096 * (k + 1 - 1)) pageSize = 4096 * (k - 1) := by
        rw [pageSize, sub_of_le (by omega) (by omega)]
        omega
      refine ⟨s', fs', ?_, h', hkeep₁.trans hkeep⟩
      rw [if_pos (by omega), hsub, Nat.add_sub_cancel, hres₁]
      exact hres
    · exact ⟨s, fs, if_neg (by omega), h, .refl⟩

theorem HeapPages.allocateUp (h : HeapPages s fs lo hi) (stop fuel : Nat) (hto : hi ≤ stop)
    (hpos : 0 < hi) (hbound : stop ≤ limitPage) (hk : stop - hi < fuel) :
    ∃ r s' m fs', s.allocateUp fuel (4096 * hi) (4096 * (stop - 1)) = some (r, s') ∧
      HeapPages s' fs' lo m ∧
      KeepsBelow s s' lo ∧ hi ≤ m ∧ (r = none ∧ m = stop ∨ r = some (4096 * m) ∧ m < stop) := by
  induction fuel generalizing s fs hi with
  | zero => exact absurd hk (Nat.not_lt_zero _)
  | succ fuel ih =>
    rw [State.allocateUp]
    rcases Nat.lt_or_eq_of_le hto with hlt | rfl
    · rw [if_pos (by omega)]
      rw [limitPage] at hbound
      obtain ⟨r, s₁, hres₁, hcase⟩ := h.allocate (by rw [limitPage]; omega) false true
      rw [hres₁, Option.bind_some]
      rcases hcase with ⟨rfl, rfl⟩ | ⟨rfl, fs₁, h₁, hkeep₁⟩
      · exact ⟨_, _, hi, fs, if_pos Nat.one_ne_zero, h, .refl, Nat.le_refl _, .inr ⟨rfl, hlt⟩⟩
      · obtain ⟨r, s', m, fs', hres, h', hkeep, hm, hcase⟩ := ih h₁ hlt (Nat.succ_pos _) (by omega)
        have hadd : add (4096 * hi) pageSize = 4096 * (hi + 1) := by
          rw [pageSize, add_of_lt (by omega)]
          omega
        refine ⟨r, s', m, fs', ?_, h', hkeep₁.trans hkeep, by omega, hcase⟩
        rw [if_neg (not_not_intro rfl), hadd]
        exact hres
    · exact ⟨none, s, hi, fs, if_neg (by omega), h, .refl, Nat.le_refl _, .inl ⟨rfl, rfl⟩⟩

-- ---------------------------------------------------------------------------
-- heap_callback
-- ---------------------------------------------------------------------------

structure HeapState (s : State) (fs : List Nat) : Prop where
  enough : kernelInitialHeapSize ≤ s.kernelHeapSize
  below : s.kernelHeapAddr + s.kernelHeapSize < kernelHeapLimit
  pages : HeapPages s fs (s.kernelHeapAddr / 4096)
    ((s.kernelHeapAddr + s.kernelHeapSize - 1) / 4096 + 1)

/-- From the start of the heap up to the limit, just the pages of the heap are mapped. -/
def Covers (s : State) : Prop := ∀ n, s.kernelHeapAddr / 4096 ≤ n → n < limitPage →
  (s.pageIsMapped (4096 * n) ↔ 4096 * n < s.kernelHeapAddr + s.kernelHeapSize)

theorem HeapState.covers (h : HeapState s fs) : Covers s := by
  intro n hlo hlimit
  have henough := h.enough
  rw [kernelInitialHeapSize] at henough
  by_cases hlt : n < (s.kernelHeapAddr + s.kernelHeapSize - 1) / 4096 + 1
  · exact iff_of_true (HasPage.mapped (h.pages.mapped n hlo hlt)) (by omega)
  · exact iff_of_false (h.pages.unmapped n (Nat.not_lt.mp hlt) hlimit) (by omega)

theorem HeapPages.pushAll (h : HeapPages s fs lo hi) {initial : List Nat}
    (hp : s.pushAll initial = some s')
    (hf : Frames (fs ++ initial ++ (List.range' lo (hi - lo)).map s.frameAt)) :
    HeapPages s' (fs ++ initial) lo hi := by
  obtain ⟨s₁, hpush, hok, hsame⟩ := push_all h.pstack (hf.sublist (List.sublist_append_left _ _))
  obtain rfl : s' = s₁ := Option.some.inj (hp.symm.trans hpush)
  have hbound := h.bound
  have htable : ∀ n < limitPage, n / 1024 < 1022 := fun n hn => by
    rw [limitPage] at hn
    omega
  refine ⟨hok, fun n hlo hhi => ?_, fun n hhi hlimit => ?_, ?_, h.le, h.bound⟩
  · exact (hsame.hasPage (htable n (by omega))).mpr (h.mapped n hlo hhi)
  · refine mt (hsame.mapped ?_).mp (h.unmapped n hhi hlimit)
    rw [kernelPstackBottom]
    rw [limitPage] at hlimit
    omega
  · have hmap : (List.range' lo (hi - lo)).map s'.frameAt =
      (List.range' lo (hi - lo)).map s.frameAt := by
      refine List.map_congr_left fun n hn => hsame.frameAt (htable n ?_)
      have := List.mem_range'_1.mp hn
      omega
    rwa [hmap]

theorem HeapPages.heapState {k : Nat}
    (h : HeapPages s fs (s.kernelHeapAddr / 4096) ((s.kernelHeapAddr + k - 1) / 4096 + 1))
    (henough : kernelInitialHeapSize ≤ k) (hbelow : s.kernelHeapAddr + k < kernelHeapLimit) :
    HeapState { s with kernelHeapSize := k } fs :=
  ⟨henough, hbelow, ⟨h.pstack.congr rfl rfl rfl rfl, h.mapped, h.unmapped, h.frames, h.le, h.bound⟩⟩

theorem floor_below {v : Nat} (hpos : 0 < v) (hv : v < 4294967296) :
    pageFloor (sub v 1) = 4096 * ((v - 1) / 4096 + 1 - 1) := by
  rw [sub_of_le hpos hv, pageFloor, show pageSize - 1 = 4095 from rfl, and_not32_4095 (by omega),
    Nat.add_sub_cancel,
    Nat.mul_comm]

variable {d : Int}

theorem HeapState.shrink (h : HeapState s fs) (hd : d < 0) (hsize : -d ≤ s.kernelHeapSize) :
    ∃ r s' fs', s.heapCallback d = some (r, s') ∧ HeapState s' fs' ∧
      s'.kernelHeapAddr = s.kernelHeapAddr ∧
      (∀ n < s.kernelHeapAddr / 4096, s'.pageIsMapped (4096 * n) ↔ s.pageIsMapped (4096 * n)) ∧
      (r = 0 ∧ (s'.kernelHeapSize : Int) = s.kernelHeapSize + d ∨ r = -1 ∧ s' = s) := by
  obtain ⟨henough, hbelow, hpages⟩ := h
  rw [kernelInitialHeapSize] at henough
  rw [kernelHeapLimit] at hbelow
  generalize ha : (-d).toNat = amount
  have hle : amount ≤ s.kernelHeapSize := by omega
  have hcur : add s.kernelHeapAddr s.kernelHeapSize = s.kernelHeapAddr + s.kernelHeapSize :=
    add_of_lt (by omega)
  have hsub : sub s.kernelHeapSize amount = s.kernelHeapSize - amount := sub_of_le hle (by omega)
  unfold State.heapCallback
  simp only [ha, hcur, hsub]
  rw [if_neg (by omega), if_pos hd, if_neg (by omega)]
  by_cases hmin : s.kernelHeapSize - amount < kernelInitialHeapSize
  · exact ⟨-1, s, fs, if_pos hmin,
      ⟨by rwa [kernelInitialHeapSize], by rwa [kernelHeapLimit], hpages⟩, rfl, fun _ _ => .rfl,
      .inr ⟨rfl, rfl⟩⟩
  · rw [if_neg hmin]
    rw [kernelInitialHeapSize] at hmin
    have hend : sub (s.kernelHeapAddr + s.kernelHeapSize) amount =
      s.kernelHeapAddr + s.kernelHeapSize - amount :=
      sub_of_le (by omega) (by omega)
    rw [hend, floor_below (by omega) (by omega), floor_below (by omega) (by omega)]
    obtain ⟨s', fs', hres, hpages', hkeep⟩ := hpages.freeDown
      ((s.kernelHeapAddr + s.kernelHeapSize - amount - 1) / 4096 + 1) pageRounds (by omega)
        (by omega) (by omega)
      (by rw [pageRounds]; omega)
    have hsize' : sub s'.kernelHeapSize amount = s.kernelHeapSize - amount :=
      by rw [hkeep.size, hsub]
    refine ⟨0, { s' with kernelHeapSize := s.kernelHeapSize - amount }, fs',
      by rw [hres, Option.map_some, hsize'],
      HeapPages.heapState ?_ ?_ ?_, hkeep.addr, hkeep.below, .inl ⟨rfl, ?_⟩⟩
    · rw [hkeep.addr, show s.kernelHeapAddr + (s.kernelHeapSize - amount) - 1 =
        s.kernelHeapAddr + s.kernelHeapSize - amount - 1 by omega]
      exact hpages'
    · rw [kernelInitialHeapSize]
      omega
    · rw [hkeep.addr, kernelHeapLimit]
      omega
    · show ((s.kernelHeapSize - amount : Nat) : Int) = _
      omega

theorem HeapState.grow (h : HeapState s fs) (hd : 0 < d) (hd' : d < 2147483648) :
    ∃ r s' fs', s.heapCallback d = some (r, s') ∧ HeapState s' fs' ∧
      s'.kernelHeapAddr = s.kernelHeapAddr ∧
      (∀ n < s.kernelHeapAddr / 4096, s'.pageIsMapped (4096 * n) ↔ s.pageIsMapped (4096 * n)) ∧
      (r = 0 ∧ (s'.kernelHeapSize : Int) = s.kernelHeapSize + d ∨ r = -1 ∧
      s'.kernelHeapSize = s.kernelHeapSize) := by
  have h' := h
  obtain ⟨henough, hbelow, hpages⟩ := h'
  rw [kernelInitialHeapSize] at henough
  rw [kernelHeapLimit] at hbelow
  generalize ha : d.toNat = amount
  have hcur : add s.kernelHeapAddr s.kernelHeapSize = s.kernelHeapAddr + s.kernelHeapSize :=
    add_of_lt (by omega)
  have hrefused : ∀ {r : Option (Int × State)}, r = some (-1, s) → ∃ r' s' fs', r = some (r', s') ∧
    HeapState s' fs' ∧
      s'.kernelHeapAddr = s.kernelHeapAddr ∧
      (∀ n < s.kernelHeapAddr / 4096, s'.pageIsMapped (4096 * n) ↔ s.pageIsMapped (4096 * n)) ∧
      (r' = 0 ∧ (s'.kernelHeapSize : Int) = s.kernelHeapSize + d ∨ r' = -1 ∧
      s'.kernelHeapSize = s.kernelHeapSize) :=
    fun hr => ⟨-1, s, fs, hr, h, rfl, fun _ _ => .rfl, .inr ⟨rfl, rfl⟩⟩
  unfold State.heapCallback
  simp only [ha, hcur]
  rw [if_neg (by omega), if_neg (by omega)]
  by_cases hlimit : add (s.kernelHeapAddr + s.kernelHeapSize) amount ≥ kernelHeapLimit
  · exact hrefused (if_pos hlimit)
  rw [if_neg hlimit]
  by_cases hwrap : add (s.kernelHeapAddr + s.kernelHeapSize) amount <
    s.kernelHeapAddr + s.kernelHeapSize
  · exact hrefused (if_pos hwrap)
  rw [if_neg hwrap]
  -- the sum has not wrapped around
  have hend : add (s.kernelHeapAddr + s.kernelHeapSize) amount =
    s.kernelHeapAddr + s.kernelHeapSize + amount := by
    unfold add at hwrap ⊢
    omega
  rw [hend, kernelHeapLimit] at hlimit
  rw [hend, floor_below (by omega) (by omega), floor_below (by omega) (by omega)]
  have hnext : add (4096 * ((s.kernelHeapAddr + s.kernelHeapSize - 1) / 4096 + 1 - 1)) pageSize =
      4096 * ((s.kernelHeapAddr + s.kernelHeapSize - 1) / 4096 + 1) := by
    rw [pageSize, add_of_lt (by omega)]
    omega
  rw [hnext]
  obtain ⟨r, s₁, m, fs₁, hres, hpages₁, hkeep₁, hm, hcase⟩ := hpages.allocateUp
    ((s.kernelHeapAddr + s.kernelHeapSize + amount - 1) / 4096 + 1) pageRounds (by omega) (by omega)
    (by rw [limitPage]; omega) (by rw [pageRounds]; omega)
  rw [hres, Option.bind_some]
  rcases hcase with ⟨rfl, rfl⟩ | ⟨rfl, hlt⟩
  · have hsize' : add s₁.kernelHeapSize amount = s.kernelHeapSize + amount := by
      rw [hkeep₁.size]
      exact add_of_lt (by omega)
    refine ⟨0, { s₁ with kernelHeapSize := s.kernelHeapSize + amount }, fs₁, ?_,
      HeapPages.heapState ?_ ?_ ?_, hkeep₁.addr,
      hkeep₁.below, .inl ⟨rfl, ?_⟩⟩
    · simp only [hsize']
    · rwa [hkeep₁.addr, ← Nat.add_assoc]
    · rw [kernelInitialHeapSize]
      omega
    · rw [hkeep₁.addr, kernelHeapLimit]
      omega
    · show ((s.kernelHeapSize + amount : Nat) : Int) = _
      omega
  · have hsub : sub (4096 * m) pageSize = 4096 * (m - 1) := by
      rw [pageSize, sub_of_le (by omega) (by omega)]
      omega
    obtain ⟨s', fs', hres', hpages', hkeep'⟩ := hpages₁.freeDown
      ((s.kernelHeapAddr + s.kernelHeapSize - 1) / 4096 + 1) pageRounds (by omega) hm (by omega)
      (by rw [pageRounds]; omega)
    have hkeep := hkeep₁.trans hkeep'
    refine ⟨-1, s', fs', ?_, ⟨?_, ?_, ?_⟩, hkeep.addr, hkeep.below, .inr ⟨rfl, hkeep.size⟩⟩
    · simp only [hsub, hres']
      rfl
    · rw [hkeep.size, kernelInitialHeapSize]
      exact henough
    · rw [hkeep.size, hkeep.addr, kernelHeapLimit]
      exact hbelow
    · rw [hkeep.size, hkeep.addr]
      exact hpages'

theorem HeapState.answer (h : HeapState s fs) (hlo : -d ≤ s.kernelHeapSize) (hhi : d < 2147483648) :
    ∃ r s' fs', s.heapCallback d = some (r, s') ∧ HeapState s' fs' ∧
      s'.kernelHeapAddr = s.kernelHeapAddr ∧
      (r = 0 ∧ (s'.kernelHeapSize : Int) = s.kernelHeapSize + d ∨ r = -1 ∧
      s'.kernelHeapSize = s.kernelHeapSize) := by
  rcases Int.lt_trichotomy d 0 with hneg | rfl | hpos
  · obtain ⟨r, s', fs', hres, h', haddr, -, hcase⟩ := h.shrink hneg hlo
    refine ⟨r, s', fs', hres, h', haddr, hcase.imp_right fun hsame => ⟨hsame.1, ?_⟩⟩
    rw [hsame.2]
  · exact ⟨0, s, fs, rfl, h, rfl, .inl ⟨rfl, (Int.add_zero _).symm⟩⟩
  · obtain ⟨r, s', fs', hres, h', haddr, -, hcase⟩ := h.grow hpos hhi
    exact ⟨r, s', fs', hres, h', haddr, hcase⟩

theorem pageIsMapped_floor (s : State) (v : Nat) : s.pageIsMapped v ↔
    s.pageIsMapped (4096 * (v / 4096)) := by
  have hd : pdeNum v = pdeNum (4096 * (v / 4096)) := by
    rw [pdeNum_mul, pdeNum_page]
  have ht : pteNum v = pteNum (4096 * (v / 4096)) := by
    rw [pteNum_mul, pteNum_page]
  rw [State.pageIsMapped, State.pageIsMapped, hd, ht]

theorem HeapState.mapped {v : Nat} (h : HeapState s fs) (hlo : s.kernelHeapAddr ≤ v)
    (hhi : v < s.kernelHeapAddr + s.kernelHeapSize) : s.pageIsMapped v := by
  have hbelow := h.below
  rw [kernelHeapLimit] at hbelow
  rw [pageIsMapped_floor, h.covers (v / 4096) (Nat.div_le_div_right hlo) (by rw [limitPage]; omega)]
  omega

/-- The heap has changed by just the difference, and its pages are the mapped ones. -/
structure Resized (s s' : State) (d : Int) : Prop where
  size : (s'.kernelHeapSize : Int) = s.kernelHeapSize + d
  enough : kernelInitialHeapSize ≤ s'.kernelHeapSize
  below : s'.kernelHeapAddr + s'.kernelHeapSize < kernelHeapLimit
  covers : Covers s'

/-- The heap is of the same size, and the same pages are mapped. -/
structure Unchanged (s s' : State) : Prop where
  size : s'.kernelHeapSize = s.kernelHeapSize
  same : ∀ n, s.kernelHeapAddr / 4096 ≤ n → n < limitPage →
    (s'.pageIsMapped (4096 * n) ↔ s.pageIsMapped (4096 * n))

/-- The callback does it all, or nothing, and unmaps no page below the heap. -/
def AllOrNothing (s : State) (d : Int) : Prop :=
  ∃ r s', s.heapCallback d = some (r, s') ∧ (r = 0 ∧ Resized s s' d ∨ r = -1 ∧ Unchanged s s') ∧
    s'.kernelHeapAddr = s.kernelHeapAddr ∧
    ∀ n < s.kernelHeapAddr / 4096, s.pageIsMapped (4096 * n) → s'.pageIsMapped (4096 * n)

theorem HeapState.resized (h : HeapState s fs) (h' : HeapState s' fs') {r : Int}
    (haddr : s'.kernelHeapAddr = s.kernelHeapAddr)
    (hcase : r = 0 ∧ (s'.kernelHeapSize : Int) = s.kernelHeapSize + d ∨ r = -1 ∧
    s'.kernelHeapSize = s.kernelHeapSize) :
    r = 0 ∧ Resized s s' d ∨ r = -1 ∧ Unchanged s s' := by
  rcases hcase with ⟨hr, hsize⟩ | ⟨hr, hsize⟩
  · exact .inl ⟨hr, hsize, h'.enough, h'.below, h'.covers⟩
  · refine .inr ⟨hr, hsize, fun n hlo hlimit => ?_⟩
    rw [h.covers n hlo hlimit, h'.covers n (haddr ▸ hlo) hlimit, haddr, hsize]

/-- More is taken back than there is, but no more than the address of the heap's end: the check lets
it pass, and the size wraps around. -/
theorem HeapState.underflow (h : HeapState s fs) (hd : -2147483648 ≤ d)
    (hlt : (s.kernelHeapSize : Int) < -d)
    (hle : -d ≤ s.kernelHeapAddr + s.kernelHeapSize) : ¬AllOrNothing s d := by
  rintro ⟨r, s', hres, hcase, -⟩
  have henough := h.enough
  have hbelow := h.below
  rw [kernelInitialHeapSize] at henough
  rw [kernelHeapLimit] at hbelow
  have hcur : add s.kernelHeapAddr s.kernelHeapSize = s.kernelHeapAddr + s.kernelHeapSize :=
    add_of_lt (by omega)
  have hsub : sub s.kernelHeapSize (-d).toNat = s.kernelHeapSize + 4294967296 - (-d).toNat :=
    sub_of_lt (by omega) (by omega)
  unfold State.heapCallback at hres
  simp only [hcur, hsub] at hres
  rw [if_neg (by omega), if_pos (by omega), if_neg (by omega),
    if_neg (by rw [kernelInitialHeapSize]; omega)] at hres
  obtain ⟨s₁, -, hs'⟩ := Option.map_eq_some_iff.mp hres
  obtain ⟨rfl, rfl⟩ := Prod.mk.inj hs'
  rcases hcase with ⟨-, hresized⟩ | ⟨hr, -⟩
  · have := hresized.size
    omega
  · cases hr

/-- On every heap, for every difference: the callback is all or nothing if and only if it is not
asked for more than the whole heap, up to the address of its end. -/
theorem heapCallback_iff (h : HeapState s fs) (hd : -2147483648 ≤ d) (hd' : d < 2147483648) :
    AllOrNothing s d ↔
    ¬((s.kernelHeapSize : Int) < -d ∧ -d ≤ s.kernelHeapAddr + s.kernelHeapSize) := by
  constructor
  · rintro hall ⟨hlt, hle⟩
    exact h.underflow hd hlt hle hall
  · intro hno
    have hbelow := h.below
    rw [kernelHeapLimit] at hbelow
    rcases Int.lt_trichotomy d 0 with hneg | rfl | hpos
    · by_cases hle : -d ≤ s.kernelHeapSize
      · obtain ⟨r, s', fs', hres, h', haddr, hkeep, hcase⟩ := h.shrink hneg hle
        refine ⟨r, s', hres, h.resized h' haddr (hcase.imp_right fun hsame => ⟨hsame.1, ?_⟩), haddr,
          fun n hn => (hkeep n hn).mpr⟩
        rw [hsame.2]
      · -- the check of the end catches the rest
        have hcur : add s.kernelHeapAddr s.kernelHeapSize = s.kernelHeapAddr + s.kernelHeapSize :=
          add_of_lt (by omega)
        refine ⟨-1, s, ?_, .inr ⟨rfl, rfl, fun _ _ _ => .rfl⟩, rfl, fun _ _ => id⟩
        unfold State.heapCallback
        simp only [hcur]
        rw [if_neg (by omega), if_pos hneg, if_pos (by omega)]
    · exact ⟨0, s, rfl, .inl ⟨rfl, (Int.add_zero _).symm, h.enough, h.below, h.covers⟩,
        rfl, fun _ _ => id⟩
    · obtain ⟨r, s', fs', hres, h', haddr, hkeep, hcase⟩ := h.grow hpos hd'
      exact ⟨r, s', hres, h.resized h' haddr hcase, haddr, fun n hn => (hkeep n hn).mpr⟩

def smallHeap : State :=
  { bootState with
    ptable := fun t => if t = 1022 then 3 else if t = 0 then 0x1003 else 0
    entry := fun t p => if t = 0 ∧ p = 1 then 0x2003 else if t = 0 ∧ p = 2 then 0x3003 else 0
    kernelHeapAddr := 4096
    kernelHeapSize := 8192 }

theorem smallHeap_state : HeapState smallHeap [] := by
  have hblank : Blank smallHeap :=
    ⟨by decide, by decide, rfl, fun p _ => by simp [State.EntryPresent, smallHeap]⟩
  refine ⟨by decide, by decide, hblank.pstack, fun n hlo hhi => ?_, fun n hlo hhi => ?_, ?_, by
    decide, by decide⟩
  · have hn : n = 1 ∨ n = 2 := by
      simp only [smallHeap] at hlo hhi
      omega
    rcases hn with rfl | rfl <;> exact ⟨⟨by decide, by decide⟩, by decide⟩
  · have hn : 3 ≤ n := hlo
    rw [limitPage] at hhi
    rw [mapped_iff]
    by_cases htable : n / 1024 = 0
    · rintro ⟨-, hlarge | hpresent⟩
      · rw [htable] at hlarge
        exact absurd hlarge (by decide)
      · refine hpresent ?_
        have hentry : smallHeap.entry (n / 1024) (n % 1024) = 0 := by
          simp only [smallHeap]
          rw [if_neg (by omega), if_neg (by omega)]
        rw [hentry]
        rfl
    · rintro ⟨hpresent, -⟩
      refine hpresent ?_
      have hpde : smallHeap.ptable (n / 1024) = 0 := by
        simp only [smallHeap]
        rw [if_neg (by omega), if_neg htable]
      rw [hpde]
      rfl
  · have hframes : (List.range' 1 2).map smallHeap.frameAt = [0x2000, 0x3000] := by decide
    show Frames ([] ++ (List.range' 1 2).map smallHeap.frameAt)
    rw [hframes]
    refine ⟨by decide, fun f hf => ?_⟩
    simp only [List.nil_append, List.mem_cons, List.not_mem_nil, or_false] at hf
    rcases hf with rfl | rfl <;> decide

def suppliedHeap : State := (smallHeap.pushAll [0x5000, 0x6000, 0x7000, 0x8000]).getD smallHeap

theorem suppliedHeap_state : HeapState suppliedHeap [0x5000, 0x6000, 0x7000, 0x8000] := by
  have hf :
    Frames ([] ++ [0x5000, 0x6000, 0x7000, 0x8000] ++ (List.range' 1 2).map smallHeap.frameAt) := by
    rw [show (List.range' 1 2).map smallHeap.frameAt = [0x2000, 0x3000] by decide]
    refine ⟨by decide, fun f hfs => ?_⟩
    simp only [List.nil_append, List.cons_append, List.mem_cons, List.not_mem_nil, or_false] at hfs
    rcases hfs with rfl | rfl | rfl | rfl | rfl | rfl <;> decide
  obtain ⟨s, hpush, -, hsame⟩ :=
    push_all smallHeap_state.pages.pstack (hf.sublist (List.sublist_append_left _ _))
  have hs : suppliedHeap = s := by rw [suppliedHeap, hpush, Option.getD_some]
  have hpages := smallHeap_state.pages.pushAll hpush hf
  rw [hs]
  have haddr : s.kernelHeapAddr = 4096 := hsame.heapAddr
  have hsize : s.kernelHeapSize = 8192 := hsame.heapSize
  refine ⟨by rw [hsize]; decide, by rw [haddr, hsize]; decide, ?_⟩
  rw [haddr, hsize]
  exact hpages

/-- Of this heap, 10000 bytes are given back. -/
theorem heapCallback_not : ¬∀ s fs d, HeapState s fs → -2147483648 ≤ d → d < 2147483648 →
    AllOrNothing s d := by
  intro hall
  exact smallHeap_state.underflow (d := -10000) (by decide) (by decide) (by decide)
    (hall _ _ (-10000) smallHeap_state (by decide) (by decide))

theorem heapCallback_iff_smallHeap :
    AllOrNothing smallHeap 4096 ↔ ¬((smallHeap.kernelHeapSize : Int) < -4096 ∧
      -4096 ≤ (smallHeap.kernelHeapAddr : Int) + smallHeap.kernelHeapSize) :=
  heapCallback_iff smallHeap_state (by decide) (by decide)

end ElcoOs.Paging
