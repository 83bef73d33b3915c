import ElcoOs.Mmap.Mmap
import ElcoOs.Paging.Ledger

/-!
# The free frames at boot

The first loop of `memory_init` hands the pages of the free regions of
`kinfo.mmap` to the page stack. The start of a region is rounded up, and that
wraps around in the last page of the address space.
-/

namespace ElcoOs.Paging

open Word32 Mmap

/-- The pages from `frame` up to `stop`, if the loop over them ends within so many rounds. -/
def pageLoop : Nat → Nat → Nat → Option (List Nat)
  | 0, _, _ => none
  | fuel + 1, frame, stop =>
    if frame < stop then (pageLoop fuel (add frame pageSize) stop).map (frame :: ·) else some []

def regionFrames (r : MemEntry) : Option (List Nat) :=
  if r.type ≠ mmapTypeFree then some []
  else pageLoop pageRounds (pageAlign r.address) (pageFloor (add r.address r.size))

/-- The frames that `memory_init` passes to `pstack_push`, in this order. -/
def bootFrames : List MemEntry → Option (List Nat)
  | [] => some []
  | r :: rs => (regionFrames r).bind fun frames => (bootFrames rs).map (frames ++ ·)

def State.pushFree (s : State) (k : Kinfo) : Option State := (bootFrames k.regions).bind s.pushAll

/-- In order and apart from each other, and no end beyond the last address. -/
structure Sorted (regions : List MemEntry) : Prop where
  ordered : regions.Pairwise fun a b => a.address + a.size ≤ b.address
  bounded : ∀ r ∈ regions, r.address + r.size ≤ 0xFFFFFFFF

def Within (f : Nat) (r : MemEntry) : Prop := r.address ≤ f ∧ f + 4096 ≤ r.address + r.size

/-- Just the pages of the free regions are handed out, each once, and none of another region. -/
structure HandsOut (regions : List MemEntry) (frames : List Nat) : Prop where
  nodup : frames.Nodup
  mem : ∀ f, f ∈ frames ↔ f % 4096 = 0 ∧ ∃ r ∈ regions, r.type = mmapTypeFree ∧ Within f r
  apart : ∀ f ∈ frames, ∀ r ∈ regions, r.type ≠ mmapTypeFree → f + 4096 ≤ r.address ∨
    r.address + r.size ≤ f

def Apart (a b : MemEntry) : Prop := a.address + a.size ≤ b.address ∨ b.address + b.size ≤ a.address

instance : Std.Symm Apart := ⟨fun _ _ => Or.symm⟩

variable {regions rs : List MemEntry} {r : MemEntry} {frames : List Nat} {f frame stop fuel v : Nat}

-- ---------------------------------------------------------------------------
-- One region
-- ---------------------------------------------------------------------------

theorem pageFloor_eq (h : v < 4294967296) : pageFloor v = v / 4096 * 4096 := and_not32_4095 h

theorem pageAlign_eq (h : v ≤ 0xFFFFF000) : pageAlign v = (v + 4095) / 4096 * 4096 := by
  rw [pageAlign, show pageSize - 1 = 4095 from rfl, add_of_lt (by omega), and_not32_4095 (by omega)]

/-- Behind the start of the last page, rounding up wraps around. -/
theorem pageAlign_wraps (h : 0xFFFFF000 < v) (hv : v < 4294967296) : pageAlign v = 0 := by
  rw [pageAlign, show pageSize - 1 = 4095 from rfl, and_not32_4095 add_lt, add]
  omega

def stretch (start stop : Nat) : List Nat := (List.range ((stop - start) / 4096)).map fun i =>
    start + 4096 * i

theorem pageLoop_eq (hs : stop < 4294967296) (hframe : frame % 4096 = 0) (hstop : stop % 4096 = 0)
    (hk : (stop - frame) / 4096 < fuel) : pageLoop fuel frame stop = some (stretch frame stop) := by
  induction fuel generalizing frame with
  | zero => exact absurd hk (Nat.not_lt_zero _)
  | succ fuel ih =>
    rw [pageLoop]
    by_cases hlt : frame < stop
    · have hnext : add frame pageSize = frame + 4096 := add_of_lt (by rw [pageSize]; omega)
      have hcount : (stop - frame) / 4096 = (stop - (frame + 4096)) / 4096 + 1 := by omega
      rw [if_pos hlt, hnext, ih (by omega) (by omega), Option.map_some, stretch, stretch, hcount,
        List.range_succ_eq_map,
        List.map_cons, List.map_map]
      refine congrArg (some ∘ List.cons frame) (List.map_congr_left fun i _ => ?_)
      simp only [Function.comp]
      omega
    · rw [if_neg hlt, stretch, show (stop - frame) / 4096 = 0 by omega]
      rfl

theorem mem_stretch {start : Nat} (hstart : start % 4096 = 0) (hstop : stop % 4096 = 0) :
    f ∈ stretch start stop ↔ f % 4096 = 0 ∧ start ≤ f ∧ f < stop := by
  simp only [stretch, List.mem_map, List.mem_range]
  constructor
  · rintro ⟨i, hi, rfl⟩
    omega
  · rintro ⟨hf, hle, hlt⟩
    exact ⟨(f - start) / 4096, by omega, by omega⟩

theorem nodup_stretch (start stop : Nat) : (stretch start stop).Nodup :=
  List.nodup_range.map_on fun a _ b _ he => by omega

def pushed (r : MemEntry) : List Nat :=
  if r.type = mmapTypeFree then
    stretch (pageAlign r.address) ((r.address + r.size) / 4096 * 4096) else []

theorem pageAlign_aligned (v : Nat) : pageAlign v % 4096 = 0 := by
  rw [pageAlign, show pageSize - 1 = 4095 from rfl, and_not32_4095 add_lt]
  omega

theorem regionFrames_eq (h : r.address + r.size ≤ 0xFFFFFFFF) :
    regionFrames r = some (pushed r) := by
  unfold regionFrames pushed
  by_cases htype : r.type = mmapTypeFree
  · rw [if_neg (not_not_intro htype), if_pos htype, add_of_lt (by omega), pageFloor_eq (by omega)]
    refine pageLoop_eq (by omega) (pageAlign_aligned _) (by omega) ?_
    rw [pageRounds]
    omega
  · rw [if_pos htype, if_neg htype]

theorem nodup_pushed (r : MemEntry) : (pushed r).Nodup := by
  unfold pushed
  split
  · exact nodup_stretch ..
  · exact List.nodup_nil

theorem mem_pushed : f ∈ pushed r ↔
    r.type = mmapTypeFree ∧ f % 4096 = 0 ∧ pageAlign r.address ≤ f ∧
    f < (r.address + r.size) / 4096 * 4096 := by
  unfold pushed
  split
  · rw [mem_stretch (pageAlign_aligned _) (by omega)]
    simp only [‹r.type = mmapTypeFree›, true_and]
  · simp [‹¬r.type = mmapTypeFree›]

/-- Where rounding up does not wrap around, these are the whole pages. -/
theorem mem_pushed_within (h : r.address ≤ 0xFFFFF000) :
    f ∈ pushed r ↔ f % 4096 = 0 ∧ r.type = mmapTypeFree ∧ Within f r := by
  rw [mem_pushed, pageAlign_eq h, Within]
  constructor
  · rintro ⟨htype, hf, hle, hlt⟩
    exact ⟨hf, htype, by omega, by omega⟩
  · rintro ⟨hf, htype, hle, hlt⟩
    exact ⟨htype, hf, by omega, by omega⟩

-- ---------------------------------------------------------------------------
-- All regions
-- ---------------------------------------------------------------------------

theorem bootFrames_eq (h : ∀ r ∈ regions, r.address + r.size ≤ 0xFFFFFFFF) :
    bootFrames regions = some (regions.flatMap pushed) := by
  induction regions with
  | nil => rfl
  | cons r rs ih =>
    rw [bootFrames, regionFrames_eq (h r List.mem_cons_self), Option.bind_some,
      ih fun r hr => h r (List.mem_cons_of_mem _ hr)]
    rfl

theorem Sorted.exact (h : Sorted regions)
    (hwrap : ∀ r ∈ regions, r.type = mmapTypeFree → r.address ≤ 0xFFFFF000) :
    HandsOut regions (regions.flatMap pushed) := by
  have hmem : ∀ r ∈ regions, ∀ f, f ∈ pushed r ↔ f % 4096 = 0 ∧
    r.type = mmapTypeFree ∧ Within f r := by
    intro r hr f
    by_cases htype : r.type = mmapTypeFree
    · exact mem_pushed_within (hwrap r hr htype)
    · exact iff_of_false (fun hf => htype (mem_pushed.mp hf).1) fun hf => htype hf.2.1
  have hall : ∀ f, f ∈ regions.flatMap pushed ↔ f % 4096 = 0 ∧ ∃ r ∈ regions,
    r.type = mmapTypeFree ∧ Within f r := by
    intro f
    rw [List.mem_flatMap]
    constructor
    · rintro ⟨r, hr, hf⟩
      obtain ⟨halign, htype, hin⟩ := (hmem r hr f).mp hf
      exact ⟨halign, r, hr, htype, hin⟩
    · rintro ⟨halign, r, hr, htype, hin⟩
      exact ⟨r, hr, (hmem r hr f).mpr ⟨halign, htype, hin⟩⟩
  refine ⟨List.nodup_flatMap.mpr ⟨fun r _ => nodup_pushed r, ?_⟩, hall, fun f hf r hr htype => ?_⟩
  · refine h.ordered.imp_of_mem fun {a b} ha hb hab => ?_
    refine List.disjoint_left.mpr fun f hfa hfb => ?_
    have h₁ := ((hmem a ha f).mp hfa).2.2
    have h₂ := ((hmem b hb f).mp hfb).2.2
    unfold Within at h₁ h₂
    omega
  · obtain ⟨-, r', hr', htype', hin⟩ := (hall f).mp hf
    -- the region of the frame is another one, so it comes before or after
    have hne : r' ≠ r := fun he => htype (he ▸ htype')
    unfold Within at hin
    have hapart : regions.Pairwise Apart := h.ordered.imp fun {a b} hab => .inl hab
    rcases hapart.forall hr' hr hne with hlt | hlt
    · exact .inl (by omega)
    · exact .inr (by omega)

/-- A free region in the last page makes the loop start at 0: what it hands out
last is another region's page, or nobody's. -/
theorem not_handsOut (h : Sorted regions) (hr : r ∈ regions) (htype : r.type = mmapTypeFree)
    (hwrap : 0xFFFFF000 < r.address) :
    ¬HandsOut regions (regions.flatMap pushed) := by
  intro hout
  have hend := h.bounded r hr
  have hlast : 0xFFFFE000 ∈ pushed r := by
    refine mem_pushed.mpr ⟨htype, rfl, ?_, by omega⟩
    rw [pageAlign_wraps hwrap (by omega)]
    exact Nat.zero_le _
  obtain ⟨-, r', hr', htype', hin⟩ := (hout.mem _).mp (List.mem_flatMap.mpr ⟨r, hr, hlast⟩)
  have hlast' : 0xFFFFE000 ∈ pushed r' :=
    (mem_pushed_within (by unfold Within at hin; omega)).mpr ⟨rfl, htype', hin⟩
  have hne : r ≠ r' := by
    rintro rfl
    unfold Within at hin
    omega
  have hdisjoint : regions.Pairwise fun a b =>
    ¬(0xFFFFE000 ∈ pushed a ∧ 0xFFFFE000 ∈ pushed b) := by
    refine (List.nodup_flatMap.mp hout.nodup).2.imp fun {a b} hab => ?_
    rintro ⟨ha, hb⟩
    exact List.disjoint_left.mp hab ha hb
  have : Std.Symm fun a b => ¬(0xFFFFE000 ∈ pushed a ∧ 0xFFFFE000 ∈ pushed b) :=
    ⟨fun _ _ hab hmem => hab hmem.symm⟩
  exact hdisjoint.forall hr hr' hne ⟨hlast, hlast'⟩

theorem HandsOut.isFrames (h : HandsOut regions frames) (hs : Sorted regions) : Frames frames := by
  refine ⟨h.nodup, fun f hf => ?_⟩
  obtain ⟨halign, r, hr, -, hin⟩ := (h.mem f).mp hf
  have hend := hs.bounded r hr
  unfold Within at hin
  exact ⟨halign, by omega⟩

theorem pushFree_begun {s₀ : State} {k : Kinfo} (hs : Blank s₀) (hk : Sorted k.regions)
    (hwrap : ∀ r ∈ k.regions, r.type = mmapTypeFree → r.address ≤ 0xFFFFF000) :
    ∃ s frames, s₀.pushFree k = some s ∧ Frames frames ∧ HandsOut k.regions frames ∧
      Begun s₀ frames ⟨s, [], []⟩ := by
  have hout := hk.exact hwrap
  have hframes := hout.isFrames hk
  obtain ⟨s, hpush, -⟩ := push_all hs.pstack (by rwa [List.nil_append])
  refine ⟨s, _, ?_, hframes, hout, hpush, rfl, rfl⟩
  rw [State.pushFree, bootFrames_eq hk.bounded]
  exact hpush

/-- For every sorted map the loop ends, and hands out just the free pages if and only if no free
region starts behind the start of the last page. -/
theorem bootFrames_iff (h : Sorted regions) :
    (∃ frames, bootFrames regions = some frames ∧ HandsOut regions frames) ↔
      ∀ r ∈ regions, r.type = mmapTypeFree → r.address ≤ 0xFFFFF000 := by
  rw [bootFrames_eq h.bounded]
  constructor
  · rintro ⟨frames, heq, hout⟩ r hr htype
    obtain rfl := Option.some.inj heq
    by_contra hwrap
    exact not_handsOut h hr htype (Nat.lt_of_not_le hwrap) hout
  · intro hwrap
    exact ⟨_, rfl, h.exact hwrap⟩

theorem sorted_single (h : r.address + r.size ≤ 0xFFFFFFFF) : Sorted [r] :=
  ⟨List.pairwise_singleton _ _, fun _ hr => List.mem_singleton.mp hr ▸ h⟩

/-- A free half page before the last address. -/
theorem bootFrames_not : ¬∀ regions, Sorted regions → ∃ frames, bootFrames regions = some frames ∧
    HandsOut regions frames := by
  intro hall
  have hsorted : Sorted [⟨0xFFFFF800, 0x7FF, mmapTypeFree⟩] := sorted_single (by decide)
  obtain ⟨frames, hres, hout⟩ := hall _ hsorted
  rw [bootFrames_eq hsorted.bounded] at hres
  obtain rfl := Option.some.inj hres
  exact not_handsOut hsorted (List.mem_singleton_self _) rfl (by decide) hout

theorem bootFrames_iff_page : (∃ frames, bootFrames [⟨0x1800, 0x2000, mmapTypeFree⟩] = some frames ∧
      HandsOut [⟨0x1800, 0x2000, mmapTypeFree⟩] frames) ↔
    ∀ r ∈ [(⟨0x1800, 0x2000, mmapTypeFree⟩ : MemEntry)], r.type = mmapTypeFree →
      r.address ≤ 0xFFFFF000 :=
  bootFrames_iff (sorted_single (by decide))

end ElcoOs.Paging
