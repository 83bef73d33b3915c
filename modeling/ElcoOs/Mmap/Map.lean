import ElcoOs.Mmap.Sweep

/-!
# The computed map

`get_mmap` returns the picture of `typeAt`, as far as it ends. Without empty
entries that is the pointwise highest type; an empty entry counts as open from
its address on, and the map stays the same exactly when that does not show.
-/

namespace ElcoOs.Mmap

open Word32 Regions

-- ---------------------------------------------------------------------------
-- The entries in use
-- ---------------------------------------------------------------------------

/-- The entries below 4 GiB, the first of all at position `ptr`. -/
def bootItems (ptr : Nat) : List MultibootMmapEntry → List Item
  | [] => []
  | e :: es => (if e.addrHigh = 0 then [⟨ptr, e, e.stop⟩] else []) ++ bootItems (ptr + 1) es

def items (k : Kinfo) (bootinfo : MultibootInfo) : List Item :=
  bootItems 0 bootinfo.mmap ++ [⟨bootinfo.mmap.length, k.dummy, k.kernelEndPhys⟩]

/-- What `get_mmap` is given: 32-bit addresses, a kernel range that is not
empty, and no more entries below 4 GiB than the code accepts. -/
structure Given (k : Kinfo) (bootinfo : MultibootInfo) : Prop where
  flags : bootinfo.flags &&& multibootInfoMemMap ≠ 0
  words : ∀ e ∈ bootinfo.mmap, e.addrLow < 4294967296
  kernel : k.kernelStartPhys < k.kernelEndPhys
  kernelWord : k.kernelEndPhys < 4294967296
  count : bootinfo.mmap.countP (fun e => e.addrHigh = 0) ≤ 64

variable {k : Kinfo} {bootinfo : MultibootInfo} {es : List MultibootMmapEntry}
  {e : MultibootMmapEntry} {i : Item} {p t : Nat}

theorem mem_bootItems {ptr : Nat} (h : i ∈ bootItems ptr es) :
    i.entry ∈ es ∧ i.entry.addrHigh = 0 ∧ i.stop = i.entry.stop ∧ ptr ≤ i.ptr ∧
    i.ptr < ptr + es.length := by
  induction es generalizing ptr with
  | nil => cases h
  | cons e es ih =>
    rcases List.mem_append.mp h with h | h
    · split at h
      · rename_i he
        obtain rfl := List.mem_singleton.mp h
        exact ⟨List.mem_cons_self, he, rfl, Nat.le_refl _, by simp⟩
      · cases h
    · obtain ⟨h1, h2, h3, h4, h5⟩ := ih h
      exact ⟨List.mem_cons_of_mem _ h1, h2, h3, by omega, by simp only [List.length_cons]; omega⟩

theorem exists_bootItem (ptr : Nat) (he : e ∈ es) (h0 : e.addrHigh = 0) :
    ∃ i ∈ bootItems ptr es, i.entry = e ∧ i.stop = e.stop := by
  induction es generalizing ptr with
  | nil => cases he
  | cons x es ih =>
    rcases List.mem_cons.mp he with rfl | he
    · exact ⟨⟨ptr, e, e.stop⟩, List.mem_append_left _ (by simp [h0]), rfl, rfl⟩
    · obtain ⟨i, hi, hres⟩ := ih (ptr + 1) he
      exact ⟨i, List.mem_append_right _ hi, hres⟩

theorem bootItems_nodup (ptr : Nat) : ((bootItems ptr es).map Item.ptr).Nodup := by
  induction es generalizing ptr with
  | nil => exact List.nodup_nil
  | cons e es ih =>
    rw [bootItems, List.map_append, List.nodup_append]
    refine ⟨?_, ih (ptr + 1), fun a ha b hb he => ?_⟩
    · split <;> simp
    · obtain ⟨i, hi, rfl⟩ := List.mem_map.mp hb
      have := (mem_bootItems hi).2.2.2.1
      split at ha
      · simp only [List.map_cons, List.map_nil, List.mem_singleton] at ha
        omega
      · simp at ha

theorem bootItems_length (ptr : Nat) : (bootItems ptr es).length = es.countP fun e =>
    e.addrHigh = 0 := by
  induction es generalizing ptr with
  | nil => rfl
  | cons e es ih =>
    rw [bootItems, List.length_append, ih, List.countP_cons]
    by_cases he : e.addrHigh = 0 <;> simp [he, Nat.add_comm]

theorem flatMap_changes_length (is : List Item) : (is.flatMap Item.changes).length =
    2 * is.length := by
  induction is with
  | nil => rfl
  | cons i is ih =>
    rw [List.flatMap_cons, List.length_append, ih, List.length_cons]
    simp only [Item.changes, List.length_cons, List.length_nil]
    omega

theorem collect_eq {acc : List ChangePoint} {ptr : Nat}
    (h : acc.length + 2 * (es.countP fun e => e.addrHigh = 0) ≤ maxBootMmapSize) :
    collect acc ptr es = some (acc ++ (bootItems ptr es).flatMap Item.changes) := by
  induction es generalizing acc ptr with
  | nil => simp [collect, bootItems]
  | cons e es ih =>
    rw [List.countP_cons] at h
    rw [collect, bootItems]
    by_cases he : e.addrHigh = 0
    · simp only [he, decide_true, if_true] at h ⊢
      rw [if_neg (by simp only [List.length_append, List.length_cons, List.length_nil]; omega),
        ih (by simp only [List.length_append, List.length_cons, List.length_nil]; omega)]
      simp [Item.changes, Item.first, Item.last]
    · simp only [he, decide_false, Bool.false_eq_true, if_false] at h ⊢
      rw [if_neg (by omega), ih (by omega)]
      simp

theorem stop_le (e : MultibootMmapEntry) (h : e.addrLow < 4294967296) :
    e.addrLow ≤ e.stop ∧ e.stop < 4294967296 := by
  unfold MultibootMmapEntry.stop
  split
  · exact ⟨Nat.le_of_lt_succ h, by decide⟩
  · rename_i hno
    exact ⟨Nat.le_of_not_lt fun hlt => hno (.inr hlt), add_lt⟩

theorem Given.item (h : Given k bootinfo) (hi : i ∈ items k bootinfo) :
    i.entry.addrLow ≤ i.stop ∧ i.stop < 4294967296 := by
  rcases List.mem_append.mp hi with hi | hi
  · obtain ⟨hmem, -, hstop, -, -⟩ := mem_bootItems hi
    rw [hstop]
    exact stop_le _ (h.words _ hmem)
  · obtain rfl := List.mem_singleton.mp hi
    exact ⟨Nat.le_of_lt h.kernel, h.kernelWord⟩

theorem items_nodup : ((items k bootinfo).map Item.ptr).Nodup := by
  rw [items, List.map_append, List.nodup_append]
  refine ⟨bootItems_nodup 0, by simp, fun a ha b hb he => ?_⟩
  obtain ⟨i, hi, rfl⟩ := List.mem_map.mp ha
  have := (mem_bootItems hi).2.2.2.2
  simp only [List.map_cons, List.map_nil, List.mem_singleton] at hb
  omega

-- ---------------------------------------------------------------------------
-- What get_mmap returns
-- ---------------------------------------------------------------------------

theorem misplaced_asymm (a b : ChangePoint) (h : misplaced a b = true) : misplaced b a = false := by
  refine Bool.eq_false_iff.mpr fun h' => ?_
  rcases misplaced_iff.mp h with h1 | ⟨h1, h2, h3⟩ <;> rcases misplaced_iff.mp h' with
    h4 | ⟨h4, h5, h6⟩
  · omega
  · omega
  · omega
  · rw [h2] at h6
    cases h6

theorem misplaced_trans (a b c : ChangePoint) (h : misplaced b a = false)
    (h' : misplaced c b = false) :
    misplaced c a = false := by
  obtain ⟨h1, h2⟩ := not_misplaced h
  obtain ⟨h3, h4⟩ := not_misplaced h'
  refine Bool.eq_false_iff.mpr fun hm => ?_
  rcases misplaced_iff.mp hm with hlt | ⟨heq, hc, ha⟩
  · omega
  · have hb := h4 (by omega) hc
    rw [h2 (by omega) hb] at ha
    cases ha

theorem Given.spec (h : Given k bootinfo) :
    ∃ k', getMmap k bootinfo = some k' ∧
      Depicts (k'.regions.map MemEntry.region) (shown (typeAt (items k bootinfo))) := by
  have hcollect :
    collect [] 0 bootinfo.mmap = some ([] ++ (bootItems 0 bootinfo.mmap).flatMap Item.changes) :=
    collect_eq (by have := h.count; simp only [List.length_nil, maxBootMmapSize]; omega)
  have hchanges : (items k bootinfo).flatMap Item.changes =
    (bootItems 0 bootinfo.mmap).flatMap Item.changes ++
      [⟨k.kernelStartPhys, bootinfo.mmap.length, k.dummy⟩,
      ⟨k.kernelEndPhys, bootinfo.mmap.length, k.dummy⟩] := by
    simp [items, Item.changes, Item.first, Item.last, Kinfo.dummy]
  obtain ⟨cs, hsort, hperm, hsorted⟩ := Bubble.sort_spec misplaced_asymm misplaced_trans
    (Nat.lt_succ_of_le (Bubble.inversions_le ((items k bootinfo).flatMap Item.changes)))
  have hs : Sorted (items k bootinfo) ([] ++ cs) :=
    ⟨items_nodup, fun i hi => (h.item hi).1, hperm, hsorted⟩
  have hword : ∀ c ∈ cs, c.addr < 4294967296 := by
    intro c hc
    obtain ⟨i, hi, hci⟩ := List.mem_flatMap.mp (hperm.mem_iff.mp hc)
    have hle := h.item hi
    simp only [Item.changes, List.mem_cons, List.not_mem_nil, or_false] at hci
    rcases hci with rfl | rfl
    · exact Nat.lt_of_le_of_lt hle.1 hle.2
    · exact hle.2
  have hlen : cs.length ≤ maxMmapSize := by
    rw [hperm.length_eq, flatMap_changes_length, items, List.length_append, bootItems_length]
    have := h.count
    simp only [List.length_singleton, maxMmapSize, maxBootMmapSize]
    omega
  obtain ⟨s, d, hsweep, hw, hdepicts⟩ := sweep_spec (s := ⟨[], k.mmap, 0, 0, 0⟩) (d := ⟨[], 0, 0⟩)
    (b := 0) hs Open.nil
    ⟨rfl, rfl, rfl, fun hc => absurd rfl hc⟩ rfl (fun c hc => absurd hc List.not_mem_nil)
      (fun c _ => Nat.zero_le _)
    Drawn.start (Nat.le_refl _) hlen hword
  refine ⟨{ k with mmap := s.mmap, mmapSize := s.mmapId }, ?_, ?_⟩
  · rw [hchanges] at hsort
    simp only [getMmap, guard, if_pos h.flags, hcollect, List.nil_append, hsort, hsweep, bind,
      Option.bind, pure]
  · rw [Kinfo.regions, List.map_map]
    exact hw.closed ▸ hdepicts

-- ---------------------------------------------------------------------------
-- The pointwise map
-- ---------------------------------------------------------------------------

/-- The highest type among the entries, and the kernel range, that hold an address. -/
def highestType (k : Kinfo) (bootinfo : MultibootInfo) (a : Nat) : Nat :=
  (((bootinfo.mmap.filter fun e => e.addrHigh = 0 ∧ e.addrLow ≤ a ∧
  a < e.stop).map MultibootMmapEntry.type) ++
    if k.kernelStartPhys ≤ a ∧ a < k.kernelEndPhys then [mmapTypeKernel] else []).foldr max 0

def MemEntry.Contains (r : MemEntry) (a : Nat) : Prop := r.address ≤ a ∧ a < r.address + r.size

instance (r : MemEntry) (a : Nat) : Decidable (r.Contains a) := inferInstanceAs (Decidable (_ ∧ _))

theorem typeAt_items_le :
    typeAt (items k bootinfo) p ≤ t ↔
      (∀ e ∈ bootinfo.mmap, e.addrHigh = 0 → e.addrLow ≤ p → p < e.stop ∨
      e.stop = e.addrLow → e.type ≤ t) ∧
        (k.kernelStartPhys ≤ p → p < k.kernelEndPhys ∨ k.kernelEndPhys = k.kernelStartPhys →
        mmapTypeKernel ≤ t) := by
  rw [typeAt_le]
  constructor
  · intro h
    refine ⟨fun e he h0 hle hlive => ?_, fun hle hlive => ?_⟩
    · obtain ⟨i, hi, rfl, hstop⟩ := exists_bootItem 0 he h0
      refine h i (List.mem_append_left _ hi) ⟨hle, ?_⟩
      rw [Item.Empty, hstop]
      exact hlive
    · exact h _ (List.mem_append_right _ (List.mem_singleton_self _)) ⟨hle, hlive⟩
  · rintro ⟨hboot, hkernel⟩ i hi ⟨hle, hlive⟩
    rcases List.mem_append.mp hi with hi | hi
    · obtain ⟨hmem, h0, hstop, -, -⟩ := mem_bootItems hi
      exact hboot _ hmem h0 hle (hstop ▸ hlive)
    · obtain rfl := List.mem_singleton.mp hi
      exact hkernel hle hlive

theorem highestType_le :
    highestType k bootinfo p ≤ t ↔
      (∀ e ∈ bootinfo.mmap, e.addrHigh = 0 → e.addrLow ≤ p → p < e.stop → e.type ≤ t) ∧
        (k.kernelStartPhys ≤ p → p < k.kernelEndPhys → mmapTypeKernel ≤ t) := by
  rw [highestType, foldr_max_le]
  constructor
  · intro h
    refine ⟨fun e he h0 hle hlt => h _ (List.mem_append_left _ (List.mem_map_of_mem ?_)),
      fun hle hlt => ?_⟩
    · simp [he, h0, hle, hlt]
    · exact h _ (List.mem_append_right _ (by simp [hle, hlt]))
  · rintro ⟨hboot, hkernel⟩ x hx
    rcases List.mem_append.mp hx with hx | hx
    · obtain ⟨e, he, rfl⟩ := List.mem_map.mp hx
      simp only [List.mem_filter, decide_eq_true_eq] at he
      exact hboot e he.1 he.2.1 he.2.2.1 he.2.2.2
    · split at hx
      · rename_i hin
        obtain rfl := List.mem_singleton.mp hx
        exact hkernel hin.1 hin.2
      · cases hx

theorem Given.typeAt_eq (h : Given k bootinfo)
    (hne : ∀ e ∈ bootinfo.mmap, e.addrHigh = 0 → e.addrLow < e.stop) :
    typeAt (items k bootinfo) = highestType k bootinfo := by
  funext p
  refine eq_of_forall_ge_iff fun t => ?_
  rw [typeAt_items_le, highestType_le]
  have hkernel := h.kernel
  refine and_congr (forall_congr' fun e => forall_congr' fun he => forall_congr' fun h0 =>
    forall_congr' fun _ => ?_)
    (forall_congr' fun _ => ?_)
  · have := hne e he h0
    rw [or_iff_left (by omega)]
  · rw [or_iff_left (by omega)]

theorem Given.shown_eq (h : Given k bootinfo)
    (hne : ∀ e ∈ bootinfo.mmap, e.addrHigh = 0 → e.addrLow < e.stop) :
    shown (typeAt (items k bootinfo)) = highestType k bootinfo := by
  rw [h.typeAt_eq hne]
  refine Regions.shown_eq fun p => ⟨max (p + 1) 4294967296, by omega, ?_⟩
  refine Nat.le_zero.mp (highestType_le.mpr ⟨fun e he _ _ hlt => ?_, fun _ hlt => ?_⟩)
  · have := (stop_le e (h.words e he)).2
    omega
  · have := h.kernelWord
    omega

theorem regions_filter (k : Kinfo) (a : Nat) :
    (k.regions.map MemEntry.region).filter (fun r => r.Contains a) =
      (k.regions.filter fun r => r.Contains a).map MemEntry.region := by
  rw [List.filter_map]
  rfl

/-- The map is sorted, its regions are not empty and disjoint, those that touch
differ in type, and it gives each address its highest type. -/
theorem mmap_pointwise (h : Given k bootinfo)
    (hne : ∀ e ∈ bootinfo.mmap, e.addrHigh = 0 → e.addrLow < e.stop) :
    ∃ k', getMmap k bootinfo = some k' ∧
      (k'.regions.Pairwise fun r r' => r.address + r.size ≤ r'.address) ∧
      (∀ r ∈ k'.regions, 0 < r.size) ∧
      (∀ r ∈ k'.regions, ∀ r' ∈ k'.regions, r.address + r.size = r'.address → r.type ≠ r'.type) ∧
      ∀ a t, 0 < t →
        (highestType k bootinfo a = t ↔ ∃ r, (k'.regions.filter fun r => r.Contains a) = [r] ∧
        r.type = t) ∧
        (highestType k bootinfo a = 0 → (k'.regions.filter fun r => r.Contains a) = []) := by
  obtain ⟨k', hk', hdepicts⟩ := h.spec
  rw [h.shown_eq hne] at hdepicts
  have hmem : ∀ r ∈ k'.regions, r.region ∈ k'.regions.map MemEntry.region :=
    fun r hr => List.mem_map_of_mem hr
  refine ⟨k', hk', List.pairwise_map.mp hdepicts.sorted, fun r hr => ?_,
    fun r hr r' hr' ht => ?_, fun a t ht => ?_⟩
  · have hnonempty : r.address < r.address + r.size := ((hdepicts.run _).mp (hmem r hr)).nonempty
    omega
  · exact hdepicts.touching (hmem r hr) (hmem r' hr') ht
  · constructor
    · rw [hdepicts.label_iff ht, regions_filter]
      constructor
      · rintro ⟨x, hx, rfl⟩
        obtain ⟨r, hr, rfl⟩ := List.map_eq_singleton_iff.mp hx
        exact ⟨r, hr, rfl⟩
      · rintro ⟨r, hr, rfl⟩
        exact ⟨r.region, by rw [hr, List.map_singleton], rfl⟩
    · intro h0
      have hnone := hdepicts.nothing h0
      rw [regions_filter] at hnone
      exact List.map_eq_nil_iff.mp hnone

def lowKernel : Kinfo := ⟨0x100000, 0x200000, fun _ => ⟨0, 0, 0⟩, 0⟩

def oneFree : MultibootInfo := ⟨0x40, [⟨0, 0, 0x8000000, 0, 1⟩]⟩

theorem oneFree_given : Given lowKernel oneFree :=
  ⟨by decide, by decide, by decide, by decide, by decide⟩

theorem mmap_pointwise_oneFree :
    ∃ k', getMmap lowKernel oneFree = some k' ∧
      ∀ a t, 0 < t → (highestType lowKernel oneFree a = t ↔
        ∃ r, (k'.regions.filter fun r => r.Contains a) = [r] ∧ r.type = t) := by
  obtain ⟨k', hk', -, -, -, hpoint⟩ := mmap_pointwise oneFree_given (by decide)
  exact ⟨k', hk', fun a t ht => (hpoint a t ht).1⟩

-- ---------------------------------------------------------------------------
-- An empty entry
-- ---------------------------------------------------------------------------

section
variable {flags : Nat} {pre post : List MultibootMmapEntry}

theorem Given.without (h : Given k ⟨flags, pre ++ e :: post⟩) : Given k ⟨flags, pre ++ post⟩ where
  flags := h.flags
  words x hx := by
    refine h.words x ?_
    have hx : x ∈ pre ++ post := hx
    show x ∈ pre ++ e :: post
    simp only [List.mem_append, List.mem_cons] at hx ⊢
    tauto
  kernel := h.kernel
  kernelWord := h.kernelWord
  count := by
    have hc : (pre ++ e :: post).countP (fun e => e.addrHigh = 0) ≤ 64 := h.count
    show (pre ++ post).countP (fun e => e.addrHigh = 0) ≤ 64
    rw [List.countP_append, List.countP_cons] at hc
    rw [List.countP_append]
    omega

theorem typeAt_empty (hhigh : e.addrHigh = 0) (hstop : e.stop = e.addrLow) :
    typeAt (items k ⟨flags, pre ++ e :: post⟩) =
    raise (typeAt (items k ⟨flags, pre ++ post⟩)) e.addrLow e.type := by
  funext p
  refine eq_of_forall_ge_iff fun t => ?_
  have hsplit : typeAt (items k ⟨flags, pre ++ e :: post⟩) p ≤ t ↔
      typeAt (items k ⟨flags, pre ++ post⟩) p ≤ t ∧ (e.addrLow ≤ p → e.type ≤ t) := by
    rw [typeAt_items_le, typeAt_items_le]
    simp only [List.mem_append, List.mem_cons]
    constructor
    · rintro ⟨hboot, hkernel⟩
      exact ⟨⟨fun x hx => hboot x (hx.imp_right .inr), hkernel⟩,
        fun hle => hboot e (.inr (.inl rfl)) hhigh hle (.inr hstop)⟩
    · rintro ⟨⟨hboot, hkernel⟩, he⟩
      refine ⟨fun x hx h0 hle hlive => ?_, hkernel⟩
      rcases hx with hx | rfl | hx
      · exact hboot x (.inl hx) h0 hle hlive
      · exact he hle
      · exact hboot x (.inr hx) h0 hle hlive
  rw [hsplit, raise]
  split
  · rename_i hle
    rw [Nat.max_le]
    exact and_congr_right fun _ => ⟨fun h => h hle, fun h _ => h⟩
  · rename_i hle
    exact and_iff_left fun h => absurd h hle

/-- An empty entry leaves the map as it is exactly when the map still ends where
it did and no address from the entry's up to there has a lower type. -/
theorem empty_entry_iff (h : Given k ⟨flags, pre ++ e :: post⟩) (hhigh : e.addrHigh = 0)
    (hlow : e.lenLow = 0) (hlen : e.lenHigh = 0) :
    (∃ k₁ k₂, getMmap k ⟨flags, pre ++ post⟩ = some k₁ ∧
    getMmap k ⟨flags, pre ++ e :: post⟩ = some k₂ ∧
        k₂.regions = k₁.regions ∧ k₂.mmapSize = k₁.mmapSize) ↔
      ∃ b, LastEnd (typeAt (items k ⟨flags, pre ++ post⟩)) b ∧
        LastEnd (raise (typeAt (items k ⟨flags, pre ++ post⟩)) e.addrLow e.type) b ∧
        ∀ p, e.addrLow ≤ p → p < b → e.type ≤ typeAt (items k ⟨flags, pre ++ post⟩) p := by
  have hword : e.addrLow < 4294967296 := h.words e (List.mem_append_right _ List.mem_cons_self)
  have hstop : e.stop = e.addrLow := by
    have hadd : add e.addrLow e.lenLow = e.addrLow := by
      rw [hlow]
      exact add_of_lt hword
    rw [MultibootMmapEntry.stop, hadd, if_neg (by omega)]
  obtain ⟨k₁, hk₁, h₁⟩ := h.without.spec
  obtain ⟨k₂, hk₂, h₂⟩ := h.spec
  rw [typeAt_empty hhigh hstop] at h₂
  obtain ⟨b, hb⟩ := h₁.lastEnd
  rw [← shown_raise_iff hb h₂.lastEnd]
  constructor
  · rintro ⟨k₃, k₄, hk₃, hk₄, hregions, -⟩
    obtain rfl := Option.some.inj (hk₁.symm.trans hk₃)
    obtain rfl := Option.some.inj (hk₂.symm.trans hk₄)
    rw [hregions] at h₂
    exact h₁.function_unique h₂
  · intro he
    rw [← he] at h₂
    have hregions := List.map_injective_iff.mpr MemEntry.region_injective (h₂.unique h₁)
    refine ⟨k₁, k₂, hk₁, hk₂, hregions, ?_⟩
    simpa [Kinfo.regions] using congrArg List.length hregions

/-- An empty free entry at the first page takes everything from there on that no
other entry holds, and the map loses its end. -/
theorem empty_entry_counts :
    ¬∀ (k : Kinfo) (flags : Nat) (pre post : List MultibootMmapEntry) (e : MultibootMmapEntry),
      Given k ⟨flags, pre ++ e :: post⟩ → e.addrHigh = 0 → e.lenLow = 0 → e.lenHigh = 0 →
      ∃ k₁ k₂, getMmap k ⟨flags, pre ++ post⟩ = some k₁ ∧
        getMmap k ⟨flags, pre ++ e :: post⟩ = some k₂ ∧
        k₂.regions = k₁.regions ∧ k₂.mmapSize = k₁.mmapSize := by
  intro hall
  obtain ⟨k₁, k₂, hk₁, hk₂, hregions, -⟩ := hall lowKernel 0x40 [] [] ⟨0x1000, 0, 0, 0, 1⟩
    ⟨by decide, by decide, by decide, by decide, by decide⟩ rfl rfl rfl
  have h₁ : (getMmap lowKernel ⟨0x40, []⟩).map Kinfo.regions =
    some [⟨0x100000, 0x100000, 0xFFFFFFFF⟩] := by
    decide +kernel
  have h₂ : (getMmap lowKernel ⟨0x40, [⟨0x1000, 0, 0, 0, 1⟩]⟩).map Kinfo.regions =
      some [⟨0x1000, 0xFF000, 1⟩, ⟨0x100000, 0x100000, 0xFFFFFFFF⟩] := by
    decide +kernel
  rw [show getMmap lowKernel ⟨0x40, []⟩ = some k₁ from hk₁] at h₁
  rw [show getMmap lowKernel ⟨0x40, [⟨0x1000, 0, 0, 0, 1⟩]⟩ = some k₂ from hk₂] at h₂
  have hsame := (Option.some.inj h₂).symm.trans (hregions.trans (Option.some.inj h₁))
  exact absurd hsame (by decide)

/-- An empty entry of type 0. -/
theorem empty_entry_iff_typeless :
    (∃ k₁ k₂, getMmap lowKernel ⟨0x40, [] ++ []⟩ = some k₁ ∧
        getMmap lowKernel ⟨0x40, [] ++ ⟨0x1000, 0, 0, 0, 0⟩ :: []⟩ = some k₂ ∧
        k₂.regions = k₁.regions ∧ k₂.mmapSize = k₁.mmapSize) ↔
      ∃ b, LastEnd (typeAt (items lowKernel ⟨0x40, [] ++ []⟩)) b ∧
        LastEnd (raise (typeAt (items lowKernel ⟨0x40, [] ++ []⟩)) 0x1000 0) b ∧
        ∀ p, 0x1000 ≤ p → p < b → 0 ≤ typeAt (items lowKernel ⟨0x40, [] ++ []⟩) p :=
  empty_entry_iff (e := ⟨0x1000, 0, 0, 0, 0⟩) ⟨by decide, by decide, by decide, by decide, by
    decide⟩ rfl rfl rfl

end

end ElcoOs.Mmap
