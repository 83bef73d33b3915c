import ElcoOs.Mmap.Overlap

/-!
# The sweep

The regions that the sweep has written, the one in work and the type in force
are those of a drawing of `typeAt`, the highest type of the open entries. The
map has room for all of them, so that it is never truncated.
-/

namespace ElcoOs.Mmap

open Word32 Regions

def MemEntry.region (e : MemEntry) : Region := ⟨e.address, e.address + e.size, e.type⟩

theorem MemEntry.region_injective : Function.Injective MemEntry.region := by
  rintro ⟨a, n, t⟩ ⟨a', n', t'⟩ h
  simp only [MemEntry.region, Region.mk.injEq] at h
  obtain ⟨rfl, hn, rfl⟩ := h
  obtain rfl : n = n' := by omega
  rfl

structure Writes (s : Sweep) (d : Scan) : Prop where
  closed : (List.range s.mmapId).map (fun k => (s.mmap k).region) = d.closed
  addr : s.lastAddr = d.addr
  type : s.lastType = d.label
  opened : s.lastType ≠ 0 → (s.mmap s.mmapId).address = s.lastAddr ∧
    (s.mmap s.mmapId).type = s.lastType

variable {s : Sweep} {d : Scan} {addr type : Nat}

theorem map_update_above {mmap : Nat → MemEntry} {e : MemEntry} (n : Nat) :
    (List.range n).map (fun k => (Function.update mmap n e k).region) =
      (List.range n).map fun k => (mmap k).region := by
  refine List.map_congr_left fun k hk => ?_
  rw [Function.update_of_ne (Nat.ne_of_lt (List.mem_range.mp hk))]

theorem Writes.close (h : Writes s d) (hopen : s.lastType ≠ 0) (hle : d.addr ≤ addr)
    (haddr : addr < 4294967296) :
    (List.range (s.close addr).mmapId).map (fun k => ((s.close addr).mmap k).region) =
        (if d.addr ≠ addr then d.closed ++ [⟨d.addr, addr, d.label⟩] else d.closed) ∧
      (s.close addr).mmapId ≤ s.mmapId + 1 := by
  obtain ⟨haddress, htype⟩ := h.opened hopen
  have hsize : sub addr s.lastAddr = addr - d.addr := by
    rw [h.addr]
    exact sub_of_le hle haddr
  simp only [Sweep.close, hsize]
  by_cases he : d.addr = addr
  · have hzero : addr - d.addr = 0 := by omega
    rw [if_neg (not_not_intro hzero), if_neg (not_not_intro he)]
    exact ⟨(map_update_above _).trans h.closed, Nat.le_succ _⟩
  · have hpos : addr - d.addr ≠ 0 := by omega
    rw [if_pos hpos, if_pos he]
    simp only [List.range_succ, List.map_append, List.map_cons, List.map_nil,
      Function.update_self]
    refine ⟨congrArg₂ (· ++ ·) ((map_update_above _).trans h.closed) ?_, Nat.le_refl _⟩
    rw [MemEntry.region, haddress, htype, h.addr, h.type, Nat.add_sub_cancel' hle]

theorem Writes.change (h : Writes s d) (type : Nat) (hle : d.label ≠ 0 → d.addr ≤ addr)
    (haddr : addr < 4294967296) (hne : type ≠ s.lastType) {closed : Sweep}
    (hclosed : closed = if s.lastType ≠ 0 then s.close addr else s) :
    closed.mmapId ≤ s.mmapId + (if s.lastType ≠ 0 then 1 else 0) ∧
      Writes { (if type ≠ 0 then closed.start addr type else closed) with lastType := type }
        (d.change addr type) := by
  have hlist : (List.range closed.mmapId).map (fun k => (closed.mmap k).region) =
      (if d.label ≠ 0 ∧ d.addr ≠ addr then d.closed ++ [⟨d.addr, addr, d.label⟩] else d.closed) ∧
      closed.mmapId ≤ s.mmapId + (if s.lastType ≠ 0 then 1 else 0) ∧ closed.lastAddr = d.addr := by
    subst hclosed
    by_cases hopen : s.lastType ≠ 0
    · obtain ⟨h1, h2⟩ := h.close hopen (hle (h.type ▸ hopen)) haddr
      simp only [if_pos hopen]
      refine ⟨h1.trans ?_, h2, h.addr⟩
      simp only [show d.label ≠ 0 from h.type ▸ hopen, ne_eq, not_false_eq_true, true_and]
    · simp only [if_neg hopen]
      exact ⟨h.closed.trans (if_neg fun hc => hopen (h.type.symm ▸ hc.1)).symm,
        Nat.le_refl _, h.addr⟩
  obtain ⟨h1, h2, h3⟩ := hlist
  refine ⟨h2, ?_⟩
  rw [Scan.change_other fun he => hne (he.trans h.type.symm)]
  by_cases htype : type = 0
  · rw [if_neg (not_not_intro htype), if_neg (not_not_intro htype)]
    exact ⟨h1, h3, rfl, fun hc => absurd htype hc⟩
  · rw [if_pos htype, if_pos htype]
    refine ⟨(map_update_above _).trans h1, rfl, rfl, fun _ => ?_⟩
    simp [Sweep.start]

variable {is : List Item} {done todo : List ChangePoint} {b : Nat}

theorem sweep_spec (hs : Sorted is (done ++ todo)) (hopen : Open is done s.overlap)
    (hw : Writes s d) (hlabel : d.label = curType s.overlap) (hdone : ∀ c ∈ done, c.addr ≤ b)
    (htodo : ∀ c ∈ todo, b ≤ c.addr) (hdrawn : Drawn (typeAt is) b d)
    (hroom : s.mmapId + (if s.lastType ≠ 0 then 1 else 0) ≤ done.length)
    (hlen : (done ++ todo).length ≤ maxMmapSize) (hword : ∀ c ∈ todo, c.addr < 4294967296) :
    ∃ s' d', sweep s todo = some s' ∧ Writes s' d' ∧ Depicts d'.closed (shown (typeAt is)) := by
  induction todo generalizing done s d b with
  | nil =>
    refine ⟨s, d, rfl, hw, hdrawn.depicts fun p hp => ?_⟩
    rw [hlabel]
    exact (hopen.curType_eq hs (fun c hc => Nat.le_trans (hdone c hc) hp) fun c hc =>
      absurd hc List.not_mem_nil).symm
  | cons c todo ih =>
    have hlater : ∀ x ∈ todo, c.addr ≤ x.addr := fun x hx =>
      (not_misplaced ((List.pairwise_cons.mp (List.pairwise_append.mp hs.sorted).2.1).1 x hx)).1
    have hc : c.addr < 4294967296 := hword c List.mem_cons_self
    have hbc : b ≤ c.addr := htodo c List.mem_cons_self
    have hs' : Sorted is ((done ++ [c]) ++ todo) := by
      rwa [List.append_assoc]
    have hlen' : done.length + 1 ≤ maxMmapSize := by
      simp only [List.length_append, List.length_cons] at hlen
      omega
    obtain ⟨overlap, hoverlap, hopen'⟩ := hopen.step hs
    have hdone' : ∀ x ∈ done ++ [c], x.addr ≤ c.addr := by
      intro x hx
      rcases List.mem_append.mp hx with hx | hx
      · exact Nat.le_trans (hdone x hx) hbc
      · exact Nat.le_of_eq (List.mem_singleton.mp hx ▸ rfl)
    have hnext : Drawn (typeAt is) c.addr d := hdrawn.next hbc fun p hp hpc => by
      rw [hlabel]
      refine (hopen.curType_eq hs (fun x hx => Nat.le_trans (hdone x hx) hp) fun x hx => ?_).symm
      rcases List.mem_cons.mp hx with rfl | hx
      · exact hpc
      · exact Nat.lt_of_lt_of_le hpc (hlater x hx)
    have hbetween := hopen'.curType_between hs' hdone' hlater
    have hdrawn' := hnext.change hbetween
    have htail : ∀ x ∈ todo, x.addr < 4294967296 := fun x hx => hword x (List.mem_cons_of_mem _ hx)
    have hlen'' : ((done ++ [c]) ++ todo).length ≤ maxMmapSize := by
      rwa [List.append_assoc]
    simp only [sweep, hoverlap, bind, Option.bind]
    by_cases hne : curType overlap = s.lastType
    · rw [if_neg (not_not_intro hne)]
      have hsame : d.change c.addr (curType overlap) = d := Scan.change_same (hne.trans hw.type)
      rw [hsame] at hdrawn'
      exact ih hs' hopen' ⟨hw.closed, hw.addr, hw.type, hw.opened⟩
        (hw.type.symm.trans hne.symm) hdone' hlater
        hdrawn' (by simpa using Nat.le_succ_of_le hroom) hlen'' htail
    · rw [if_pos hne]
      have hw' : Writes { s with overlap := overlap } d := ⟨hw.closed, hw.addr, hw.type, hw.opened⟩
      obtain ⟨hid, hwrites⟩ :=
        hw'.change (curType overlap) (fun hl => (hnext.opened hl).1) hc hne rfl
      generalize hclosed : (if s.lastType ≠ 0 then Sweep.close { s with overlap := overlap } c.addr
        else { s with overlap := overlap }) = closed at hid hwrites
      have hfull : ¬ (closed.mmapId ≠ s.mmapId ∧ closed.mmapId ≥ maxMmapSize) := by
        rintro ⟨-, hge⟩
        have : closed.mmapId ≤ done.length := Nat.le_trans hid hroom
        omega
      rw [if_neg hfull]
      have hchange : (d.change c.addr (curType overlap)).label = curType overlap := by
        rw [Scan.change_other fun he => hne (he.trans hw.type.symm)]
      have hkeep : (if curType overlap ≠ 0 then closed.start c.addr (curType overlap) else
        closed).overlap = overlap := by
        subst hclosed
        split <;> split <;> rfl
      have hmmapId :
        (if curType overlap ≠ 0 then closed.start c.addr (curType overlap) else closed).mmapId =
          closed.mmapId := by
        split <;> rfl
      refine ih hs' (by rwa [hkeep]) hwrites (by rw [hchange, hkeep]) hdone' hlater
        hdrawn' ?_ hlen'' htail
      simp only [hmmapId, List.length_append, List.length_singleton]
      have : closed.mmapId ≤ done.length := Nat.le_trans hid hroom
      split <;> omega

end ElcoOs.Mmap
