import ElcoOs.Kmalloc.Requests
import ElcoOs.Kstring.Bytes

/-!
# kcalloc

A block for an array, all of its bytes zero. The product of the two sizes is one
of `size_t`, and no test says when it does not fit: then the block is one for
the remainder.
-/

namespace ElcoOs.Kmalloc

open Word32 Kstring

variable {ε : Type}

def kcalloc (cb : Callbacks ε) (w : World ε) (nmemb size : Nat) : Option (Nat × World ε) := do
  let msize := size * nmemb % 4294967296
  let r ← kmalloc cb w msize
  return (r.1, if r.1 ≠ 0 then r.2.setMem (kmemset r.2.mem r.1 0 msize).2 else r.2)

variable {heapEnd : ε → Nat} {cb : Callbacks ε} {s : Clients ε} {w w' w'' : World ε} {m' : Memory}
  {p q nmemb size : Nat}

theorem LiveHeap.overwrite (h : LiveHeap cb heapEnd s) (hp : p ∈ s.live)
    (hm : SameExcept p (p + usable s.world p) s.world.mem m') :
    LiveHeap cb heapEnd ⟨s.world.setMem m', s.live⟩ ∧
    usable (s.world.setMem m') p = usable s.world p ∧
      ∀ q ∈ s.live, q ≠ p → Undisturbed s.world (s.world.setMem m') q := by
  have hat := h.heap.toHeapAt
  have hat' : HeapAt (s.world.setMem m') (chunks s.world) (binned s.world) := by
    obtain ⟨c, hc, rfl⟩ := h.block hp
    have hmin := (hat.mem (mem_pairs.mp hc)).2.2.1
    simp only at hmin
    refine hat.overwrite hc fun y hy => hm y ?_
    rw [(hat.payload hc).2]
    omega
  have husable : ∀ q ∈ s.live, usable (s.world.setMem m') q = usable s.world q := fun q hq => by
    obtain ⟨c, hc, rfl⟩ := h.block hq
    rw [(hat'.payload hc).2, (hat.payload hc).2]
  refine ⟨.of_heap ⟨hat', h.heap.free, h.heap.noVictim⟩ ⟨h.env.sbrk, h.env.synced⟩ h.live,
    husable p hp,
    fun q hq hqp => ⟨husable q hq, fun x hlo hhi => hm x ?_⟩⟩
  have := h.blocks.apart q hq p hp hqp
  omega

theorem Undisturbed.trans (h : Undisturbed w w' p) (h' : Undisturbed w' w'' p) :
    Undisturbed w w'' p := by
  refine ⟨h'.size.trans h.size, fun x hlo hhi => ?_⟩
  rw [h'.bytes x hlo (by rw [h.size]; exact hhi), h.bytes x hlo hhi]

/-- The block is zero as far as it was asked for, and it has room for the array if and only if the
size of that fits into a `size_t`. -/
theorem kcalloc_room_iff (hrun : RequestRun cb heapEnd s)
    (hok : MallocOk s.world (size * nmemb % 4294967296)) :
    ∃ p w', kcalloc cb s.world nmemb size = some (p, w') ∧
      LiveHeap cb heapEnd ⟨w', if p = 0 then s.live else p :: s.live⟩ ∧
      (∀ q ∈ s.live, Undisturbed s.world w' q) ∧
      (p ≠ 0 → (∀ i < size * nmemb % 4294967296, w'.mem (p + i) = 0) ∧
        (nmemb * size ≤ usable w' p ↔ nmemb * size < 4294967296)) := by
  obtain ⟨n, hmsize⟩ : ∃ n, size * nmemb % 4294967296 = n := ⟨_, rfl⟩
  rw [hmsize] at hok ⊢
  have hnlt : n < 4294967296 := hmsize ▸ Nat.mod_lt _ (by decide)
  obtain ⟨p, w₁, hres, hlive, -, hroom, hkept⟩ := hrun.liveHeap.kmalloc hnlt hok
  by_cases hp : p = 0
  · refine ⟨p, w₁, ?_, hlive, hkept, fun hne => absurd hp hne⟩
    rw [kcalloc, hmsize, hres, hp]
    rfl
  · rw [if_neg hp] at hlive
    have hmem : p ∈ p :: s.live := List.mem_cons_self
    have hinside := hlive.blocks.inside p hmem
    have hfits := hlive.heap.arena.fits
    have hle := hroom hp
    have hend : p + n ≤ 4294967296 := by
      simp only at hinside hfits
      omega
    obtain ⟨hzero, hrest, -⟩ := kmemset_fills w₁.mem p 0 n hend
    obtain ⟨m', hm'⟩ : ∃ m', (kmemset w₁.mem p 0 n).2 = m' := ⟨_, rfl⟩
    rw [hm'] at hzero hrest
    have hsame : SameExcept p (p + usable w₁ p) w₁.mem m' := fun x hx => hrest x (by omega)
    obtain ⟨hlive', husable, hothers⟩ := hlive.overwrite hmem hsame
    refine ⟨p, w₁.setMem m', ?_, ?_,
      fun q hq => (hkept q hq).trans (hothers q (List.mem_cons_of_mem _ hq) ?_),
      fun _ => ⟨hzero, ?_⟩⟩
    · rw [kcalloc, hmsize, hres]
      show some (p, if p ≠ 0 then w₁.setMem (kmemset w₁.mem p 0 n).2 else w₁) = _
      rw [if_pos hp, hm']
    · rw [if_neg hp]
      exact hlive'
    · rintro rfl
      exact (List.nodup_cons.mp hlive.blocks.nodup).1 hq
    · -- no block is larger than the address space
      have hsmall : usable w₁ p < 4294967296 := by
        simp only at hinside hfits
        omega
      simp only at husable
      rw [husable, Nat.mul_comm nmemb size]
      constructor
      · intro hfit
        omega
      · intro hlt
        rw [Nat.mod_eq_of_lt hlt] at hmsize
        omega

/-- Three objects of 24 bytes. -/
theorem kcalloc_room_iff_oneBlock : ∃ p w', kcalloc refuse oneBlock.world 3 24 = some (p, w') ∧
    LiveHeap refuse id ⟨w', if p = 0 then oneBlock.live else p :: oneBlock.live⟩ ∧
    (∀ q ∈ oneBlock.live, Undisturbed oneBlock.world w' q) ∧
    (p ≠ 0 → (∀ i < 24 * 3 % 4294967296, w'.mem (p + i) = 0) ∧
    (3 * 24 ≤ usable w' p ↔ 3 * 24 < 4294967296)) := by
  have hheap := (SmallRun.of_reach oneBlock_reached).smallHeap
  exact kcalloc_room_iff oneBlock_requestRun
    (hheap.heap.mallocOk hheap.heapSize (by decide) (.inl (by decide)))

end ElcoOs.Kmalloc
