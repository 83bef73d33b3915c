import ElcoOs.Kmalloc.Expand
import ElcoOs.Kmalloc.Large

/-!
# Moving a block

Where a block cannot grow in place another is taken, the bytes are copied and the
old one is freed. What the old block is merged with is no larger than what was
free next to it before: the request can only have taken from it.
-/

namespace ElcoOs.Kmalloc

open Word32

variable {ε : Type}

def freeBefore (pre : List Chunk) : Nat :=
  match pre.getLast? with
  | some ⟨_, ps, false⟩ => ps
  | _ => 0

def freeAfter : List Chunk → Nat
  | ⟨_, ns, false⟩ :: _ => ns
  | _ => 0

/-- The bins can take back a block of `s` bytes with what is free next to it. -/
def GiveBackOk (st : KmallocState) (pre : List Chunk) (s : Nat) (post : List Chunk) : Prop :=
  freeBefore pre + s + freeAfter post < 0xC00000 ∧
  (post = [] → st.heapSize < st.initialHeapSize + 0x7FFFF000)

/-- Another block of at least `c` bytes holds what the one of `(a, s)` held, which is free. -/
structure Moved (heapEnd : ε → Nat) (P : Prop) (w : World ε) (pre : List Chunk) (a s c : Nat)
    (post : List Chunk) (r : Nat × World ε) : Prop where
  kept : Kept heapEnd P (pairs true (pre ++ post)) w r.2
  topMin : TopMin w.kmstate → TopMin r.2.kmstate
  heap : ∃ cs' B' a' s', r.1 = a' + 8 ∧ Apart (a', s') (a, s) ∧ c ≤ s' ∧ Heap r.2 cs' B' ∧
    (pairs true cs').Perm ((a', s') :: pairs true (pre ++ post)) ∧
    ∀ i < s - 4, r.2.mem (a' + 8 + i) = w.mem (a + 8 + i)

/-- The part of `krealloc` that takes another block, for one of `s` bytes. -/
def moveBlock (cb : Callbacks ε) (w : World ε) (a s c : Nat) : Option (Nat × World ε) :=
  (kmallocIntern cb w c true).bind fun r =>
    if r.1 ≠ 0 then
      (kfree cb (r.2.setMem (Memory.copy r.2.mem r.1 (a + 8) (s - 4))) (a + 8)).map fun w =>
      (r.1, w)
    else some (0, r.2)

section
variable {heapEnd : ε → Nat} {P : Prop} {w w' : World ε} {cs pre post pre' post' : List Chunk}
  {B B' : List (Nat × Nat)}
  {a b b' c h s : Nat} {t v v' : Bool} {m m' : Memory} {cb : Callbacks ε} {d : Chunk}

-- ---------------------------------------------------------------------------
-- What is free next to a block
-- ---------------------------------------------------------------------------

theorem Tiled.last (ht : Tiled m h t (pre ++ [d]) b v) :
    ∃ u, Tiled m h t pre d.addr u ∧ ChunkAt m d u ∧ d.addr + d.size = b ∧ d.used = v := by
  obtain ⟨u, hpre, hat, hend, hu⟩ := ht.split
  exact ⟨u, hpre, hat, hend, hu⟩

theorem Tiled.freeBefore_le (ht : Tiled m h true pre a t) (ht' : Tiled m' h true pre' a v)
    (hused : ∀ q ∈ pairs true pre, ∀ f ∈ pairs false pre', Apart q f) :
    freeBefore pre' ≤ freeBefore pre := by
  rcases List.eq_nil_or_concat pre' with rfl | ⟨pre₁', d', rfl⟩
  · exact Nat.zero_le _
  obtain ⟨da, ds, du⟩ := d'
  cases du with
  | true => simp [freeBefore]
  | false =>
    rw [List.concat_eq_append] at ht' hused ⊢
    obtain ⟨u', hpre', hat', hend', -⟩ := ht'.last
    have hle' := hpre'.le
    have hmin' : 16 ≤ ds := hat'.min
    simp only at hend' hle'
    have hbelow : ∀ q ∈ pairs true pre, q.1 + q.2 ≤ da := by
      intro q hq
      obtain ⟨-, hqa, u, hqat⟩ := ht.mem (mem_pairs.mp hq)
      have := hused q hq (da, ds) (by simp)
      have := hqat.min
      simp only [Apart] at *
      omega
    simp only [freeBefore, List.getLast?_concat]
    rcases List.eq_nil_or_concat pre with rfl | ⟨pre₁, e, rfl⟩
    · have := ht.1
      omega
    rw [List.concat_eq_append] at ht hbelow ⊢
    obtain ⟨u, hpre, hat, hend, -⟩ := ht.last
    obtain ⟨ea, es, eu⟩ := e
    simp only at hpre hend
    cases eu with
    | true =>
      have := hbelow (ea, es) (by simp)
      simp only at this
      omega
    | false =>
      obtain ⟨rfl, -⟩ := hat.free rfl
      simp only [List.getLast?_append, List.getLast?_singleton, Option.some_or]
      -- what is before the free chunk is in use, or is nothing
      rcases List.eq_nil_or_concat pre₁ with rfl | ⟨pre₂, g, rfl⟩
      · have := hpre.1
        omega
      · rw [List.concat_eq_append] at hpre hbelow
        obtain ⟨-, -, -, hgend, hgu⟩ := hpre.last
        have := hbelow (g.addr, g.size) (by simp [pairs_cons, hgu])
        simp only at this
        omega

theorem Tiled.freeAfter_le (ht : Tiled m a true post b true) (ht' : Tiled m' a true post' b' true)
    (hused : ∀ q ∈ pairs true post, ∀ f ∈ pairs false post', Apart q f)
    (hend : ∀ f ∈ pairs false post', f.1 < b) :
    freeAfter post' ≤ freeAfter post := by
  cases post' with
  | nil => exact Nat.zero_le _
  | cons d' rest' =>
    obtain ⟨da, ds, du⟩ := d'
    obtain ⟨rfl, hat', -⟩ := ht'
    have hmin' : 16 ≤ ds := hat'.min
    cases du with
    | true => exact Nat.zero_le _
    | false =>
      have hlow := hend (da, ds) (by simp)
      cases post with
      | nil => exact absurd ht.1 (Nat.ne_of_lt hlow)
      | cons e rest =>
        obtain ⟨ea, es, eu⟩ := e
        obtain ⟨rfl, hat, hrest⟩ := ht
        have hmin : 16 ≤ es := hat.min
        cases eu with
        | true =>
          have := hused (ea, es) (by simp) (ea, ds) (by simp)
          simp only [Apart] at this
          omega
        | false =>
          obtain ⟨n, rest, rfl, hn, hu, hnat, -⟩ := hrest.next_used
          have := hused (n.addr, n.size) (by simp [pairs_cons, hu]) (ea, ds) (by simp)
          have := hnat.min
          simp only [Apart, freeAfter] at *
          omega

/-- A heap in which only `(a', s')` has come to be used, and that has grown by no
more, has no free chunk past the old end. -/
theorem Tiled.none_free_past {a' s' f fs : Nat} (ht : Tiled m h t cs b' true)
    (hmore : ∀ q ∈ pairs true cs, q.1 + q.2 ≤ b ∨ q = (a', s')) (hstop : b' ≤ b + s')
    (hf : (f, fs) ∈ pairs false cs) :
    f < b := by
  by_contra hlo
  obtain ⟨pre, post, rfl⟩ := List.append_of_mem (mem_pairs.mp hf)
  obtain ⟨u, -, hat, hpost⟩ := ht.split
  have hmin : 16 ≤ fs := hat.min
  obtain ⟨n, rest, rfl, hn, hu, -, hrest⟩ := hpost.next_used
  have hle := hrest.le
  simp only at hn hle
  rcases hmore (n.addr, n.size) (by simp [pairs_cons, hu]) with hlow | he
  · simp only at hlow
    omega
  · obtain ⟨ha, hs⟩ := Prod.mk.inj he
    omega

-- ---------------------------------------------------------------------------
-- Giving the old block back
-- ---------------------------------------------------------------------------

theorem GiveBackOk.freeOk {a' s' : Nat} (hok : GiveBackOk w.kmstate pre s post)
    (h : Heap w (pre ++ ⟨a, s, true⟩ :: post) B) (h' : Heap w' (pre' ++ ⟨a, s, true⟩ :: post') B')
    (hstart : w'.kmstate.heapStart = w.kmstate.heapStart)
    (hinitial : w'.kmstate.initialHeapSize = w.kmstate.initialHeapSize) (hused :
    (pairs true (pre' ++ ⟨a, s, true⟩ :: post')).Perm ((a', s') ::
      pairs true (pre ++ ⟨a, s, true⟩ :: post)))
    (hstop : w'.kmstate.topChunk ≤ w.kmstate.topChunk + s')
    (hsame : w'.kmstate.topChunk ≤ w.kmstate.topChunk → w'.kmstate.heapSize = w.kmstate.heapSize) :
    FreeOk w'.kmstate pre' a s post' B' := by
  have hat := h.toHeapAt
  have hat' := h'.toHeapAt
  obtain ⟨hsum, hlast⟩ := hok
  obtain ⟨t, hpre, hca, hpost⟩ := h.tiled.split
  obtain ⟨t', hpre', -, hpost'⟩ := h'.tiled.split
  rw [hstart] at hpre'
  simp only at hpre hpre' hpost hpost'
  -- used before, apart from what is free now
  have hapart : ∀ q ∈ pairs true (pre ++ ⟨a, s, true⟩ :: post),
    ∀ f ∈ pairs false (pre' ++ ⟨a, s, true⟩ :: post'), Apart q f := by
    intro q hq f hf
    have hq' := hused.mem_iff.mpr (List.mem_cons_of_mem _ hq)
    rcases h'.tiled.apart (mem_pairs.mp hq') (mem_pairs.mp hf) with he | hap
    · simp at he
    · exact hap
  have hmore : ∀ q ∈ pairs true (pre' ++ ⟨a, s, true⟩ :: post'), q.1 + q.2 ≤ w.kmstate.topChunk ∨
    q = (a', s') := by
    intro q hq
    rcases List.mem_cons.mp (hused.mem_iff.mp hq) with he | hq
    · exact .inr he
    · exact .inl (hat.mem (mem_pairs.mp hq)).2.1
  have hbefore : freeBefore pre' ≤ freeBefore pre := hpre.freeBefore_le hpre' fun q hq f hf =>
    hapart q (by simp [hq]) f (by simp [hf])
  have hafter : freeAfter post' ≤ freeAfter post := hpost.freeAfter_le hpost' (fun q hq f hf =>
    hapart q (by simp [hq]) f (by simp [hf])) fun f hf =>
      h'.tiled.none_free_past hmore hstop (show (f.1, f.2) ∈ pairs false _ by simp [hf])
  have hnil : post' = [] → w'.kmstate.heapSize < w'.kmstate.initialHeapSize + 0x7FFFF000 := by
    rintro rfl
    have hpost'nil := hpost'.1
    have hle := hpost.le
    rw [hinitial, hsame (by omega)]
    refine hlast ?_
    -- the last chunk of the old heap would lie past the new end
    rcases List.eq_nil_or_concat post with rfl | ⟨post, d, rfl⟩
    · rfl
    rw [List.concat_eq_append] at hpost hused
    obtain ⟨u, hbelow, hd, hend, hdu⟩ := hpost.last
    have hin : (d.addr, d.size) ∈ pairs true (pre' ++ [⟨a, s, true⟩]) :=
      hused.mem_iff.mpr (by simp [pairs_cons, hdu])
    have := (hat'.mem (mem_pairs.mp hin)).2.1
    have := hbelow.le
    have := hd.min
    simp only at *
    omega
  have key : ∀ f fs, fs = s ∨ fs = s + freeBefore pre' → MergeOk w'.kmstate f fs post' B' := by
    intro f fs hfs
    have hle : fs ≤ s + freeBefore pre := by omega
    cases post' with
    | nil => exact hnil rfl
    | cons n rest =>
      intro _
      obtain ⟨na, ns, nu⟩ := n
      cases nu with
      | true => exact .inl (by omega)
      | false =>
        rw [freeAfter] at hafter
        exact fun _ => .inl (by simp only; omega)
  rw [FreeOk]
  split
  · rename_i p ps hp
    exact key p _ (.inr (by rw [freeBefore, hp]))
  · exact key a s (.inl rfl)

theorem moveBlock_spec (h : Heap w (pre ++ ⟨a, s, true⟩ :: post) B) (hcb : Env cb heapEnd w)
    (hlt : s < c) (hc8 : c % 8 = 0)
    (hc : c < 4294967296) (hreq : ReqOk w.kmstate B c) (hacc : Accepts B w.kmstate.dVictimSize)
    (hback : GiveBackOk w.kmstate pre s post) :
    ∃ r, moveBlock cb w a s c = some r ∧
      (Moved heapEnd (Binned B c) w pre a s c post r ∨
        NotServed heapEnd (Binned B c) w (pre ++ ⟨a, s, true⟩ :: post) B c r) := by
  have hold := h.mem (c := ⟨a, s, true⟩) (by simp)
  simp only at hold
  obtain ⟨⟨p, w₁⟩, hres, hs | hno⟩ := kmallocIntern_spec h hcb (by omega) hc8 hc hreq hacc
  swap
  · refine ⟨(p, w₁), ?_, .inr hno⟩
    have hnull : p = 0 := hno.null
    rw [moveBlock, hres, Option.bind_some, if_neg (not_not_intro hnull), hnull]
  obtain ⟨cs₁, B₁, a', s', hp, hsize, hheap₁, hused⟩ := hs.heap
  have hkept := hs.kept
  simp only at hp hkept
  subst hp
  -- the old block is still a chunk in use, and another than the new one
  have hin : (a, s) ∈ pairs true cs₁ := hused.mem_iff.mpr (List.mem_cons_of_mem _ (by simp))
  have hnew : (a', s') ∈ pairs true cs₁ := hused.mem_iff.mpr List.mem_cons_self
  have hx := (hheap₁.pairs_extents true).perm hused
  have hnd := (List.nodup_cons.mp hx.nodup).1
  have hapart : ∀ q ∈ pairs true (pre ++ ⟨a, s, true⟩ :: post), Apart (a', s') q := fun q hq =>
    hx.apart _ List.mem_cons_self q (List.mem_cons_of_mem _ hq) fun he => hnd (he ▸ hq)
  have hap := hapart (a, s) (by simp)
  simp only [Apart] at hap
  -- the copy
  obtain ⟨m₂, hm₂⟩ : ∃ m₂, Memory.copy w₁.mem (a' + 8) (a + 8) (s - 4) = m₂ := ⟨_, rfl⟩
  have hcopy : SameExcept (a' + 8) (a' + s' + 4) w₁.mem m₂ := fun x hx => by
    rw [← hm₂, Memory.copy_apply_outside _ (by omega)]
  have hheap₂ : Heap (w₁.setMem m₂) cs₁ B₁ :=
    ⟨hheap₁.toHeapAt.overwrite hnew hcopy, hheap₁.free, hheap₁.noVictim⟩
  have hkept₂ :
    Kept heapEnd (Binned B c) (pairs true (pre ++ ⟨a, s, true⟩ :: post)) w (w₁.setMem m₂) := by
    refine hkept.trans ⟨rfl, rfl, id, fun q hq x hlo hhi => hcopy x ?_, Traced.refl _ _⟩
    have := hapart q hq
    have hqmin := (h.mem (mem_pairs.mp hq)).2.2.1
    simp only [Apart] at this hqmin
    omega
  -- the old block is freed
  obtain ⟨pre₁, post₁, rfl⟩ := List.append_of_mem (mem_pairs.mp hin)
  have hgive : FreeOk (w₁.setMem m₂).kmstate pre₁ a s post₁ B₁ := by
    refine hback.freeOk h hheap₂ hkept₂.start hkept₂.initial hused ?_ fun hle => ?_
    · rcases hs.top with hsame | ⟨-, htop⟩
      · exact Nat.le_trans (Nat.le_of_eq hsame.chunk) (Nat.le_add_right ..)
      · have hchunk : w₁.kmstate.topChunk = w.kmstate.topChunk + c := htop.chunk
        show w₁.kmstate.topChunk ≤ _
        omega
    · rcases hs.top with hsame | ⟨-, htop⟩
      · exact hsame.heapSize
      · have hchunk : w₁.kmstate.topChunk = w.kmstate.topChunk + c := htop.chunk
        have hle : w₁.kmstate.topChunk ≤ w.kmstate.topChunk := hle
        omega
  obtain ⟨w₃, hfree, hfreed, htop⟩ :=
    kfree_spec (P := Binned B c) hheap₂ (hcb.next hkept₂) (.inl hgive)
  obtain ⟨cs₃, B₃, hheap₃, hused₃⟩ := hfreed.heap
  have hperm : (pairs true (pre₁ ++ post₁)).Perm ((a', s') :: pairs true (pre ++ post)) := by
    refine List.Perm.cons_inv (a := (a, s)) ?_
    simp only [pairs_append, pairs_same] at hused ⊢
    exact List.perm_middle.symm.trans
      (hused.trans ((List.perm_middle.cons _).trans (List.Perm.swap ..)))
  have hkept₃ := (hkept₂.mono (V := pairs true (pre ++ post)) fun q hq => by
    simp only [pairs_append, pairs_same, List.mem_append, List.mem_cons] at hq ⊢
    exact hq.imp_right .inr).trans (hfreed.kept.mono fun q hq =>
      hperm.mem_iff.mpr (List.mem_cons_of_mem _ hq))
  refine ⟨(a' + 8, w₃), ?_, .inl ⟨hkept₃, fun hmin => htop ?_, cs₃, B₃, a', s', rfl,
    hap, hsize, hheap₃,
    hused₃ ▸ hperm, fun i hi => ?_⟩⟩
  · rw [moveBlock, hres, Option.bind_some, if_pos (show a' + 8 ≠ 0 by omega), hm₂,
      hfree, Option.map_some]
  · rcases hs.top with hsame | ⟨-, htop⟩
    · exact hsame.topMin hmin
    · exact htop.topMin
  · calc w₃.mem (a' + 8 + i) = m₂ (a' + 8 + i) :=
          hfreed.kept.quiet (a', s') (hperm.mem_iff.mpr List.mem_cons_self) _ (by simp only; omega)
            (by simp only; omega)
      _ = w₁.mem (a + 8 + i) := by
          rw [← hm₂, Memory.copy_apply_inside _ _ _ _ _ (by omega) hi]
      _ = w.mem (a + 8 + i) :=
        hkept.quiet (a, s) (by simp) _ (by simp only; omega) (by simp only; omega)

end

end ElcoOs.Kmalloc
