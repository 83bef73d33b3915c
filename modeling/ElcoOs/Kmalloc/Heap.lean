import ElcoOs.Kmalloc.BinOps
import ElcoOs.Kmalloc.Tiling

/-!
# The heap

`HeapAt` ties a state and its memory to a list of chunks and a list of binned
ones. The edits the allocator makes are few: a free chunk is marked used whole
or after a split, and chunks go into the bins and come out of them. Each keeps
`HeapAt` and leaves the payloads of the used chunks alone.
-/

namespace ElcoOs.Kmalloc

open Word32

variable {ε : Type}

/-- The top chunk at `a` and the dummy after it, in a heap that ends at `e`. An
empty top is the dummy itself. -/
structure TopAt (m : Memory) (a s e : Nat) : Prop where
  align : s % 8 = 0
  fits : a + s + 8 ≤ e
  header : s ≠ 0 → header m a = s + flags false true
  foot : s ≠ 0 → prevFoot m (a + s) = s
  dummy : Kmalloc.header m (a + s) = 0

/-- Every chunk of `B` lies in one of `Q`. -/
def Covered (B Q : List (Nat × Nat)) : Prop := ∀ p ∈ B, ∃ q ∈ Q, q.1 ≤ p.1 ∧ p.1 + p.2 ≤ q.1 + q.2

structure Arena (st : KmallocState) : Prop where
  isInit : st.isInit
  align : st.heapStart % 8 = 0
  fits : st.heapStart + st.heapSize < 4294967296
  size : st.heapSize % 8 = 0
  initial : st.initialHeapSize ≤ st.heapSize

/-- The chunks `cs` lie from the start of the heap to the top, and the bins hold
`B`, which are free chunks of `cs` or were parts of some. -/
structure HeapAt (w : World ε) (cs : List Chunk) (B : List (Nat × Nat)) : Prop where
  arena : Arena w.kmstate
  tiled : Tiled w.mem w.kmstate.heapStart true cs w.kmstate.topChunk true
  top : TopAt w.mem w.kmstate.topChunk w.kmstate.topChunkSize
    (w.kmstate.heapStart + w.kmstate.heapSize)
  bins : Bins w.kmstate.bins w.mem B
  extents : Extents B
  covered : Covered B (pairs false cs)

-- ---------------------------------------------------------------------------
-- Bounds
-- ---------------------------------------------------------------------------

theorem TopAt.congr {m m' : Memory} {a s e : Nat} (h : TopAt m a s e)
    (hm : ∀ x, a + 4 ≤ x → x < e → m' x = m x) : TopAt m' a s e := by
  have hfits := h.fits
  refine ⟨h.align, h.fits, fun hs => ?_, fun hs => ?_, ?_⟩
  · exact (Memory.load32_congr fun x _ _ => hm x (by omega) (by omega)).trans (h.header hs)
  · have := h.align
    exact (Memory.load32_congr fun x _ _ => hm x (by omega) (by omega)).trans (h.foot hs)
  · exact (Memory.load32_congr fun x _ _ => hm x (by omega) (by omega)).trans h.dummy

theorem Covered.mono {B C Q : List (Nat × Nat)} (h : Covered B Q)
    (hs : ∀ p ∈ C, p ∈ B) : Covered C Q :=
  fun p hp => h p (hs p hp)

section
variable {w : World ε} {cs pre mid mid' post : List Chunk} {B B' C : List (Nat × Nat)} {c n : Chunk}
  {a e s r : Nat} {t y : Bool} {m' : Memory} {b : BinTables}

theorem HeapAt.start_ne (h : HeapAt w cs B) : w.kmstate.heapStart ≠ 0 := h.arena.isInit.1

theorem HeapAt.mem (h : HeapAt w cs B) (hc : c ∈ cs) :
    w.kmstate.heapStart ≤ c.addr ∧ c.addr + c.size ≤ w.kmstate.topChunk ∧
    16 ≤ c.size ∧ c.size % 8 = 0 ∧
      c.addr % 8 = 0 ∧ w.kmstate.topChunk + w.kmstate.topChunkSize + 8 < 4294967296 := by
  obtain ⟨hlo, hhi, t, hat⟩ := h.tiled.mem hc
  have := h.top.fits
  have := h.arena.fits
  exact ⟨hlo, hhi, hat.min, hat.align, h.tiled.addr_align h.arena.align hc, by omega⟩

theorem HeapAt.pairs_extents (h : HeapAt w cs B) (u : Bool) : Extents (pairs u cs) := by
  have := h.top.fits
  have := h.arena.fits
  exact (h.tiled.extents h.start_ne (by omega)).sublist (pairs_sublist u cs)

theorem HeapAt.addressOk (h : HeapAt w cs B) (hlo : w.kmstate.heapStart ≤ a)
    (hhi : a ≤ w.kmstate.topChunk) : addressOk a w.kmstate := by
  have := h.top.fits
  have := h.arena.fits
  exact ⟨hlo, by rw [add_of_lt (by omega)]; omega⟩

theorem HeapAt.apart_used (h : HeapAt w cs B) (hc : c ∈ cs) (hu : c.used = true)
    {p : Nat × Nat} (hp : p ∈ B) :
    p.1 + p.2 ≤ c.addr ∨ c.addr + c.size ≤ p.1 := by
  obtain ⟨q, hq, hlo, hhi⟩ := h.covered p hp
  have hqc := mem_pairs.mp hq
  rcases h.tiled.apart hqc hc with rfl | hap
  · simp at hu
  · simp only at hap
    omega

theorem HeapAt.below_top (h : HeapAt w cs B) {p : Nat × Nat} (hp : p ∈ B) :
    w.kmstate.heapStart ≤ p.1 ∧ p.1 + p.2 ≤ w.kmstate.topChunk := by
  obtain ⟨q, hq, hlo, hhi⟩ := h.covered p hp
  have := h.mem (mem_pairs.mp hq)
  simp only at this
  omega

-- ---------------------------------------------------------------------------
-- Edits of the bins
-- ---------------------------------------------------------------------------

theorem Inside.quiet (h : HeapAt w cs B) (hin : Inside C w.mem m')
    (hC : Covered C (pairs false cs)) :
    Quiet (pairs true cs) w.mem m' := by
  intro p hp x hlo hhi
  refine hin x fun q hq => ?_
  obtain ⟨f, hf, hflo, hfhi⟩ := hC q hq
  rcases h.tiled.apart (mem_pairs.mp hp) (mem_pairs.mp hf) with he | hap
  · simp at he
  · simp only at hap
    omega

theorem HeapAt.rebin (h : HeapAt w cs B) (hb : Bins b m' B') (hin : Inside C w.mem m')
    (hC : Covered C (pairs false cs)) (hx : Extents B') (hcov : Covered B' (pairs false cs)) :
    HeapAt (w.setBins b m') cs B' ∧ Quiet (pairs true cs) w.mem m' := by
  refine ⟨⟨⟨h.arena.isInit, h.arena.align, h.arena.fits, h.arena.size, h.arena.initial⟩, ?_,
    ?_, hb, hx, hcov⟩,
    hin.quiet h hC⟩
  · refine h.tiled.congr_inside fun x _ _ hx => hin x fun q hq => ?_
    obtain ⟨f, hf, hflo, hfhi⟩ := hC q hq
    have := hx f hf
    omega
  · refine h.top.congr fun x hlo _ => hin x fun q hq => ?_
    obtain ⟨f, hf, hflo, hfhi⟩ := hC q hq
    have := (h.mem (mem_pairs.mp hf)).2.1
    simp only at this
    omega

theorem HeapAt.bin (h : HeapAt w cs B) (hf : (a, s) ∈ pairs false cs) (hB : ∀ p ∈ B, Apart p (a, s))
    (hacc : Accepts B s) :
    ∃ b m', binChunk w a = some (w.setBins b m') ∧ HeapAt (w.setBins b m') cs ((a, s) :: B) ∧
      Quiet (pairs true cs) w.mem m' ∧ Fields ((a, s) :: B) w.mem m' := by
  have hx := (h.pairs_extents false).extent _ hf
  have hmin : 16 ≤ s := hx.min
  have hnot : (a, s) ∉ B := fun hm => by
    have := hB _ hm
    simp only [Apart] at this
    omega
  have hxs : Extents ((a, s) :: B) := by
    refine ⟨fun p hp => ?_, List.nodup_cons.mpr ⟨hnot, h.extents.nodup⟩, fun p hp q hq hne => ?_⟩
    · rcases List.mem_cons.mp hp with rfl | hp
      · exact hx
      · exact h.extents.extent p hp
    · rcases List.mem_cons.mp hp with rfl | hp <;> rcases List.mem_cons.mp hq with rfl | hq
      · exact absurd rfl hne
      · exact (hB q hq).symm
      · exact hB p hp
      · exact h.extents.apart p hp q hq hne
  obtain ⟨-, -, t, hat⟩ := h.tiled.mem (mem_pairs.mp hf)
  have hsize : getChunkSize w.mem a = s := getChunkSize_of_header hat.header hat.align
  obtain ⟨b, m', hres, hb, hin⟩ := binChunk_spec h.bins hxs hsize hacc
  have hcov : Covered ((a, s) :: B) (pairs false cs) := by
    intro p hp
    rcases List.mem_cons.mp hp with rfl | hp
    · exact ⟨_, hf, Nat.le_refl _, Nat.le_refl _⟩
    · exact h.covered p hp
  obtain ⟨hat', hquiet⟩ := h.rebin hb (hin.inside fun p hp => (hxs.extent p hp).min) hcov hxs hcov
  exact ⟨b, m', hres, hat', hquiet, hin⟩

theorem HeapAt.drop (h : HeapAt w cs B) (hp : B.Perm ((a, s) :: B')) (hb : Bins b m' B')
    (hin : Fields B w.mem m') : HeapAt (w.setBins b m') cs B' ∧ Quiet (pairs true cs) w.mem m' :=
  have hsub : ∀ p ∈ B', p ∈ B := fun _ hm => hp.mem_iff.mpr (List.mem_cons_of_mem _ hm)
  h.rebin hb (hin.inside fun p hm => (h.extents.extent p hm).min) h.covered
    ((h.extents.perm hp).sublist (List.sublist_cons_self ..)) (h.covered.mono hsub)

theorem HeapAt.unbin (h : HeapAt w cs B) (hp : B.Perm ((a, s) :: B')) :
    ∃ b m', unbinChunk w a = some (w.setBins b m') ∧ HeapAt (w.setBins b m') cs B' ∧
      Quiet (pairs true cs) w.mem m' ∧ Fields B w.mem m' := by
  obtain ⟨b, m', hres, hb, hin⟩ := unbinChunk_spec h.bins h.extents hp
  obtain ⟨hat', hquiet⟩ := h.drop hp hb hin
  exact ⟨b, m', hres, hat', hquiet, hin⟩

theorem HeapAt.apart_dropped (h : HeapAt w cs B) (hp : B.Perm ((a, s) :: B')) :
    ∀ p ∈ B', Apart p (a, s) := by
  have hx := h.extents.perm hp
  have hnd := (List.nodup_cons.mp hx.nodup).1
  exact fun p hm => hx.apart p (List.mem_cons_of_mem _ hm) _ List.mem_cons_self fun he =>
    hnd (he ▸ hm)

-- ---------------------------------------------------------------------------
-- Edits of the tiling
-- ---------------------------------------------------------------------------

theorem HeapAt.resplice (mid mid' : List Chunk) (h : HeapAt w (pre ++ (mid ++ post)) B)
    (hpre : Tiled w.mem w.kmstate.heapStart true pre a t) (hmid : Tiled w.mem a t mid e y)
    (hpost : Tiled w.mem e y post w.kmstate.topChunk true)
    (hm : ∀ x, x < a + 4 ∨ e + 4 ≤ x → (∀ p ∈ B, x < p.1 + 8 ∨ p.1 + p.2 ≤ x) → m' x = w.mem x)
    (hmid' : Tiled m' a t mid' e y) (hb : Bins b m' B') (hsub : ∀ p ∈ B', p ∈ B) (hx : Extents B')
    (hB : ∀ p ∈ B', p.1 + p.2 ≤ a ∨ e ≤ p.1) (hq : Quiet (pairs true mid) w.mem m') :
    HeapAt (w.setBins b m') (pre ++ (mid' ++ post)) B' ∧
    Quiet (pairs true (pre ++ (mid ++ post))) w.mem m' := by
  have hle := hmid.le
  have hle' := hpost.le
  -- a byte out of the stretch and of the insides of the free chunks around it
  have hout : ∀ x, x < a + 4 ∨ e + 4 ≤ x →
      (∀ q ∈ pairs false pre ++ pairs false post, x < q.1 + 8 ∨ q.1 + q.2 ≤ x) →
      m' x = w.mem x := by
    intro x hx hfree
    refine hm x hx fun p hp => ?_
    obtain ⟨q, hq, hlo, hhi⟩ := h.covered p hp
    simp only [pairs_append, List.mem_append] at hq hfree
    rcases hq with hq | hq | hq
    · have := hfree q (.inl hq)
      omega
    · have := hmid.mem (mem_pairs.mp hq)
      simp only at this
      omega
    · have := hfree q (.inr hq)
      omega
  have hbefore : ∀ {u : Bool}, ∀ q ∈ pairs u pre, q.1 + q.2 ≤ a :=
    fun q hq => (hpre.mem (mem_pairs.mp hq)).2.1
  have hafter : ∀ {u : Bool}, ∀ q ∈ pairs u post, e ≤ q.1 :=
    fun q hq => (hpost.mem (mem_pairs.mp hq)).1
  refine ⟨⟨⟨h.arena.isInit, h.arena.align, h.arena.fits, h.arena.size, h.arena.initial⟩, ?_, ?_, hb,
    hx, fun p hp => ?_⟩, ?_⟩
  · refine tiled_append.mpr ⟨a, t, hpre.congr_inside fun x _ hx hfree =>
      hout x (.inl hx) fun q hq => ?_,
      tiled_append.mpr ⟨e, y, hmid', hpost.congr_inside fun x hx _ hfree =>
      hout x (.inr hx) fun q hq => ?_⟩⟩
    · rcases List.mem_append.mp hq with hq | hq
      · exact hfree q hq
      · have := hafter q hq
        omega
    · rcases List.mem_append.mp hq with hq | hq
      · have := hbefore q hq
        omega
      · exact hfree q hq
  · refine h.top.congr fun x hx _ => hm x (.inr (Nat.le_trans (by omega) hx)) fun p hp => ?_
    have := (h.below_top hp).2
    omega
  · obtain ⟨q, hq, hlo, hhi⟩ := h.covered p (hsub p hp)
    have hmin := (hx.extent p hp).min
    have := hB p hp
    simp only [pairs_append, List.mem_append] at hq ⊢
    rcases hq with hq | hq | hq
    · exact ⟨q, .inl hq, hlo, hhi⟩
    · have := hmid.mem (mem_pairs.mp hq)
      simp only at this
      omega
    · exact ⟨q, .inr (.inr hq), hlo, hhi⟩
  · intro p hp x hlo hhi
    have hfree : ∀ q ∈ B, x < q.1 + 8 ∨ q.1 + q.2 ≤ x := by
      intro q hqB
      have hap := h.apart_used (mem_pairs.mp hp) rfl hqB
      simp only at hap
      omega
    simp only [pairs_append, List.mem_append] at hp
    rcases hp with hp | hp | hp
    · have := hbefore p hp
      exact hm x (.inl (by omega)) hfree
    · exact hq p hp x hlo hhi
    · have := hafter p hp
      exact hm x (.inr (by omega)) hfree

theorem HeapAt.splice (mid mid' : List Chunk) (h : HeapAt w (pre ++ (mid ++ post)) B)
    (hpre : Tiled w.mem w.kmstate.heapStart true pre a t) (hmid : Tiled w.mem a t mid e y)
    (hpost : Tiled w.mem e y post w.kmstate.topChunk true)
    (hm : SameExcept (a + 4) (e + 4) w.mem m')
    (hmid' : Tiled m' a t mid' e y) (hB : ∀ p ∈ B, p.1 + p.2 ≤ a ∨ e ≤ p.1)
    (hq : Quiet (pairs true mid) w.mem m') :
    HeapAt (w.setMem m') (pre ++ (mid' ++ post)) B ∧
    Quiet (pairs true (pre ++ (mid ++ post))) w.mem m' := by
  have hbins : Bins w.kmstate.bins m' B := by
    refine h.bins.congr (fun p hp x hlo hhi => hm x ?_) h.extents.extent
    have := hB p hp
    omega
  exact h.resplice mid mid' hpre hmid hpost (fun x hx _ => hm x hx) hmid' hbins
    (fun _ hp => hp) h.extents hB hq

theorem HeapAt.splice_free (h : HeapAt w (pre ++ ⟨a, s, false⟩ :: post) B)
    (hB : ∀ p ∈ B, Apart p (a, s)) :
    ∃ n rest, post = n :: rest ∧ n.addr = a + s ∧ n.used = true ∧ ChunkAt w.mem ⟨a, s, false⟩ true ∧
      ChunkAt w.mem n false ∧ a ≠ 0 ∧ a + s + n.size + 8 < 4294967296 ∧
      ∀ (m' : Memory) (mid' : List Chunk), SameExcept (a + 4) (a + s + 8) w.mem m' →
        Tiled m' a true (mid' ++ [n]) (a + s + n.size) true →
        HeapAt (w.setMem m') (pre ++ (mid' ++ post)) B ∧
          Quiet (pairs true (pre ++ ⟨a, s, false⟩ :: post)) w.mem m' := by
  obtain ⟨t, hpre, hat, hpost⟩ := h.tiled.split
  obtain ⟨rfl, -⟩ := hat.free rfl
  obtain ⟨n, rest, rfl, hn, hu, hnat, hrest⟩ := hpost.next_used
  have hn : n.addr = a + s := hn
  have hmin := hnat.min
  have hle := hrest.le
  have hle' := hpre.le
  have := h.top.fits
  have := h.arena.fits
  have := h.start_ne
  simp only at hpre hle hrest hle'
  refine ⟨n, rest, rfl, hn, hu, hat, hnat, by omega, by omega, fun m' mid' hm hmid' => ?_⟩
  have hmid : Tiled w.mem a true [⟨a, s, false⟩, n] (a + s + n.size) true :=
    ⟨rfl, hat, hn, hnat, rfl, hu⟩
  have key := HeapAt.splice [⟨a, s, false⟩, n] (mid' ++ [n]) h hpre hmid hrest
    (hm.mono (Nat.le_refl _) (by omega)) hmid' (fun p hp => ?_) fun p hp x hlo hhi => hm x (.inr ?_)
  · simpa using key
  · have h1 := hB p hp
    have h2 := h.apart_used (c := n) (by simp) hu hp
    have h3 := (h.extents.extent p hp).min
    simp only [Apart] at h1
    omega
  · rw [pairs_true_free, pairs_cons, if_pos hu, pairs_nil, List.mem_singleton] at hp
    subst hp
    simp only at hlo
    omega

def markUsed (m : Memory) (chunk : Nat) : Memory :=
  let m := setHeader m chunk (header m chunk ||| cinuse)
  setHeader m (nextChunk m chunk) (header m (nextChunk m chunk) ||| pinuse)

/-- The writes that cut `c` bytes off a free chunk and leave `r` free. -/
def cutUsed (m : Memory) (a c r : Nat) : Memory :=
  setPrevFoot (setHeader (setHeader m a (c + flags true true)) (a + c) (r + flags false true))
    (a + c + r) r

theorem HeapAt.use (h : HeapAt w (pre ++ ⟨a, s, false⟩ :: post) B) (hB : ∀ p ∈ B, Apart p (a, s)) :
    HeapAt (w.setMem (markUsed w.mem a)) (pre ++ ⟨a, s, true⟩ :: post) B ∧
      Quiet (pairs true (pre ++ ⟨a, s, false⟩ :: post)) w.mem (markUsed w.mem a) := by
  obtain ⟨n, rest, rfl, hn, hu, hat, hnat, ha, hfits, hsplice⟩ := h.splice_free hB
  have hmin : 16 ≤ s := hat.min
  have halign : s % 8 = 0 := hat.align
  have hnmin := hnat.min
  have hh : header w.mem a = s + flags false true := hat.header
  have hnh : header w.mem (a + s) = n.size + flags true false := by
    rw [← hn, hnat.header, hu]
  have hmark : markUsed w.mem a =
      (w.mem.store32 (a + 4) (s + flags true true)).store32 (a + s + 4)
        (n.size + flags true true) := by
    have hread : header (setHeader w.mem a (s + flags true true)) a = s + flags true true :=
      Memory.load32_store32_same (by simp only [flags, cinuse, pinuse, if_true]; omega)
    have hnext : nextChunk (setHeader w.mem a (s + flags true true)) a = a + s := by
      rw [nextChunk, getChunkSize_of_header hread halign, add_of_lt (by omega)]
    have hkeep : header (setHeader w.mem a (s + flags true true)) (a + s) =
      n.size + flags true false :=
      (Memory.load32_store32_apart (by omega)).trans hnh
    rw [markUsed, hh, or_cinuse halign]
    simp only [hnext, hkeep, or_pinuse hnat.align]
    rfl
  rw [hmark]
  refine hsplice _ [⟨a, s, true⟩] ?_ ⟨rfl, ⟨halign, hmin, ?_, by simp⟩, hn,
    ⟨hnat.align, hnmin, ?_, by simp [hu]⟩,
    rfl, hu⟩
  · exact ((SameExcept.refl _ _ _).store (Nat.le_refl _) (by omega)).store (by omega) (by omega)
  · rw [header, Memory.load32_store32_apart (by simp only; omega)]
    exact Memory.load32_store32_same (by simp only [flags, cinuse, pinuse, if_true]; omega)
  · rw [header, hn,
      Memory.load32_store32_same (by simp only [flags, cinuse, pinuse, if_true]; omega), hu]

theorem HeapAt.cut {c : Nat} (h : HeapAt w (pre ++ ⟨a, c + r, false⟩ :: post) B)
    (hB : ∀ p ∈ B, Apart p (a, c + r)) (hc : 16 ≤ c) (hc8 : c % 8 = 0) (hr : 16 ≤ r) :
    HeapAt (w.setMem (cutUsed w.mem a c r)) (pre ++ ⟨a, c, true⟩ :: ⟨a + c, r, false⟩ :: post) B ∧
      Quiet (pairs true (pre ++ ⟨a, c + r, false⟩ :: post)) w.mem (cutUsed w.mem a c r) := by
  obtain ⟨n, rest, rfl, hn, hu, hat, hnat, ha, hfits, hsplice⟩ := h.splice_free hB
  have halign : (c + r) % 8 = 0 := hat.align
  have hnmin := hnat.min
  have hf : flags true true = 3 := rfl
  have hf' : flags false true = 1 := rfl
  refine hsplice _ [⟨a, c, true⟩, ⟨a + c, r, false⟩] ?_ ⟨rfl, ⟨hc8, hc, ?_, by simp⟩, rfl,
    ⟨by simp only; omega, hr, ?_, fun _ => ⟨rfl, ?_⟩⟩, by
      simp only; omega, ⟨hnat.align, hnmin, ?_, by simp [hu]⟩,
    by simp only; omega, hu⟩
  · exact (((SameExcept.refl _ _ _).store (Nat.le_refl _) (by omega)).store (by omega)
      (by omega)).store
      (by omega) (by omega)
  · simp only [header, cutUsed, setPrevFoot, setHeader]
    rw [Memory.load32_store32_apart (by omega), Memory.load32_store32_apart (by omega),
      Memory.load32_store32_same (by omega)]
  · simp only [header, cutUsed, setPrevFoot, setHeader]
    rw [Memory.load32_store32_apart (by omega), Memory.load32_store32_same (by omega)]
  · exact Memory.load32_store32_same (by omega)
  · simp only [header, cutUsed, setPrevFoot, setHeader]
    rw [Memory.load32_store32_apart (by omega), Memory.load32_store32_apart (by omega),
      Memory.load32_store32_apart (by omega)]
    exact hnat.header

-- ---------------------------------------------------------------------------
-- Edits at the top
-- ---------------------------------------------------------------------------

theorem HeapAt.of_prefix (w w' : World ε) (mid : List Chunk)
    (hpre : Tiled w.mem w'.kmstate.heapStart true pre a t)
    (hb : Bins w'.kmstate.bins w.mem B) (hx : Extents B) (hcov : Covered B (pairs false pre))
    (har : Arena w'.kmstate) (hm : ∀ x, w'.kmstate.heapStart ≤ x → x < a + 4 → w'.mem x = w.mem x)
    (hmid : Tiled w'.mem a t mid w'.kmstate.topChunk true)
    (htop : TopAt w'.mem w'.kmstate.topChunk w'.kmstate.topChunkSize
      (w'.kmstate.heapStart + w'.kmstate.heapSize)) :
    HeapAt w' (pre ++ mid) B ∧ Quiet (pairs true pre) w.mem w'.mem := by
  have hbelow : ∀ p ∈ B, w'.kmstate.heapStart ≤ p.1 ∧ p.1 + p.2 ≤ a := by
    intro p hp
    obtain ⟨q, hq, hlo, hhi⟩ := hcov p hp
    have := hpre.mem (mem_pairs.mp hq)
    simp only at this
    omega
  refine ⟨⟨har, tiled_append.mpr ⟨a, t, hpre.congr fun x _ _ => hm x (by omega) (by omega), hmid⟩,
    htop, ?_, hx, ?_⟩, ?_⟩
  · refine hb.congr (fun p hp x hlo hhi => hm x ?_ ?_) hx.extent
    · have := hbelow p hp
      omega
    · have := hbelow p hp
      omega
  · intro p hp
    obtain ⟨q, hq, hle⟩ := hcov p hp
    exact ⟨q, by rw [pairs_append]; exact List.mem_append_left _ hq, hle⟩
  · intro p hp x hlo hhi
    have := hpre.mem (mem_pairs.mp hp)
    simp only at this
    exact hm x (by omega) (by omega)

end

-- ---------------------------------------------------------------------------
-- Holes
-- ---------------------------------------------------------------------------

/-- A heap in which the bytes from `f` on, `fs` of them, are about to become a
free chunk. The chunk after them says `u` about whether they are in use; what is
binned may be a part of them that starts later. -/
structure HoleAt (w : World ε) (pre : List Chunk) (f fs : Nat) (u : Bool) (post : List Chunk)
    (B : List (Nat × Nat)) : Prop where
  arena : Arena w.kmstate
  before : Tiled w.mem w.kmstate.heapStart true pre f true
  after : Tiled w.mem (f + fs) u post w.kmstate.topChunk true
  align : fs % 8 = 0
  pos : 8 ≤ fs
  top : TopAt w.mem w.kmstate.topChunk w.kmstate.topChunkSize
    (w.kmstate.heapStart + w.kmstate.heapSize)
  bins : Bins w.kmstate.bins w.mem B
  extents : Extents B
  covered : Covered B ((f + 8, fs - 8) :: pairs false (pre ++ post))

section
variable {w : World ε} {cs pre mid post rest : List Chunk} {B : List (Nat × Nat)} {n : Chunk}
  {f fs s : Nat} {u : Bool} {m' : Memory}

theorem HeapAt.hole (mid : List Chunk) (h : HeapAt w (pre ++ (mid ++ post)) B)
    (hpre : Tiled w.mem w.kmstate.heapStart true pre f true)
    (hmid : Tiled w.mem f true mid (f + fs) u)
    (hpost : Tiled w.mem (f + fs) u post w.kmstate.topChunk true) (h8 : fs % 8 = 0) (hpos : 8 ≤ fs)
    (hB : ∀ p ∈ B, p.1 + p.2 ≤ f ∨ f + fs ≤ p.1) : HoleAt w pre f fs u post B := by
  refine ⟨h.arena, hpre, hpost, h8, hpos, h.top, h.bins, h.extents, fun p hp => ?_⟩
  obtain ⟨q, hq, hlo, hhi⟩ := h.covered p hp
  have hmin := (h.extents.extent p hp).min
  have := hB p hp
  simp only [pairs_append, List.mem_append] at hq
  refine ⟨q, List.mem_cons_of_mem _ ?_, hlo, hhi⟩
  simp only [pairs_append, List.mem_append]
  rcases hq with hq | hq | hq
  · exact .inl hq
  · have := hmid.mem (mem_pairs.mp hq)
    simp only at this
    omega
  · exact .inr hq

theorem HoleAt.absorb (h : HoleAt w pre f fs u (⟨f + fs, s, false⟩ :: post) B) :
    HoleAt w pre f (fs + s) false post B := by
  obtain ⟨-, hat, hpost⟩ := h.after
  have halign : s % 8 = 0 := hat.align
  have hfs := h.align
  have hpos := h.pos
  refine ⟨h.arena, h.before, by simpa [Nat.add_assoc] using hpost, by omega, by
    omega, h.top, h.bins,
    h.extents, fun p hp => ?_⟩
  obtain ⟨q, hq, hlo, hhi⟩ := h.covered p hp
  simp only [pairs_append, pairs_same, List.mem_cons, List.mem_append] at hq ⊢
  rcases hq with rfl | hq | rfl | hq
  · exact ⟨_, .inl rfl, hlo, by simp only at hhi ⊢; omega⟩
  · exact ⟨q, .inr (.inl hq), hlo, hhi⟩
  · exact ⟨_, .inl rfl, by simp only at hlo ⊢; omega, by simp only at hhi ⊢; omega⟩
  · exact ⟨q, .inr (.inr hq), hlo, hhi⟩

theorem HoleAt.fill (h : HoleAt w pre f fs u (n :: rest) B) (hu : n.used = true) (hmin : 16 ≤ fs)
    (hm : ∀ x, x < f + 4 ∨ f + 8 ≤ x ∧ x < f + fs ∨ f + fs + 8 ≤ x → m' x = w.mem x)
    (hh : header m' f = fs + flags false true)
    (hfoot : prevFoot m' (f + fs) = fs) (hn : header m' (f + fs) = n.size + flags true false) :
    HeapAt (w.setMem m') (pre ++ ⟨f, fs, false⟩ :: n :: rest) B ∧
      Quiet (pairs true (pre ++ n :: rest)) w.mem m' := by
  obtain ⟨hna, hnat, hrest⟩ := h.after
  have hnmin := hnat.min
  have hle := hrest.le
  have hle' := h.before.le
  have hcov := h.covered
  have hapart : ∀ p ∈ B, (p.1 + p.2 ≤ f ∨ f + 8 ≤ p.1) ∧
    (p.1 + p.2 ≤ f + fs ∨ f + fs + n.size ≤ p.1) := by
    intro p hp
    obtain ⟨q, hq, hlo, hhi⟩ := hcov p hp
    have hpmin := (h.extents.extent p hp).min
    simp only [pairs_append, List.mem_cons, List.mem_append, pairs_cons, hu,
      Bool.true_eq_false, if_false] at hq
    rcases hq with rfl | hq | hq
    · simp only at hlo hhi
      omega
    · have := (h.before.mem (mem_pairs.mp hq)).2.1
      simp only at this
      omega
    · have := (hrest.mem (mem_pairs.mp hq)).1
      simp only at this
      omega
  rw [hu] at hrest
  refine ⟨⟨h.arena, ?_, ?_, ?_, h.extents, fun p hp => ?_⟩, ?_⟩
  · refine h.before.splice [⟨f, fs, false⟩, n] hrest (fun x hx => hm x (by omega)) ?_
    refine ⟨rfl, ⟨h.align, hmin, hh, fun _ => ⟨rfl, hfoot⟩⟩, hna,
      ⟨hnat.align, hnmin, ?_, by simp [hu]⟩, rfl, hu⟩
    rw [hna, hu]
    exact hn
  · exact h.top.congr fun x hx _ => hm x (.inr (.inr (Nat.le_trans (by omega) hx)))
  · refine h.bins.congr (fun p hp x hlo hhi => hm x ?_) h.extents.extent
    have := hapart p hp
    have := (h.extents.extent p hp).min
    omega
  · obtain ⟨q, hq, hlo, hhi⟩ := hcov p hp
    simp only [pairs_append, pairs_same, List.mem_cons, List.mem_append] at hq ⊢
    rcases hq with rfl | hq | hq
    · exact ⟨_, .inr (.inl rfl), by simp only at hlo ⊢; omega, by simp only at hhi ⊢; omega⟩
    · exact ⟨q, .inl hq, hlo, hhi⟩
    · exact ⟨q, .inr (.inr hq), hlo, hhi⟩
  · intro p hp x hlo hhi
    simp only [pairs_append, List.mem_append, pairs_cons, hu, if_true, List.mem_cons] at hp
    rcases hp with hp | rfl | hp
    · have := (h.before.mem (mem_pairs.mp hp)).2.1
      simp only at this
      exact hm x (.inl (by omega))
    · simp only at hlo
      exact hm x (.inr (.inr (by omega)))
    · have := (hrest.mem (mem_pairs.mp hp)).1
      simp only at this
      exact hm x (.inr (.inr (by omega)))

end

end ElcoOs.Kmalloc
