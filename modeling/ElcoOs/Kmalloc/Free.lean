import ElcoOs.Kmalloc.Intern

/-!
# `kfree` keeps the heap

A freed chunk and the free chunks next to it are a hole. What
`merge_free_chunks` makes of it depends on what follows: a used chunk, the top,
the designated victim or a binned chunk; and on whether it starts where the
victim does.
-/

namespace ElcoOs.Kmalloc

open Word32

variable {ε : Type}

/-- What is free next to a hole at `f`: the binned chunks, and the victim unless
it has become part of the hole. -/
def FreeBeside (st : KmallocState) (f : Nat) (Q B : List (Nat × Nat)) : Prop :=
  (st.dVictim = 0 → st.dVictimSize = 0) ∧
    (st.dVictim = f ∧ Q.Perm B ∨ st.dVictim ≠ f ∧ Q.Perm (victims st ++ B))

def TopMin (st : KmallocState) : Prop := st.topChunkSize = 0 ∨ 16 ≤ st.topChunkSize

def slack (st : KmallocState) : Nat :=
  st.heapStart + st.heapSize - (st.topChunk + st.topChunkSize + 8)

/-- The heap after a step that frees: the chunks `U` are used. -/
structure Freed (heapEnd : ε → Nat) (P : Prop) (w w' : World ε) (U : List (Nat × Nat)) : Prop where
  kept : Kept heapEnd P U w w'
  slack : slack w'.kmstate = slack w.kmstate
  heap : ∃ cs' B', Heap w' cs' B' ∧ pairs true cs' = U

theorem SameTop.slack {st st' : KmallocState} (h : SameTop st st')
    (hs : st'.heapStart = st.heapStart) :
    slack st' = slack st := by
  rw [Kmalloc.slack, Kmalloc.slack, h.chunk, h.size, h.heapSize, hs]

theorem SameTop.topMin {st st' : KmallocState} (h : SameTop st st')
    (hm : TopMin st) : TopMin st' := by
  rw [TopMin, h.size]
  exact hm

section
variable {heapEnd : ε → Nat} {P : Prop} {w w' : World ε} {cs pre post rest : List Chunk}
  {B B' Q : List (Nat × Nat)} {a f fs s : Nat} {u : Bool} {n : Chunk} {cb : Callbacks ε}

theorem FreeBeside.pos (h : FreeBeside w.kmstate f Q B) (hne : w.kmstate.dVictim ≠ f) :
    Q.Perm (victims w.kmstate ++ B) := by
  rcases h.2 with ⟨he, -⟩ | ⟨-, hp⟩
  · exact absurd he hne
  · exact hp

theorem HeapAt.to_victim (h : HeapAt w cs B) (hf : f ≠ 0)
    (hp : (pairs false cs).Perm ((f, fs) :: B)) :
    Heap (w.setDVictim f fs) cs B :=
  ⟨h.setDVictim, by rw [victims_setDVictim hf]; exact hp, fun h0 => absurd h0 hf⟩

theorem HeapAt.to_bin (heapEnd : ε → Nat) (h : HeapAt w cs B)
    (hp : (pairs false cs).Perm ((f, fs) :: (victims w.kmstate ++ B)))
    (hno : w.kmstate.dVictim = 0 → w.kmstate.dVictimSize = 0) (hacc : Accepts B fs) :
    ∃ w', binChunk w f = some w' ∧ Heap w' cs ((f, fs) :: B) ∧ Kept heapEnd P (pairs true cs) w w' ∧
      SameTop w.kmstate w'.kmstate ∧ Fields ((f, fs) :: B) w.mem w'.mem := by
  have hx := (h.pairs_extents false).perm hp
  have hnd := (List.nodup_cons.mp hx.nodup).1
  have hin : ∀ p ∈ B, p ∈ victims w.kmstate ++ B := fun p hp => List.mem_append_right _ hp
  obtain ⟨b, m', hres, hat, hquiet, hfields⟩ := h.bin (a := f) (s := fs)
    (hp.mem_iff.mpr List.mem_cons_self)
    (fun p hpm => hx.apart p (List.mem_cons_of_mem _ (hin p hpm)) _ List.mem_cons_self
      fun he => hnd (he ▸ hin p hpm)) hacc
  exact ⟨_, hres, ⟨hat, hp.trans List.perm_middle.symm, hno⟩, Kept.of_bins hquiet, ⟨rfl, rfl, rfl⟩,
    hfields⟩

-- ---------------------------------------------------------------------------
-- A used chunk after the hole
-- ---------------------------------------------------------------------------

theorem HoleAt.close (h : HoleAt w pre f fs true (n :: rest) B) (hu : n.used = true)
    (hmin : 16 ≤ fs) :
    let m := setPrevFoot (setHeader w.mem f (fs ||| pinuse)) (f + fs) fs
    let m' := setHeader m (f + fs) (header m (f + fs) &&& not32 pinuse)
    HeapAt (w.setMem m') (pre ++ ⟨f, fs, false⟩ :: n :: rest) B ∧
    Quiet (pairs true (pre ++ n :: rest)) w.mem m' := by
  obtain ⟨hna, hnat, hrest⟩ := h.after
  have hnmin := hnat.min
  have hle := hrest.le
  have htop := h.top.fits
  have harena := h.arena.fits
  have halign := h.align
  have hor : fs ||| pinuse = fs + 1 := size_or_pinuse halign
  have hf1 : flags false true = 1 := rfl
  have hf2 : flags true false = 2 := rfl
  have hhdr : header (setPrevFoot (setHeader w.mem f (fs + 1)) (f + fs) fs) (f + fs) =
    n.size + flags true true := by
    have h0 : header w.mem (f + fs) = n.size + flags true true := by
      rw [← hna, hnat.header, hu]
    rw [← h0, header, setPrevFoot, setHeader, Memory.load32_store32_apart (by omega),
      Memory.load32_store32_apart (by omega)]
    rfl
  simp only [hor, hhdr, and_not_pinuse hnat.align (show n.size < 4294967288 by omega)]
  refine h.fill hu hmin (fun x hx => ?_) ?_ ?_ ?_
  · simp only [setHeader, setPrevFoot]
    rw [Memory.store32_apply (by omega), Memory.store32_apply (by omega),
      Memory.store32_apply (by omega)]
  · simp only [header, setHeader, setPrevFoot]
    rw [Memory.load32_store32_apart (by omega), Memory.load32_store32_apart (by omega),
      Memory.load32_store32_same (by omega), hf1]
  · simp only [prevFoot, setHeader, setPrevFoot]
    rw [Memory.load32_store32_apart (by omega), Memory.load32_store32_same (by omega)]
  · exact Memory.load32_store32_same (by omega)

theorem HoleAt.close_free (h : HoleAt w pre f fs false (n :: rest) B) (hu : n.used = true)
    (hmin : 16 ≤ fs) :
    HeapAt (w.setMem (setPrevFoot (setHeader w.mem f (fs ||| pinuse)) (f + fs) fs))
        (pre ++ ⟨f, fs, false⟩ :: n :: rest) B ∧
      Quiet (pairs true (pre ++ n :: rest)) w.mem (setPrevFoot (setHeader w.mem f (fs ||| pinuse))
        (f + fs) fs) := by
  obtain ⟨hna, hnat, hrest⟩ := h.after
  have hnmin := hnat.min
  have hle := hrest.le
  have htop := h.top.fits
  have harena := h.arena.fits
  have halign := h.align
  have hor : fs ||| pinuse = fs + 1 := size_or_pinuse halign
  have hf1 : flags false true = 1 := rfl
  rw [hor]
  refine h.fill hu hmin (fun x hx => ?_) ?_ ?_ ?_
  · simp only [setHeader, setPrevFoot]
    rw [Memory.store32_apply (by omega), Memory.store32_apply (by omega)]
  · simp only [header, setHeader, setPrevFoot]
    rw [Memory.load32_store32_apart (by omega), Memory.load32_store32_same (by omega), hf1]
  · exact Memory.load32_store32_same (by omega)
  · have h0 : header w.mem (f + fs) = n.size + flags true false := by
      rw [← hna, hnat.header, hu]
    rw [← h0, header, setHeader, setPrevFoot, Memory.load32_store32_apart (by omega),
      Memory.load32_store32_apart (by omega)]
    rfl

theorem HeapAt.place (heapEnd : ε → Nat) (h : HeapAt w cs B) (hbeside : FreeBeside w.kmstate f Q B)
    (hf : f ≠ 0)
    (hp : (pairs false cs).Perm ((f, fs) :: Q)) (hacc : w.kmstate.dVictim ≠ f → Accepts B fs) :
    ∃ w' B', (if f = w.kmstate.dVictim then some (w.setDVictim f fs) else binChunk w f) = some w' ∧
      Heap w' cs B' ∧ Kept heapEnd P (pairs true cs) w w' ∧ SameTop w.kmstate w'.kmstate ∧
      (w.kmstate.dVictim ≠ f → (f, fs) ∈ B') ∧ (∀ q ∈ B', q.1 = f ∨ q ∈ B) ∧
      Fields (if w.kmstate.dVictim = f then B else (f, fs) :: B) w.mem w'.mem := by
  by_cases hdv : f = w.kmstate.dVictim
  · rw [if_pos hdv]
    rcases hbeside.2 with ⟨-, hq⟩ | ⟨hne, -⟩
    · exact ⟨_, B, rfl, h.to_victim hf (hp.trans (hq.cons _)), Kept.setDVictim, ⟨rfl, rfl, rfl⟩,
        fun hne => absurd hdv.symm hne, fun _ hq => .inr hq, fun _ _ => rfl⟩
    · exact absurd hdv.symm hne
  · rw [if_neg hdv]
    have hne : w.kmstate.dVictim ≠ f := fun he => hdv he.symm
    obtain ⟨w', hres, hheap, hkept, htop, hfields⟩ := h.to_bin heapEnd (P := P)
      (hp.trans ((hbeside.pos hne).cons _)) hbeside.1 (hacc hne)
    refine ⟨w', _, hres, hheap, hkept, htop, fun _ => List.mem_cons_self, fun q hq => ?_, ?_⟩
    · exact (List.mem_cons.mp hq).imp_left (congrArg Prod.fst)
    · rw [if_neg hne]
      exact hfields

-- ---------------------------------------------------------------------------
-- Merging
-- ---------------------------------------------------------------------------

/-- The last step of `merge_free_chunks` may have to bin a chunk: the hole, or
the hole with the binned chunk after it. -/
def MergeOk (st : KmallocState) (f fs : Nat) (post : List Chunk) (B : List (Nat × Nat)) : Prop :=
  match post with
  | [] => st.heapSize < st.initialHeapSize + 0x7FFFF000
  | n :: _ => st.dVictim ≠ f →
      if n.used = true then Accepts B fs
      else st.dVictim ≠ n.addr → Accepts B (fs + n.size)

/-- Where the hole has gone, unless it starts where the victim did: into the top,
into the victim after it, or into a bin, with a binned chunk after it or alone. -/
def Settled (st st' : KmallocState) (f fs : Nat) (post : List Chunk)
    (B' : List (Nat × Nat)) : Prop :=
  match post with
  | [] => st'.topChunk = f
  | n :: _ => st.dVictim ≠ f →
      if n.used = true then (f, fs) ∈ B'
      else if st.dVictim = n.addr then st'.dVictim = f ∧ st'.dVictimSize = fs + n.size
      else (f, fs + n.size) ∈ B'

/-- The size of the chunk that goes into a bin, if one does. -/
def binnedSize (st : KmallocState) (f fs : Nat) (post : List Chunk) : Option Nat :=
  match post with
  | [] => none
  | n :: _ =>
    if st.dVictim = f then none
    else if n.used = true then some fs
    else if st.dVictim = n.addr then none
    else some (fs + n.size)

structure Merged (heapEnd : ε → Nat) (P : Prop) (w w' : World ε) (U : List (Nat × Nat)) (f fs : Nat)
    (post : List Chunk) (B : List (Nat × Nat)) :
    Prop where
  kept : Kept heapEnd P U w w'
  slack : slack w'.kmstate = slack w.kmstate
  heap : ∃ cs' B', Heap w' cs' B' ∧ pairs true cs' = U ∧
    Settled w.kmstate w'.kmstate f fs post B' ∧ ∀ q ∈ B', q.1 = f ∨ q ∈ B
  topMin : (post = [] → 16 ≤ fs + w.kmstate.topChunkSize) → TopMin w.kmstate → TopMin w'.kmstate

/-- A byte of the hole that is not written: it is behind the links of a chunk that goes into a
bin, and what joins the top is still in the heap there, and not in the dummy. -/
structure Stale (st st' : KmallocState) (f fs : Nat) (post : List Chunk) (x : Nat) : Prop where
  after : f + 8 ≤ x
  before : x < f + fs
  links : ∀ s, binnedSize st f fs post = some s → f + 16 ≤ x ∧ (s < minLargeSize ∨ f + 32 ≤ x)
  top : post = [] → x < st'.heapStart + st'.heapSize ∧
    (x < f + st'.topChunkSize ∨ f + st'.topChunkSize + 8 ≤ x)

/-- What the hole itself has become. -/
structure Filled (heapEnd : ε → Nat) (P : Prop) (w w' : World ε) (U : List (Nat × Nat)) (f fs : Nat)
    (post : List Chunk) (B : List (Nat × Nat)) : Prop
    extends Merged heapEnd P w w' U f fs post B where
  heapSize : post ≠ [] → w'.kmstate.heapSize = w.kmstate.heapSize
  header : ∀ n ∈ post.head?,
    header w'.mem f = (if n.used = true then fs else fs + n.size) + flags false true
  stale : ∀ x, Stale w.kmstate w'.kmstate f fs post x → w'.mem x = w.mem x

theorem Merged.freed {U : List (Nat × Nat)} (h : Merged heapEnd P w w' U f fs post B) :
    Freed heapEnd P w w' U := by
  obtain ⟨cs', B', hheap, huse, -⟩ := h.heap
  exact ⟨h.kept, h.slack, cs', B', hheap, huse⟩

theorem Merged.after {U : List (Nat × Nat)} {w₁ : World ε}
    (h : Merged heapEnd P w₁ w' U f fs post B)
    (hk : Kept heapEnd P U w w₁) (hst : w₁.kmstate = w.kmstate) :
    Merged heapEnd P w w' U f fs post B := by
  obtain ⟨hkept, hslack, hheap, htop⟩ := h
  rw [hst] at hslack hheap htop
  exact ⟨hk.trans hkept, hslack, hheap, htop⟩

theorem FreeBeside.mem {st : KmallocState} {p : Nat × Nat} (h : FreeBeside st f Q B) (hp : p ∈ B) :
    p ∈ Q := by
  rcases h.2 with ⟨-, hq⟩ | ⟨-, hq⟩
  · exact hq.mem_iff.mpr hp
  · exact hq.mem_iff.mpr (List.mem_append_right _ hp)

theorem HoleAt.apart {p : Nat × Nat} (h : HoleAt w pre f fs u post B)
    (hbeside : FreeBeside w.kmstate f (pairs false (pre ++ post)) B) (hp : p ∈ B) :
    p.1 + p.2 ≤ f ∨ f + fs ≤ p.1 := by
  have hmem := hbeside.mem hp
  rw [pairs_append, List.mem_append] at hmem
  exact hmem.imp (fun hm => (h.before.mem (mem_pairs.mp hm)).2.1)
    fun hm => (h.after.mem (mem_pairs.mp hm)).1

theorem Stale.apart {st st' : KmallocState} {x : Nat} {p : Nat × Nat}
    (hx : Stale st st' f fs post x) (hmin : 16 ≤ p.2) (hp : p.1 + p.2 ≤ f ∨ f + fs ≤ p.1) :
    x < p.1 + 8 ∨ p.1 + 16 ≤ x ∧ (p.2 < minLargeSize ∨ p.1 + 32 ≤ x) := by
  have hlarge : minLargeSize = 256 := rfl
  have hlo := hx.after
  have hhi := hx.before
  omega

theorem Fields.stale {st st' : KmallocState} {m m' : Memory} {x : Nat}
    (h : Fields (if st.dVictim = f then B else (f, s) :: B) m m')
    (hB : ∀ p ∈ B, p.1 + p.2 ≤ f ∨ f + fs ≤ p.1) (hmin : ∀ p ∈ B, 16 ≤ p.2)
    (hs : st.dVictim ≠ f → binnedSize st f fs post = some s) (hx : Stale st st' f fs post x) :
    m' x = m x := by
  refine h x ?_
  split
  · exact fun p hp => hx.apart (hmin p hp) (hB p hp)
  · intro p hp
    rcases List.mem_cons.mp hp with rfl | hp
    · exact .inr (hx.links s (hs ‹_›))
    · exact hx.apart (hmin p hp) (hB p hp)

theorem pairs_absorb (f fs s : Nat) : pairs true (pre ++ ⟨f + fs, s, false⟩ :: rest) =
    pairs true (pre ++ rest) := by
  simp

theorem merge_used (cb : Callbacks ε) (heapEnd : ε → Nat) (h : HoleAt w pre f fs true (n :: rest) B)
    (hu : n.used = true) (hmin : 16 ≤ fs)
    (hbeside : FreeBeside w.kmstate f (pairs false (pre ++ n :: rest)) B)
    (hok : MergeOk w.kmstate f fs (n :: rest) B) :
    ∃ w', mergeFreeChunks cb w f fs (f + fs) = some w' ∧
      Filled heapEnd P w w' (pairs true (pre ++ n :: rest)) f fs (n :: rest) B := by
  obtain ⟨hna, hnat, hrest⟩ := h.after
  have hf : f ≠ 0 := by
    have := h.before.le
    have := h.arena.isInit.1
    omega
  have hinuse : isInuse w.mem (f + fs) := by
    rw [← hna]
    exact (isInuse_of_header hnat.header hnat.align).mpr hu
  obtain ⟨hat, hquiet⟩ := h.close hu hmin
  have hp :
    (pairs false (pre ++ ⟨f, fs, false⟩ :: n :: rest)).Perm ((f, fs) ::
      pairs false (pre ++ n :: rest)) := by
    simp only [pairs_append, pairs_same]
    exact List.perm_middle
  simp only [MergeOk, hu, if_true] at hok
  have huse : pairs true (pre ++ ⟨f, fs, false⟩ :: n :: rest) = pairs true (pre ++ n :: rest) :=
    by simp
  obtain ⟨w', B', hres, hheap, hkept, htop, hin, hold, hfields⟩ :=
    hat.place heapEnd (P := P) hbeside hf hp hok
  rw [huse] at hkept
  have hkept' : Kept heapEnd P (pairs true (pre ++ n :: rest)) w w' :=
    (Kept.of_quiet hquiet).trans hkept
  have hsame : SameTop w.kmstate w'.kmstate := ⟨htop.chunk, htop.size, htop.heapSize⟩
  refine ⟨w', ?_, ⟨hkept', hsame.slack hkept'.start, ⟨_, B', hheap, huse, fun hne => ?_, hold⟩,
    fun _ => hsame.topMin⟩, fun _ => hsame.heapSize, fun m hm => ?_, fun x hx => ?_⟩
  · rw [mergeFreeChunks, if_neg (not_not.mpr hinuse)]
    exact hres
  · rw [if_pos hu]
    exact hin hne
  · cases hm
    obtain ⟨-, -, t, hc⟩ := hheap.tiled.mem (c := ⟨f, fs, false⟩) (by simp)
    obtain ⟨rfl, -⟩ := hc.free rfl
    rw [if_pos hu]
    exact hc.header
  · have hlo := hx.after
    have hhi := hx.before
    have hle := h.top.fits
    have hmem := hfields.stale (fun _ => h.apart hbeside) (fun p hp => (h.extents.extent p hp).min)
      (fun hne => by simp only [binnedSize, if_neg hne, if_pos hu]) hx
    rw [hmem]
    simp only [World.setMem, setHeader, setPrevFoot]
    rw [Memory.store32_apply (by omega), Memory.store32_apply (by omega),
      Memory.store32_apply (by omega)]

theorem merge_free (cb : Callbacks ε) (heapEnd : ε → Nat)
    (h : HoleAt w pre f fs true (⟨f + fs, s, false⟩ :: rest) B)
    (hbeside : FreeBeside w.kmstate f (pairs false (pre ++ ⟨f + fs, s, false⟩ :: rest)) B)
    (hok : MergeOk w.kmstate f fs (⟨f + fs, s, false⟩ :: rest) B) :
    ∃ w', mergeFreeChunks cb w f fs (f + fs) = some w' ∧
      Filled heapEnd P w w' (pairs true (pre ++ rest)) f fs (⟨f + fs, s, false⟩ :: rest) B := by
  obtain ⟨-, hnat, hrest⟩ := h.after
  have hnat' : header w.mem (f + fs) = s + flags false true := hnat.header
  have hs8 : s % 8 = 0 := hnat.align
  have hsmin : 16 ≤ s := hnat.min
  have hpos := h.pos
  have hle := hrest.le
  have hbefore := h.before.le
  have htopf := h.top.fits
  have harena := h.arena.fits
  have hf : f ≠ 0 := by
    have := h.arena.isInit.1
    omega
  simp only at hle
  obtain ⟨n, rest, rfl, -, hu, -, -⟩ := hrest.next_used
  obtain ⟨hat, hquiet⟩ := (h.absorb).close_free hu (by omega)
  have hfree : ¬isInuse w.mem (f + fs) := fun hi => by
    have := (isInuse_of_header hnat' hs8).mp hi
    simp at this
  have hsize : getChunkSize w.mem (f + fs) = s := getChunkSize_of_header hnat' hs8
  have hadd : add fs s = fs + s := add_of_lt (by omega)
  have hoff : chunkOffset f (fs + s) = f + (fs + s) := add_of_lt (by omega)
  have hnext : f + fs ≠ w.kmstate.topChunk := by omega
  have hcode : mergeFreeChunks cb w f fs (f + fs) =
      (let w :=
      w.setMem (setPrevFoot (setHeader w.mem f ((fs + s) ||| pinuse)) (f + (fs + s)) (fs + s))
      if f + fs = w.kmstate.dVictim then some (w.setDVictim f (fs + s))
      else (unbinChunk w (f + fs)).bind fun w =>
        if f = w.kmstate.dVictim then some (w.setDVictim f (fs + s)) else binChunk w f) := by
    rw [mergeFreeChunks, if_pos hfree]
    simp only [hsize, hadd, hoff]
    exact if_neg hnext
  have hp : (pairs false (pre ++ ⟨f, fs + s, false⟩ :: n :: rest)).Perm
      ((f, fs + s) :: pairs false (pre ++ n :: rest)) := by
    simp only [pairs_append, pairs_same]
    exact List.perm_middle
  have huse : pairs true (pre ++ ⟨f, fs + s, false⟩ :: n :: rest) = pairs true (pre ++ n :: rest) :=
    by simp
  have hq : (pairs false (pre ++ ⟨f + fs, s, false⟩ :: n :: rest)).Perm
      ((f + fs, s) :: pairs false (pre ++ n :: rest)) := by
    simp only [pairs_append, pairs_same]
    exact List.perm_middle
  rw [hcode]
  simp only [MergeOk, Bool.false_eq_true, if_false] at hok
  generalize hw₁ :
    w.setMem (setPrevFoot (setHeader w.mem f ((fs + s) ||| pinuse)) (f + (fs + s)) (fs + s)) = w₁
      at hat
  have hst₁ : w₁.kmstate = w.kmstate := by rw [← hw₁]; rfl
  have hkept₁ : Kept heapEnd P (pairs true (pre ++ n :: rest)) w w₁ := hw₁ ▸ Kept.of_quiet hquiet
  have hheader : ∀ {w' : World ε} {B' : List (Nat × Nat)},
      HeapAt w' (pre ++ ⟨f, fs + s, false⟩ :: n :: rest) B' →
      ∀ m ∈ (⟨f + fs, s, false⟩ :: n :: rest : List Chunk).head?,
        header w'.mem f = (if m.used = true then fs else fs + m.size) + flags false true := by
    intro w' B' h' m hm
    cases hm
    obtain ⟨-, -, t, hc⟩ := h'.tiled.mem (c := ⟨f, fs + s, false⟩) (by simp)
    obtain ⟨rfl, -⟩ := hc.free rfl
    exact hc.header
  have hwritten : ∀ x, f + 8 ≤ x → x < f + fs → w₁.mem x = w.mem x := by
    intro x hlo hhi
    rw [← hw₁]
    simp only [World.setMem, setHeader, setPrevFoot]
    rw [Memory.store32_apply (by omega), Memory.store32_apply (by omega)]
  simp only [hst₁]
  by_cases hdv : f + fs = w.kmstate.dVictim
  · -- the victim is swallowed and the whole takes its place
    rw [if_pos hdv]
    have hdv0 : w.kmstate.dVictim ≠ 0 := by omega
    have hperm := hbeside.pos (by omega)
    have hv : victims w.kmstate = [(f + fs, w.kmstate.dVictimSize)] := by
      rw [victims, if_neg hdv0, ← hdv]
    rw [hv] at hperm
    have hmem :
      (f + fs, w.kmstate.dVictimSize) ∈ pairs false (pre ++ ⟨f + fs, s, false⟩ :: n :: rest) :=
      hperm.mem_iff.mpr (by simp)
    have hB' : (pairs false (pre ++ n :: rest)).Perm B := by
      have hsz : w.kmstate.dVictimSize = s := by
        rcases List.mem_cons.mp (hq.mem_iff.mp hmem) with he | hm
        · exact (Prod.mk.inj he).2
        · simp only [pairs_append, List.mem_append] at hm
          rcases hm with hm | hm
          · have := (h.before.mem (mem_pairs.mp hm)).2.1
            simp only at this
            omega
          · have hrest' := h.absorb.after
            have := (hrest'.mem (mem_pairs.mp hm)).1
            simp only at this
            omega
      rw [hsz] at hperm
      exact List.Perm.cons_inv (hq.symm.trans hperm)
    have hkept' : Kept heapEnd P (pairs true (pre ++ n :: rest)) w (w₁.setDVictim f (fs + s)) :=
      hkept₁.trans Kept.setDVictim
    have hsame : SameTop w.kmstate (w₁.setDVictim f (fs + s)).kmstate := by
      rw [← hst₁]
      exact ⟨rfl, rfl, rfl⟩
    refine ⟨_, rfl, ⟨hkept', hsame.slack hkept'.start,
      ⟨_, B, hat.to_victim hf (hp.trans (hB'.cons _)), huse, fun _ => ?_, fun _ hq => .inr hq⟩,
      fun _ => hsame.topMin⟩, fun _ => hsame.heapSize, hheader hat.setDVictim,
      fun x hx => hwritten x hx.after hx.before⟩
    rw [if_neg (by simp), if_pos hdv.symm]
    exact ⟨rfl, rfl⟩
  · rw [if_neg hdv]
    -- the binned chunk after the hole comes out of its bin
    have hmem : (f + fs, s) ∈ B := by
      have hin := hq.mem_iff.mpr List.mem_cons_self
      rcases hbeside.2 with ⟨-, hperm⟩ | ⟨-, hperm⟩
      · exact hperm.mem_iff.mp hin
      · rcases List.mem_append.mp (hperm.mem_iff.mp hin) with hv | hb
        · rw [victims] at hv
          split at hv
          · simp at hv
          · have := (Prod.mk.inj (List.mem_singleton.mp hv)).1
            exact absurd this hdv
        · exact hb
    have hpB : B.Perm ((f + fs, s) :: B.erase (f + fs, s)) := List.perm_cons_erase hmem
    obtain ⟨b, m', hres, hat', hquiet', hfields'⟩ := hat.unbin hpB
    rw [huse] at hquiet'
    have hbeside' : FreeBeside (w₁.setBins b m').kmstate f (pairs false (pre ++ n :: rest))
      (B.erase (f + fs, s)) := by
      have hst' : (w₁.setBins b m').kmstate.dVictim = w.kmstate.dVictim := by rw [← hst₁]; rfl
      have hst'' : (w₁.setBins b m').kmstate.dVictimSize = w.kmstate.dVictimSize :=
        by rw [← hst₁]; rfl
      have hv : victims (w₁.setBins b m').kmstate = victims w.kmstate :=
        by rw [victims, hst', hst'']; rfl
      rw [FreeBeside, hst', hst'', hv]
      refine ⟨hbeside.1, hbeside.2.imp (And.imp_right fun hperm => ?_)
        (And.imp_right fun hperm => ?_)⟩
      · exact List.Perm.cons_inv (hq.symm.trans (hperm.trans hpB))
      · exact List.Perm.cons_inv
          (hq.symm.trans (hperm.trans ((hpB.append_left _).trans List.perm_middle)))
    have hdv' : (w₁.setBins b m').kmstate.dVictim = w.kmstate.dVictim := by rw [← hst₁]; rfl
    obtain ⟨w', B', hplace, hheap, hkept, htop, hin, hold, hfields⟩ :=
      hat'.place heapEnd (P := P) hbeside' hf hp fun hne =>
      (hok (hdv' ▸ hne) (fun he => hdv he.symm)).mono (List.erase_subperm _ _)
    rw [huse] at hkept
    have hkept' : Kept heapEnd P (pairs true (pre ++ n :: rest)) w w' :=
      hkept₁.trans ((Kept.of_bins hquiet').trans hkept)
    have hsame : SameTop w.kmstate w'.kmstate := by
      rw [← hst₁]
      exact ⟨htop.chunk, htop.size, htop.heapSize⟩
    have hsub : ∀ q ∈ B.erase (f + fs, s), q ∈ B := fun _ hq => List.mem_of_mem_erase hq
    have hapart : ∀ q ∈ B, q.1 + q.2 ≤ f ∨ f + fs ≤ q.1 := fun _ => h.apart hbeside
    have hmin : ∀ q ∈ B, 16 ≤ q.2 := fun q hq => (h.extents.extent q hq).min
    refine ⟨w', ?_, ⟨hkept', hsame.slack hkept'.start, ⟨_, B', hheap, huse, fun hne => ?_,
      fun q hq => (hold q hq).imp_right (hsub q)⟩, fun _ => hsame.topMin⟩,
      fun _ => hsame.heapSize, hheader hheap.toHeapAt, fun x hx => ?_⟩
    · rw [hres, Option.bind_some]
      exact hplace
    · rw [if_neg (by simp), if_neg fun he => hdv he.symm]
      exact hin (hdv'.symm ▸ hne)
    · rw [hdv'] at hfields
      have h2 := hfields.stale (fun q hq => hapart q (hsub q hq)) (fun q hq => hmin q (hsub q hq))
        (fun hne => by
          simp only [binnedSize, if_neg hne, Bool.false_eq_true, if_false,
            if_neg (Ne.symm hdv)]) hx
      have h1 := hfields' x fun q hq => hx.apart (hmin q hq) (hapart q hq)
      exact h2.trans (h1.trans (hwritten x hx.after hx.before))

/-- The world in which `shrink_top` is called after a hole before the top has
become a part of it. -/
structure JoinedTop (heapEnd : ε → Nat) (P : Prop) (w w' : World ε) (cs : List Chunk)
    (B : List (Nat × Nat)) (f fs : Nat) :
    Prop where
  heap : Heap w' cs B
  kept : Kept heapEnd P (pairs true cs) w w'
  env : w'.env = w.env
  trace : w'.trace = w.trace
  topChunk : w'.kmstate.topChunk = f
  topChunkSize : w'.kmstate.topChunkSize = fs + w.kmstate.topChunkSize
  heapSize : w'.kmstate.heapSize = w.kmstate.heapSize
  inside : ∀ x, f + 8 ≤ x → x < f + fs → w'.mem x = w.mem x

theorem HoleAt.join_top (heapEnd : ε → Nat) (h : HoleAt w pre f fs true [] B)
    (hbeside : FreeBeside w.kmstate f (pairs false (pre ++ [])) B) :
    ∃ w', (∀ cb, mergeFreeChunks cb w f fs (f + fs) = some (shrinkTop cb w')) ∧
      JoinedTop heapEnd P w w' pre B f fs := by
  obtain ⟨htop, -⟩ := h.after
  have htop8 := h.top.align
  have hfits := h.top.fits
  have harena := h.arena.fits
  have hfs8 := h.align
  have hpos := h.pos
  have hbefore := h.before.le
  have hf : f ≠ 0 := by
    have := h.arena.isInit.1
    omega
  rw [List.append_nil] at hbeside
  -- the top or, where it is empty, the dummy
  have hhdr : ∃ u, header w.mem (f + fs) = w.kmstate.topChunkSize + flags false u := by
    by_cases h0 : w.kmstate.topChunkSize = 0
    · refine ⟨false, ?_⟩
      have := h.top.dummy
      rw [h0, Nat.add_zero] at this
      rw [htop, this, h0]
      rfl
    · exact ⟨true, htop ▸ h.top.header h0⟩
  obtain ⟨u, hhdr⟩ := hhdr
  have hfree : ¬isInuse w.mem (f + fs) := fun hi => by
    have := (isInuse_of_header hhdr htop8).mp hi
    simp at this
  have hsize : getChunkSize w.mem (f + fs) = w.kmstate.topChunkSize :=
    getChunkSize_of_header hhdr htop8
  generalize hts : w.kmstate.topChunkSize = ts at hsize htop8 hfits
  have hadd : add fs ts = fs + ts := add_of_lt (by omega)
  have hoff : chunkOffset f (fs + ts) = f + (fs + ts) := add_of_lt (by omega)
  have hor : (fs + ts) ||| pinuse = fs + ts + 1 := size_or_pinuse (by omega)
  have hf1 : flags false true = 1 := rfl
  generalize hm₁ : setPrevFoot (setHeader w.mem f (fs + ts + 1)) (f + (fs + ts)) (fs + ts) = m₁
  have hhdr₁ : header m₁ f = fs + ts + flags false true := by
    rw [← hm₁, header, setPrevFoot, setHeader, Memory.load32_store32_apart (by omega),
      Memory.load32_store32_same (by omega), hf1]
  have hnext₁ : nextChunk m₁ f = f + (fs + ts) := by
    rw [nextChunk, getChunkSize_of_header hhdr₁ (by omega), add_of_lt (by omega)]
  generalize hw₂ :
    (if f = w.kmstate.dVictim then (w.setMem m₁).setDVictim 0 0 else w.setMem m₁) = w₂
  have hm₂ : w₂.mem = m₁ := by
    rw [← hw₂]
    split <;> rfl
  have hst₂ : w₂.kmstate =
      if f = w.kmstate.dVictim then { w.kmstate with dVictim := 0, dVictimSize := 0 }
      else w.kmstate := by
    rw [← hw₂]
    split <;> rfl
  have hcode : ∀ cb, mergeFreeChunks cb w f fs (f + fs) = some (shrinkTop cb
      ((w₂.setTopChunk f (fs + ts)).setPrevFoot (f + (fs + ts)) (fs + ts))) := by
    intro cb
    rw [mergeFreeChunks, if_pos hfree]
    simp only [hsize, hadd, hoff, hor]
    have hnext₂ : nextChunk (w₂.setTopChunk f (fs + ts)).mem f = f + (fs + ts) := by
      rw [← hm₂] at hnext₁
      exact hnext₁
    rw [if_pos (show f + fs = (World.setPrevFoot (w.setHeader f (fs + ts + 1)) (f + (fs + ts))
      (fs + ts)).kmstate.topChunk
      from htop)]
    have hsub :
      (if f = (World.setPrevFoot (w.setHeader f (fs + ts + 1)) (f + (fs + ts))
        (fs + ts)).kmstate.dVictim
        then (World.setPrevFoot (w.setHeader f (fs + ts + 1)) (f + (fs + ts))
          (fs + ts)).setDVictim 0 0
        else World.setPrevFoot (w.setHeader f (fs + ts + 1)) (f + (fs + ts)) (fs + ts)) = w₂ := by
      rw [← hw₂, ← hm₁]
      rfl
    rw [hsub, hnext₂]
  generalize hw₃ : (w₂.setTopChunk f (fs + ts)).setPrevFoot (f + (fs + ts)) (fs + ts) = w₃ at hcode
  have hm₃ : w₃.mem = setPrevFoot m₁ (f + (fs + ts)) (fs + ts) := by
    rw [← hw₃, ← hm₂]
    rfl
  have hst₃ : w₃.kmstate = { w₂.kmstate with topChunk := f, topChunkSize := fs + ts } := by
    rw [← hw₃]
    rfl
  have henv₃ : w₃.env = w.env := by
    rw [← hw₃, ← hw₂]
    split <;> rfl
  have htr₃ : w₃.trace = w.trace := by
    rw [← hw₃, ← hw₂]
    split <;> rfl
  have hfield : w₂.kmstate.heapStart = w.kmstate.heapStart ∧
    w₂.kmstate.heapSize = w.kmstate.heapSize ∧
      w₂.kmstate.initialHeapSize = w.kmstate.initialHeapSize ∧ w₂.kmstate.bins = w.kmstate.bins ∧
      w₂.kmstate.magic = w.kmstate.magic := by
    rw [hst₂]
    split <;> exact ⟨rfl, rfl, rfl, rfl, rfl⟩
  obtain ⟨hs1, hs2, hs3, hs4, hs5⟩ := hfield
  have harena₃ : Arena w₃.kmstate := by
    rw [hst₃]
    exact ⟨by rw [KmallocState.isInit]; simp only [hs1, hs5]; exact h.arena.isInit, by
      simpa only [hs1] using h.arena.align,
      by simpa only [hs1, hs2] using harena, by simpa only [hs2] using h.arena.size,
      by simpa only [hs2, hs3] using h.arena.initial⟩
  have hcov : Covered B (pairs false pre) := by
    have hperm : ∀ p ∈ B, p ∈ pairs false pre := by
      rcases hbeside.2 with ⟨-, hp⟩ | ⟨-, hp⟩
      · exact fun p hpm => hp.mem_iff.mpr hpm
      · exact fun p hpm => hp.mem_iff.mpr (List.mem_append_right _ hpm)
    exact fun p hp => ⟨p, hperm p hp, Nat.le_refl _, Nat.le_refl _⟩
  have hbelow : ∀ x, x < f + 4 → w₃.mem x = w.mem x := by
    intro x hx
    rw [hm₃, ← hm₁, setPrevFoot, setPrevFoot, setHeader, Memory.store32_apply (by omega),
      Memory.store32_apply (by omega), Memory.store32_apply (by omega)]
  have hdummy := h.top.dummy
  rw [← htop, show w.kmstate.topChunkSize = ts from hts, Nat.add_assoc] at hdummy
  have htop₃ : TopAt w₃.mem f (fs + ts) (w.kmstate.heapStart + w.kmstate.heapSize) := by
    refine ⟨by omega, by omega, fun _ => ?_, fun _ => ?_, ?_⟩
    · rw [hm₃, ← hhdr₁, header, setPrevFoot, Memory.load32_store32_apart (by omega)]
      rfl
    · rw [hm₃]
      exact Memory.load32_store32_same (by omega)
    · rw [hm₃, ← hm₁, header, setPrevFoot, setPrevFoot, setHeader,
        Memory.load32_store32_apart (by omega),
        Memory.load32_store32_apart (by omega), Memory.load32_store32_apart (by omega)]
      exact hdummy
  obtain ⟨hat₃, hquiet₃⟩ := HeapAt.of_prefix w w₃ []
    (by rw [hst₃]; simp only [hs1]; exact h.before) (by
      have hb : w₃.kmstate.bins = w.kmstate.bins := by
        rw [hst₃, ← hs4]
        rfl
      rw [hb]
      exact h.bins) h.extents hcov harena₃ (fun x _ hx => hbelow x hx)
    (by rw [hst₃]; exact ⟨rfl, rfl⟩) (by rw [hst₃]; simp only [hs1, hs2]; exact htop₃)
  rw [List.append_nil] at hat₃
  have hkept₃ : Kept heapEnd P (pairs true pre) w w₃ := by
    refine ⟨by rw [hst₃]; exact hs1, by rw [hst₃]; exact hs3, fun hsync => ?_, hquiet₃, [], htr₃, by
      simp⟩
    rw [henv₃, hst₃]
    simp only [hs1, hs2]
    exact hsync
  refine ⟨w₃, hcode, ⟨hat₃, ?_, ?_⟩, hkept₃, henv₃, htr₃, by rw [hst₃], by rw [hst₃, ← hts], by
    rw [hst₃]; exact hs2, fun x hlo hhi => ?_⟩
  · -- a victim that was part of the hole is now part of the top
    have hv : victims w₃.kmstate = victims w₂.kmstate := by
      rw [hst₃]
      rfl
    rw [hv, hst₂]
    rcases hbeside.2 with ⟨he, hp⟩ | ⟨hne, hp⟩
    · rw [if_pos he.symm]
      exact hp
    · rw [if_neg fun he => hne he.symm]
      exact hp
  · have hdv : w₃.kmstate.dVictim = w₂.kmstate.dVictim := by
      rw [hst₃]
    have hdvs : w₃.kmstate.dVictimSize = w₂.kmstate.dVictimSize := by
      rw [hst₃]
    rw [hdv, hdvs, hst₂]
    split
    · exact fun _ => rfl
    · exact hbeside.1
  · rw [hm₃, ← hm₁, setPrevFoot, setPrevFoot, setHeader, Memory.store32_apply (by omega),
      Memory.store32_apply (by omega), Memory.store32_apply (by omega)]

theorem merge_top (h : HoleAt w pre f fs true [] B) (hcb : Env cb heapEnd w)
    (hbeside : FreeBeside w.kmstate f (pairs false (pre ++ [])) B)
    (hok : MergeOk w.kmstate f fs [] B ∨ PageHeap w.kmstate) :
    ∃ w', mergeFreeChunks cb w f fs (f + fs) = some w' ∧
      Filled heapEnd P w w' (pairs true (pre ++ [])) f fs [] B := by
  obtain ⟨htop, -⟩ := h.after
  obtain ⟨w₃, hcode, hj⟩ := h.join_top heapEnd (P := P) hbeside
  rw [List.append_nil]
  have hgrown : w₃.kmstate.heapSize < w₃.kmstate.initialHeapSize + 0x7FFFF000 ∨
    PageHeap w₃.kmstate := by
    refine hok.imp (fun hok => ?_) fun hpage => ⟨?_, ?_⟩
    · rw [hj.heapSize, hj.kept.initial]
      exact hok
    · rw [hj.heapSize]
      exact hpage.lt
    · rw [hj.heapSize, hj.kept.initial]
      exact hpage.pages
  obtain ⟨hat₄, hkept₄, hbehind, d, hd, hst₄⟩ :=
    shrinkTop_spec (P := P) hj.heap.toHeapAt (hcb.next hj.kept) hgrown
  refine ⟨_, hcode cb, ⟨hj.kept.trans hkept₄, ?_, ⟨pre, B, ⟨hat₄, ?_, ?_⟩, rfl, ?_,
    fun _ hq => .inr hq⟩, fun h16 _ => ?_⟩, fun hne => absurd rfl hne, by simp, fun x hx => ?_⟩
  · have hfits₃ := hj.heap.top.fits
    have hle₃ := hj.heap.tiled.le
    rw [hj.topChunk, hj.kept.start] at hle₃
    rw [hj.topChunk, hj.topChunkSize, hj.heapSize, hj.kept.start] at hfits₃
    rw [slack, slack, ← htop, hst₄]
    simp only [hj.topChunk, hj.topChunkSize, hj.heapSize, hj.kept.start] at hd ⊢
    omega
  · have hv : victims (shrinkTop cb w₃).kmstate = victims w₃.kmstate := by
      rw [hst₄]
      rfl
    rw [hv]
    exact hj.heap.free
  · rw [hst₄]
    exact hj.heap.noVictim
  · rw [Settled, hst₄]
    exact hj.topChunk
  · have h16 := h16 rfl
    rw [TopMin, hst₄]
    simp only [hj.topChunkSize] at hd ⊢
    omega
  · have htop₄ : (shrinkTop cb w₃).kmstate.topChunk = f := by
      rw [hst₄]
      exact hj.topChunk
    obtain ⟨hend, hdummy⟩ := hx.top rfl
    have hlo := hx.after
    rw [← htop₄] at hlo hdummy
    exact (hbehind x hlo hend hdummy).trans (hj.inside x hx.after hx.before)

theorem mergeFreeChunks_spec (h : HoleAt w pre f fs true post B) (hcb : Env cb heapEnd w)
    (hbeside : FreeBeside w.kmstate f (pairs false (pre ++ post)) B)
    (hok : MergeOk w.kmstate f fs post B ∨ post = [] ∧ PageHeap w.kmstate)
    (hmin : ∀ n ∈ post.head?, n.used = true → 16 ≤ fs) :
    ∃ w', mergeFreeChunks cb w f fs (f + fs) = some w' ∧
      Filled heapEnd P w w' (pairs true (pre ++ post)) f fs post B := by
  cases post with
  | nil => exact merge_top h hcb hbeside (hok.imp_right And.right)
  | cons n rest =>
    have hok := hok.resolve_right fun hno => List.cons_ne_nil _ _ hno.1
    obtain ⟨hna, -, -⟩ := h.after
    obtain ⟨na, ns, nu⟩ := n
    simp only at hna
    subst hna
    cases nu with
    | true => exact merge_used cb heapEnd h rfl (hmin _ rfl rfl) hbeside hok
    | false =>
      obtain ⟨w', hres, hmerged⟩ := merge_free cb heapEnd (P := P) h hbeside hok
      rw [← pairs_absorb f fs ns] at hmerged
      exact ⟨w', hres, hmerged⟩

-- ---------------------------------------------------------------------------
-- Freeing
-- ---------------------------------------------------------------------------

/-- The condition for the chunk that freeing `(a, s)` between `pre` and `post`
leaves: that of the hole it makes, with a free chunk before it. -/
def FreeOk (st : KmallocState) (pre : List Chunk) (a s : Nat) (post : List Chunk)
    (B : List (Nat × Nat)) : Prop :=
  match pre.getLast? with
  | some ⟨p, ps, false⟩ => MergeOk st p (s + ps) post B
  | _ => MergeOk st a s post B

theorem MergeOk.mono (st : KmallocState) (h : MergeOk st f fs post B) (hs : B'.Subperm B) :
    MergeOk st f fs post B' := by
  cases post with
  | nil => exact h
  | cons n rest =>
    intro hne
    have h := h hne
    split at h
    · rw [if_pos ‹_›]
      exact h.mono hs
    · rw [if_neg ‹_›]
      exact fun hne => (h hne).mono hs

theorem Heap.victim_ne {c : Chunk} (h : Heap w cs B) (hc : c ∈ cs) (hu : c.used = true)
    (hlo : c.addr ≤ f) (hhi : f < c.addr + c.size) : w.kmstate.dVictim ≠ f := by
  intro he
  have hcm := h.mem hc
  have hstart := h.start_ne
  have hne : w.kmstate.dVictim ≠ 0 := by omega
  have hmem : (w.kmstate.dVictim, w.kmstate.dVictimSize) ∈ pairs false cs :=
    h.free.mem_iff.mpr (by simp [victims, hne])
  have hmin := (h.mem (mem_pairs.mp hmem)).2.2.1
  rcases h.tiled.apart (mem_pairs.mp hmem) hc with rfl | hap
  · simp at hu
  · simp only at hap hmin
    omega

theorem Heap.free_cases (h : Heap w cs B) (hf : (f, fs) ∈ pairs false cs) :
    w.kmstate.dVictim = f ∧ w.kmstate.dVictimSize = fs ∧ (pairs false cs).Perm ((f, fs) :: B) ∧
    (∀ q ∈ B, Apart q (f, fs)) ∨
      w.kmstate.dVictim ≠ f ∧ B.Perm ((f, fs) :: B.erase (f, fs)) ∧
        (pairs false cs).Perm ((f, fs) :: (victims w.kmstate ++ B.erase (f, fs))) := by
  have hx := h.pairs_extents false
  have hin := h.free.mem_iff.mp hf
  have hf0 : f ≠ 0 := (hx.extent _ hf).pos
  by_cases hdv : w.kmstate.dVictim = f
  · have hv : victims w.kmstate = [(f, w.kmstate.dVictimSize)] := by
      rw [victims, hdv, if_neg hf0]
    have hfree := h.free
    rw [hv] at hfree
    have hx := hx.perm hfree
    have hsize : w.kmstate.dVictimSize = fs := by
      have := hx.eq_of_fst (p := (f, fs)) (q := (f, w.kmstate.dVictimSize))
        (hfree.mem_iff.mp hf) (by simp) rfl
      exact (Prod.mk.inj this).2.symm
    rw [hsize] at hfree hx
    have hnd := (List.nodup_cons.mp hx.nodup).1
    exact .inl ⟨hdv, hsize, hfree, fun q hq =>
      hx.apart q (List.mem_cons_of_mem _ hq) _ List.mem_cons_self fun he => hnd (he ▸ hq)⟩
  · have hmem : (f, fs) ∈ B := by
      rcases List.mem_append.mp hin with hv | hb
      · rw [victims] at hv
        split at hv
        · simp at hv
        · exact absurd (Prod.mk.inj (List.mem_singleton.mp hv)).1.symm hdv
      · exact hb
    have hp : B.Perm ((f, fs) :: B.erase (f, fs)) := List.perm_cons_erase hmem
    exact .inr ⟨hdv, hp, h.free.trans ((hp.append_left _).trans List.perm_middle)⟩

theorem Heap.hole_used (h : Heap w (pre ++ ⟨a, s, true⟩ :: post) B)
    (hpre : Tiled w.mem w.kmstate.heapStart true pre a true) (hat : ChunkAt w.mem ⟨a, s, true⟩ true)
    (hpost : Tiled w.mem (a + s) true post w.kmstate.topChunk true) :
    HoleAt w pre a s true post B ∧ FreeBeside w.kmstate a (pairs false (pre ++ post)) B := by
  have hmin : 16 ≤ s := hat.min
  have hne : w.kmstate.dVictim ≠ a :=
    h.victim_ne (c := ⟨a, s, true⟩) (by simp) rfl (Nat.le_refl a) (show a < a + s by omega)
  exact ⟨h.toHeapAt.hole [⟨a, s, true⟩] hpre ⟨rfl, hat, rfl, rfl⟩ hpost hat.align
    (by omega) fun p hp =>
    h.apart_used (c := ⟨a, s, true⟩) (by simp) rfl hp, h.noVictim,
    .inr ⟨hne, by simpa using h.free⟩⟩

theorem HeapAt.hole_free {p ps : Nat}
    (h : HeapAt w (pre ++ ⟨p, ps, false⟩ :: ⟨p + ps, s, true⟩ :: post) B)
    (hfree : (pairs false (pre ++ ⟨p, ps, false⟩ :: ⟨p + ps, s, true⟩ :: post)).Perm ((p, ps) :: Q))
    (hB : ∀ q ∈ B, Apart q (p, ps)) :
    HoleAt w pre p (s + ps) true post B ∧ (pairs false (pre ++ post)).Perm Q := by
  obtain ⟨t, hpre, hat, hrest⟩ := h.tiled.split
  obtain ⟨rfl, -⟩ := hat.free rfl
  obtain ⟨-, hat', hpost⟩ := hrest
  have h1 : 16 ≤ ps := hat.min
  have h2 : 16 ≤ s := hat'.min
  have h3 : ps % 8 = 0 := hat.align
  have h4 : s % 8 = 0 := hat'.align
  have hpost' : Tiled w.mem (p + (s + ps)) true post w.kmstate.topChunk true := by
    rw [Nat.add_comm s ps, ← Nat.add_assoc]
    exact hpost
  refine ⟨h.hole [⟨p, ps, false⟩, ⟨p + ps, s, true⟩] hpre ⟨rfl, hat, rfl, hat',
    by simp only; omega, rfl⟩
    hpost' (by omega) (by omega) fun q hq => ?_, by simpa using free_perm hfree⟩
  have hap := hB q hq
  have hap' := h.apart_used (c := ⟨p + ps, s, true⟩) (by simp) rfl hq
  have := (h.extents.extent q hq).min
  simp only [Apart] at hap hap'
  omega

/-- What `kfree` merges with the chunks after it: the chunk, or the chunk and the
free one before it, which has left its bin unless it is the victim. -/
structure FreedHole (w w₁ : World ε) (pre pre₁ : List Chunk) (a s f fs : Nat) (post : List Chunk)
    (B B₁ : List (Nat × Nat)) : Prop where
  heap : HeapAt w₁ (pre ++ ⟨a, s, true⟩ :: post) B₁
  hole : HoleAt w₁ pre₁ f fs true post B₁
  beside : FreeBeside w₁.kmstate f (pairs false (pre₁ ++ post)) B₁
  bins : ∃ b m, w₁ = w.setBins b m
  quiet : Quiet (pairs true (pre ++ post)) w.mem w₁.mem
  chunk : pre₁ = pre ∧ f = a ∧ fs = s ∧ B₁ = B ∨
    ∃ ps, pre = pre₁ ++ [⟨f, ps, false⟩] ∧ a = f + ps ∧ fs = s + ps ∧ 16 ≤ ps ∧ B₁.Subperm B

section
variable {w₁ : World ε} {pre₁ : List Chunk} {B₁ : List (Nat × Nat)}

theorem FreedHole.used (h : FreedHole w w₁ pre pre₁ a s f fs post B B₁) :
    pairs true pre₁ = pairs true pre := by
  rcases h.chunk with ⟨rfl, -⟩ | ⟨ps, rfl, -⟩
  · rfl
  · simp

theorem FreedHole.kept (heapEnd : ε → Nat) (h : FreedHole w w₁ pre pre₁ a s f fs post B B₁) :
    Kept heapEnd P (pairs true (pre ++ post)) w w₁ := by
  obtain ⟨b, m, rfl⟩ := h.bins
  exact ⟨rfl, rfl, id, h.quiet, Traced.refl P _⟩

theorem FreedHole.min (h : FreedHole w w₁ pre pre₁ a s f fs post B B₁) (hs : 16 ≤ s) : 16 ≤ fs := by
  rcases h.chunk with ⟨-, -, rfl, -⟩ | ⟨ps, -, -, rfl, -⟩
  · exact hs
  · omega

theorem FreedHole.mergeOk (h : FreedHole w w₁ pre pre₁ a s f fs post B B₁)
    (hok : FreeOk w.kmstate pre a s post B) :
    MergeOk w₁.kmstate f fs post B₁ := by
  obtain ⟨b, m, rfl⟩ := h.bins
  rw [FreeOk] at hok
  rcases h.chunk with ⟨rfl, rfl, rfl, rfl⟩ | ⟨ps, rfl, rfl, rfl, -, hsub⟩
  · split at hok
    · -- the chunk before says that it is used
      rename_i p ps hlast
      obtain ⟨pre', rfl⟩ := List.getLast?_eq_some_iff.mp hlast
      obtain ⟨t, -, -, hend, hu⟩ := h.hole.before.split
      simp at hu
    · exact hok
  · rw [List.getLast?_concat] at hok
    exact hok.mono (w.setBins b m).kmstate hsub

end

theorem kfree_hole (h : Heap w (pre ++ ⟨a, s, true⟩ :: post) B) :
    ∃ w₁ pre₁ f fs B₁, (∀ cb, kfree cb w (a + 8) = mergeFreeChunks cb w₁ f fs (f + fs)) ∧
      FreedHole w w₁ pre pre₁ a s f fs post B B₁ := by
  obtain ⟨t, hpre, hat, hpost⟩ := h.tiled.split
  have hmem := h.mem (c := ⟨a, s, true⟩) (by simp)
  have hstart := h.start_ne
  simp only at hmem hpre hpost
  have hmin : 16 ≤ s := hat.min
  have hs8 : s % 8 = 0 := hat.align
  have hchunk : payloadChunk (a + 8) = a := by
    rw [payloadChunk, sub_of_le (by omega) (by omega)]
    omega
  have hhdr : header w.mem a = s + flags true t := hat.header
  have hsize : getChunkSize w.mem a = s := getChunkSize_of_header hhdr hs8
  have hinuse : isInuse w.mem a := (isInuse_of_header hhdr hs8).mpr rfl
  have hok₁ : addressOk a w.kmstate := h.addressOk hmem.1 (by omega)
  have hprev := prevInuse_of_header hhdr hs8
  have hnull : ¬(a + 8 = 0 ∨ ¬w.kmstate.isInit) := by simpa using h.arena.isInit
  have hsane : ¬(¬addressOk a w.kmstate ∨ ¬isInuse w.mem a) := by simp [hok₁, hinuse]
  simp only [kfree, hchunk, if_neg hnull, if_neg hsane]
  cases t with
  | true =>
    have hnext : nextChunk w.mem a = a + s := by rw [nextChunk, hsize, add_of_lt (by omega)]
    simp only [if_neg (not_not.mpr (hprev.mpr rfl)), hnext, hsize,
      if_neg (not_not.mpr (h.addressOk (a := a + s) (by omega) (by omega)))]
    obtain ⟨hhole, hbeside⟩ := h.hole_used hpre hat hpost
    exact ⟨w, pre, a, s, B, fun _ => rfl, h.toHeapAt, hhole, hbeside, ⟨w.kmstate.bins, w.mem, rfl⟩,
      Quiet.refl _ _, .inl ⟨rfl, rfl, rfl, rfl⟩⟩
  | false =>
    have hnot : ¬prevInuse w.mem a := fun hp => by simpa using hprev.mp hp
    simp only [if_pos hnot]
    obtain ⟨pre, ⟨p, ps, pu⟩, rfl, hpu, hpend, hpat, hpre'⟩ := hpre.prev_free
    simp only at hpu hpend hpre'
    subst hpu hpend
    have hps8 : ps % 8 = 0 := hpat.align
    have hps16 : 16 ≤ ps := hpat.min
    have hple := hpre'.le
    have hfoot : prevFoot w.mem (p + ps) = ps := (hpat.free rfl).2
    have hphdr : header w.mem p = ps + flags false true := hpat.header
    have hpsize : getChunkSize w.mem p = ps := getChunkSize_of_header hphdr hps8
    have hpchunk : prevChunk w.mem (p + ps) = p := by
      rw [prevChunk, hfoot, sub_of_le (by omega) (by omega)]
      omega
    have hpfree : ¬isInuse w.mem p := fun hi => by simpa using (isInuse_of_header hphdr hps8).mp hi
    have hpok : addressOk p w.kmstate := h.addressOk (by omega) (by omega)
    have hsane' : ¬(¬addressOk p w.kmstate ∨ ps ≠ ps ∨ isInuse w.mem p) := by simp [hpok, hpfree]
    simp only [hpchunk, hfoot, hpsize, hsize, if_neg hsane']
    have hadd : add s ps = s + ps := add_of_lt (by omega)
    rw [show pre ++ [(⟨p, ps, false⟩ : Chunk)] ++ ⟨p + ps, s, true⟩ :: post =
      pre ++ ⟨p, ps, false⟩ :: ⟨p + ps, s, true⟩ :: post by simp] at h
    have hnext : ∀ {w₁ : World ε} {B₁ : List (Nat × Nat)},
        HeapAt w₁ (pre ++ ⟨p, ps, false⟩ :: ⟨p + ps, s, true⟩ :: post) B₁ →
        nextChunk w₁.mem (p + ps) = p + (s + ps) := by
      intro w₁ B₁ h₁
      obtain ⟨-, -, t, hc⟩ := h₁.tiled.mem (c := ⟨p + ps, s, true⟩) (by simp)
      have hhdr₁ : header w₁.mem (p + ps) = s + flags true t := hc.header
      rw [nextChunk, getChunkSize_of_header hhdr₁ hs8, add_of_lt (by omega)]
      omega
    rcases h.free_cases (show (p, ps) ∈ pairs false _ by simp) with
      ⟨hdv, -, hfree, hapart⟩ | ⟨hdv, hpB, hfree⟩
    · -- the chunk before is the victim
      obtain ⟨hhole, hq⟩ := h.toHeapAt.hole_free hfree hapart
      refine ⟨w, pre, p, s + ps, B, fun cb => ?_, by simpa using h.toHeapAt, hhole,
        ⟨h.noVictim, .inl ⟨hdv, hq⟩⟩,
        ⟨w.kmstate.bins, w.mem, rfl⟩,
        Quiet.refl _ _, .inr ⟨ps, rfl, rfl, rfl, hps16, List.Subperm.refl _⟩⟩
      rw [if_neg (not_not.mpr hdv)]
      simp only [Option.bind_eq_bind, Option.bind_some, hnext h.toHeapAt, hadd]
      rw [if_neg (not_not.mpr (h.addressOk (by omega) (by omega)))]
    · -- the chunk before comes out of its bin
      obtain ⟨b, m', hun, hat₁, hquiet, -⟩ := h.toHeapAt.unbin hpB
      obtain ⟨hhole, hq⟩ := hat₁.hole_free hfree (h.apart_dropped hpB)
      refine ⟨w.setBins b m', pre, p, s + ps, B.erase (p, ps), fun cb => ?_,
        by simpa using hat₁, hhole,
        ⟨h.noVictim, .inr ⟨hdv, hq⟩⟩,
        ⟨b, m', rfl⟩, fun q hq => hquiet q ?_,
        .inr ⟨ps, rfl, rfl, rfl, hps16, List.erase_subperm _ _⟩⟩
      · rw [if_pos hdv, hun]
        simp only [Option.bind_eq_bind, Option.bind_some, hnext hat₁, hadd]
        rw [if_neg (not_not.mpr (hat₁.addressOk (by show w.kmstate.heapStart ≤ _; omega)
          (by show _ ≤ w.kmstate.topChunk; omega)))]
      · simp only [pairs_append, pairs_true_free, pairs_same, List.mem_append,
          List.mem_cons] at hq ⊢
        simp only [pairs, List.filter_nil, List.map_nil, List.not_mem_nil, or_false] at hq
        exact hq.imp_right .inr

/-- The hole that the chunk leaves, and what the merge makes of it. -/
theorem kfree_filled (h : Heap w (pre ++ ⟨a, s, true⟩ :: post) B) (hcb : Env cb heapEnd w)
    (hok : FreeOk w.kmstate pre a s post B ∨ post = [] ∧ PageHeap w.kmstate) :
    ∃ w' w₁ pre₁ f fs B₁, kfree cb w (a + 8) = some w' ∧
      FreedHole w w₁ pre pre₁ a s f fs post B B₁ ∧
      Filled heapEnd P w₁ w' (pairs true (pre ++ post)) f fs post B₁ := by
  obtain ⟨w₁, pre₁, f, fs, B₁, hcode, hf⟩ := kfree_hole h
  have hmin : 16 ≤ s := (h.mem (c := ⟨a, s, true⟩) (by simp)).2.2.1
  have hused : pairs true (pre₁ ++ post) = pairs true (pre ++ post) := by
    rw [pairs_append, pairs_append, hf.used]
  have hok₁ : MergeOk w₁.kmstate f fs post B₁ ∨ post = [] ∧ PageHeap w₁.kmstate := by
    refine hok.imp hf.mergeOk fun hpage => ⟨hpage.1, ?_⟩
    obtain ⟨b, m, rfl⟩ := hf.bins
    exact ⟨hpage.2.lt, hpage.2.pages⟩
  obtain ⟨w', hres, hfilled⟩ :=
    mergeFreeChunks_spec (P := P) hf.hole (hcb.next (hf.kept (P := P) heapEnd)) hf.beside hok₁
    fun _ _ _ => hf.min hmin
  rw [hused] at hfilled
  exact ⟨w', w₁, pre₁, f, fs, B₁, (hcode cb).trans hres, hf, hfilled⟩

theorem kfree_spec (h : Heap w (pre ++ ⟨a, s, true⟩ :: post) B) (hcb : Env cb heapEnd w)
    (hok : FreeOk w.kmstate pre a s post B ∨ post = [] ∧ PageHeap w.kmstate) :
    ∃ w', kfree cb w (a + 8) = some w' ∧ Freed heapEnd P w w' (pairs true (pre ++ post)) ∧
      (TopMin w.kmstate → TopMin w'.kmstate) := by
  obtain ⟨w', w₁, pre₁, f, fs, B₁, hres, hf, hfilled⟩ := kfree_filled (P := P) h hcb hok
  have hkept := hf.kept (P := P) heapEnd
  have hfs := hf.min (h.mem (c := ⟨a, s, true⟩) (by simp)).2.2.1
  obtain ⟨b, m, rfl⟩ := hf.bins
  exact ⟨w', hres, ⟨hkept.trans hfilled.kept, hfilled.slack, hfilled.freed.heap⟩,
    hfilled.topMin fun _ => by omega⟩

end

end ElcoOs.Kmalloc
