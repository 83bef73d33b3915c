import ElcoOs.Kmalloc.Overwrite
import ElcoOs.Kmalloc.Realloc

/-!
# Growing in place

`try_expand_chunk` takes what it needs from the free chunk after the block: the
top, the designated victim or a binned chunk; and all of it where no more than a
smallest chunk would be left. Else the new header is written while a binned chunk
is still in its bin, into a word that its removal may read.
-/

namespace ElcoOs.Kmalloc

open Word32

variable {ε : Type}

def room (st : KmallocState) : List Chunk → Nat
  | [] => st.topChunkSize
  | n :: _ => if n.used = true then 0 else n.size

/-- The block of `a` has `c` bytes and the free chunk after it `r`. -/
def cutNext (w : World ε) (a c r : Nat) : World ε :=
  ((resized w a c).setHeader (a + c) (r ||| pinuse)).setPrevFoot (a + c + r) r

/-- The block grows into the chunk `next` and leaves `r` bytes of it. -/
def expandPart (w : World ε) (a c next r : Nat) : Option (World ε) :=
  let w := cutNext w a c r
  if next = w.kmstate.topChunk then some (w.setTopChunk (a + c) r)
  else if next = w.kmstate.dVictim then some (w.setDVictim (a + c) r)
  else (unbinChunk w next).bind fun w => binChunk w (a + c)

/-- What follows `a` says that `a` is in use, unless it is the dummy. -/
def tagNext (m : Memory) (a : Nat) : Memory :=
  let next := nextChunk m a
  if header m next ≠ 0 then setHeader m next (header m next ||| pinuse) else m

/-- The block takes in all of the chunk `next`. -/
def expandWhole (w : World ε) (a c next : Nat) : Option (World ε) :=
  let w := resized w a c
  (if next = w.kmstate.topChunk then some (w.setTopChunk (nextChunk w.mem a) 0)
    else if next = w.kmstate.dVictim then some (w.setDVictim 0 0)
    else unbinChunk w next).map fun w => w.setMem (tagNext w.mem a)

/-- What is left at `e` of a chunk that was taken in, if anything. -/
def leftover (e r : Nat) : List (Nat × Nat) := if r = 0 then [] else [(e, r)]

/-- Where the chunk after a block was, `r` bytes at `e` take its place: they are the
top, the victim, or in the bin of their size, and the chunk is not there any more. -/
def Consumed (st st' : KmallocState) (e r : Nat) (post : List Chunk)
    (B B' : List (Nat × Nat)) : Prop :=
  match post with
  | [] => st'.topChunk = e ∧ st'.topChunkSize = r ∧ victims st' = victims st ∧ B'.Perm B
  | n :: _ =>
    SameTop st st' ∧
      if st.dVictim = n.addr then victims st' = leftover e r ∧ B'.Perm B
      else victims st' = victims st ∧ B'.Perm (leftover e r ++ B.erase (n.addr, n.size))

/-- The heap after the block of `(a, s)` has grown to `c` bytes. -/
structure Expanded (heapEnd : ε → Nat) (P : Prop) (w w' : World ε) (pre : List Chunk) (a s c : Nat)
    (post : List Chunk) (B : List (Nat × Nat)) : Prop where
  kept : Kept heapEnd P (pairs true (pre ++ ⟨a, s, true⟩ :: post)) w w'
  topMin : TopMin w.kmstate → TopMin w'.kmstate
  heap : ∃ cs' B', Heap w' cs' B' ∧ pairs true cs' = pairs true (pre ++ ⟨a, c, true⟩ :: post) ∧
    Consumed w.kmstate w'.kmstate (a + c) (s + room w.kmstate post - c) post B B'

/-- What a binned chunk has to be like for a part of it to be taken: the removal
from its bin does not read the new header, and the bins can take the rest. -/
def ExpandOk (w : World ε) (s c : Nat) (post : List Chunk) (B : List (Nat × Nat)) : Prop :=
  match post with
  | [] => True
  | n :: _ => n.used = false → w.kmstate.dVictim ≠ n.addr → c + 16 < s + n.size →
      Unread w.mem n.addr n.size (c - s) ∧ Accepts (B.erase (n.addr, n.size)) (s + n.size - c)

section
variable {heapEnd : ε → Nat} {P : Prop} {w w' : World ε} {cs pre post : List Chunk}
  {B B' : List (Nat × Nat)} {a c d n p r s : Nat} {t : Bool} {cb : Callbacks ε} {st : Clients ε}

-- ---------------------------------------------------------------------------
-- Which way it goes
-- ---------------------------------------------------------------------------

theorem room_of_used (hu : UsedNext post) : room w.kmstate post = 0 := by
  cases post with
  | nil => cases hu
  | cons n rest => exact if_pos hu

theorem HeapAt.next_room (h : HeapAt w (pre ++ ⟨a, s, true⟩ :: post) B) :
    a + s + room w.kmstate post + 8 < 4294967296 ∧
      (¬isInuse w.mem (a + s) → getChunkSize w.mem (a + s) = room w.kmstate post) := by
  obtain ⟨t, -, -, hpost⟩ := h.tiled.split
  have htop := h.top.fits
  have harena := h.arena.fits
  simp only at hpost
  cases post with
  | nil =>
    obtain ⟨htop', -⟩ := hpost
    have htop8 := h.top.align
    refine ⟨by rw [htop', room]; omega, fun _ => ?_⟩
    by_cases h0 : w.kmstate.topChunkSize = 0
    · have hdummy := h.top.dummy
      rw [h0, Nat.add_zero, ← htop'] at hdummy
      rw [getChunkSize, hdummy, room, h0]
      rfl
    · have hhdr := h.top.header h0
      rw [← htop'] at hhdr
      exact getChunkSize_of_header hhdr htop8
  | cons n rest =>
    obtain ⟨hna, hnat, hrest⟩ := hpost
    have hle := hrest.le
    rw [room]
    refine ⟨by split <;> omega, fun hfree => ?_⟩
    rw [if_neg (fun hu => hfree (h.inuse_next.mpr hu) : ¬n.used = true), ← hna]
    exact getChunkSize_of_header hnat.header hnat.align

theorem tagNext_eq (w : World ε) (a : Nat) :
    (if header w.mem (nextChunk w.mem a) ≠ 0 then
        some (true, w.setHeader (nextChunk w.mem a) (header w.mem (nextChunk w.mem a) ||| pinuse))
      else some (true, w)) = some (true, w.setMem (tagNext w.mem a)) := by
  rw [tagNext]
  split <;> rfl

theorem tryExpandChunk_eq (h : HeapAt w (pre ++ ⟨a, s, true⟩ :: post) B) (hlt : s < c)
    (hc : c < 4294967296) :
    tryExpandChunk w a c =
      if c ≤ s + room w.kmstate post then
        (if c + 16 < s + room w.kmstate post then
        expandPart w a c (a + s) (s + room w.kmstate post - c)
          else expandWhole w a (s + room w.kmstate post) (a + s)).map fun w => (true, w)
      else some (false, w) := by
  obtain ⟨t, -, hat, -⟩ := h.tiled.split
  obtain ⟨hfits, hroom⟩ := h.next_room
  have hmem := h.mem (c := ⟨a, s, true⟩) (by simp)
  simp only at hmem
  have hhdr : header w.mem a = s + flags true t := hat.header
  have hsize : getChunkSize w.mem a = s := getChunkSize_of_header hhdr hat.align
  have hinuse : isInuse w.mem a := (isInuse_of_header hhdr hat.align).mpr rfl
  have hnext : nextChunk w.mem a = a + s := by rw [nextChunk, hsize, add_of_lt (by omega)]
  rw [tryExpandChunk, hsize, if_neg (by simp [hinuse, Nat.le_of_lt hlt])]
  simp only [hnext]
  by_cases hfree : isInuse w.mem (a + s)
  · have h0 := room_of_used (w := w) (h.inuse_next.mp hfree)
    rw [if_neg (fun hc => hc.1 hfree), if_neg (by omega)]
  rw [hroom hfree]
  generalize hN : room w.kmstate post = N at hfits
  by_cases hfit : c ≤ s + N
  swap
  · have hsub : ¬N ≥ sub c s := by
      rw [Word32.sub]
      omega
    rw [if_neg (fun hc => hsub hc.2), if_neg hfit]
  have hdiff : sub c s = c - s := sub_of_le (by omega) (by omega)
  have hleft : sub N (c - s) = s + N - c := by
    rw [sub_of_le (by omega) (by omega)]
    omega
  have hnew : chunkOffset (a + s) (c - s) = a + c := by
    rw [chunkOffset, add_of_lt (by omega)]
    omega
  have hend : chunkOffset (a + c) (s + N - c) = a + c + (s + N - c) := add_of_lt (by omega)
  simp only [hdiff, if_pos hfit, if_pos (show ¬isInuse w.mem (a + s) ∧
    N ≥ c - s from ⟨hfree, by omega⟩), hleft, hnew, hend]
  by_cases hcut : c + 16 < s + N
  · rw [if_pos (show s + N - c > minChunkSize from by rw [show minChunkSize = 16 from rfl]; omega),
      if_pos hcut, expandPart]
    show (if a + s = w.kmstate.topChunk then _ else if a + s = w.kmstate.dVictim then _ else _) =
      (if a + s = w.kmstate.topChunk then _ else if a + s = w.kmstate.dVictim then _ else _ :
      Option (World ε)).map _
    split
    · rfl
    split
    · rfl
    show ((unbinChunk (cutNext w a c (s + N - c)) (a + s)).bind fun w =>
      (binChunk w (a + c)).bind fun w => some (true, w)) = _
    rw [Option.map_bind]
    exact Option.bind_congr' rfl fun w _ => Option.map_eq_bind.symm
  · have hall : (if s + N - c > 0 then add c (s + N - c) else c) = s + N := by
      split
      · rw [add_of_lt (by omega)]
        omega
      · omega
    rw [if_neg (show ¬s + N - c > minChunkSize from by rw [show minChunkSize = 16 from rfl]; omega),
      if_neg hcut, hall, expandWhole]
    rw [Option.map_map]
    show (if a + s = w.kmstate.topChunk then _ else if a + s = w.kmstate.dVictim then _ else _ :
      Option (Bool × World ε)) =
      (if a + s = w.kmstate.topChunk then _ else if a + s = w.kmstate.dVictim then _ else _ :
      Option (World ε)).map _
    split
    · exact tagNext_eq _ a
    split
    · exact tagNext_eq _ a
    · exact (Option.bind_congr' rfl fun w _ => tagNext_eq w a).trans Option.map_eq_bind.symm

-- ---------------------------------------------------------------------------
-- What is written
-- ---------------------------------------------------------------------------

/-- The words that describe the grown block and what is left of the chunk after it. -/
structure CutAt (m : Memory) (a c r : Nat) (t : Bool) : Prop where
  header : header m a = c + flags true t
  left : Kmalloc.header m (a + c) = r + flags false true
  foot : prevFoot m (a + c + r) = r

theorem CutAt.tiled {m : Memory} (h : CutAt m a c r t) (hc8 : c % 8 = 0) (hc : 16 ≤ c)
    (hr8 : r % 8 = 0) (hr : 16 ≤ r) :
    Tiled m a t [⟨a, c, true⟩, ⟨a + c, r, false⟩] (a + c + r) false :=
  ⟨rfl, ⟨hc8, hc, h.header, by simp⟩, rfl, ⟨hr8, hr, h.left, fun _ => ⟨rfl, h.foot⟩⟩, rfl, rfl⟩

theorem CutAt.congr {m m' : Memory} (h : CutAt m a c r t)
    (ha : ∀ x, a + 4 ≤ x → x < a + 8 → m' x = m x)
    (hl : ∀ x, a + c + 4 ≤ x → x < a + c + 8 → m' x = m x)
    (hf : ∀ x, a + c + r ≤ x → x < a + c + r + 4 → m' x = m x) :
    CutAt m' a c r t :=
  ⟨(Memory.load32_congr fun x _ _ => ha x (by omega) (by omega)).trans h.header,
    (Memory.load32_congr fun x _ _ => hl x (by omega) (by omega)).trans h.left,
    (Memory.load32_congr fun x _ _ => hf x (by omega) (by omega)).trans h.foot⟩

def CutOnly (m m' : Memory) (a c r : Nat) : Prop :=
  ∀ x, x < a + 4 ∨ a + 8 ≤ x ∧ x < a + c + 4 ∨ a + c + 8 ≤ x ∧ x < a + c + r ∨
    a + c + r + 4 ≤ x → m' x = m x

theorem cutNext_at (hat : ChunkAt w.mem ⟨a, s, true⟩ t) (hc8 : c % 8 = 0) (hc : 16 ≤ c)
    (hr8 : r % 8 = 0) (hr : 16 ≤ r)
    (hfits : a + c + r + 8 < 4294967296) : CutAt (cutNext w a c r).mem a c r t ∧
    CutOnly w.mem (cutNext w a c r).mem a c r := by
  obtain ⟨hhdr, hm⟩ := resized_at (c := c) hat hc8 (by omega)
  have hor : r ||| pinuse = r + flags false true := size_or_pinuse hr8
  have hflags : flags false true < 8 := flags_lt
  have hmem : (cutNext w a c r).mem =
      ((resized w a c).mem.store32 (a + c + 4) (r + flags false true)).store32 (a + c + r) r := by
    rw [← hor]
    rfl
  rw [hmem]
  refine ⟨⟨?_, ?_, Memory.load32_store32_same (by omega)⟩, fun x hx => ?_⟩
  · rw [header, Memory.load32_store32_apart (by omega), Memory.load32_store32_apart (by omega)]
    exact hhdr
  · rw [header, Memory.load32_store32_apart (by omega), Memory.load32_store32_same (by omega)]
  · rw [Memory.store32_apply (by omega), Memory.store32_apply (by omega)]
    exact hm x (by omega)

theorem CutOnly.quiet {m' : Memory} (h : HeapAt w (pre ++ ⟨a, s, true⟩ :: post) B)
    (hm : CutOnly w.mem m' a c r) (hlt : s < c) (hpost : ∀ p ∈ pairs true post, a + c + r ≤ p.1) :
    Quiet (pairs true (pre ++ ⟨a, s, true⟩ :: post)) w.mem m' := by
  obtain ⟨t, hpre, -, -⟩ := h.tiled.split
  simp only at hpre
  intro p hp x hlo hhi
  simp only [pairs_append, pairs_same, List.mem_append, List.mem_cons] at hp
  rcases hp with hp | rfl | hp
  · have := hpre.mem (mem_pairs.mp hp)
    simp only at this
    exact hm x (by omega)
  · simp only at hlo hhi
    exact hm x (by omega)
  · have := hpost p hp
    exact hm x (by omega)

-- ---------------------------------------------------------------------------
-- Into a part of the chunk
-- ---------------------------------------------------------------------------

theorem HeapAt.part_top (h : HeapAt w (pre ++ [⟨a, s, true⟩]) B) (hlt : s < c)
    (hc8 : c % 8 = 0) (hr : 16 ≤ r) (hsum : c + r = s + w.kmstate.topChunkSize) :
    HeapAt ((cutNext w a c r).setTopChunk (a + c) r) (pre ++ [⟨a, c, true⟩]) B ∧
      Quiet (pairs true (pre ++ [⟨a, s, true⟩])) w.mem (cutNext w a c r).mem := by
  obtain ⟨t, hpre, hat, hend, -⟩ := h.tiled.split
  obtain ⟨hfits, -⟩ := h.next_room
  have hmem := h.mem (c := ⟨a, s, true⟩) (by simp)
  have htop8 := h.top.align
  have htop := h.top.fits
  simp only [room] at hmem hpre hend hfits
  obtain ⟨hcut, honly⟩ := cutNext_at (c := c) (r := r) hat hc8 (by omega) (by omega) hr (by omega)
  have key := HeapAt.of_prefix w ((cutNext w a c r).setTopChunk (a + c) r)
    [⟨a, c, true⟩] hpre h.bins h.extents
    (by simpa using h.covered)
    ⟨h.arena.isInit, h.arena.align, h.arena.fits, h.arena.size, h.arena.initial⟩
      (fun x _ hx => honly x (.inl hx))
    ⟨rfl, ⟨hc8, show 16 ≤ c by omega, hcut.header, by simp⟩, rfl, rfl⟩ ?_
  · exact ⟨key.1, honly.quiet h hlt (by simp)⟩
  · have hdummy : a + c + r = w.kmstate.topChunk + w.kmstate.topChunkSize := by omega
    refine ⟨show r % 8 = 0 by omega, ?_, fun _ => hcut.left, fun _ => hcut.foot, ?_⟩
    · show a + c + r + 8 ≤ w.kmstate.heapStart + w.kmstate.heapSize
      omega
    · show header (cutNext w a c r).mem (a + c + r) = 0
      rw [header, Memory.load32_congr fun x _ _ => honly x (by omega), hdummy]
      exact h.top.dummy

theorem HeapAt.part {N : Nat} {b : BinTables} {m' : Memory}
    (h : HeapAt w (pre ++ ⟨a, s, true⟩ :: ⟨a + s, N, false⟩ :: post) B) (hlt : s < c)
    (hc8 : c % 8 = 0) (hr : 16 ≤ r)
    (hsum : c + r = s + N) (hb : Bins b m' B') (hsub : ∀ p ∈ B', p ∈ B) (hx : Extents B')
    (hB : ∀ p ∈ B', Apart p (a + s, N))
    (hin : ∀ x, (∀ p ∈ B, x < p.1 + 8 ∨ p.1 + p.2 ≤ x) ∨ a + c + 4 ≤ x ∧ x < a + c + 8 →
      m' x = (cutNext w a c r).mem x) :
    HeapAt (w.setBins b m') (pre ++ ⟨a, c, true⟩ :: ⟨a + c, r, false⟩ :: post) B' ∧
      Quiet (pairs true (pre ++ ⟨a, s, true⟩ :: ⟨a + s, N, false⟩ :: post)) w.mem m' := by
  obtain ⟨t, hpre, hat, -, hfree, hpost⟩ := h.tiled.split
  simp only at hpre hfree hpost
  obtain ⟨n, rest, rfl, hn, hu, hnat, hrest⟩ := hpost.next_used
  have hmem := h.mem (c := ⟨a, s, true⟩) (by simp)
  have hmem' := h.mem (c := n) (by simp)
  have hs8 : s % 8 = 0 := hat.align
  have hN8 : N % 8 = 0 := hfree.align
  simp only at hmem
  have hend : a + s + N = a + c + r := by omega
  rw [hend] at hn hrest hpost
  obtain ⟨hcut, honly⟩ := cutNext_at (c := c) (r := r) hat hc8 (by omega) (by omega) hr (by omega)
  have hown : ∀ p ∈ B, p.1 + p.2 ≤ a ∨ a + s ≤ p.1 :=
    fun p hp => h.apart_used (c := ⟨a, s, true⟩) (by simp) rfl hp
  have hnext : ∀ p ∈ B, p.1 + p.2 ≤ a + c + r ∨ a + c + r + n.size ≤ p.1 := fun p hp => by
    have := h.apart_used (c := n) (by simp) hu hp
    omega
  have hcut' : CutAt m' a c r t := by
    refine hcut.congr (fun x _ _ => hin x (.inl fun p hp => ?_))
      (fun x hlo hhi => hin x (.inr ⟨hlo, hhi⟩))
      fun x _ _ => hin x (.inl fun p hp => ?_)
    · have := hown p hp
      omega
    · have := hnext p hp
      omega
  have key := HeapAt.resplice (e := a + c + r) (y := false)
    [⟨a, s, true⟩, ⟨a + s, N, false⟩] [⟨a, c, true⟩, ⟨a + c, r, false⟩]
    (show HeapAt w (pre ++ ([_, _] ++ n :: rest)) B by simpa using h) hpre
    ⟨rfl, hat, rfl, hfree, hend,
    rfl⟩ hpost (fun x hx hout => (hin x (.inl hout)).trans (honly x (by omega)))
    (hcut'.tiled hc8 (by omega) (by omega) hr) hb hsub hx (fun p hp => ?_) fun p hp x hlo hhi => ?_
  · simpa using key
  · have := hB p hp
    have := hown p (hsub p hp)
    have := (hx.extent p hp).min
    simp only [Apart] at *
    omega
  · rw [pairs_same, pairs_true_free, pairs_nil, List.mem_singleton] at hp
    subst hp
    simp only at hlo hhi
    refine (hin x (.inl fun p hp => ?_)).trans (honly x (by omega))
    have := hown p hp
    omega

-- ---------------------------------------------------------------------------
-- Into all of the chunk
-- ---------------------------------------------------------------------------

theorem HeapAt.whole_top (h : HeapAt w (pre ++ [⟨a, s, true⟩]) B)
    (hpos : 0 < w.kmstate.topChunkSize) (hsum : c = s + w.kmstate.topChunkSize) :
    nextChunk (resized w a c).mem a = a + c ∧ tagNext (resized w a c).mem a = (resized w a c).mem ∧
      HeapAt ((resized w a c).setTopChunk (a + c) 0) (pre ++ [⟨a, c, true⟩]) B ∧
      Quiet (pairs true (pre ++ [⟨a, s, true⟩])) w.mem (resized w a c).mem := by
  obtain ⟨t, hpre, hat, hend, -⟩ := h.tiled.split
  obtain ⟨hfits, -⟩ := h.next_room
  have hmem := h.mem (c := ⟨a, s, true⟩) (by simp)
  have htop8 := h.top.align
  have htop := h.top.fits
  simp only [room] at hmem hpre hend hfits
  have hc8 : c % 8 = 0 := by omega
  obtain ⟨hhdr, hm⟩ := resized_at (c := c) hat hc8 (by omega)
  have hdummy : a + c = w.kmstate.topChunk + w.kmstate.topChunkSize := by omega
  have hzero : header (resized w a c).mem (a + c) = 0 := by
    rw [header, Memory.load32_congr fun x _ _ => hm x (by omega), hdummy]
    exact h.top.dummy
  have hnext : nextChunk (resized w a c).mem a = a + c := by
    rw [nextChunk, getChunkSize_of_header hhdr hc8, add_of_lt (by omega)]
  have key := HeapAt.of_prefix w ((resized w a c).setTopChunk (a + c) 0)
    [⟨a, c, true⟩] hpre h.bins h.extents
    (by simpa using h.covered)
    ⟨h.arena.isInit, h.arena.align, h.arena.fits, h.arena.size, h.arena.initial⟩
      (fun x _ hx => hm x (.inl hx))
    ⟨rfl, ⟨hc8, show 16 ≤ c by omega, hhdr, by simp⟩, rfl, rfl⟩ ⟨rfl, ?_, fun h0 => absurd rfl h0,
    fun h0 => absurd rfl h0, hzero⟩
  · refine ⟨hnext, ?_, key.1, fun p hp x hlo hhi => ?_⟩
    · simp only [tagNext, hnext, hzero]
      rfl
    · simp only [pairs_append, pairs_same, pairs_nil, List.mem_append, List.mem_singleton] at hp
      rcases hp with hp | rfl
      · have := hpre.mem (mem_pairs.mp hp)
        simp only at this
        exact hm x (by omega)
      · simp only at hlo
        exact hm x (by omega)
  · show a + c + 0 + 8 ≤ w.kmstate.heapStart + w.kmstate.heapSize
    omega

theorem HeapAt.whole {N : Nat} {b : BinTables} {m₁ : Memory}
    (h : HeapAt w (pre ++ ⟨a, s, true⟩ :: ⟨a + s, N, false⟩ :: post) B) (hsum : c = s + N)
    (hb : Bins b m₁ B')
    (hsub : ∀ p ∈ B', p ∈ B) (hx : Extents B') (hB : ∀ p ∈ B', Apart p (a + s, N))
    (hin : ∀ x, (∀ p ∈ B, x < p.1 + 8 ∨ p.1 + p.2 ≤ x) → m₁ x = (resized w a c).mem x) :
    HeapAt (w.setBins b (tagNext m₁ a)) (pre ++ ⟨a, c, true⟩ :: post) B' ∧
      Quiet (pairs true (pre ++ ⟨a, s, true⟩ :: ⟨a + s, N, false⟩ :: post)) w.mem
        (tagNext m₁ a) := by
  obtain ⟨t, hpre, hat, -, hfree, hpost⟩ := h.tiled.split
  simp only at hpre hfree hpost
  obtain ⟨n, rest, rfl, hn, hu, hnat, hrest⟩ := hpost.next_used
  have hmem := h.mem (c := ⟨a, s, true⟩) (by simp)
  have hmem' := h.mem (c := n) (by simp)
  have hs8 : s % 8 = 0 := hat.align
  have hN8 : N % 8 = 0 := hfree.align
  have hc8 : c % 8 = 0 := by omega
  have hf3 : flags true true = 3 := rfl
  have hf2 : flags true false = 2 := rfl
  simp only at hmem
  have hend : a + s + N = a + c := by omega
  rw [hend] at hn hrest hpost
  obtain ⟨hhdr, hm⟩ := resized_at (c := c) hat hc8 (by omega)
  have hown : ∀ p ∈ B, p.1 + p.2 ≤ a ∨ a + s ≤ p.1 :=
    fun p hp => h.apart_used (c := ⟨a, s, true⟩) (by simp) rfl hp
  have hnext : ∀ p ∈ B, p.1 + p.2 ≤ a + c ∨ a + c + n.size ≤ p.1 := fun p hp => by
    have := h.apart_used (c := n) (by simp) hu hp
    omega
  have hhdr₁ : header m₁ a = c + flags true t := by
    refine (Memory.load32_congr fun x _ _ => hin x fun p hp => ?_).trans hhdr
    have := hown p hp
    omega
  have hnhdr : header m₁ (a + c) = n.size + flags true false := by
    have h0 : header w.mem (a + c) = n.size + flags true false := by
      rw [← hn, hnat.header, hu]
    rw [← h0]
    refine Memory.load32_congr fun x _ _ => (hin x fun p hp => ?_).trans (hm x (by omega))
    have := hnext p hp
    omega
  have htag : tagNext m₁ a = m₁.store32 (a + c + 4) (n.size + flags true true) := by
    have hnc : nextChunk m₁ a = a + c := by
      rw [nextChunk, getChunkSize_of_header hhdr₁ hc8, add_of_lt (by omega)]
    rw [tagNext]
    simp only [hnc, hnhdr]
    rw [if_pos (by omega), or_pinuse hnat.align]
    rfl
  have hout : ∀ x, x < a + c + 4 ∨ a + c + 8 ≤ x → tagNext m₁ a x = m₁ x := fun x hx => by
    rw [htag, Memory.store32_apply (by omega)]
  have hbins : Bins b (tagNext m₁ a) B' := by
    refine hb.congr (fun p hp x hlo hhi => hout x ?_) hx.extent
    have := hnext p (hsub p hp)
    have := (hx.extent p hp).min
    omega
  have key := HeapAt.resplice (e := a + c + n.size) (y := true)
    [⟨a, s, true⟩, ⟨a + s, N, false⟩, n] [⟨a, c, true⟩, n]
    (show HeapAt w (pre ++ ([_, _, _] ++ rest)) B by simpa using h) hpre
    ⟨rfl, hat, rfl, hfree, hn.trans hend.symm, hnat, by simp only; omega, hu⟩
      (by simpa [hu] using hrest)
    (fun x hx hfreeB => (hout x (by omega)).trans ((hin x hfreeB).trans (hm x (by omega))))
    ⟨rfl, ⟨hc8, show 16 ≤ c by omega, ?_, by simp⟩, hn, ⟨hnat.align, hnat.min, ?_, by simp [hu]⟩,
    rfl, hu⟩ hbins hsub hx
    (fun p hp => ?_) fun p hp x hlo hhi => ?_
  · simpa using key
  · exact (Memory.load32_congr fun x _ _ => hout x (by simp only at *; omega)).trans hhdr₁
  · rw [hn, hu, htag]
    exact Memory.load32_store32_same (by omega)
  · have := hB p hp
    have := hown p (hsub p hp)
    have := hnext p (hsub p hp)
    have := (hx.extent p hp).min
    simp only [Apart] at *
    omega
  · rw [pairs_same, pairs_true_free, pairs_cons, if_pos hu, pairs_nil, List.mem_cons,
      List.mem_singleton] at hp
    rcases hp with rfl | rfl
    · simp only at hlo hhi
      refine (hout x (by omega)).trans ((hin x fun p hp => ?_).trans (hm x (by omega)))
      have := hown p hp
      omega
    · simp only at hlo hhi
      refine (hout x (by omega)).trans ((hin x fun p hp => ?_).trans (hm x (by omega)))
      have := hnext p hp
      omega

-- ---------------------------------------------------------------------------
-- The six cases
-- ---------------------------------------------------------------------------

theorem leftover_pos {e : Nat} (hr : 16 ≤ r) : leftover e r = [(e, r)] := if_neg (by omega)

theorem room_free {N : Nat} : room w.kmstate (⟨a, N, false⟩ :: post) = N := rfl

theorem pairs_next {N x : Nat} {V : List (Nat × Nat)}
    (h : (pairs false (pre ++ ⟨a, s, true⟩ :: ⟨x, N, false⟩ :: post)).Perm ((x, N) :: V)) :
    (pairs false (pre ++ post)).Perm V := by
  have h' : (pairs false ((pre ++ [⟨a, s, true⟩]) ++ ⟨x, N, false⟩ :: post)).Perm ((x, N) :: V) :=
    by simpa using h
  simpa using free_perm h'

theorem expandPart_top (h : Heap w (pre ++ [⟨a, s, true⟩]) B) (hlt : s < c) (hc8 : c % 8 = 0)
    (hcut : c + 16 < s + w.kmstate.topChunkSize) :
    ∃ w', expandPart w a c (a + s) (s + w.kmstate.topChunkSize - c) = some w' ∧
      Expanded heapEnd P w w' pre a s c [] B := by
  obtain ⟨t, -, -, hend, -⟩ := h.tiled.split
  obtain ⟨hat, hquiet⟩ :=
    h.toHeapAt.part_top (r := s + w.kmstate.topChunkSize - c) hlt hc8 (by omega) (by omega)
  refine ⟨_, if_pos hend, ⟨rfl, rfl, id, hquiet, Traced.refl P _⟩,
    fun _ => .inr (show 16 ≤ s + w.kmstate.topChunkSize - c by omega),
    _, B, ⟨hat, ?_, h.noVictim⟩, by simp, rfl, rfl, rfl, List.Perm.refl _⟩
  have hfree : (pairs false (pre ++ [⟨a, s, true⟩])).Perm (victims w.kmstate ++ B) := h.free
  simp only [pairs_append, pairs_false_used] at hfree ⊢
  exact hfree

theorem HeapAt.bins_around {N : Nat} {m' : Memory}
    (h : HeapAt w (pre ++ ⟨a, s, true⟩ :: ⟨a + s, N, false⟩ :: post) B)
    (hm : ∀ x, x < a + 4 ∨ a + s + 4 ≤ x ∧ x < a + s + N ∨ a + s + N + 4 ≤ x → m' x = w.mem x) :
    Bins w.kmstate.bins m' B := by
  obtain ⟨t, -, hat, -, -, hpost⟩ := h.tiled.split
  obtain ⟨n, rest, rfl, hn, hu, hnat, -⟩ := hpost.next_used
  have hsmin : 16 ≤ s := hat.min
  have hnmin := hnat.min
  refine h.bins.congr (fun p hp x hlo hhi => hm x ?_) h.extents.extent
  have h1 := h.apart_used (c := ⟨a, s, true⟩) (by simp) rfl hp
  have h2 := h.apart_used (c := n) (by simp) hu hp
  have h3 := (h.extents.extent p hp).min
  simp only at h1 hn
  omega

theorem expandPart_next {N : Nat} (h : Heap w (pre ++ ⟨a, s, true⟩ :: ⟨a + s, N, false⟩ :: post) B)
    (hlt : s < c)
    (hc8 : c % 8 = 0) (hcut : c + 16 < s + N) (hok : ExpandOk w s c (⟨a + s, N, false⟩ :: post) B) :
    ∃ w', expandPart w a c (a + s) (s + N - c) = some w' ∧
      Expanded heapEnd P w w' pre a s c (⟨a + s, N, false⟩ :: post) B := by
  obtain ⟨t, -, hat, -, hfree, hpost⟩ := h.tiled.split
  obtain ⟨hfits, -⟩ := h.toHeapAt.next_room
  have hmem := h.mem (c := ⟨a + s, N, false⟩) (by simp)
  have hs16 : 16 ≤ s := hat.min
  have hs8 : s % 8 = 0 := hat.align
  have hN8 : N % 8 = 0 := hfree.align
  rw [room_free] at hfits
  simp only at hmem
  obtain ⟨r, hr⟩ : ∃ r, s + N - c = r := ⟨_, rfl⟩
  have hsum : c + r = s + N := by omega
  have hr16 : 16 ≤ r := by omega
  have htop : ¬a + s = w.kmstate.topChunk := by omega
  -- all but the new header, which lies inside the chunk
  obtain ⟨m₀, hm₀⟩ : ∃ m₀, (resized w a c).mem.store32 (a + c + r) r = m₀ := ⟨_, rfl⟩
  have houtside : ∀ x, x < a + 4 ∨ a + 8 ≤ x ∧ x < a + s + N ∨ a + s + N + 4 ≤ x →
    m₀ x = w.mem x := by
    obtain ⟨-, hm⟩ := resized_at (c := c) hat hc8 (by omega)
    intro x hx
    rw [← hm₀, Memory.store32_apply (by omega)]
    exact hm x (by omega)
  have hbins₀ := h.toHeapAt.bins_around fun x hx => houtside x (by omega)
  have hnew : SameExcept (a + c + 4) (a + c + 8) m₀ (cutNext w a c r).mem := by
    rw [← hm₀]
    exact SameExcept.store_both ((SameExcept.refl _ _ (resized w a c).mem).store (Nat.le_refl _)
      (Nat.le_refl _))
  rw [hr, expandPart]
  rcases h.free_cases (show (a + s, N) ∈ pairs false _ by simp) with
    ⟨hdv, -, hall, hapart⟩ | ⟨hdv, hpB, hall⟩
  · have hbins : Bins w.kmstate.bins (cutNext w a c r).mem B := by
      refine hbins₀.congr (fun p hp x hlo hhi => hnew x ?_) h.extents.extent
      have := hapart p hp
      have := (h.extents.extent p hp).min
      simp only [Apart] at *
      omega
    obtain ⟨hat', hquiet⟩ :=
      h.toHeapAt.part hlt hc8 hr16 hsum hbins (fun _ hp => hp) h.extents hapart fun _ _ => rfl
    have hv : victims ((cutNext w a c r).setDVictim (a + c) r).kmstate = [(a + c, r)] :=
      victims_setDVictim (w := cutNext w a c r) (by omega)
    refine ⟨_, (if_neg htop).trans (if_pos hdv.symm),
      ⟨rfl, rfl, id, hquiet, Traced.refl P _⟩, id, _, B,
      ⟨HeapAt.setDVictim (w := cutNext w a c r) hat', ?_, fun h0 => ?_⟩, by
        simp, ⟨rfl, rfl, rfl⟩, ?_⟩
    · rw [hv]
      simp only [pairs_append, pairs_same, pairs_false_used]
      refine List.perm_middle.trans (List.Perm.cons _ ?_)
      simpa using pairs_next hall
    · have h0 : a + c = 0 := h0
      omega
    · rw [if_pos hdv, room_free, hr, leftover_pos hr16]
      exact ⟨hv, List.Perm.refl _⟩
  · have hleft := pairs_next hall
    obtain ⟨hd, hacc⟩ := hok rfl hdv hcut
    simp only [hr] at hd hacc
    have hd₀ : Unread m₀ (a + s) N (c - s) := by
      have hnext : next m₀ (a + s) = next w.mem (a + s) :=
        Memory.load32_congr fun x _ _ => houtside x (by omega)
      rw [Unread, hnext]
      exact hd
    have hac : a + s + (c - s) = a + c := by omega
    obtain ⟨b, m₁, hun, hbins, hinside, hkept⟩ :=
      unbinChunk_overwritten (w := w.setMem m₀) hbins₀ h.extents hpB hd₀
      (by omega) (by rw [hac]; exact hnew)
    rw [hac] at hkept
    have hsub : ∀ p ∈ B.erase (a + s, N), p ∈ B := fun p hp => List.mem_of_mem_erase hp
    have hx := (h.extents.perm hpB).sublist (List.sublist_cons_self _ _)
    have hapart := h.toHeapAt.apart_dropped hpB
    obtain ⟨hat', hquiet⟩ := h.toHeapAt.part hlt hc8 hr16 hsum hbins hsub hx hapart fun x hx => by
      rcases hx with hx | ⟨hlo, hhi⟩
      · have := hx (a + s, N) (hpB.mem_iff.mpr List.mem_cons_self)
        simp only at this
        exact (hinside x hx).trans (hnew x (by omega)).symm
      · exact hkept x hlo hhi
    obtain ⟨b', m₂, hbin, hat'', hquiet', -⟩ :=
      hat'.bin (a := a + c) (s := r) (by simp) (fun p hp => by
      have := hapart p hp
      simp only [Apart] at *
      omega) hacc
    refine ⟨(w.setBins b m₁).setBins b' m₂, ?_,
      ⟨rfl, rfl, id, hquiet.trans fun p hp x hlo hhi => ?_, Traced.refl P _⟩, id, _, _,
      ⟨hat'', ?_, h.noVictim⟩, by simp, ⟨rfl, rfl, rfl⟩, ?_⟩
    · have hun' : unbinChunk (cutNext w a c r) (a + s) = some (w.setBins b m₁) := hun
      have htop' : ¬a + s = (cutNext w a c r).kmstate.topChunk := htop
      have hdv' : ¬a + s = (cutNext w a c r).kmstate.dVictim := fun he => hdv he.symm
      simp only [if_neg htop', if_neg hdv', hun', Option.bind_some]
      exact hbin
    · simp only [pairs_append, pairs_same, pairs_true_free, List.mem_append, List.mem_cons] at hp
      rcases hp with hp | rfl | hp
      · exact hquiet' p (by simp [hp]) x hlo hhi
      · exact hquiet' (a, c) (by simp) x hlo (by simp only at *; omega)
      · exact hquiet' p (by simp [hp]) x hlo hhi
    · simp only [pairs_append, pairs_same, pairs_false_used]
      refine List.perm_middle.trans ((List.Perm.cons _ ?_).trans List.perm_middle.symm)
      rw [pairs_append] at hleft
      exact hleft
    · rw [if_neg hdv, room_free, hr, leftover_pos hr16]
      exact ⟨rfl, List.Perm.refl _⟩

theorem expandWhole_top (h : Heap w (pre ++ [⟨a, s, true⟩]) B) (hpos : 0 < w.kmstate.topChunkSize)
    (hsum : c = s + w.kmstate.topChunkSize) :
    ∃ w', expandWhole w a c (a + s) = some w' ∧ Expanded heapEnd P w w' pre a s c [] B := by
  obtain ⟨t, -, -, hend, -⟩ := h.tiled.split
  obtain ⟨hnext, htag, hat, hquiet⟩ := h.toHeapAt.whole_top hpos hsum
  refine ⟨(resized w a c).setTopChunk (a + c) 0, ?_, ⟨rfl, rfl, id, hquiet, Traced.refl P _⟩,
    fun _ => .inl rfl, _, B,
    ⟨hat, ?_, h.noVictim⟩, by simp, rfl, show 0 = s + w.kmstate.topChunkSize - c by
      omega, rfl, List.Perm.refl _⟩
  · have hend' : a + s = (resized w a c).kmstate.topChunk := hend
    rw [expandWhole]
    simp only [if_pos hend', hnext, Option.map_some]
    exact congrArg (fun m => some (((resized w a c).setTopChunk (a + c) 0).setMem m)) htag
  · have hfree : (pairs false (pre ++ [⟨a, s, true⟩])).Perm (victims w.kmstate ++ B) := h.free
    simp only [pairs_append, pairs_false_used] at hfree ⊢
    exact hfree

theorem expandWhole_next {N : Nat} (h : Heap w (pre ++ ⟨a, s, true⟩ :: ⟨a + s, N, false⟩ :: post) B)
    (hsum : c = s + N) :
    ∃ w', expandWhole w a c (a + s) = some w' ∧
      Expanded heapEnd P w w' pre a s c (⟨a + s, N, false⟩ :: post) B := by
  obtain ⟨t, -, hat, -, hfree, hpost⟩ := h.tiled.split
  obtain ⟨hfits, -⟩ := h.toHeapAt.next_room
  have hmem := h.mem (c := ⟨a + s, N, false⟩) (by simp)
  have hs16 : 16 ≤ s := hat.min
  have hs8 : s % 8 = 0 := hat.align
  have hN8 : N % 8 = 0 := hfree.align
  rw [room_free] at hfits
  simp only at hmem
  have htop : ¬a + s = w.kmstate.topChunk := by omega
  have hr : s + room w.kmstate (⟨a + s, N, false⟩ :: post) - c = 0 := by
    rw [room_free]
    omega
  obtain ⟨-, hm⟩ := resized_at (c := c) hat (by omega) (by omega)
  have hbins₀ : Bins w.kmstate.bins (resized w a c).mem B :=
    h.toHeapAt.bins_around fun x hx => hm x (by omega)
  rw [expandWhole]
  rcases h.free_cases (show (a + s, N) ∈ pairs false _ by simp) with
    ⟨hdv, -, hall, hapart⟩ | ⟨hdv, hpB, hall⟩
  · obtain ⟨hat', hquiet⟩ :=
      h.toHeapAt.whole hsum hbins₀ (fun _ hp => hp) h.extents hapart fun _ _ => rfl
    refine ⟨(w.setMem (tagNext (resized w a c).mem a)).setDVictim 0 0, ?_,
      ⟨rfl, rfl, id, hquiet, Traced.refl P _⟩, id, _, B,
      ⟨HeapAt.setDVictim (w := w.setMem (tagNext (resized w a c).mem a)) hat', ?_, fun _ => rfl⟩, by
        simp, ⟨rfl, rfl, rfl⟩, ?_⟩
    · have htop' : ¬a + s = (resized w a c).kmstate.topChunk := htop
      have hdv' : a + s = (resized w a c).kmstate.dVictim := hdv.symm
      simp only [if_neg htop', if_pos hdv', Option.map_some]
      rfl
    · have hleft := pairs_next hall
      simp only [pairs_append, pairs_false_used] at hleft ⊢
      exact hleft
    · rw [if_pos hdv, hr]
      exact ⟨rfl, List.Perm.refl _⟩
  · have hleft := pairs_next hall
    obtain ⟨b, m₁, hun, hbins, hfields⟩ := unbinChunk_spec (w := resized w a c) hbins₀ h.extents hpB
    have hsub : ∀ p ∈ B.erase (a + s, N), p ∈ B := fun p hp => List.mem_of_mem_erase hp
    have hx := (h.extents.perm hpB).sublist (List.sublist_cons_self _ _)
    obtain ⟨hat', hquiet⟩ := h.toHeapAt.whole hsum hbins hsub hx (h.toHeapAt.apart_dropped hpB)
      (hfields.inside fun p hp => (h.extents.extent p hp).min)
    refine ⟨w.setBins b (tagNext m₁ a), ?_, ⟨rfl, rfl, id, hquiet, Traced.refl P _⟩, id, _, _,
      ⟨hat', ?_, h.noVictim⟩, by simp,
      ⟨rfl, rfl, rfl⟩, ?_⟩
    · have htop' : ¬a + s = (resized w a c).kmstate.topChunk := htop
      have hdv' : ¬a + s = (resized w a c).kmstate.dVictim := fun he => hdv he.symm
      simp only [if_neg htop', if_neg hdv', hun, Option.map_some]
      rfl
    · simp only [pairs_append, pairs_false_used] at hleft ⊢
      exact hleft
    · rw [if_neg hdv, hr]
      exact ⟨rfl, List.Perm.refl _⟩

/-- The size of the block once it has grown for a request of `c` bytes. -/
def grown (st : KmallocState) (s c : Nat) (post : List Chunk) : Nat :=
  if c + 16 < s + room st post then c else s + room st post

theorem tryExpandChunk_spec (h : Heap w (pre ++ ⟨a, s, true⟩ :: post) B) (hlt : s < c)
    (hc : c < 4294967296) (hc8 : c % 8 = 0)
    (hok : c ≤ s + room w.kmstate post → ExpandOk w s c post B) :
    s + room w.kmstate post < c ∧ tryExpandChunk w a c = some (false, w) ∨
      c ≤ s + room w.kmstate post ∧ ∃ w', tryExpandChunk w a c = some (true, w') ∧
        Expanded heapEnd P w w' pre a s (grown w.kmstate s c post) post B := by
  rw [tryExpandChunk_eq h.toHeapAt hlt hc]
  by_cases hfit : c ≤ s + room w.kmstate post
  swap
  · exact .inl ⟨Nat.lt_of_not_le hfit, if_neg hfit⟩
  refine .inr ⟨hfit, ?_⟩
  have hok := hok hfit
  rw [if_pos hfit, grown]
  obtain ⟨t, -, -, hpost⟩ := h.tiled.split
  have key :
    ∃ w', (if c + 16 < s + room w.kmstate post then
      expandPart w a c (a + s) (s + room w.kmstate post - c)
        else expandWhole w a (s + room w.kmstate post) (a + s)) = some w' ∧
      Expanded heapEnd P w w' pre a s (if c + 16 < s + room w.kmstate post then c else
      s + room w.kmstate post) post B := by
    cases post with
    | nil =>
      split
      · exact expandPart_top h hlt hc8 ‹_›
      · exact expandWhole_top h (by rw [room] at hfit; omega) rfl
    | cons n rest =>
      obtain ⟨na, ns, nu⟩ := n
      obtain ⟨rfl, -⟩ := hpost
      cases nu with
      | true =>
        rw [room, if_pos rfl] at hfit
        omega
      | false =>
        split
        · exact expandPart_next h hlt hc8 ‹_› hok
        · exact expandWhole_next h rfl
  obtain ⟨w', hres, hexp⟩ := key
  exact ⟨w', by rw [hres, Option.map_some], hexp⟩

end

end ElcoOs.Kmalloc
