import ElcoOs.Kmalloc.Bins

/-!
# Tilings

The physical heap: chunks one after the other, each with a header that says
its size, whether it is in use and whether the one before it is. A list of
chunks describes a stretch of memory; what changes inside one stretch leaves
the descriptions of its neighbours alone.
-/

namespace ElcoOs.Kmalloc

open Word32

structure Chunk where
  addr : Nat
  size : Nat
  used : Bool
  deriving DecidableEq, Repr

/-- The words that describe a chunk, where `u` is whether the chunk before it
is in use. A free chunk has a footer and follows one that is in use. -/
structure ChunkAt (m : Memory) (c : Chunk) (u : Bool) : Prop where
  align : c.size % 8 = 0
  min : 16 ≤ c.size
  header : header m c.addr = c.size + flags c.used u
  free : c.used = false → u = true ∧ prevFoot m (c.addr + c.size) = c.size

/-- The chunks from `a` up to `b`; `u` and `v` are whether what precedes `a`
and `b` is in use. -/
def Tiled (m : Memory) : Nat → Bool → List Chunk → Nat → Bool → Prop
  | a, u, [], b, v => a = b ∧ u = v
  | a, u, c :: cs, b, v => c.addr = a ∧ ChunkAt m c u ∧ Tiled m (a + c.size) c.used cs b v

def pairs (used : Bool) (cs : List Chunk) : List (Nat × Nat) :=
  (cs.filter (·.used = used)).map fun c => (c.addr, c.size)

/-- The chunks that `NEXTCHUNK` leads through from `a` to `stop`. -/
def walk (m : Memory) (stop : Nat) : Nat → Nat → List Chunk
  | 0, _ => []
  | fuel + 1, a =>
    if a = stop then []
    else ⟨a, getChunkSize m a, decide (isInuse m a)⟩ :: walk m stop fuel (nextChunk m a)

/-- Only bytes from `lo` up to `hi` may differ. -/
def SameExcept (lo hi : Nat) (m m' : Memory) : Prop := ∀ x, x < lo ∨ hi ≤ x → m' x = m x

/-- The payloads of these chunks are the same: all bytes after the header, and
the first word of what follows the chunk. -/
def Quiet (U : List (Nat × Nat)) (m m' : Memory) : Prop :=
  ∀ p ∈ U, ∀ x, p.1 + 8 ≤ x → x < p.1 + p.2 + 4 → m' x = m x

-- ---------------------------------------------------------------------------
-- Lists of chunks
-- ---------------------------------------------------------------------------

section
variable {u t : Bool} {c : Chunk} {cs ds : List Chunk} {a s : Nat}

@[simp] theorem pairs_nil : pairs u [] = [] := rfl

theorem pairs_cons : pairs u (c :: cs) = if c.used = u then (c.addr, c.size) :: pairs u cs else
    pairs u cs := by
  by_cases h : c.used = u <;> simp [pairs, h]

@[simp] theorem pairs_append : pairs u (cs ++ ds) = pairs u cs ++ pairs u ds := by
  simp [pairs]

@[simp] theorem pairs_same : pairs u (⟨a, s, u⟩ :: cs) = (a, s) :: pairs u cs := by
  simp [pairs_cons]

@[simp] theorem pairs_true_free : pairs true (⟨a, s, false⟩ :: cs) = pairs true cs := by
  simp [pairs_cons]

@[simp] theorem pairs_false_used : pairs false (⟨a, s, true⟩ :: cs) = pairs false cs := by
  simp [pairs_cons]

theorem mem_pairs {p : Nat × Nat} : p ∈ pairs u cs ↔ ⟨p.1, p.2, u⟩ ∈ cs := by
  simp only [pairs, List.mem_map, List.mem_filter, decide_eq_true_eq]
  constructor
  · rintro ⟨⟨a, s, v⟩, ⟨hc, rfl⟩, rfl⟩
    exact hc
  · exact fun h => ⟨_, ⟨h, rfl⟩, rfl⟩

end

theorem SameExcept.mono {lo hi lo' hi' : Nat} {m m' : Memory} (h : SameExcept lo hi m m')
    (hlo : lo' ≤ lo) (hhi : hi ≤ hi') : SameExcept lo' hi' m m' := fun x hx => h x (by omega)

theorem SameExcept.refl (lo hi : Nat) (m : Memory) : SameExcept lo hi m m := fun _ _ => rfl

theorem SameExcept.store {lo hi a v : Nat} {m m' : Memory} (h : SameExcept lo hi m m')
    (hlo : lo ≤ a) (hhi : a + 4 ≤ hi) : SameExcept lo hi m (m'.store32 a v) := by
  intro x hx
  rw [Memory.store32_apply (by omega), h x hx]

theorem SameExcept.store_both {lo hi a v : Nat} {m m' : Memory} (h : SameExcept lo hi m m') :
    SameExcept lo hi (m.store32 a v) (m'.store32 a v) := by
  intro x hx
  simp only [Memory.store32, h x hx]

theorem Quiet.refl (U : List (Nat × Nat)) (m : Memory) : Quiet U m m := fun _ _ _ _ _ => rfl

theorem Quiet.trans {U : List (Nat × Nat)} {m m' m'' : Memory} (h : Quiet U m m')
    (h' : Quiet U m' m'') :
    Quiet U m m'' := fun p hp x hlo hhi => (h' p hp x hlo hhi).trans (h p hp x hlo hhi)

theorem Quiet.mono {U V : List (Nat × Nat)} {m m' : Memory} (h : Quiet U m m')
    (hs : ∀ p ∈ V, p ∈ U) :
    Quiet V m m' := fun p hp => h p (hs p hp)

-- ---------------------------------------------------------------------------
-- Reading a tiling
-- ---------------------------------------------------------------------------

section
variable {m m' : Memory} {a b e h x : Nat} {t u v : Bool} {c : Chunk}
  {cs ds pre mid post : List Chunk}

theorem tiled_cons : Tiled m a u (c :: cs) b v ↔ c.addr = a ∧ ChunkAt m c u ∧
    Tiled m (a + c.size) c.used cs b v :=
  Iff.rfl

theorem tiled_append :
    Tiled m a u (cs ++ ds) b v ↔ ∃ x t, Tiled m a u cs x t ∧ Tiled m x t ds b v := by
  induction cs generalizing a u with
  | nil =>
    constructor
    · exact fun h => ⟨a, u, ⟨rfl, rfl⟩, h⟩
    · rintro ⟨x, t, ⟨rfl, rfl⟩, h⟩
      exact h
  | cons c cs ih =>
    simp only [List.cons_append, tiled_cons, ih]
    constructor
    · rintro ⟨hc, hat, x, t, h1, h2⟩
      exact ⟨x, t, ⟨hc, hat, h1⟩, h2⟩
    · rintro ⟨x, t, ⟨hc, hat, h1⟩, h2⟩
      exact ⟨hc, hat, x, t, h1, h2⟩

theorem Tiled.le (h : Tiled m a u cs b v) : a + 16 * cs.length ≤ b := by
  induction cs generalizing a u with
  | nil => exact Nat.le_of_eq h.1
  | cons c cs ih =>
    obtain ⟨-, hat, hrest⟩ := h
    have := ih hrest
    have := hat.min
    rw [List.length_cons]
    omega

theorem Tiled.align (h : Tiled m a u cs b v) (ha : a % 8 = 0) : b % 8 = 0 := by
  induction cs generalizing a u with
  | nil => exact h.1 ▸ ha
  | cons c cs ih =>
    obtain ⟨-, hat, hrest⟩ := h
    have := hat.align
    exact ih hrest (by omega)

theorem Tiled.split (h : Tiled m a u (pre ++ c :: post) b v) :
    ∃ t, Tiled m a u pre c.addr t ∧ ChunkAt m c t ∧ Tiled m (c.addr + c.size) c.used post b v := by
  obtain ⟨x, t, hpre, rfl, hat, hpost⟩ := tiled_append.mp h
  exact ⟨t, hpre, hat, hpost⟩

theorem Tiled.mem (h : Tiled m a u cs b v) (hc : c ∈ cs) :
    a ≤ c.addr ∧ c.addr + c.size ≤ b ∧ ∃ t, ChunkAt m c t := by
  obtain ⟨pre, post, rfl⟩ := List.append_of_mem hc
  obtain ⟨t, hpre, hat, hpost⟩ := h.split
  have := hpre.le
  have := hpost.le
  exact ⟨by omega, by omega, t, hat⟩

theorem Tiled.addr_align (h : Tiled m a u cs b v) (ha : a % 8 = 0) (hc : c ∈ cs) :
    c.addr % 8 = 0 := by
  obtain ⟨pre, post, rfl⟩ := List.append_of_mem hc
  obtain ⟨t, hpre, -, -⟩ := h.split
  exact hpre.align ha

theorem Tiled.extents (h : Tiled m a u cs b v) (ha : a ≠ 0) (hb : b ≤ 4294967296) :
    Extents (cs.map fun c => (c.addr, c.size)) := by
  have hbelow : ∀ {cs : List Chunk} {a u}, Tiled m a u cs b v → ∀ c ∈ cs, a ≤ c.addr :=
    fun h c hc => (h.mem hc).1
  induction cs generalizing a u with
  | nil => exact ⟨by simp, List.nodup_nil, by simp⟩
  | cons c cs ih =>
    have hmem := h.mem (c := c) List.mem_cons_self
    obtain ⟨rfl, hat, hrest⟩ := h
    have hmin := hat.min
    have ih := ih hrest (by omega)
    have hafter : ∀ p ∈ cs.map fun c => (c.addr, c.size), c.addr + c.size ≤ p.1 := by
      intro p hp
      obtain ⟨d, hd, rfl⟩ := List.mem_map.mp hp
      exact hbelow hrest d hd
    refine ⟨fun p hp => ?_, ?_, fun p hp q hq hne => ?_⟩
    · rcases List.mem_cons.mp hp with rfl | hp
      · exact ⟨ha, by simp only; omega, hmin, hat.align⟩
      · exact ih.extent p hp
    · refine List.nodup_cons.mpr ⟨fun hm => ?_, ih.nodup⟩
      have := hafter _ hm
      simp only at this
      omega
    · rcases List.mem_cons.mp hp with rfl | hp <;> rcases List.mem_cons.mp hq with rfl | hq
      · exact absurd rfl hne
      · exact .inl (hafter q hq)
      · exact .inr (hafter p hp)
      · exact ih.apart p hp q hq hne

theorem pairs_sublist (u : Bool) (cs : List Chunk) :
    (pairs u cs).Sublist (cs.map fun c => (c.addr, c.size)) := List.filter_sublist.map _

theorem Tiled.apart {d : Chunk} (h : Tiled m a u cs b v) (hc : c ∈ cs) (hd : d ∈ cs) :
    c = d ∨ c.addr + c.size ≤ d.addr ∨ d.addr + d.size ≤ c.addr := by
  obtain ⟨pre, post, rfl⟩ := List.append_of_mem hc
  obtain ⟨t, hpre, hat, hpost⟩ := h.split
  rcases List.mem_append.mp hd with hd | hd
  · exact .inr (.inr (hpre.mem hd).2.1)
  · rcases List.mem_cons.mp hd with rfl | hd
    · exact .inl rfl
    · exact .inr (.inl (hpost.mem hd).1)

/-- After a free chunk there is one in use, if what comes last is. -/
theorem Tiled.next_used (h : Tiled m a false cs b true) :
    ∃ n rest, cs = n :: rest ∧ n.addr = a ∧ n.used = true ∧ ChunkAt m n false ∧
      Tiled m (a + n.size) true rest b true := by
  cases cs with
  | nil => exact absurd h.2 (by decide)
  | cons n rest =>
    obtain ⟨rfl, hat, hrest⟩ := h
    have hn : n.used = true := by
      by_contra hn
      exact absurd (hat.free (by simpa using hn)).1 (by decide)
    exact ⟨n, rest, rfl, rfl, hn, hat, hn ▸ hrest⟩

theorem Tiled.prev_free (h : Tiled m a true cs b false) :
    ∃ rest d, cs = rest ++ [d] ∧ d.used = false ∧ d.addr + d.size = b ∧ ChunkAt m d true ∧
      Tiled m a true rest d.addr true := by
  rcases List.eq_nil_or_concat cs with rfl | ⟨rest, d, hcs⟩
  · exact absurd h.2 (by decide)
  rw [List.concat_eq_append] at hcs
  subst hcs
  obtain ⟨t, hpre, hat, hend, hused⟩ := h.split
  obtain ⟨rfl, -⟩ := hat.free hused
  exact ⟨rest, d, rfl, hused, hend, hat, hpre⟩

-- ---------------------------------------------------------------------------
-- Tilings and writes
-- ---------------------------------------------------------------------------

theorem ChunkAt.congr (h : ChunkAt m c u) (hh : ∀ x, c.addr + 4 ≤ x → x < c.addr + 8 → m' x = m x)
    (hf : ∀ x, c.addr + c.size ≤ x → x < c.addr + c.size + 4 → m' x = m x) : ChunkAt m' c u := by
  refine ⟨h.align, h.min, ?_, fun hc => ⟨(h.free hc).1, ?_⟩⟩
  · exact (Memory.load32_congr fun x _ _ => hh x (by omega) (by omega)).trans h.header
  · exact (Memory.load32_congr fun x _ _ => hf x (by omega) (by omega)).trans (h.free hc).2

theorem Tiled.congr_inside (h : Tiled m a u cs b v)
    (hm : ∀ x, a + 4 ≤ x → x < b + 4 → (∀ p ∈ pairs false cs, x < p.1 + 8 ∨ p.1 + p.2 ≤ x) →
    m' x = m x) :
    Tiled m' a u cs b v := by
  induction cs generalizing a u with
  | nil => exact h
  | cons c cs ih =>
    obtain ⟨rfl, hat, hrest⟩ := h
    have hmin := hat.min
    have hle := hrest.le
    have hafter : ∀ p ∈ pairs false cs, c.addr + c.size ≤ p.1 :=
      fun p hp => (hrest.mem (mem_pairs.mp hp)).1
    have hsplit : ∀ x, x < c.addr + 8 ∨ c.addr + c.size ≤ x →
      (∀ p ∈ pairs false cs, x < p.1 + 8 ∨ p.1 + p.2 ≤ x) →
        ∀ p ∈ pairs false (c :: cs), x < p.1 + 8 ∨ p.1 + p.2 ≤ x := by
      intro x hx hcs p hp
      rw [pairs_cons] at hp
      split at hp
      · rcases List.mem_cons.mp hp with rfl | hp
        · exact hx
        · exact hcs p hp
      · exact hcs p hp
    refine ⟨rfl,
      hat.congr (fun x _ _ => hm x (by omega) (by omega) (hsplit x (by omega) fun p hp => ?_))
        fun x _ _ => hm x (by omega) (by omega) (hsplit x (by omega) fun p hp => ?_),
      ih hrest fun x _ _ hx => hm x (by omega) (by omega) (hsplit x (by omega) hx)⟩
    · have := hafter p hp
      omega
    · have := hafter p hp
      omega

theorem Tiled.congr (h : Tiled m a u cs b v) (hm : ∀ x, a + 4 ≤ x → x < b + 4 → m' x = m x) :
    Tiled m' a u cs b v := h.congr_inside fun x hlo hhi _ => hm x hlo hhi

theorem Tiled.splice {y : Bool} (mid : List Chunk) (hpre : Tiled m h u pre a t)
    (hpost : Tiled m e y post b v)
    (hm : SameExcept (a + 4) (e + 4) m m') (hmid : Tiled m' a t mid e y) :
    Tiled m' h u (pre ++ (mid ++ post)) b v := by
  refine tiled_append.mpr ⟨a, t, hpre.congr fun x _ hx => hm x (.inl (by omega)),
    tiled_append.mpr ⟨e, y, hmid, hpost.congr fun x hx _ => hm x (.inr (by omega))⟩⟩

theorem Tiled.walk (h : Tiled m a u cs b v) (hb : b < 4294967296) {fuel : Nat}
    (hf : cs.length ≤ fuel) :
    walk m b fuel a = cs := by
  induction cs generalizing a u fuel with
  | nil =>
    obtain rfl := h.1
    cases fuel <;> simp [Kmalloc.walk]
  | cons c cs ih =>
    obtain ⟨fuel, rfl⟩ : ∃ k, fuel = k + 1 :=
      ⟨fuel - 1, by simp only [List.length_cons] at hf; omega⟩
    have hle := (tiled_cons.mp h).2.2.le
    obtain ⟨rfl, hat, hrest⟩ := h
    have hmin := hat.min
    have hsize := getChunkSize_of_header hat.header hat.align
    have hused : decide (isInuse m c.addr) = c.used := by
      rw [Bool.decide_congr (isInuse_of_header hat.header hat.align), Bool.decide_eq_true]
    rw [Kmalloc.walk, if_neg (by omega), nextChunk, hsize, add_of_lt (by omega), hused,
      ih hrest (by simpa using hf)]

end

end ElcoOs.Kmalloc
