import ElcoOs.Kmalloc.Chunk
import ElcoOs.Lib.RingTree

/-!
# The chunk rings

`kmalloc_dllist.c`, and the rings it keeps: read from the head pointer along
`next`, a ring is a list, and the four operations are cons, append, tail and
erase on it. They write only the two link words of chunks of the ring.
-/

namespace ElcoOs.Kmalloc

open Ring

-- ---------------------------------------------------------------------------
-- Code
-- ---------------------------------------------------------------------------

/-- The memory and the new `*head`. -/
def kmallocDllistAdd (m : Memory) (chunk head : Nat) : Memory × Nat :=
  if head ≠ 0 then
    let nxt := head
    let prv := prev m nxt
    let m := setNext m chunk nxt
    let m := setPrev m chunk prv
    let m := setNext m prv chunk
    let m := setPrev m nxt chunk
    (m, chunk)
  else
    let m := setNext m chunk chunk
    let m := setPrev m chunk chunk
    (m, chunk)

def kmallocDllistAddEnd (m : Memory) (chunk head : Nat) : Memory :=
  if head = 0 then m
  else
    let prv := prev m head
    let m := setPrev m chunk prv
    let m := setNext m chunk head
    let m := setNext m prv chunk
    setPrev m head chunk

/-- The chunk returned, the memory and the new `*head`. -/
def kmallocDllistRemoveIntern (m : Memory) (chunk head : Nat) : Nat × Memory × Nat :=
  if chunk = 0 then (0, m, head)
  else
    let nxt := next m chunk
    let prv := prev m chunk
    if nxt ≠ chunk then
      let m := setNext m prv nxt
      let m := setPrev m nxt prv
      (chunk, m, if head = chunk then nxt else head)
    else (chunk, m, 0)

/-- The chunk returned, the memory and the new `*head`. -/
def kmallocDllistRemove (m : Memory) (head : Nat) : Nat × Memory × Nat :=
  let chunk := head
  if chunk = 0 then (0, m, head)
  else
    let nxt := next m chunk
    let prv := prev m chunk
    if nxt ≠ chunk then
      let m := setNext m prv nxt
      let m := setPrev m nxt prv
      (chunk, m, nxt)
    else (chunk, m, 0)

-- ---------------------------------------------------------------------------
-- Link words
-- ---------------------------------------------------------------------------

/-- Distinct addresses are `n` bytes apart. -/
def Spaced (n : Nat) (xs : List Nat) : Prop := ∀ a ∈ xs, ∀ b ∈ xs, a = b ∨ a + n ≤ b ∨ b + n ≤ a

theorem Spaced.sub {n : Nat} {xs ys : List Nat} (h : Spaced n xs)
    (hs : ∀ a ∈ ys, a ∈ xs) : Spaced n ys :=
  fun a ha b hb => h a (hs a ha) b (hs b hb)

theorem Spaced.mono {n k : Nat} {xs : List Nat} (h : Spaced n xs) (hk : k ≤ n) : Spaced k xs := by
  intro a ha b hb
  have := h a ha b hb
  omega

/-- Addresses of records of `n` bytes inside the address space, none null. -/
def Fits (n : Nat) (xs : List Nat) : Prop := ∀ a ∈ xs, a ≠ 0 ∧ a + n ≤ 4294967296

/-- Only the bytes from 8 to `n` of the records at `xs` may differ. -/
def SameOutside (n : Nat) (xs : List Nat) (m m' : Memory) : Prop :=
  ∀ x, (∀ a ∈ xs, x < a + 8 ∨ a + n ≤ x) → m' x = m x

theorem SameOutside.refl (n : Nat) (xs : List Nat) (m : Memory) : SameOutside n xs m m :=
  fun _ _ => rfl

theorem SameOutside.trans {n : Nat} {xs : List Nat} {m m' m'' : Memory} (h : SameOutside n xs m m')
    (h' : SameOutside n xs m' m'') : SameOutside n xs m m'' :=
  fun x hx => (h' x hx).trans (h x hx)

theorem SameOutside.mono {n k : Nat} {xs ys : List Nat} {m m' : Memory} (h : SameOutside k xs m m')
    (hk : k ≤ n) (hs : ∀ a ∈ xs, a ∈ ys) : SameOutside n ys m m' := by
  intro x hx
  refine h x fun a ha => ?_
  have := hx a (hs a ha)
  omega

theorem SameOutside.store {n : Nat} {xs : List Nat} {m m' : Memory} (h : SameOutside n xs m m')
    (ha : a ∈ xs)
    (hlo : a + 8 ≤ b) (hhi : b + 4 ≤ a + n) : SameOutside n xs m (m'.store32 b v) := by
  intro x hx
  have := hx a ha
  rw [Memory.store32_apply (by omega), h x hx]

/-- `head` is the ring of `xs`: empty when null, otherwise read along `next`. -/
structure RingList (m : Memory) (head : Nat) (xs : List Nat) : Prop where
  head : head = xs.headD 0
  nodup : xs.Nodup
  ring : IsRing (next m) (prev m) xs

theorem RingList.congr {m m' : Memory} {head : Nat} {xs : List Nat} (h : RingList m head xs)
    (hn : ∀ a ∈ xs, next m' a = next m a) (hp : ∀ a ∈ xs, prev m' a = prev m a) :
    RingList m' head xs :=
  ⟨h.head, h.nodup, h.ring.congr hn hp⟩

-- ---------------------------------------------------------------------------
-- Insertion
-- ---------------------------------------------------------------------------

section
variable {m m' : Memory} {c h first : Nat} {t xs pre post : List Nat}

/-- The four writes that link `c` in before `h`. -/
def linkBefore (m : Memory) (c h : Nat) : Memory :=
  setPrev (setNext (setPrev (setNext m c h) c (prev m h)) (prev m h) c) h c

theorem linkBefore_sameOutside (hr : IsRing (next m) (prev m) (h :: t)) :
    SameOutside 16 (c :: h :: t) m (linkBefore m c h) := by
  have hp : prev m h ∈ c :: h :: t := List.mem_cons_of_mem _ (hr.links_mem List.mem_cons_self).2
  exact ((((SameOutside.refl _ _ _).store List.mem_cons_self (Nat.le_refl _) (by omega)).store
    List.mem_cons_self (by omega) (by omega)).store hp (by omega) (by omega)).store
    (List.mem_cons_of_mem _ List.mem_cons_self) (by omega) (by omega)

theorem linkBefore_ring (hr : IsRing (next m) (prev m) (h :: t)) (hnd : (c :: h :: t).Nodup)
    (hs : Spaced 16 (c :: h :: t)) (hf : Fits 16 (c :: h :: t)) :
    IsRing (next (linkBefore m c h)) (prev (linkBefore m c h)) (c :: h :: t) := by
  obtain ⟨hc, hnd'⟩ := List.nodup_cons.mp hnd
  have hp : prev m h ∈ h :: t := (hr.links_mem List.mem_cons_self).2
  have hmem : ∀ a ∈ h :: t, a ∈ c :: h :: t := fun a ha => List.mem_cons_of_mem _ ha
  have hne : ∀ a ∈ h :: t, a ≠ c := fun a ha he => hc (he ▸ ha)
  have hapart : ∀ a ∈ h :: t, a + 16 ≤ c ∨ c + 16 ≤ a := fun a ha =>
    (hs a (hmem a ha) c List.mem_cons_self).resolve_left (hne a ha)
  have hspace : ∀ a ∈ h :: t, ∀ b ∈ h :: t, a = b ∨ a + 16 ≤ b ∨ b + 16 ≤ a :=
    fun a ha b hb => hs a (hmem a ha) b (hmem b hb)
  have hcb := hf c List.mem_cons_self
  have hhb := hf h (hmem h List.mem_cons_self)
  have hpb := hf _ (hmem _ hp)
  have hch := hapart h List.mem_cons_self
  have hcp := hapart _ hp
  have hhp := hspace h List.mem_cons_self _ hp
  unfold linkBefore
  generalize hpe : prev m h = p at *
  apply IsRing.insert hr hnd'
  · simp (disch := omega) only [next, setNext, setPrev, Memory.load32_store32_apart,
      Memory.load32_store32_same]
  · rw [hpe]
    simp (disch := omega) only [prev, setNext, setPrev, Memory.load32_store32_apart,
      Memory.load32_store32_same]
  · rw [hpe]
    simp (disch := omega) only [next, setNext, setPrev, Memory.load32_store32_apart,
      Memory.load32_store32_same]
  · simp (disch := omega) only [prev, setPrev, Memory.load32_store32_same]
  · intro a ha hap
    rw [hpe] at hap
    have hac := hapart a ha
    have hah := hspace a ha h List.mem_cons_self
    have hap' := hspace a ha p hp
    simp (disch := omega) only [next, setNext, setPrev, Memory.load32_store32_apart]
  · intro a ha hah'
    have hac := hapart a ha
    have hah := hspace a ha h List.mem_cons_self
    have hap' := hspace a ha p hp
    simp (disch := omega) only [prev, setNext, setPrev, Memory.load32_store32_apart]

theorem kmallocDllistAdd_eq (h0 : h ≠ 0) : kmallocDllistAdd m c h = (linkBefore m c h, c) :=
  if_pos h0

theorem kmallocDllistAddEnd_eq (h0 : h ≠ 0) : kmallocDllistAddEnd m c h = linkBefore m c h := by
  rw [kmallocDllistAddEnd, if_neg h0]
  show setPrev (setNext (setNext (setPrev m c (prev m h)) c h) (prev m h) c) h c = _
  rw [linkBefore, show setNext (setPrev m c (prev m h)) c h =
    setPrev (setNext m c h) c (prev m h) from
    Memory.store32_comm (by omega)]

theorem kmallocDllistAdd_spec (hr : RingList m first xs) (hc : c ∉ xs) (hs : Spaced 16 (c :: xs))
    (hf : Fits 16 (c :: xs)) :
    RingList (kmallocDllistAdd m c first).1 (kmallocDllistAdd m c first).2 (c :: xs) ∧
      SameOutside 16 (c :: xs) m (kmallocDllistAdd m c first).1 := by
  have hcb := hf c List.mem_cons_self
  cases xs with
  | nil =>
    obtain rfl : first = 0 := hr.head
    refine ⟨⟨rfl, List.nodup_singleton c, ?_, ?_⟩, ?_⟩
    · show next (setPrev (setNext m c c) c c) c = c
      simp (disch := omega) only [next, setNext, setPrev, Memory.load32_store32_apart,
        Memory.load32_store32_same]
    · show prev (setPrev (setNext m c c) c c) c = c
      simp (disch := omega) only [prev, setPrev, Memory.load32_store32_same]
    · exact ((SameOutside.refl _ _ _).store List.mem_cons_self (Nat.le_refl _) (by omega)).store
        List.mem_cons_self (by omega) (by omega)
  | cons h t =>
    obtain rfl : first = h := hr.head
    have hnd : (c :: first :: t).Nodup := List.nodup_cons.mpr ⟨hc, hr.nodup⟩
    rw [kmallocDllistAdd_eq (hf first (by simp)).1]
    exact ⟨⟨rfl, hnd, linkBefore_ring hr.ring hnd hs hf⟩, linkBefore_sameOutside hr.ring⟩

theorem kmallocDllistAddEnd_spec (hr : RingList m first (h :: t)) (hc : c ∉ h :: t)
    (hs : Spaced 16 (c :: h :: t)) (hf : Fits 16 (c :: h :: t)) :
    RingList (kmallocDllistAddEnd m c first) first (h :: t ++ [c]) ∧
      SameOutside 16 (c :: h :: t) m (kmallocDllistAddEnd m c first) := by
  obtain rfl : first = h := hr.head
  have hnd : (c :: first :: t).Nodup := List.nodup_cons.mpr ⟨hc, hr.nodup⟩
  rw [kmallocDllistAddEnd_eq (hf first (by simp)).1]
  refine ⟨⟨rfl, ?_, ?_⟩, linkBefore_sameOutside hr.ring⟩
  · exact (List.perm_append_comm : ([c] ++ (first :: t)).Perm (first :: t ++ [c])).nodup_iff.mp hnd
  · exact ring_rotate [c] (linkBefore_ring hr.ring hnd hs hf)

-- ---------------------------------------------------------------------------
-- Removal
-- ---------------------------------------------------------------------------

/-- The two writes that link the neighbours of `c` to each other. -/
def unlink (m : Memory) (c : Nat) : Memory := setPrev (setNext m (prev m c) (next m c))
    (next m c) (prev m c)

theorem unlink_sameOutside (hr : IsRing (next m) (prev m) xs) (hc : c ∈ xs) :
    SameOutside 16 xs m (unlink m c) := by
  obtain ⟨hn, hp⟩ := hr.links_mem hc
  exact ((SameOutside.refl _ _ _).store hp (Nat.le_refl _) (by omega)).store hn (by omega)
    (by omega)

theorem unlink_ring (hr : IsRing (next m) (prev m) (c :: h :: t)) (hnd : (c :: h :: t).Nodup)
    (hs : Spaced 16 (c :: h :: t)) (hf : Fits 16 (c :: h :: t)) :
    IsRing (next (unlink m c)) (prev (unlink m c)) (h :: t) := by
  have hmem : ∀ a ∈ h :: t, a ∈ c :: h :: t := fun a ha => List.mem_cons_of_mem _ ha
  have hp : prev m c ∈ c :: h :: t := (hr.links_mem List.mem_cons_self).2
  have hh : h ∈ c :: h :: t := hmem h List.mem_cons_self
  have hhb := hf h hh
  have hpb := hf _ hp
  have hhp := hs h hh _ hp
  have hn : next m c = h := hr.head_next
  unfold unlink
  rw [hn]
  generalize hpe : prev m c = p at *
  apply IsRing.unlink hr hnd
  · rw [hpe]
    simp (disch := omega) only [next, setNext, setPrev, Memory.load32_store32_apart,
      Memory.load32_store32_same]
  · rw [hpe]
    simp (disch := omega) only [prev, setPrev, Memory.load32_store32_same]
  · intro a ha hap
    rw [hpe] at hap
    have hah := hs a (hmem a ha) h hh
    have hap' := hs a (hmem a ha) p hp
    simp (disch := omega) only [next, setNext, setPrev, Memory.load32_store32_apart]
  · intro a ha hah'
    have hah := hs a (hmem a ha) h hh
    have hap' := hs a (hmem a ha) p hp
    simp (disch := omega) only [prev, setNext, setPrev, Memory.load32_store32_apart]

theorem unlink_erase (pre : List Nat) (hr : IsRing (next m) (prev m) (pre ++ c :: post))
    (hnd : (pre ++ c :: post).Nodup)
    (hs : Spaced 16 (pre ++ c :: post)) (hf : Fits 16 (pre ++ c :: post)) (hne : pre ++ post ≠ []) :
    IsRing (next (unlink m c)) (prev (unlink m c)) (pre ++ post) := by
  have hperm : (pre ++ c :: post).Perm (c :: (post ++ pre)) :=
    List.perm_middle.trans (List.perm_append_comm.cons c)
  cases hl : post ++ pre with
  | nil => simp_all
  | cons h t =>
    apply ring_rotate post
    have hr' : IsRing (next m) (prev m) (c :: h :: t) := hl ▸ ring_rotate pre hr
    rw [hl]
    rw [hl] at hperm
    exact unlink_ring hr' (hperm.nodup_iff.mp hnd) (hs.sub fun a ha => hperm.mem_iff.mpr ha)
      fun a ha => hf a (hperm.mem_iff.mpr ha)

theorem kmallocDllistRemove_eq_intern (h0 : first ≠ 0) :
    kmallocDllistRemove m first = kmallocDllistRemoveIntern m first first := by
  simp only [kmallocDllistRemove, kmallocDllistRemoveIntern, if_neg h0, if_true]

theorem kmallocDllistRemoveIntern_spec (pre : List Nat) (hr : RingList m first (pre ++ c :: post))
    (hs : Spaced 16 (pre ++ c :: post)) (hf : Fits 16 (pre ++ c :: post)) :
    (kmallocDllistRemoveIntern m c first).1 = c ∧
      RingList (kmallocDllistRemoveIntern m c first).2.1 (kmallocDllistRemoveIntern m c first).2.2
        (pre ++ post) ∧
      SameOutside 16 (pre ++ c :: post) m (kmallocDllistRemoveIntern m c first).2.1 := by
  have hc : c ∈ pre ++ c :: post := by simp
  have hring : IsRing (next m) (prev m) (c :: (post ++ pre)) := ring_rotate pre hr.ring
  have hperm : (pre ++ c :: post).Perm (c :: (post ++ pre)) :=
    List.perm_middle.trans (List.perm_append_comm.cons c)
  have hnd := hperm.nodup_iff.mp hr.nodup
  have hself := hring.next_eq_self hnd
  rw [kmallocDllistRemoveIntern, if_neg (hf c hc).1]
  by_cases hn : next m c = c
  · have hnil := hself.mp hn
    obtain ⟨rfl, rfl⟩ : post = [] ∧ pre = [] := by simpa using hnil
    simp only [hn, ne_eq, not_true_eq_false, if_false]
    exact ⟨trivial, ⟨rfl, List.nodup_nil, trivial⟩, SameOutside.refl _ _ _⟩
  · have hne : pre ++ post ≠ [] := fun he => hn (hself.mpr (by simp_all))
    simp only [ne_eq, hn, not_false_eq_true, if_true]
    refine ⟨trivial, ⟨?_, ?_, unlink_erase _ hr.ring hr.nodup hs hf hne⟩,
      unlink_sameOutside hr.ring hc⟩
    · cases pre with
      | nil =>
        obtain rfl : first = c := hr.head
        cases post with
        | nil => simp at hne
        | cons h t => simpa using hr.ring.head_next
      | cons x pre =>
        obtain rfl : first = x := hr.head
        have hx : first ≠ c := by
          rintro rfl
          have := hr.nodup
          simp at this
        simp [hx]
    · exact (List.nodup_cons.mp (List.perm_middle.nodup_iff.mp hr.nodup)).2

theorem kmallocDllistRemove_spec (hr : RingList m first (c :: post)) (hs : Spaced 16 (c :: post))
    (hf : Fits 16 (c :: post)) :
    (kmallocDllistRemove m first).1 = c ∧
      RingList (kmallocDllistRemove m first).2.1 (kmallocDllistRemove m first).2.2 post ∧
      SameOutside 16 (c :: post) m (kmallocDllistRemove m first).2.1 := by
  obtain rfl : first = c := hr.head
  rw [kmallocDllistRemove_eq_intern (hf first List.mem_cons_self).1]
  exact kmallocDllistRemoveIntern_spec [] hr hs hf

end

end ElcoOs.Kmalloc
