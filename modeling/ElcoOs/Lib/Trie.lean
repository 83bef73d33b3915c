import ElcoOs.Lib.RingTree
import Mathlib.Data.Nat.Bitwise

/-!
# Bitwise tries

A tree ordered by the bits of its keys, from the most significant of `d` bits
down. A node holds any key of its range, so the order decides where a key
goes but not which nodes are on the way; the bits above `d` take no part.
-/

namespace RingTree

-- ---------------------------------------------------------------------------
-- Order
-- ---------------------------------------------------------------------------

/-- A trie on the low `d` bits: bit `d - 1` of a key below a node says on
which side it is, and no key occurs at two nodes. -/
def Trie : Nat → RTree → Prop
  | _, .leaf => True
  | 0, .node _ _ _ l r => l = .leaf ∧ r = .leaf
  | d + 1, .node _ _ key l r =>
    (∀ k ∈ l.keys, k.testBit d = false) ∧ (∀ k ∈ r.keys, k.testBit d = true) ∧
      key ∉ l.keys ∧ key ∉ r.keys ∧ Trie d l ∧ Trie d r

theorem Trie.leaf (d : Nat) : Trie d .leaf := by cases d <;> trivial

theorem Trie.single (d : Nat) : Trie d (.node a rest key .leaf .leaf) := by
  cases d <;> simp [Trie, RTree.keys]

theorem Frame.keys_fill (f : Frame) (t : RTree) (k : Nat) :
    k ∈ (f.fill t).keys ↔ k = f.key ∨ k ∈ f.sib.keys ∨ k ∈ t.keys := by
  unfold Frame.fill
  split <;> simp only [RTree.keys, List.mem_cons, List.mem_append]
  tauto

theorem Trie.below {f : Frame} {t : RTree} {d : Nat} (h : Trie d (f.fill t)) : Trie (d - 1) t := by
  unfold Frame.fill at h
  cases d with
  | zero =>
    split at h
    · rw [h.2]
      exact Trie.leaf _
    · rw [h.1]
      exact Trie.leaf _
  | succ d =>
    split at h
    · exact h.2.2.2.2.2
    · exact h.2.2.2.2.1

theorem Trie.sub {c : Ctx} {t : RTree} {d : Nat} (h : Trie d (plug c t)) :
    Trie (d - c.length) t := by
  induction c generalizing t with
  | nil => exact h
  | cons f fs ih =>
    rw [List.length_cons, Nat.sub_add_eq]
    exact (ih h).below

theorem Trie.fill {f : Frame} {t t' : RTree} {d : Nat} (h : Trie d (f.fill t))
    (hk : ∀ k ∈ t'.keys, k ∈ t.keys) (ht : Trie (d - 1) t') : Trie d (f.fill t') := by
  unfold Frame.fill at h ⊢
  cases d with
  | zero =>
    have hleaf : t = .leaf → t' = .leaf := by
      rintro rfl
      cases t' with
      | leaf => rfl
      | node _ _ key => exact absurd (hk key (by simp [RTree.keys])) (by simp [RTree.keys])
    split at h
    · rename_i hf
      rw [if_pos hf]
      exact ⟨h.1, hleaf h.2⟩
    · rename_i hf
      rw [if_neg hf]
      exact ⟨hleaf h.1, h.2⟩
  | succ d =>
    split at h
    · rename_i hf
      rw [if_pos hf]
      obtain ⟨h1, h2, h3, h4, h5, -⟩ := h
      exact ⟨h1, fun k hkk => h2 k (hk k hkk), h3, fun hkk => h4 (hk _ hkk), h5, ht⟩
    · rename_i hf
      rw [if_neg hf]
      obtain ⟨h1, h2, h3, h4, -, h6⟩ := h
      exact ⟨fun k hkk => h1 k (hk k hkk), h2, fun hkk => h3 (hk _ hkk), h4, ht, h6⟩

theorem Trie.plug {c : Ctx} {t t' : RTree} {d : Nat} (h : Trie d (plug c t))
    (hk : ∀ k ∈ t'.keys, k ∈ t.keys) (ht : Trie (d - c.length) t') :
    Trie d (RingTree.plug c t') := by
  induction c generalizing t t' with
  | nil => exact ht
  | cons f fs ih =>
    rw [List.length_cons, Nat.sub_add_eq] at ht
    refine ih h (fun k => ?_) (Trie.fill (Trie.sub (c := fs) h) hk ht)
    simp only [Frame.keys_fill]
    rintro (h | h | h)
    · exact .inl h
    · exact .inr (.inl h)
    · exact .inr (.inr (hk k h))

-- ---------------------------------------------------------------------------
-- Distinct keys
-- ---------------------------------------------------------------------------

theorem Trie.keys_nodup {t : RTree} {d : Nat} (h : Trie d t) : t.keys.Nodup := by
  induction t generalizing d with
  | leaf => exact List.nodup_nil
  | node head rest key l r ihl ihr =>
    cases d with
    | zero => simp [RTree.keys, h.1, h.2]
    | succ d =>
      obtain ⟨hl, hr, hkl, hkr, htl, htr⟩ := h
      refine List.nodup_cons.mpr ⟨by simp [hkl, hkr], ?_⟩
      refine List.nodup_append.mpr ⟨ihl htl, ihr htr, fun k hk k' hk' he => ?_⟩
      subst he
      exact absurd (hr k hk') (by simp [hl k hk])

def Ctx.keys (c : Ctx) : List Nat := c.flatMap fun f => f.key :: f.sib.keys

theorem keys_plug (c : Ctx) (t : RTree) : (plug c t).keys.Perm (t.keys ++ Ctx.keys c) := by
  induction c generalizing t with
  | nil => simp [RingTree.plug, Ctx.keys]
  | cons f fs ih =>
    refine (ih (f.fill t)).trans (List.perm_iff_count.mpr fun k => ?_)
    unfold Frame.fill
    split <;> simp only [Ctx.keys, RTree.keys, List.flatMap_cons, List.count_append,
      List.count_cons] <;> omega

theorem Trie.cut_key {c : Ctx} {rest : List Nat} {d a k : Nat}
    (h : Trie d (RingTree.plug c (.node a rest k .leaf .leaf))) :
    k ∉ (RingTree.plug c .leaf).keys := by
  have hnd := (keys_plug c _).nodup_iff.mp h.keys_nodup
  rw [(keys_plug c _).mem_iff]
  exact (List.nodup_cons.mp hnd).1

theorem Trie.move_up {c : Ctx} {rest restb : List Nat} {d a b k kb : Nat} {dir : Bool} {sib : RTree}
    (h : Trie d (Frame.fill ⟨a, rest, k, dir, sib⟩
      (RingTree.plug c (.node b restb kb .leaf .leaf)))) :
    Trie d (Frame.fill ⟨b, restb, kb, dir, sib⟩ (RingTree.plug c .leaf)) := by
  have hkeys : ∀ k', k' ∈ (RingTree.plug c (.node b restb kb .leaf .leaf)).keys ↔
      k' = kb ∨ k' ∈ (RingTree.plug c .leaf).keys := by
    intro k'
    simp [(keys_plug c _).mem_iff, RTree.keys]
  cases d with
  | zero =>
    have hne : RingTree.plug c (.node b restb kb .leaf .leaf) ≠ .leaf := by
      intro he
      simpa [he, RTree.keys] using (hkeys kb).mpr (.inl rfl)
    unfold Frame.fill at h
    split at h
    · exact absurd h.2 hne
    · exact absurd h.1 hne
  | succ d =>
    have hplug : Trie d (RingTree.plug c (.node b restb kb .leaf .leaf)) →
      Trie d (RingTree.plug c .leaf) :=
      fun ht => ht.plug (by simp [RTree.keys]) (Trie.leaf _)
    unfold Frame.fill at h ⊢
    split at h
    · rename_i hdir
      simp only at hdir
      rw [if_pos hdir]
      obtain ⟨hl, hr, -, -, htl, htr⟩ := h
      refine ⟨hl, fun k' hk' => hr k' ((hkeys k').mpr (.inr hk')), fun hk' => ?_,
        htr.cut_key, htl, hplug htr⟩
      exact absurd (hl kb hk') (by simp [hr kb ((hkeys kb).mpr (.inl rfl))])
    · rename_i hdir
      simp only at hdir
      rw [if_neg hdir]
      obtain ⟨hl, hr, -, -, htl, htr⟩ := h
      refine ⟨fun k' hk' => hl k' ((hkeys k').mpr (.inr hk')), hr, htl.cut_key,
        fun hk' => ?_, hplug htl, htr⟩
      exact absurd (hr kb hk') (by simp [hl kb ((hkeys kb).mpr (.inl rfl))])

def RTree.height : RTree → Nat
  | .leaf => 0
  | .node _ _ _ l r => max l.height r.height + 1

theorem Trie.height_le {t : RTree} {d : Nat} (h : Trie d t) : t.height ≤ d + 1 := by
  induction t generalizing d with
  | leaf => exact Nat.zero_le _
  | node head rest key l r ihl ihr =>
    cases d with
    | zero => simp [RTree.height, h.1, h.2]
    | succ d =>
      have hl := ihl h.2.2.2.2.1
      have hr := ihr h.2.2.2.2.2
      simp only [RTree.height]
      omega

-- ---------------------------------------------------------------------------
-- Insertion
-- ---------------------------------------------------------------------------

/-- `a` joins the ring of its key, or becomes a leaf where the path of the
bits of its key ends. -/
def RTree.insert (a k : Nat) : Nat → RTree → RTree
  | _, .leaf => .node a [] k .leaf .leaf
  | 0, .node head rest key l r => .node head (rest ++ [a]) key l r
  | d + 1, .node head rest key l r =>
    if k = key then .node head (rest ++ [a]) key l r
    else if k.testBit d then .node head rest key l (r.insert a k d)
    else .node head rest key (l.insert a k d) r

/-- The path of the bits of `k` meets `k` or ends before the bits are used up. -/
def Room (k : Nat) : Nat → RTree → Prop
  | _, .leaf => True
  | 0, .node _ _ key _ _ => k = key
  | d + 1, .node _ _ key l r => k = key ∨ if k.testBit d then Room k d r else Room k d l

/-- The keys agree with `k` from bit `d` on. -/
def Agrees (d k : Nat) (t : RTree) : Prop := ∀ k' ∈ t.keys, k' / 2 ^ d = k / 2 ^ d

theorem agrees_below {d k k' : Nat} (h : k' / 2 ^ (d + 1) = k / 2 ^ (d + 1))
    (hb : k'.testBit d = k.testBit d) : k' / 2 ^ d = k / 2 ^ d := by
  rw [Nat.testBit_eq_decide_div_mod_eq, Nat.testBit_eq_decide_div_mod_eq, decide_eq_decide] at hb
  rw [Nat.pow_succ, ← Nat.div_div_eq_div_mul, ← Nat.div_div_eq_div_mul] at h
  omega

theorem Agrees.room {t : RTree} {d k : Nat} (h : Agrees d k t) (ht : Trie d t) : Room k d t := by
  induction t generalizing d with
  | leaf => cases d <;> trivial
  | node head rest key l r ihl ihr =>
    cases d with
    | zero => simpa [Room] using (h key (by simp [RTree.keys])).symm
    | succ d =>
      refine .inr ?_
      split
      · rename_i hb
        exact ihr (fun k' hk => agrees_below (h k' (by simp [RTree.keys, hk]))
          ((ht.2.1 k' hk).trans hb.symm)) ht.2.2.2.2.2
      · rename_i hb
        have hb : k.testBit d = false := by simpa using hb
        exact ihl (fun k' hk => agrees_below (h k' (by simp [RTree.keys, hk]))
          ((ht.1 k' hk).trans hb.symm)) ht.2.2.2.2.1

theorem room_of_length {t : RTree} {d k : Nat} (h : t.keys.length ≤ d) : Room k d t := by
  induction t generalizing d with
  | leaf => cases d <;> trivial
  | node head rest key l r ihl ihr =>
    simp only [RTree.keys, List.length_cons, List.length_append] at h
    cases d with
    | zero => omega
    | succ d =>
      refine .inr ?_
      split
      · exact ihr (by omega)
      · exact ihl (by omega)

/-- Keys that agree with `k` in the low bits make a single path: there is room
for `k` only while it has no more nodes than bits. -/
theorem not_room_of_length {t : RTree} {d k : Nat} (ht : Trie d t) (hno : k ∉ t.keys)
    (hlow : ∀ k' ∈ t.keys, k' % 2 ^ d = k % 2 ^ d) (hlen : d < t.keys.length) : ¬ Room k d t := by
  induction t generalizing d with
  | leaf => simp [RTree.keys] at hlen
  | node head rest key l r ihl ihr =>
    simp only [RTree.keys, List.mem_cons, List.mem_append, not_or] at hno
    cases d with
    | zero => exact hno.1
    | succ d =>
      have hbit : ∀ k' ∈ (RTree.node head rest key l r).keys, k'.testBit d = k.testBit d := by
        intro k' hk'
        have h := congrArg (Nat.testBit · d) (hlow k' hk')
        simpa [Nat.testBit_mod_two_pow] using h
      have hmod : ∀ k' ∈ (RTree.node head rest key l r).keys, k' % 2 ^ d = k % 2 ^ d := by
        intro k' hk'
        have h := congrArg (· % 2 ^ d) (hlow k' hk')
        simp only [Nat.pow_succ] at h
        rwa [Nat.mod_mul_right_mod, Nat.mod_mul_right_mod] at h
      simp only [RTree.keys, List.length_cons, List.length_append] at hlen
      simp only [Room, not_or]
      refine ⟨hno.1, ?_⟩
      cases hb : k.testBit d with
      | true =>
        -- nothing is on the left
        have hnil : l.keys = [] := List.eq_nil_iff_forall_not_mem.mpr fun k' hk' => by
          have h1 := ht.1 k' hk'
          rw [hbit k' (by simp [RTree.keys, hk']), hb] at h1
          cases h1
        rw [hnil, List.length_nil] at hlen
        exact ihr ht.2.2.2.2.2 hno.2.2 (fun k' hk' => hmod k' (by simp [RTree.keys, hk']))
          (by omega)
      | false =>
        have hnil : r.keys = [] := List.eq_nil_iff_forall_not_mem.mpr fun k' hk' => by
          have h1 := ht.2.1 k' hk'
          rw [hbit k' (by simp [RTree.keys, hk']), hb] at h1
          cases h1
        rw [hnil, List.length_nil] at hlen
        exact ihl ht.2.2.2.2.1 hno.2.1 (fun k' hk' => hmod k' (by simp [RTree.keys, hk']))
          (by omega)

theorem items_insert {t : RTree} {a k d : Nat} (h : Room k d t) :
    (t.insert a k d).items.Perm ((a, k) :: t.items) := by
  induction t generalizing d with
  | leaf => cases d <;> simp [RTree.insert, RTree.items]
  | node head rest key l r ihl ihr =>
    have hsame : (RTree.node head (rest ++ [a]) k l r).items.Perm
        ((a, k) :: (RTree.node head rest k l r).items) := by
      simp only [RTree.items, List.map_cons, List.map_append, List.map_nil, List.cons_append,
        List.append_assoc, List.nil_append]
      exact (List.perm_middle.cons _).trans (List.Perm.swap ..)
    cases d with
    | zero =>
      obtain rfl : k = key := h
      exact hsame
    | succ d =>
      simp only [RTree.insert]
      split
      · rename_i hk
        obtain rfl := hk
        exact hsame
      · rename_i hk
        have h := h.resolve_left hk
        split
        · rename_i hb
          rw [if_pos hb] at h
          simp only [RTree.items]
          exact (((ihr h).append_left l.items).trans List.perm_middle |>.append_left _).trans
            List.perm_middle
        · rename_i hb
          rw [if_neg hb] at h
          simp only [RTree.items]
          exact (((ihl h).append_right r.items).append_left _).trans List.perm_middle

theorem mem_keys_insert {t : RTree} {a k d : Nat} (h : Room k d t) (k' : Nat) :
    k' ∈ (t.insert a k d).keys ↔ k' = k ∨ k' ∈ t.keys := by
  simp only [RTree.mem_keys, (items_insert h).mem_iff, List.mem_cons, Prod.mk.injEq]
  constructor
  · rintro ⟨b, ⟨-, rfl⟩ | h⟩
    · exact .inl rfl
    · exact .inr ⟨b, h⟩
  · rintro (rfl | ⟨b, h⟩)
    · exact ⟨a, .inl ⟨rfl, rfl⟩⟩
    · exact ⟨b, .inr h⟩

theorem Trie.insert {t : RTree} {a k d : Nat} (h : Room k d t) (ht : Trie d t) :
    Trie d (t.insert a k d) := by
  induction t generalizing d with
  | leaf => cases d <;> exact Trie.single _
  | node head rest key l r ihl ihr =>
    cases d with
    | zero => exact ht
    | succ d =>
      simp only [RTree.insert]
      split
      · exact ht
      · rename_i hk
        have h := h.resolve_left hk
        obtain ⟨hl, hr, hkl, hkr, htl, htr⟩ := ht
        split
        · rename_i hb
          rw [if_pos hb] at h
          refine ⟨hl, ?_, hkl, ?_, htl, ihr h htr⟩
          · intro k' hk'
            rcases (mem_keys_insert h k').mp hk' with rfl | h
            · exact hb
            · exact hr k' h
          · intro hk'
            rcases (mem_keys_insert h key).mp hk' with rfl | h
            · exact hk rfl
            · exact hkr h
        · rename_i hb
          rw [if_neg hb] at h
          refine ⟨?_, hr, ?_, hkr, ihl h htl, htr⟩
          · intro k' hk'
            rcases (mem_keys_insert h k').mp hk' with rfl | h
            · simpa using hb
            · exact hl k' h
          · intro hk'
            rcases (mem_keys_insert h key).mp hk' with rfl | h
            · exact hk rfl
            · exact hkl h

-- ---------------------------------------------------------------------------
-- Search
-- ---------------------------------------------------------------------------

/-- From bit `d` on, no key is below `k`. -/
def AtLeast (d k : Nat) (t : RTree) : Prop := ∀ k' ∈ t.keys, k / 2 ^ d ≤ k' / 2 ^ d

theorem Agrees.atLeast {t : RTree} {d k : Nat} (h : Agrees d k t) : AtLeast d k t :=
  fun k' hk => Nat.le_of_eq (h k' hk).symm

theorem testBit_eq_mod (k d : Nat) : k.testBit d = decide (k / 2 ^ d % 2 = 1) :=
  Nat.testBit_eq_decide_div_mod_eq

theorem div_pow_succ (k d : Nat) : k / 2 ^ (d + 1) = k / 2 ^ d / 2 := by
  rw [Nat.pow_succ, Nat.div_div_eq_div_mul]

theorem AtLeast.right {d : Nat} (h : AtLeast (d + 1) k (.node head rest key l r))
    (ht : Trie (d + 1) (.node head rest key l r)) : AtLeast d k r := by
  intro k' hk
  have h1 := h k' (by simp [RTree.keys, hk])
  have h2 := ht.2.1 k' hk
  rw [testBit_eq_mod, decide_eq_true_eq] at h2
  rw [div_pow_succ, div_pow_succ] at h1
  omega

theorem AtLeast.left {d : Nat} (h : AtLeast (d + 1) k (.node head rest key l r))
    (hb : k.testBit d = false) : AtLeast d k l := by
  intro k' hk
  have h1 := h k' (by simp [RTree.keys, hk])
  rw [testBit_eq_mod, decide_eq_false_iff_not] at hb
  rw [div_pow_succ, div_pow_succ] at h1
  omega

theorem AtLeast.lt_right {d : Nat} (h : AtLeast (d + 1) k (.node head rest key l r))
    (ht : Trie (d + 1) (.node head rest key l r)) (hb : k.testBit d = false)
    (hk : k' ∈ r.keys) : k < k' := by
  have h1 := h k' (by simp [RTree.keys, hk])
  have h2 := ht.2.1 k' hk
  rw [testBit_eq_mod, decide_eq_true_eq] at h2
  rw [testBit_eq_mod, decide_eq_false_iff_not] at hb
  rw [div_pow_succ, div_pow_succ] at h1
  exact Nat.lt_of_div_lt_div (c := 2 ^ d) (by omega)

/-- Where the path of `k` goes right, a key on the left that is not below `k`
already exceeds it from bit `d + 1` on. -/
theorem Trie.left_lt {d : Nat} (ht : Trie (d + 1) (.node head rest key l r))
    (hb : k.testBit d = true)
    (hk : k' ∈ l.keys) (h : k' / 2 ^ (d + 1) = k / 2 ^ (d + 1)) : k' < k := by
  have h2 := ht.1 k' hk
  rw [testBit_eq_mod, decide_eq_false_iff_not] at h2
  rw [testBit_eq_mod, decide_eq_true_eq] at hb
  rw [div_pow_succ, div_pow_succ] at h
  exact Nat.lt_of_div_lt_div (c := 2 ^ d) (by omega)

end RingTree
