import ElcoOs.Lib.Trie

/-!
# Paths in tries

The path of a key goes down along its bits until it leaves the trie. What is
beside the path is ordered by where it was passed: a subtree passed on its left
is above all that lies deeper. A node of the path, though, may hold any key of
its range, so neither the deepest node nor the nearest subtree beside the path
need have the key next to the one that was looked for.
-/

namespace RingTree

-- ---------------------------------------------------------------------------
-- The path
-- ---------------------------------------------------------------------------

/-- The frames of the path of `k` through a trie on `d` bits, deepest first. -/
def path (k : Nat) : Nat → RTree → Ctx → Ctx
  | _, .leaf, c => c
  | 0, .node head rest key l _, c => ⟨head, rest, key, true, l⟩ :: c
  | d + 1, .node head rest key l r, c =>
    if k.testBit d then path k d r (⟨head, rest, key, true, l⟩ :: c) else
      path k d l (⟨head, rest, key, false, r⟩ :: c)

def Frame.Turns (f : Frame) : Prop := f.dir = false ∧ f.sib ≠ .leaf

/-- Distinct keys differ only below bit `d`. -/
def Uniform (d : Nat) (t : RTree) : Prop := ∀ k ∈ t.keys, ∀ k' ∈ t.keys, k / 2 ^ d = k' / 2 ^ d

/-- What `f` holds is below what was passed at `g`, further up. -/
def Rising (f g : Frame) : Prop := g.dir = false → ∀ k ∈ g.sib.keys, f.key < k ∧
    ∀ k' ∈ f.sib.keys, k' < k

variable {t l r : RTree} {c : Ctx} {d k key head : Nat} {rest : List Nat}

theorem plug_path (h : Trie d t) : plug (path k d t c) .leaf = plug c t := by
  induction t generalizing d c with
  | leaf => cases d <;> rfl
  | node head rest key l r ihl ihr =>
    cases d with
    | zero =>
      obtain ⟨rfl, rfl⟩ := h
      rfl
    | succ d =>
      rw [path]
      split
      · exact ihr h.2.2.2.2.2
      · exact ihl h.2.2.2.2.1

theorem length_path : (path k d t c).length ≤ c.length + d + 1 := by
  induction t generalizing d c with
  | leaf => cases d <;> simp only [path] <;> omega
  | node head rest key l r ihl ihr =>
    cases d with
    | zero => simp only [path, List.length_cons]; omega
    | succ d =>
      rw [path]
      split
      · refine Nat.le_trans ihr ?_
        simp only [List.length_cons]
        omega
      · refine Nat.le_trans ihl ?_
        simp only [List.length_cons]
        omega

theorem Uniform.left (h : Uniform (d + 1) (.node head rest key l r))
    (ht : Trie (d + 1) (.node head rest key l r)) :
    Uniform d l := fun k hk k' hk' =>
  agrees_below (h k (by simp [RTree.keys, hk]) k' (by simp [RTree.keys, hk']))
    ((ht.1 k hk).trans (ht.1 k' hk').symm)

theorem Uniform.right (h : Uniform (d + 1) (.node head rest key l r))
    (ht : Trie (d + 1) (.node head rest key l r)) :
    Uniform d r := fun k hk k' hk' =>
  agrees_below (h k (by simp [RTree.keys, hk]) k' (by simp [RTree.keys, hk']))
    ((ht.2.1 k hk).trans (ht.2.1 k' hk').symm)

theorem Uniform.left_lt_right (h : Uniform (d + 1) (.node head rest key l r))
    (ht : Trie (d + 1) (.node head rest key l r))
    {k k' : Nat} (hk : k ∈ l.keys) (hk' : k' ∈ r.keys) : k < k' :=
  ht.left_lt (ht.2.1 k' hk') hk (h k (by simp [RTree.keys, hk]) k' (by simp [RTree.keys, hk']))

theorem path_sibs {n : Nat} (ht : Trie d t) (hu : Uniform d t) (hd : d ≤ n)
    (hc : ∀ g ∈ c, ∃ e ≤ n, Trie e g.sib ∧ Uniform e g.sib) :
    ∀ g ∈ path k d t c, ∃ e ≤ n, Trie e g.sib ∧ Uniform e g.sib := by
  induction t generalizing d c with
  | leaf => cases d <;> exact hc
  | node head rest key l r ihl ihr =>
    have hcons : ∀ (f : Frame) (e : Nat), e ≤ n → Trie e f.sib → Uniform e f.sib →
        ∀ g ∈ f :: c, ∃ e ≤ n, Trie e g.sib ∧ Uniform e g.sib := by
      intro f e he hf hfu g hg
      rcases List.mem_cons.mp hg with rfl | hg
      · exact ⟨e, he, hf, hfu⟩
      · exact hc g hg
    cases d with
    | zero =>
      obtain ⟨rfl, rfl⟩ := ht
      exact hcons _ 0 (Nat.zero_le n) (Trie.leaf 0) (fun k hk => by simp [RTree.keys] at hk)
    | succ d =>
      rw [path]
      split
      · exact ihr ht.2.2.2.2.2 (hu.right ht) (by omega)
          (hcons _ d (by omega) ht.2.2.2.2.1 (hu.left ht))
      · exact ihl ht.2.2.2.2.1 (hu.left ht) (by omega)
          (hcons _ d (by omega) ht.2.2.2.2.2 (hu.right ht))

def Above (c : Ctx) (t : RTree) : Prop := ∀ g ∈ c, g.dir = false → ∀ k ∈ g.sib.keys,
    ∀ k' ∈ t.keys, k' < k

theorem path_rising (ht : Trie d t) (hu : Uniform d t) (ha : Above c t) (hc : c.Pairwise Rising) :
    (path k d t c).Pairwise Rising := by
  induction t generalizing d c with
  | leaf => cases d <;> exact hc
  | node head rest key l r ihl ihr =>
    have hkey : key ∈ (RTree.node head rest key l r).keys := by simp [RTree.keys]
    have hl : ∀ k ∈ l.keys, k ∈ (RTree.node head rest key l r).keys := fun k hk => by
      simp [RTree.keys, hk]
    have hr : ∀ k ∈ r.keys, k ∈ (RTree.node head rest key l r).keys := fun k hk => by
      simp [RTree.keys, hk]
    have hnew : ∀ f : Frame, f.key = key →
      (∀ k ∈ f.sib.keys, k ∈ (RTree.node head rest key l r).keys) →
        (f :: c).Pairwise Rising := by
      rintro f rfl hf
      exact List.pairwise_cons.mpr ⟨fun g hg hd k hk =>
        ⟨ha g hg hd k hk _ hkey, fun k' hk' => ha g hg hd k hk k' (hf k' hk')⟩, hc⟩
    cases d with
    | zero => exact hnew _ rfl hl
    | succ d =>
      rw [path]
      split
      · refine ihr ht.2.2.2.2.2 (hu.right ht) (fun g hg hd k hk k' hk' => ?_) (hnew _ rfl hl)
        rcases List.mem_cons.mp hg with rfl | hg
        · exact absurd hd (by simp)
        · exact ha g hg hd k hk k' (hr k' hk')
      · refine ihl ht.2.2.2.2.1 (hu.left ht) (fun g hg hd k hk k' hk' => ?_) (hnew _ rfl hr)
        rcases List.mem_cons.mp hg with rfl | hg
        · exact hu.left_lt_right ht hk' hk
        · exact ha g hg hd k hk k' (hl k' hk')

/-- Where the keys agree with `k` above the bits of the trie, what the path
leaves on its right is above `k` and what it leaves on its left is below. -/
theorem path_sides (ht : Trie d t) (hag : Agrees d k t)
    (hc : ∀ g ∈ c, ∀ k' ∈ g.sib.keys, if g.dir then k' < k else k < k') :
    ∀ g ∈ path k d t c, ∀ k' ∈ g.sib.keys, if g.dir then k' < k else k < k' := by
  induction t generalizing d c with
  | leaf => cases d <;> exact hc
  | node head rest key l r ihl ihr =>
    cases d with
    | zero =>
      intro g hg
      rcases List.mem_cons.mp hg with rfl | hg
      · rw [ht.1]
        simp [RTree.keys]
      · exact hc g hg
    | succ d =>
      rw [path]
      split
      · rename_i hb
        refine ihr ht.2.2.2.2.2 (fun k' hk' => agrees_below (hag k' (by simp [RTree.keys, hk']))
          ((ht.2.1 k' hk').trans hb.symm))
          fun g hg => ?_
        rcases List.mem_cons.mp hg with rfl | hg
        · exact fun k' hk' => ht.left_lt hb hk' (hag k' (by simp [RTree.keys, hk']))
        · exact hc g hg
      · rename_i hb
        have hb : k.testBit d = false := by simpa using hb
        refine ihl ht.2.2.2.2.1 (fun k' hk' => agrees_below (hag k' (by simp [RTree.keys, hk']))
          ((ht.1 k' hk').trans hb.symm))
          fun g hg => ?_
        rcases List.mem_cons.mp hg with rfl | hg
        · exact fun k' hk' => hag.atLeast.lt_right ht hb hk'
        · exact hc g hg

end RingTree
