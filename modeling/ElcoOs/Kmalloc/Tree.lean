import ElcoOs.Kmalloc.Dllist

/-!
# The bin trees

`kmalloc_tree.c`. A tree hangs off `*root`; each function takes that word and
returns its new value. A loop of the source that only a broken tree makes run
on is bounded by `loopFuel`, and `none` says that the bound was reached.
-/

namespace ElcoOs.Kmalloc

/-- More than the number of addresses: no loop along distinct chunks takes as
many rounds. -/
def loopFuel : Nat := 2 ^ 33

-- ---------------------------------------------------------------------------
-- Macros
-- ---------------------------------------------------------------------------

def ktchunkIsLeave (m : Memory) (chunk : Nat) : Prop := left m chunk = 0 ∧ right m chunk = 0

def ktchunkIsInList (m : Memory) (chunk : Nat) : Prop := next m chunk ≠ chunk ∧ prev m chunk ≠ chunk

def ktchunkIsInTree (m : Memory) (chunk : Nat) : Prop :=
  left m chunk ≠ 0 ∨ right m chunk ≠ 0 ∨ parent m chunk ≠ 0

instance : Decidable (ktchunkIsLeave m chunk) := inferInstanceAs (Decidable (_ ∧ _))
instance : Decidable (ktchunkIsInList m chunk) := inferInstanceAs (Decidable (_ ∧ _))
instance : Decidable (ktchunkIsInTree m chunk) := inferInstanceAs (Decidable (_ ∨ _))

def ktchunkReplaceHead (m : Memory) (old new : Nat) : Memory :=
  let m := setParent m new (parent m old)
  let m := setLeft m new (left m old)
  let m := setRight m new (right m old)
  let m := setPrev m new (prev m old)
  let m := setNext m (prev m old) new
  let m := if left m new ≠ 0 then setParent m (left m new) new else m
  if right m new ≠ 0 then setParent m (right m new) new else m

def ktchunkUpdateParent (m : Memory) (chunk newchild : Nat) : Memory :=
  if left m (parent m chunk) = chunk then setLeft m (parent m chunk) newchild
  else setRight m (parent m chunk) newchild

-- ---------------------------------------------------------------------------
-- Insertion
-- ---------------------------------------------------------------------------

/-- The `while` loop of `kmalloc_tree_insert`, entered with `cur` not null. -/
def kmallocTreeInsertLoop (chunk size : Nat) : Nat → Memory → Nat → Memory
  | depth, m, cur =>
    if size = getChunkSize m cur then
      let m := setParent m chunk 0
      kmallocDllistAddEnd m chunk cur
    else
      match depth with
      -- depth drops below zero: the function returns with the chunk nowhere
      | 0 => m
      | depth + 1 =>
        let isright := size &&& 1 <<< depth
        let child := if isright ≠ 0 then right m cur else left m cur
        if child ≠ 0 then kmallocTreeInsertLoop chunk size depth m child
        else
          let m := setParent m chunk cur
          if isright ≠ 0 then setRight m cur chunk else setLeft m cur chunk

/-- The memory and the new `*root`. -/
def kmallocTreeInsert (m : Memory) (chunk root depth : Nat) : Memory × Nat :=
  if depth = 0 ∨ chunk = 0 then (m, root)
  else
    let m := setPrev m chunk chunk
    let m := setNext m chunk chunk
    let m := setRight m chunk 0
    let m := setLeft m chunk 0
    let size := getChunkSize m chunk
    if root = 0 then
      let m := setRight m chunk 0
      let m := setLeft m chunk 0
      (setParent m chunk 0, chunk)
    else (kmallocTreeInsertLoop chunk size depth m root, root)

-- ---------------------------------------------------------------------------
-- Removal
-- ---------------------------------------------------------------------------

/-- The loop of `kmalloc_tree_remove` that looks for the left-most leaf. -/
def leftmostLeave (m : Memory) : Nat → Nat → Option Nat
  | 0, _ => none
  | fuel + 1, chunk =>
    if ktchunkIsLeave m chunk then some chunk
    else leftmostLeave m fuel (if left m chunk ≠ 0 then left m chunk else right m chunk)

/-- The memory and the new `*root`. -/
def kmallocTreeRemove (m : Memory) (chunk root : Nat) : Option (Memory × Nat) :=
  if chunk = 0 then some (m, root)
  else if ktchunkIsInList m chunk then
    if chunk = root then
      let replacement := next m chunk
      some (ktchunkReplaceHead m chunk replacement, replacement)
    else if ktchunkIsInTree m chunk then
      let replacement := next m chunk
      let m := ktchunkReplaceHead m chunk replacement
      some (ktchunkUpdateParent m chunk replacement, root)
    else
      let m := setNext m (prev m chunk) (next m chunk)
      some (setPrev m (next m chunk) (prev m chunk), root)
  else if ktchunkIsLeave m chunk then
    if parent m chunk ≠ 0 then some (ktchunkUpdateParent m chunk 0, root) else some (m, 0)
  else do
    let replacement ← leftmostLeave m loopFuel chunk
    let m := ktchunkUpdateParent m replacement 0
    let m := setLeft m replacement (left m chunk)
    let m := if left m replacement ≠ 0 then setParent m (left m replacement) replacement else m
    let m := setRight m replacement (right m chunk)
    let m := if right m replacement ≠ 0 then setParent m (right m replacement) replacement else m
    let m := setParent m replacement (parent m chunk)
    if parent m replacement ≠ 0 then some (ktchunkUpdateParent m chunk replacement, root)
    else some (m, replacement)

-- ---------------------------------------------------------------------------
-- Search
-- ---------------------------------------------------------------------------

/-- The loop of `kmalloc_tree_get_smallest`. -/
def kmallocTreeGetSmallestLoop (m : Memory) : Nat → (cur smallestChunk smallestSize : Nat) →
    Option Nat
  | 0, _, _, _ => none
  | fuel + 1, cur, smallestChunk, smallestSize =>
    if ktchunkIsLeave m cur then some smallestChunk
    else
      let cur := if left m cur ≠ 0 then left m cur else right m cur
      if getChunkSize m cur < smallestSize then
        kmallocTreeGetSmallestLoop m fuel cur cur (getChunkSize m cur)
      else kmallocTreeGetSmallestLoop m fuel cur smallestChunk smallestSize

def kmallocTreeGetSmallest (m : Memory) (chunk : Nat) : Option Nat :=
  if chunk = 0 then some 0 else
    kmallocTreeGetSmallestLoop m loopFuel chunk chunk (getChunkSize m chunk)

/-- How the first loop of `kmalloc_tree_get_best_fit` ends. -/
inductive Descent where
  | exact (chunk : Nat)
  | stop (cur parent smallestChunk : Nat)
  deriving DecidableEq, Repr

/-- The first loop of `kmalloc_tree_get_best_fit`, entered with `cur` not null. -/
def bestFitDescend (m : Memory) (size : Nat) : Nat →
    (cur smallestChunk smallestSize : Nat) → Descent
  | depth, cur, smallestChunk, smallestSize =>
    if size = getChunkSize m cur then .exact cur
    else
      let smaller := getChunkSize m cur > size ∧
        (smallestChunk = 0 ∨ getChunkSize m cur < smallestSize)
      let smallestSize := if smaller then getChunkSize m cur else smallestSize
      let smallestChunk := if smaller then cur else smallestChunk
      match depth with
      -- the shift count is -1, which the i386 takes modulo 32
      | 0 => .stop (if size &&& 1 <<< 31 ≠ 0 then right m cur else left m cur) cur smallestChunk
      | depth + 1 =>
        let child := if size &&& 1 <<< depth ≠ 0 then right m cur else left m cur
        if child ≠ 0 then bestFitDescend m size depth child smallestChunk smallestSize
        else .stop child cur smallestChunk

/-- The second loop: up until the path can turn right, or `smallestChunk` is met. -/
def bestFitClimb (m : Memory) (smallestChunk : Nat) : Nat → (cur parent : Nat) → Option Nat
  | 0, _, _ => none
  | fuel + 1, cur, parent =>
    if right m parent = 0 ∨ right m parent = cur then
      if parent = smallestChunk then some parent
      else if Kmalloc.parent m parent = 0 then some 0
      else bestFitClimb m smallestChunk fuel parent (Kmalloc.parent m parent)
    else kmallocTreeGetSmallest m (right m parent)

def kmallocTreeGetBestFit (m : Memory) (size root depth : Nat) : Option Nat :=
  if depth = 0 ∨ root = 0 then some 0
  else
    match bestFitDescend m size depth root 0 0xFFFFFFFF with
    | .exact chunk => some chunk
    | .stop cur parent smallestChunk => bestFitClimb m smallestChunk loopFuel cur parent

end ElcoOs.Kmalloc
