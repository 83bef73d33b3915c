import ElcoOs.Kmalloc.Dllist
import ElcoOs.Lib.Reach

/-!
# Runs of one chunk ring

The four operations on one head pointer, beside the list operations they stand
for: cons, append, tail and erase. The chunks lie apart, and between the calls
anything may be written but the links of those in the ring.
-/

namespace ElcoOs.Kmalloc

open Ring

-- ---------------------------------------------------------------------------
-- Ring and list
-- ---------------------------------------------------------------------------

structure RingState where
  mem : Memory
  head : Nat

inductive RingAction where
  | add (chunk : Nat)
  | addEnd (chunk : Nat)
  | remove
  | removeIntern (chunk : Nat)
  /-- memory changes in between -/
  | other (mem : Memory)

def ringStep (s : RingState) : RingAction → Option Nat × RingState
  | .add chunk =>
    let r := kmallocDllistAdd s.mem chunk s.head
    (none, ⟨r.1, r.2⟩)
  | .addEnd chunk => (none, { s with mem := kmallocDllistAddEnd s.mem chunk s.head })
  | .remove =>
    let r := kmallocDllistRemove s.mem s.head
    (some r.1, ⟨r.2.1, r.2.2⟩)
  | .removeIntern chunk =>
    let r := kmallocDllistRemoveIntern s.mem chunk s.head
    (some r.1, ⟨r.2.1, r.2.2⟩)
  | .other mem => (none, { s with mem := mem })

def listStep (xs : List Nat) : RingAction → Option Nat × List Nat
  | .add chunk => (none, chunk :: xs)
  | .addEnd chunk => (none, xs ++ [chunk])
  | .remove => (some (xs.headD 0), xs.tail)
  | .removeIntern chunk => (some chunk, xs.erase chunk)
  | .other _ => (none, xs)

def FreshChunk (xs : List Nat) (chunk : Nat) : Prop := chunk ∉ xs ∧ Spaced 16 (chunk :: xs) ∧
    Fits 16 (chunk :: xs)

def RingMay (s : RingState) (xs : List Nat) : RingAction → Prop
  | .add chunk => FreshChunk xs chunk
  | .addEnd chunk => xs ≠ [] ∧ FreshChunk xs chunk
  | .remove => True
  | .removeIntern chunk => chunk ∈ xs
  | .other mem => ∀ a ∈ xs, next mem a = next s.mem a ∧ prev mem a = prev s.mem a

-- ---------------------------------------------------------------------------
-- What is read off the ring
-- ---------------------------------------------------------------------------

/-- From `head` along `next`, `xs` is read off once around, and `prev` goes the other way. -/
structure ReadsAs (m : Memory) (head : Nat) (xs : List Nat) : Prop where
  head_eq_zero : head = 0 ↔ xs = []
  nodup : xs.Nodup
  read : List.iterate (next m) head xs.length = xs
  closes : (next m)^[xs.length] head = head
  inverse : ∀ a ∈ xs, prev m (next m a) = a ∧ next m (prev m a) = a

variable {m : Memory} {head : Nat} {xs : List Nat}

theorem RingList.readsAs (h : RingList m head xs) (hf : Fits 16 xs) : ReadsAs m head xs := by
  refine ⟨?_, h.nodup, ?_, ?_, fun a ha => h.ring.inverse ha⟩
  · rw [h.head]
    cases xs with
    | nil => simp
    | cons a xs => simpa using (hf a List.mem_cons_self).1
  · cases xs with
    | nil => rfl
    | cons a xs =>
      obtain rfl : head = a := h.head
      exact (Seg.iterate h.ring).1
  · cases xs with
    | nil => rfl
    | cons a xs =>
      obtain rfl : head = a := h.head
      exact (Seg.iterate h.ring).2

-- ---------------------------------------------------------------------------
-- Refinement
-- ---------------------------------------------------------------------------

/-- The ring in memory is that of the list, and its chunks lie apart. -/
structure RingRefines (s : RingState) (xs : List Nat) : Prop where
  ring : RingList s.mem s.head xs
  spaced : Spaced 16 xs
  fits : Fits 16 xs

theorem RingRefines.empty (m : Memory) : RingRefines ⟨m, 0⟩ [] :=
  ⟨⟨rfl, List.nodup_nil, trivial⟩, by simp [Spaced], by simp [Fits]⟩

theorem RingRefines.sub {s : RingState} {ys : List Nat} (h : RingRefines s xs)
    (hs : ∀ a ∈ ys, a ∈ xs)
    {s' : RingState} (hr : RingList s'.mem s'.head ys) : RingRefines s' ys :=
  ⟨hr, h.spaced.sub hs, fun a ha => h.fits a (hs a ha)⟩

theorem ringStep_refines (s : RingState) (xs : List Nat) (a : RingAction) (h : RingRefines s xs)
    (hmay : RingMay s xs a) :
    (ringStep s a).1 = (listStep xs a).1 ∧ RingRefines (ringStep s a).2 (listStep xs a).2 := by
  cases a with
  | add chunk =>
    obtain ⟨hnot, hs, hf⟩ := hmay
    exact ⟨rfl, (kmallocDllistAdd_spec h.ring hnot hs hf).1, hs, hf⟩
  | addEnd chunk =>
    obtain ⟨hne, hnot, hs, hf⟩ := hmay
    have hmem : ∀ a ∈ xs ++ [chunk], a ∈ chunk :: xs := by simp [or_comm]
    obtain ⟨x, t, rfl⟩ := List.exists_cons_of_ne_nil hne
    exact ⟨rfl, (kmallocDllistAddEnd_spec h.ring hnot hs hf).1, hs.sub hmem,
      fun a ha => hf a (hmem a ha)⟩
  | remove =>
    cases xs with
    | nil =>
      obtain ⟨mem, head⟩ := s
      obtain rfl : head = 0 := h.ring.head
      exact ⟨rfl, h⟩
    | cons c xs =>
      obtain ⟨hret, hring, -⟩ := kmallocDllistRemove_spec h.ring h.spaced h.fits
      exact ⟨congrArg some hret, h.sub (fun a ha => List.mem_cons_of_mem _ ha) hring⟩
  | removeIntern chunk =>
    obtain ⟨pre, post, hnot, rfl, hl⟩ := List.exists_erase_eq hmay
    obtain ⟨hret, hring, -⟩ := kmallocDllistRemoveIntern_spec pre h.ring h.spaced h.fits
    exact ⟨congrArg some hret, h.sub (fun a ha => List.mem_of_mem_erase ha) (hl ▸ hring)⟩
  | other mem =>
    exact ⟨rfl,
      h.sub (fun _ ha => ha) (h.ring.congr (fun a ha => (hmay a ha).1) fun a ha => (hmay a ha).2)⟩

/-- Every run on a ring, from the empty one, is the run on lists: it returns
the same chunks, and the ring reads as the list. -/
theorem rings_refine_lists (m : Memory) (as : List RingAction)
    (hmay : AllowedAll ringStep listStep RingMay ⟨m, 0⟩ [] as) :
    (runAll ringStep ⟨m, 0⟩ as).1 = (runAll listStep [] as).1 ∧
      ReadsAs (runAll ringStep ⟨m, 0⟩ as).2.mem (runAll ringStep ⟨m, 0⟩ as).2.head
        (runAll listStep [] as).2 := by
  obtain ⟨hret, href⟩ := hmay.refines ringStep_refines (RingRefines.empty m)
  exact ⟨hret, href.ring.readsAs href.fits⟩

def threeChunks : List RingAction :=
  [.add 4096, .add 8192, .addEnd 12288, .removeIntern 4096, .remove]

theorem threeChunks_allowed : AllowedAll ringStep listStep RingMay ⟨fun _ => 0, 0⟩
    [] threeChunks := by
  simp only [threeChunks, AllowedAll, listStep, RingMay, FreshChunk, Spaced, Fits]
  decide

theorem rings_refine_lists_threeChunks :
    (runAll ringStep ⟨fun _ => 0, 0⟩ threeChunks).1 = [none, none, none, some 4096, some 8192] ∧
      ReadsAs (runAll ringStep ⟨fun _ => 0, 0⟩ threeChunks).2.mem (runAll ringStep ⟨fun _ => 0,
      0⟩ threeChunks).2.head
        [12288] :=
  rings_refine_lists _ threeChunks threeChunks_allowed

end ElcoOs.Kmalloc
