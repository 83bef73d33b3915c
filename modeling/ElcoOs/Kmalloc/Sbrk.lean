import ElcoOs.Kmalloc.Kmalloc
import ElcoOs.Kmalloc.BinOps

/-!
# What does not ask for memory

Chunks go into bins and come out of them, the designated victim is cut and
replaced, the top is carved: none of it calls the `sbrk` callback or changes
the size of the heap.
-/

namespace ElcoOs.Kmalloc

open Word32

variable {ε : Type}

section
variable {cb : Callbacks ε} {w w' : World ε} {a c i size : Nat} {e : Event} {r : Nat × World ε}

structure SameSizes (w w' : World ε) : Prop where
  heapSize : w'.kmstate.heapSize = w.kmstate.heapSize
  initial : w'.kmstate.initialHeapSize = w.kmstate.initialHeapSize

theorem SameSizes.refl (w : World ε) : SameSizes w w := ⟨rfl, rfl⟩

theorem SameSizes.trans {w'' : World ε} (h : SameSizes w w') (h' : SameSizes w' w'') :
    SameSizes w w'' :=
  ⟨h'.heapSize.trans h.heapSize, h'.initial.trans h.initial⟩

/-- The sizes are the same and `sbrk` was not called. -/
structure NoSbrk (w w' : World ε) : Prop extends SameSizes w w' where
  trace : ∃ es, w'.trace = es ++ w.trace ∧ ∀ i, Event.sbrk i ∉ es

theorem NoSbrk.quiet (hs : SameSizes w w') (ht : w'.trace = w.trace) : NoSbrk w w' :=
  ⟨hs, [], ht, by simp⟩

theorem NoSbrk.record (hs : SameSizes w w') (he : ∀ i, Event.sbrk i ≠ e)
    (ht : w'.trace = e :: w.trace) : NoSbrk w w' :=
  ⟨hs, [e], ht, fun i hi => he i (List.mem_singleton.mp hi)⟩

theorem NoSbrk.trans {w'' : World ε} (h : NoSbrk w w') (h' : NoSbrk w' w'') : NoSbrk w w'' := by
  obtain ⟨es, ht, hes⟩ := h.trace
  obtain ⟨es', ht', hes'⟩ := h'.trace
  refine ⟨h.toSameSizes.trans h'.toSameSizes, es' ++ es,
    by rw [ht', ht, List.append_assoc], fun i hi => ?_⟩
  exact (List.mem_append.mp hi).elim (hes' i) (hes i)

theorem NoSbrk.after_quiet {w₁ : World ε} (h : NoSbrk w₁ w') (hs : SameSizes w w₁)
    (ht : w₁.trace = w.trace) :
    NoSbrk w w' := (NoSbrk.quiet hs ht).trans h

theorem NoSbrk.after_record {w₁ : World ε} (h : NoSbrk w₁ w') (hs : SameSizes w w₁)
    (he : ∀ i, Event.sbrk i ≠ e)
    (ht : w₁.trace = e :: w.trace) : NoSbrk w w' := (NoSbrk.record hs he ht).trans h

-- ---------------------------------------------------------------------------
-- Bins
-- ---------------------------------------------------------------------------

theorem binChunk_noSbrk (h : binChunk w a = some w') : NoSbrk w w' := by
  obtain ⟨b, m, rfl⟩ := binChunk_keeps h
  exact .quiet ⟨rfl, rfl⟩ rfl

theorem unbinChunk_noSbrk (h : unbinChunk w a = some w') : NoSbrk w w' := by
  obtain ⟨b, m, rfl⟩ := unbinChunk_keeps h
  exact .quiet ⟨rfl, rfl⟩ rfl

theorem removeTchunk_noSbrk (h : removeTchunk w a i = some w') : NoSbrk w w' := by
  obtain ⟨m, head, rfl⟩ := removeTchunk_keeps h
  exact .quiet ⟨rfl, rfl⟩ rfl

theorem clearSbin_noSbrk (w : World ε) (i : Nat) : NoSbrk w (clearSbin w i) := by
  unfold clearSbin
  split <;> exact .quiet ⟨rfl, rfl⟩ rfl

theorem clearTbin_noSbrk (w : World ε) (i : Nat) : NoSbrk w (clearTbin w i) := by
  unfold clearTbin
  split <;> exact .quiet ⟨rfl, rfl⟩ rfl

theorem replaceDv_noSbrk (h : replaceDv w a = some w') : NoSbrk w w' := by
  rw [replaceDv] at h
  split at h
  · obtain ⟨w₁, h₁, h⟩ := Option.bind_eq_some_iff.mp h
    cases h
    exact (binChunk_noSbrk h₁).trans (.quiet ⟨rfl, rfl⟩ rfl)
  · cases h
    exact .quiet ⟨rfl, rfl⟩ rfl

theorem removeSchunk_noSbrk (w : World ε) (i : Nat) : NoSbrk w (removeSchunk w i).2 :=
  (clearSbin_noSbrk ((w.setMem (kmallocDllistRemove w.mem (w.kmstate.sbin i)).2.1).setSbin i
    (kmallocDllistRemove w.mem (w.kmstate.sbin i)).2.2) i).after_quiet ⟨rfl, rfl⟩ rfl

theorem splitSbin_noSbrk (h : splitSbin w i size = some r) : NoSbrk w r.2 := by
  obtain ⟨-, -, h⟩ := Option.bind_eq_some_iff.mp h
  have hremove := removeSchunk_noSbrk w i
  simp only at h
  split at h
  · cases h
    exact hremove
  · obtain ⟨w₁, h₁, h⟩ := Option.bind_eq_some_iff.mp h
    cases h
    exact hremove.trans ((replaceDv_noSbrk h₁).after_record ⟨rfl, rfl⟩ (by simp) rfl)

theorem allocateSbin_noSbrk (h : allocateSbin w i size = some r) : NoSbrk w r.2 := by
  obtain ⟨-, -, h⟩ := Option.bind_eq_some_iff.mp h
  have hremove := removeSchunk_noSbrk w i
  simp only at h
  split at h
  · cases h
    exact hremove
  · cases h
    exact hremove.trans (.record ⟨rfl, rfl⟩ (by simp) rfl)

theorem allocateTchunk_noSbrk (h : allocateTchunk w a size = some r) : NoSbrk w r.2 := by
  rw [allocateTchunk] at h
  split at h
  · cases h
    exact .quiet ⟨rfl, rfl⟩ rfl
  · obtain ⟨w₁, h₁, h⟩ := Option.bind_eq_some_iff.mp h
    have hremove : NoSbrk w w₁ := (removeTchunk_noSbrk h₁).after_record ⟨rfl, rfl⟩ (by simp) rfl
    have hout := hremove.trans (clearTbin_noSbrk w₁ (index w₁.mem a))
    simp only at h
    split at h
    · obtain ⟨w₂, h₂, h⟩ := Option.bind_eq_some_iff.mp h
      cases h
      exact hout.trans ((replaceDv_noSbrk h₂).after_quiet ⟨rfl, rfl⟩ rfl)
    · cases h
      exact hout.trans (.quiet ⟨rfl, rfl⟩ rfl)

theorem allocateSmallestTbin_noSbrk (h : allocateSmallestTbin w size = some r) : NoSbrk w r.2 := by
  obtain ⟨-, -, h⟩ := Option.bind_eq_some_iff.mp h
  obtain ⟨chunk, -, h⟩ := Option.bind_eq_some_iff.mp h
  exact (allocateTchunk_noSbrk h).after_record ⟨rfl, rfl⟩ (by simp) rfl

-- ---------------------------------------------------------------------------
-- The search, the victim and the top
-- ---------------------------------------------------------------------------

theorem internSmall_noSbrk (h : internSmall w size = some r) : NoSbrk w r.2 := by
  rw [internSmall] at h
  simp only at h
  have hshift : NoSbrk w (w.emit (.shift (smallIndex size))) := .record ⟨rfl, rfl⟩ (by simp) rfl
  split at h
  · exact hshift.trans (allocateSbin_noSbrk h)
  · split at h
    · split at h
      · obtain ⟨-, -, h⟩ := Option.bind_eq_some_iff.mp h
        exact hshift.trans ((splitSbin_noSbrk h).after_record ⟨rfl, rfl⟩ (by simp) rfl)
      · split at h
        · exact hshift.trans (allocateSmallestTbin_noSbrk h)
        · cases h
          exact hshift
    · cases h
      exact hshift

theorem internLarge_noSbrk (h : internLarge w size = some r) : NoSbrk w r.2 := by
  obtain ⟨-, -, h⟩ := Option.bind_eq_some_iff.mp h
  obtain ⟨chunk, -, h⟩ := Option.bind_eq_some_iff.mp h
  have hshift : NoSbrk w (w.emit (.shift (calcTbin size + 1))) := .record ⟨rfl, rfl⟩ (by simp) rfl
  split at h
  · split at h
    · exact allocateTchunk_noSbrk h
    · cases h
      exact .quiet ⟨rfl, rfl⟩ rfl
  · simp only at h
    split at h
    · have hscan :
        ∀ map head, NoSbrk w ((w.emit (.shift (calcTbin size + 1))).emit (.leftbin map head)) :=
        fun map head => hshift.trans (.record ⟨rfl, rfl⟩ (by simp) rfl)
      split at h
      · obtain ⟨-, -, h⟩ := Option.bind_eq_some_iff.mp h
        obtain ⟨chunk, -, h⟩ := Option.bind_eq_some_iff.mp h
        split at h
        · exact (hscan _ _).trans (allocateTchunk_noSbrk h)
        · cases h
          exact hscan _ _
      · cases h
        exact hscan _ _
    · cases h
      exact hshift

theorem carveTop_noSbrk (w : World ε) (c : Nat) : NoSbrk w (carveTop w c).2 := by
  unfold carveTop
  by_cases hall : sub w.kmstate.topChunkSize c < minChunkSize
  · simp only [if_pos hall]
    exact .record ⟨rfl, rfl⟩ (by simp) rfl
  · simp only [if_neg hall]
    exact .record ⟨rfl, rfl⟩ (by simp) rfl

theorem splitTop_enough (cb : Callbacks ε) (hlow : ¬w.kmstate.topChunkSize < c) :
    splitTop cb w c true = carveTop w c := by
  simp only [splitTop]
  rw [if_neg hlow]

theorem splitTop_short {g : Bool × World ε} (hlow : w.kmstate.topChunkSize < c)
    (hg : growTop cb w (sub c w.kmstate.topChunkSize) = g) :
    splitTop cb w c true = if g.1 = true then carveTop g.2 c else (0, g.2) := by
  rw [← hg]
  simp only [splitTop]
  rw [if_pos hlow, if_pos trivial]

theorem allocateDv_noSbrk (w : World ε) (c : Nat) : NoSbrk w (allocateDv w c).2 := by
  unfold allocateDv
  simp only
  split
  · exact .quiet ⟨rfl, rfl⟩ rfl
  · split <;> exact .record ⟨rfl, rfl⟩ (by simp) rfl

end

end ElcoOs.Kmalloc
