import ElcoOs.Lib.Memory

/-!
# Words pushed on a stack

A stack grows downwards by words. What has been pushed lies there in reverse
order, and nothing outside of it has changed.
-/

namespace Memory

/-- The words `vs`, the first one at `a` and each four bytes above the one before. -/
def Words (m : Memory) : Nat → List Nat → Prop
  | _, [] => True
  | a, v :: vs => m.load32 a = v ∧ Words m (a + 4) vs

/-- Push the words `vs` one after the other on the stack that ends at `sp`. -/
def pushAll (m : Memory) (sp : Nat) : List Nat → Memory
  | [] => m
  | v :: vs => pushAll (m.store32 (sp - 4) v) (sp - 4) vs

variable {m : Memory} {a sp v x : Nat} {vs : List Nat}

theorem Words.snoc (h : Words m a vs) (hv : m.load32 (a + 4 * vs.length) = v) :
    Words m a (vs ++ [v]) := by
  induction vs generalizing a with
  | nil => exact ⟨hv, trivial⟩
  | cons w vs ih =>
    refine ⟨h.1, ih h.2 ?_⟩
    rw [← hv, List.length_cons]
    congr 1
    omega

theorem pushAll_apply (hsp : 4 * vs.length ≤ sp) (h : x < sp - 4 * vs.length ∨ sp ≤ x) :
    pushAll m sp vs x = m x := by
  induction vs generalizing m sp with
  | nil => rfl
  | cons v vs ih =>
    rw [List.length_cons] at hsp h
    rw [pushAll, ih (by omega) (by omega), store32_apply (by omega)]

theorem pushAll_words (hsp : 4 * vs.length ≤ sp) (hvs : ∀ v ∈ vs, v < 4294967296) :
    Words (pushAll m sp vs) (sp - 4 * vs.length) vs.reverse := by
  induction vs generalizing m sp with
  | nil => trivial
  | cons v vs ih =>
    rw [List.length_cons] at hsp ⊢
    have hrest : Words (pushAll (m.store32 (sp - 4) v) (sp - 4) vs)
      (sp - 4 - 4 * vs.length) vs.reverse :=
      ih (by omega) fun w hw => hvs w (List.mem_cons_of_mem _ hw)
    rw [show sp - 4 - 4 * vs.length = sp - 4 * (vs.length + 1) by omega] at hrest
    rw [List.reverse_cons, pushAll]
    refine hrest.snoc ?_
    rw [List.length_reverse, show sp - 4 * (vs.length + 1) + 4 * vs.length = sp - 4 by omega,
      load32_congr fun x hx _ => pushAll_apply (by omega) (.inr hx)]
    exact load32_store32_same (hvs v List.mem_cons_self)

end Memory
