/-!
# Runs of a transition function

States, actions, and a function that computes the next state or fails. A run
starts in one of the initial states and makes steps that are allowed; what
holds at the start and is kept by every step holds of all states reached.
-/

section
variable {σ α : Type}

/-- The states reached from `init` by steps of `next` that `may` allows. -/
inductive Reach (init : σ → Prop) (next : σ → α → Option σ) (may : σ → α → σ → Prop) : σ →
    Prop where
  | start {s : σ} (h : init s) : Reach init next may s
  | step {s s' : σ} {a : α} (h : Reach init next may s) (hnext : next s a = some s') (hmay :
    may s a s') :
      Reach init next may s'

variable {init : σ → Prop} {next : σ → α → Option σ} {may may' : σ → α → σ → Prop}
  {p : σ → Prop} {s : σ}

/-- The invariant rule. -/
theorem Reach.invariant (hinit : ∀ s, init s → p s)
    (hstep : ∀ s a s', p s → next s a = some s' → may s a s' → p s')
    (h : Reach init next may s) : p s := by
  induction h with
  | start h => exact hinit _ h
  | step _ hnext hmay ih => exact hstep _ _ _ ih hnext hmay

theorem Reach.mono (hmay : ∀ s a s', may s a s' → may' s a s') (h : Reach init next may s) :
    Reach init next may' s := by
  induction h with
  | start h => exact .start h
  | step _ hnext hm ih => exact .step ih hnext (hmay _ _ _ hm)

/-- A run by its actions, from a state. -/
inductive Trail (next : σ → α → Option σ) (may : σ → α → σ → Prop) (s : σ) : List α → σ → Prop where
  | nil : Trail next may s [] s
  | snoc {s' s'' : σ} {as : List α} {a : α} (h : Trail next may s as s') (hnext :
    next s' a = some s'')
      (hmay : may s' a s'') : Trail next may s (as ++ [a]) s''

end

-- ---------------------------------------------------------------------------
-- Simulation
-- ---------------------------------------------------------------------------

/-- A run of a step relation by its actions. -/
inductive Steps {σ α : Type} (step : σ → α → σ → Prop) (s : σ) : List α → σ → Prop where
  | nil : Steps step s [] s
  | snoc {s' s'' : σ} {as : List α} {a : α} (h : Steps step s as s') (hstep : step s' a s'') :
      Steps step s (as ++ [a]) s''

/-- The simulation rule: what a step does from a related state, a step of the same action does
too. -/
theorem Trail.simulates {σ τ α : Type} {next : σ → α → Option σ} {may : σ → α → σ → Prop}
    {step : τ → α → τ → Prop}
    {r : σ → τ → Prop} {s s' : σ} {t : τ} {as : List α} (h : Trail next may s as s')
    (hstep : ∀ s a s' t, r s t → next s a = some s' → may s a s' → ∃ t', step t a t' ∧ r s' t')
    (hr : r s t) :
    ∃ t', Steps step t as t' ∧ r s' t' := by
  induction h with
  | nil => exact ⟨t, .nil, hr⟩
  | snoc _ hnext hmay ih =>
    obtain ⟨t₁, hsteps, hr₁⟩ := ih
    obtain ⟨t₂, hstep₂, hr₂⟩ := hstep _ _ _ _ hr₁ hnext hmay
    exact ⟨t₂, .snoc hsteps hstep₂, hr₂⟩

-- ---------------------------------------------------------------------------
-- Refinement
-- ---------------------------------------------------------------------------

def runAll {σ α β : Type} (step : σ → α → β × σ) (s : σ) : List α → List β × σ
  | [] => ([], s)
  | a :: as =>
    let r := step s a
    let rest := runAll step r.2 as
    (r.1 :: rest.1, rest.2)

section
variable {σ τ α β : Type} (step : σ → α → β × σ) (spec : τ → α → β × τ) (may : σ → τ → α → Prop)

/-- Two systems take the actions side by side, and each action is allowed when its turn comes. -/
def AllowedAll : σ → τ → List α → Prop
  | _, _, [] => True
  | s, t, a :: as => may s t a ∧ AllowedAll (step s a).2 (spec t a).2 as

variable {step spec may}

/-- The refinement rule: a relation that allowed actions keep, returning the
same, is kept by every run of them, and the runs return the same. -/
theorem AllowedAll.refines {r : σ → τ → Prop} {as : List α} {s : σ} {t : τ}
    (h : AllowedAll step spec may s t as)
    (hstep : ∀ s t a, r s t → may s t a → (step s a).1 = (spec t a).1 ∧ r (step s a).2 (spec t a).2)
    (hr : r s t) : (runAll step s as).1 = (runAll spec t as).1 ∧
    r (runAll step s as).2 (runAll spec t as).2 := by
  induction as generalizing s t with
  | nil => exact ⟨rfl, hr⟩
  | cons a as ih =>
    obtain ⟨hret, hnext⟩ := hstep s t a hr h.1
    obtain ⟨hrest, hend⟩ := ih h.2 hnext
    refine ⟨?_, hend⟩
    show (step s a).1 :: _ = (spec t a).1 :: _
    rw [hret, hrest]

end
