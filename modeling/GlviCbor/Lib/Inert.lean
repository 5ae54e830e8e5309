/-
**Inert steps**: steps of a run that might as well not have been taken.

`E` relates states that no input can tell apart, and a step with a `quiet`
output stays among them. Then what was read in quiet steps can be left out of a
run, and put into one, at any number of places: `Inserted.responds` says that the
other inputs get the same outputs and lead to the same state.
-/
import GlviCbor.Lib.Machine

set_option autoImplicit false

namespace Machine

section Inert

variable {σ ι ο : Type*}

/-- Outputs in `quiet` announce a step to a state that cannot be told from the
one before it. -/
structure Inert (R : σ → ι → ο → σ → Prop) (E : σ → σ → Prop) (quiet : ο → Prop) : Prop where
  congr : ∀ {s s' t i o}, E s s' → (R s i o t ↔ R s' i o t)
  step : ∀ {s s' i o}, R s i o s' → quiet o → E s s'

/-- A list of steps together with what is left of it when quiet steps are left
out. The last step stays. -/
inductive Inserted (quiet : ο → Prop) : List (Step σ ι ο) → List ι → List ο → Prop
  | last (st : Step σ ι ο) : Inserted quiet [st] [st.input] [st.output]
  | keep {steps : List (Step σ ι ο)} {is : List ι} {os : List ο} (st : Step σ ι ο) :
      Inserted quiet steps is os → Inserted quiet (st :: steps) (st.input :: is) (st.output :: os)
  | skip {steps : List (Step σ ι ο)} {is : List ι} {os : List ο} (st : Step σ ι ο) :
      quiet st.output → Inserted quiet steps is os → Inserted quiet (st :: steps) is os

variable {R : σ → ι → ο → σ → Prop} {E : σ → σ → Prop} {quiet : ο → Prop}

theorem Inserted.ne_nil {steps : List (Step σ ι ο)} {is : List ι} {os : List ο}
    (h : Inserted quiet steps is os) : is ≠ [] := by
  induction h with
  | last => simp
  | keep => simp
  | skip _ _ _ ih => exact ih

/-- From states that cannot be told apart, a non-empty input has the same
outputs and the same end. -/
theorem Inert.responds_iff (H : Inert R E quiet) {s s' t : σ} {is : List ι} {os : List ο}
    (hE : E s s') (hne : is ≠ []) : Responds R s is os t ↔ Responds R s' is os t := by
  obtain ⟨i, is, rfl⟩ := List.exists_cons_of_ne_nil hne
  -- after one step the two runs are one: `congr` is about the first step only
  rw [responds_cons, responds_cons]
  simp only [H.congr hE]

/-- Quiet steps can be left out. -/
theorem Inserted.responds (H : Inert R E quiet) {s t : σ} {steps : List (Step σ ι ο)}
    {is : List ι} {os : List ο} (h : Inserted quiet steps is os) (hrun : Run R s steps t) :
    Responds R s is os t := by
  induction h generalizing s with
  | last st =>
    exact ⟨[st], hrun, rfl, rfl⟩
  | keep st _ ih =>
    rcases hrun with _ | ⟨hR, hrest⟩
    exact (ih hrest).cons hR
  | skip st hquiet hins ih =>
    -- the skipped step leads to a state like `s`, and since the last step always
    -- stays, something is read from there that makes the two runs one
    rcases hrun with _ | ⟨hR, hrest⟩
    exact (H.responds_iff (H.step hR hquiet) hins.ne_nil).mpr (ih hrest)

end Inert

end Machine
