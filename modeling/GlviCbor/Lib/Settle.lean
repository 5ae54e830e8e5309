/-
**Settling**: a loop that repeats a step until there is none left to take.

Code writes such a loop as a recursion that need not end; a model gives it fuel.
`loop` is that recursion, with a continuation for the state it comes to rest in.
What it computes with enough fuel is Mathlib's `StateTransition.eval` followed
by the continuation (`exists_loop_iff`), so a proof about the loop never counts
fuel: it uses `Settles`, which is a partial function (`Settles.unique`) that
goes along with every step (`settles_of_step`) and stays put where there is none
(`settles_of_rest`). A state settles only if no steps from it go on for ever
(`Settles.acc`).
-/
import Mathlib.Computability.StateTransition

set_option autoImplicit false

namespace Settle

open StateTransition

section Relation

variable {σ : Type*}

/-- From `s` the steps lead to `t`, and there is none from `t`. -/
def Settles (step : σ → Option σ) (s t : σ) : Prop := t ∈ eval step s

variable {step : σ → Option σ} {s t u : σ}

theorem Settles.unique (h : Settles step s t) (h' : Settles step s u) : t = u :=
  Part.mem_unique h h'

/-- Nothing is left to do where it comes to rest. -/
theorem Settles.rest (h : Settles step s t) : step t = none := (mem_eval.mp h).2

theorem settles_of_step (h : step s = some u) : Settles step s t ↔ Settles step u t := by
  rw [Settles, Settles, reaches_eval (Relation.ReflTransGen.single h)]

theorem settles_of_rest (h : step s = none) : Settles step s t ↔ t = s := by
  constructor
  · intro ht
    have hs : s ∈ eval step s := mem_eval.mpr ⟨Relation.ReflTransGen.refl, h⟩
    exact Part.mem_unique ht hs
  · rintro rfl
    exact mem_eval.mpr ⟨Relation.ReflTransGen.refl, h⟩

/-- A state and the one it settles in settle alike. -/
theorem Settles.settles_iff (h : Settles step s t) : Settles step t u ↔ Settles step s u := by
  rw [Settles, Settles, reaches_eval (mem_eval.mp h).1]

/-- A property that every step keeps holds where the state settles. -/
theorem Settles.invariant {P : σ → Prop} (h : Settles step s t)
    (hstep : ∀ a b, step a = some b → P a → P b) (hs : P s) : P t := by
  obtain ⟨hreach, -⟩ := mem_eval.mp h
  clear h
  induction hreach with
  | refl => exact hs
  | tail _ hab ih => exact hstep _ _ hab ih

/-- A state leads on to what its successors lead on to, so it is enough to settle
from somewhere further on. -/
theorem exists_settles_of_reaches (h : Reaches step s u) :
    (∃ t, Settles step s t) ↔ ∃ t, Settles step u t := by
  unfold Settles
  rw [reaches_eval h]

/-- Where a state settles, the steps from it are a finite line. -/
theorem Settles.acc (h : Settles step s t) : Acc (fun b a => step a = some b) s := by
  obtain ⟨hreach, hrest⟩ := mem_eval.mp h
  clear h
  -- from the resting state backwards; the only successor is the next one on the line
  induction hreach using Relation.ReflTransGen.head_induction_on with
  | refl =>
    refine ⟨_, fun b hb => ?_⟩
    rw [hrest] at hb
    exact nomatch hb
  | head hab _ ih =>
    refine ⟨_, fun b hb => ?_⟩
    rw [Option.mem_def.mp hab] at hb
    rwa [← Option.some.inj hb]

end Relation

/-! ## The loop with fuel -/

section Loop

variable {σ β : Type*}

/-- Steps until there is no step, then goes on with `fin`, which may use what is
left of the fuel. -/
def loop (step : σ → Option σ) (fin : ℕ → σ → Option β) : ℕ → σ → Option β
  | 0, _ => none
  | fuel + 1, s =>
    match step s with
    | some s' => loop step fin fuel s'
    | none => fin fuel s

variable {step : σ → Option σ} {fin : ℕ → σ → Option β}

theorem loop_of_step {s s' : σ} (fuel : ℕ) (h : step s = some s') :
    loop step fin (fuel + 1) s = loop step fin fuel s' := by
  rw [loop, h]

theorem loop_of_rest {s : σ} (fuel : ℕ) (h : step s = none) :
    loop step fin (fuel + 1) s = fin fuel s := by
  rw [loop, h]

/-- With enough fuel, the loop is: settle, then go on. -/
theorem exists_loop_iff {s : σ} {r : β} :
    (∃ fuel, loop step fin fuel s = some r) ↔
      ∃ t, Settles step s t ∧ ∃ fuel, fin fuel t = some r := by
  constructor
  · rintro ⟨fuel, h⟩
    -- one unit of fuel is one step; the last one is for seeing that there is none
    induction fuel generalizing s with
    | zero => exact nomatch h
    | succ fuel ih =>
      rcases hs : step s with _ | s'
      · rw [loop_of_rest _ hs] at h
        exact ⟨s, (settles_of_rest hs).mpr rfl, fuel, h⟩
      · rw [loop_of_step _ hs] at h
        obtain ⟨t, ht, hfin⟩ := ih h
        exact ⟨t, (settles_of_step hs).mpr ht, hfin⟩
  · rintro ⟨t, hsettles, fuel, hfin⟩
    obtain ⟨hreach, hrest⟩ := StateTransition.mem_eval.mp hsettles
    clear hsettles
    -- from the resting state backwards, one more unit of fuel for each step
    induction hreach using Relation.ReflTransGen.head_induction_on with
    | refl => exact ⟨fuel + 1, by rw [loop_of_rest _ hrest, hfin]⟩
    | head hab _ ih =>
      obtain ⟨k, hk⟩ := ih
      exact ⟨k + 1, by rw [loop_of_step _ hab, hk]⟩

end Loop

end Settle
