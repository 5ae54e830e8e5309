/-
**Stacks that expand their top**: what a predictive parser does between two tokens.

A stack holds entries of two sorts. `some a` is replaced by `program a` when it comes
to the top; `none` stops the expansion. Two things are said about it here.

* `Vanishes` -- a stack that expands to nothing, as a nullable right-hand side does;
* `Front` -- the entries that come to the top before anything stops the expansion.

`exists_settles_iff` is the theorem on left recursion: a stack comes to rest exactly
if there is no infinite chain of entries from it, each at the front of the program of
the one before.
-/
import GlviCbor.Lib.Settle

set_option autoImplicit false

namespace Expand

open Settle StateTransition

section Expand

variable {ι : Type*} (program : ι → List (Option ι))

/-- One expansion, if the top is not a stop. -/
def expand : List (Option ι) → Option (List (Option ι))
  | some a :: stack => some (program a ++ stack)
  | _ => none

/-- Nothing on the stack stops the expansion, now or later. -/
inductive Vanishes : List (Option ι) → Prop
  | nil : Vanishes []
  | cons {a : ι} {stack : List (Option ι)} :
      Vanishes (program a) → Vanishes stack → Vanishes (some a :: stack)

/-- The entry is at the front of the stack, or everything before it vanishes. -/
inductive Front : List (Option ι) → ι → Prop
  | here (a : ι) (stack : List (Option ι)) : Front (some a :: stack) a
  | behind {a b : ι} {stack : List (Option ι)} :
      Vanishes program (program a) → Front stack b → Front (some a :: stack) b

/-- `b` is at the front of the program of `a`. -/
def LeftOf (b a : ι) : Prop := Front program (program a) b

variable {program}

/-- What vanishes uncovers what is below it. -/
theorem Vanishes.reaches {stack : List (Option ι)} (h : Vanishes program stack)
    (rest : List (Option ι)) : Reaches (expand program) (stack ++ rest) rest := by
  induction h generalizing rest with
  | nil => exact .refl
  | @cons a stack _ _ ihprogram ihstack =>
    have hstep : expand program (some a :: stack ++ rest)
        = some (program a ++ (stack ++ rest)) := rfl
    exact .head hstep ((ihprogram _).trans (ihstack _))

/-- What is at the front comes to the top. -/
theorem Front.reaches {stack : List (Option ι)} {b : ι} (h : Front program stack b) :
    ∃ rest, Reaches (expand program) stack (some b :: rest) := by
  induction h with
  | here a stack => exact ⟨stack, .refl⟩
  | @behind a b stack hvanish _ ih =>
    obtain ⟨rest, hrest⟩ := ih
    have hstep : expand program (some a :: stack) = some (program a ++ stack) := rfl
    exact ⟨rest, .head hstep ((hvanish.reaches stack).trans hrest)⟩

/-! ## A stack that comes to rest has no infinite chain -/

/-- By induction on the steps from `some a`: whatever is left of `a` is reached in at
least one of them. -/
theorem acc_leftOf_of_acc {stack : List (Option ι)}
    (h : Acc (Relation.TransGen fun t s => expand program s = some t) stack) {a : ι}
    {rest : List (Option ι)} (htop : stack = some a :: rest) : Acc (LeftOf program) a := by
  induction h generalizing a rest with
  | intro stack _ ih =>
    subst htop
    refine ⟨_, fun b hb => ?_⟩
    -- `b` is at the front of `program a`, on top of which nothing has been put
    have hfront : ∃ below, Reaches (expand program) (program a ++ rest) (some b :: below) := by
      have hwhole : Front program (program a ++ rest) b := by
        unfold LeftOf at hb
        generalize program a = stack at hb
        induction hb with
        | here c stack => exact .here c (stack ++ rest)
        | behind hvanish _ ih => exact .behind hvanish ih
      exact hwhole.reaches
    obtain ⟨below, hbelow⟩ := hfront
    have hstep : expand program (some a :: rest) = some (program a ++ rest) := rfl
    have hpath : Relation.TransGen (fun s t => t ∈ expand program s) (some a :: rest)
        (some b :: below) := .head' hstep hbelow
    exact ih _ (Relation.transGen_swap.mpr hpath) rfl

/-! ## A stack without an infinite chain comes to rest -/

/-- The entry comes to rest on every stack, provided the stack does that is
uncovered if the entry vanishes. -/
def RestsOver (program : ι → List (Option ι)) (a : ι) : Prop :=
  ∀ rest, (Vanishes program (program a) → ∃ t, Settles (expand program) rest t) →
    ∃ t, Settles (expand program) (some a :: rest) t

theorem exists_settles_append {stack rest : List (Option ι)}
    (hfront : ∀ b, Front program stack b → RestsOver program b)
    (hrest : Vanishes program stack → ∃ t, Settles (expand program) rest t) :
    ∃ t, Settles (expand program) (stack ++ rest) t := by
  induction stack with
  | nil => exact hrest .nil
  | cons entry stack ih =>
    rcases entry with _ | a
    · exact ⟨_, (settles_of_rest rfl).mpr rfl⟩
    · apply hfront a (.here a stack)
      intro hvanish
      apply ih
      · intro b hb
        exact hfront b (.behind hvanish hb)
      · intro hstack
        exact hrest (.cons hvanish hstack)

theorem restsOver_of_acc {a : ι} (h : Acc (LeftOf program) a) : RestsOver program a := by
  induction h with
  | intro a _ ih =>
    intro rest hrest
    have hstep : expand program (some a :: rest) = some (program a ++ rest) := rfl
    obtain ⟨t, ht⟩ := exists_settles_append ih hrest
    exact ⟨t, (settles_of_step hstep).mpr ht⟩

/-! ## Left recursion -/

/-- A stack comes to rest if and only if no chain of front entries from it is
infinite. -/
theorem exists_settles_iff (stack : List (Option ι)) :
    (∃ t, Settles (expand program) stack t) ↔
      ∀ b, Front program stack b → Acc (LeftOf program) b := by
  constructor
  · intro hsettles b hb
    obtain ⟨rest, hreach⟩ := hb.reaches
    obtain ⟨t, ht⟩ := (exists_settles_of_reaches hreach).mp hsettles
    exact acc_leftOf_of_acc ht.acc.transGen rfl
  · intro hacc
    have happend : ∃ t, Settles (expand program) (stack ++ []) t :=
      exists_settles_append (fun b hb => restsOver_of_acc (hacc b hb))
        (fun _ => ⟨[], (settles_of_rest rfl).mpr rfl⟩)
    rwa [List.append_nil] at happend

/-- Every stack comes to rest if and only if there is no left recursion. -/
theorem forall_exists_settles_iff :
    (∀ stack, ∃ t, Settles (expand program) stack t) ↔ WellFounded (LeftOf program) := by
  simp only [exists_settles_iff]
  constructor
  · intro h
    exact ⟨fun a => h [some a] a (.here a [])⟩
  · intro h stack b _
    exact h.apply b

end Expand

end Expand
