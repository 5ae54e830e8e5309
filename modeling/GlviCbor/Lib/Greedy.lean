/-
**Greedy matching**: patterns that wait for their turn in a stream.

The first pattern takes the first input that fits it, the next one the next such
input, and what fits nothing is passed over. `waiting` is what is left of the patterns
and `taken` what was taken of the inputs. The greedy choice loses nothing: the
prefixes of the patterns that embed in the stream in any way at all, in order and with
gaps (`List.SublistForall₂`), are those it gets through (`embeds_iff`).
-/
import Mathlib.Data.List.Forall2

set_option autoImplicit false

namespace Greedy

open List

section Greedy

variable {α β : Type*} (fits : α → β → Bool)

/-- The patterns that are left after the stream. -/
def waiting : List α → List β → List α
  | [], _ => []
  | ps, [] => ps
  | p :: ps, b :: bs => if fits p b then waiting ps bs else waiting (p :: ps) bs

/-- The inputs that were taken. -/
def taken : List α → List β → List β
  | [], _ => []
  | _, [] => []
  | p :: ps, b :: bs => if fits p b then b :: taken ps bs else taken (p :: ps) bs

@[simp] theorem waiting_nil_left (bs : List β) : waiting fits [] bs = [] := by
  rw [waiting]

@[simp] theorem waiting_nil_right (ps : List α) : waiting fits ps [] = ps := by
  rcases ps with _ | _ <;> rfl

@[simp] theorem taken_nil_left (bs : List β) : taken fits [] bs = [] := by
  rw [taken]

@[simp] theorem taken_nil_right (ps : List α) : taken fits ps [] = [] := by
  rcases ps with _ | _ <;> rfl

variable {fits}

theorem waiting_of_fits {p : α} {b : β} (h : fits p b) (ps : List α) (bs : List β) :
    waiting fits (p :: ps) (b :: bs) = waiting fits ps bs := by
  rw [waiting, if_pos h]

theorem waiting_of_not_fits {p : α} {b : β} (h : ¬ fits p b) (ps : List α) (bs : List β) :
    waiting fits (p :: ps) (b :: bs) = waiting fits (p :: ps) bs := by
  rw [waiting, if_neg h]

theorem taken_of_fits {p : α} {b : β} (h : fits p b) (ps : List α) (bs : List β) :
    taken fits (p :: ps) (b :: bs) = b :: taken fits ps bs := by
  rw [taken, if_pos h]

theorem taken_of_not_fits {p : α} {b : β} (h : ¬ fits p b) (ps : List α) (bs : List β) :
    taken fits (p :: ps) (b :: bs) = taken fits (p :: ps) bs := by
  rw [taken, if_neg h]

/-- The stream can come in pieces. -/
theorem waiting_cons (ps : List α) (b : β) (bs : List β) :
    waiting fits ps (b :: bs) = waiting fits (waiting fits ps [b]) bs := by
  rcases ps with _ | ⟨p, ps⟩
  · simp
  · by_cases h : fits p b
    · rw [waiting_of_fits h, waiting_of_fits h, waiting_nil_right]
    · rw [waiting_of_not_fits h, waiting_of_not_fits h, waiting_nil_right]

/-! ## The greedy choice loses nothing -/

theorem sublistForall₂_of_cons {R : α → β → Prop} {p : α} {ps : List α} {bs : List β}
    (h : SublistForall₂ R (p :: ps) bs) : SublistForall₂ R ps bs := by
  generalize hqs : p :: ps = qs at h
  induction h with
  | nil => cases hqs
  | cons _ hrest =>
    obtain ⟨-, rfl⟩ := List.cons.inj hqs
    exact .cons_right hrest
  | cons_right _ ih => exact .cons_right (ih hqs)

/-- A fitting input may as well be taken. -/
theorem sublistForall₂_cons_iff {p : α} {b : β} (h : fits p b) (ps : List α) (bs : List β) :
    SublistForall₂ (fun p b => fits p b) (p :: ps) (b :: bs) ↔
      SublistForall₂ (fun p b => fits p b) ps bs := by
  constructor
  · rintro (_ | ⟨-, hrest⟩ | hrest)
    · exact hrest
    -- if it was passed over, the pattern has taken a later one
    · exact sublistForall₂_of_cons hrest
  · intro hrest
    exact .cons h hrest

theorem sublistForall₂_skip_iff {p : α} {b : β} (h : ¬ fits p b) (ps : List α) (bs : List β) :
    SublistForall₂ (fun p b => fits p b) (p :: ps) (b :: bs) ↔
      SublistForall₂ (fun p b => fits p b) (p :: ps) bs := by
  constructor
  · rintro (_ | ⟨hfits, -⟩ | hrest)
    · exact absurd hfits h
    · exact hrest
  · intro hrest
    exact .cons_right hrest

variable (fits)

/-- The patterns that have had their turn are the longest prefix that embeds in the
stream. -/
theorem embeds_iff (ps : List α) (bs : List β) :
    ∃ gone, ps = gone ++ waiting fits ps bs ∧
      ∀ qs, qs <+: ps → (SublistForall₂ (fun p b => fits p b) qs bs ↔ qs <+: gone) := by
  induction bs generalizing ps with
  | nil =>
    refine ⟨[], by simp, fun qs _ => ?_⟩
    rw [List.prefix_nil]
    constructor
    · rintro ⟨⟩
      rfl
    · rintro rfl
      exact .nil
  | cons b bs ih =>
    rcases ps with _ | ⟨p, ps⟩
    · refine ⟨[], by simp, fun qs hqs => ?_⟩
      obtain rfl := List.prefix_nil.mp hqs
      exact iff_of_true .nil (List.prefix_refl [])
    · by_cases h : fits p b
      · obtain ⟨gone, hsplit, hiff⟩ := ih ps
        refine ⟨p :: gone, ?_, fun qs hqs => ?_⟩
        · rw [waiting_of_fits h, List.cons_append, ← hsplit]
        · rcases qs with _ | ⟨q, qs⟩
          · exact iff_of_true .nil (List.nil_prefix)
          · obtain ⟨rfl, htail⟩ := List.cons_prefix_cons.mp hqs
            rw [sublistForall₂_cons_iff h, hiff qs htail, List.cons_prefix_cons]
            exact (and_iff_right rfl).symm
      · obtain ⟨gone, hsplit, hiff⟩ := ih (p :: ps)
        refine ⟨gone, ?_, fun qs hqs => ?_⟩
        · rw [waiting_of_not_fits h, ← hsplit]
        · rw [← hiff qs hqs]
          rcases qs with _ | ⟨q, qs⟩
          · exact iff_of_true .nil .nil
          · obtain ⟨rfl, -⟩ := List.cons_prefix_cons.mp hqs
            exact sublistForall₂_skip_iff h qs bs

/-- All patterns have had their turn if and only if they embed in the stream. -/
theorem waiting_eq_nil_iff (ps : List α) (bs : List β) :
    waiting fits ps bs = [] ↔ SublistForall₂ (fun p b => fits p b) ps bs := by
  obtain ⟨gone, hsplit, hiff⟩ := embeds_iff fits ps bs
  rw [hiff ps (List.prefix_refl ps)]
  constructor
  · intro hnil
    rw [hnil, List.append_nil] at hsplit
    exact ⟨[], by rw [List.append_nil, ← hsplit]⟩
  · intro hprefix
    have hlength := hprefix.length_le
    rw [congrArg List.length hsplit, List.length_append] at hlength
    exact List.length_eq_zero_iff.mp (by omega)

end Greedy

end Greedy
