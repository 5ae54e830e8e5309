/-
**Ordered codes**: letters coded as words, so that the coded texts compare as the texts.

A code is ordered if the code of a smaller letter comes before that of a greater one
whatever follows on either, i.e. the two words differ within both. Then texts and coded
texts have the same lexicographic order (`Ordered.compare_flatMap`). UTF-8 is an ordered code
(`ordered_utf8`).
-/
import Mathlib.Data.Char
import Mathlib.Tactic.SplitIfs

set_option autoImplicit false

namespace OrderedCode

section Code

variable {α β : Type*} [Ord α] [Ord β]

theorem compare_append [Std.ReflOrd α] (w s t : List α) :
    compare (w ++ s) (w ++ t) = compare s t := by
  induction w with
  | nil => rfl
  | cons a w ih =>
    rw [List.cons_append, List.cons_append, List.compare_cons_cons, Std.ReflOrd.compare_self,
      Ordering.eq_then, ih]

/-- The code of a smaller letter comes first, whatever follows. -/
structure Ordered (code : α → List β) : Prop where
  ne_nil : ∀ a, code a ≠ []
  lt : ∀ {a b}, compare a b = .lt → ∀ x y, compare (code a ++ x) (code b ++ y) = .lt

/-- Coded texts compare as the texts do. -/
theorem Ordered.compare_flatMap [Std.LawfulEqOrd α] [Std.OrientedOrd α] [Std.TransOrd β]
    {code : α → List β} (h : Ordered code) (s t : List α) :
    compare (s.flatMap code) (t.flatMap code) = compare s t := by
  induction s generalizing t with
  | nil =>
    rcases t with _ | ⟨b, t⟩
    · rfl
    · obtain ⟨c, w, hcode⟩ := List.exists_cons_of_ne_nil (h.ne_nil b)
      rw [List.flatMap_nil, List.flatMap_cons, hcode]
      rfl
  | cons a s ih =>
    rcases t with _ | ⟨b, t⟩
    · obtain ⟨c, w, hcode⟩ := List.exists_cons_of_ne_nil (h.ne_nil a)
      rw [List.flatMap_nil, List.flatMap_cons, hcode]
      rfl
    · rw [List.flatMap_cons, List.flatMap_cons, List.compare_cons_cons]
      rcases hab : compare a b with _ | _ | _
      · exact h.lt hab _ _
      · -- one code for both, and the rest decides
        obtain rfl := Std.LawfulEqOrd.eq_of_compare hab
        rw [compare_append, ih]
        rfl
      · rw [Std.OrientedCmp.gt_iff_lt] at hab
        rw [Std.OrientedCmp.gt_iff_lt.mpr (h.lt hab _ _)]
        rfl

end Code

/-! ## UTF-8 -/

/-- Bytes compare as the numbers they were made of. -/
theorem compare_byte_cons_lt_iff {m n : ℕ} (hm : m < 256) (hn : n < 256) (s t : List UInt8) :
    compare (UInt8.ofNat m :: s) (UInt8.ofNat n :: t) = .lt ↔
      m < n ∨ m = n ∧ compare s t = .lt := by
  have hbyte : (UInt8.ofNat m).toNat = m ∧ (UInt8.ofNat n).toNat = n := by
    rw [UInt8.toNat_ofNat', UInt8.toNat_ofNat', Nat.mod_eq_of_lt hm, Nat.mod_eq_of_lt hn]
    exact ⟨rfl, rfl⟩
  rw [List.compare_cons_cons, Ordering.then_eq_lt, Std.LawfulEqOrd.compare_eq_iff_eq,
    ← UInt8.toNat_inj, hbyte.1, hbyte.2]
  have hlt : compare (UInt8.ofNat m) (UInt8.ofNat n) = .lt ↔ UInt8.ofNat m < UInt8.ofNat n :=
    compareOfLessAndEq_eq_lt
  rw [hlt, UInt8.lt_iff_toNat_lt, hbyte.1, hbyte.2]

/-- The last code point is `0x10ffff`. -/
theorem toNat_lt_of_char (c : Char) : c.val.toNat < 0x110000 := by
  rcases c.valid with h | h
  · have hsmall : c.val.toNat < 0xd800 := h
    omega
  · exact h.2

theorem ordered_utf8 : Ordered String.utf8EncodeChar where
  ne_nil _ := String.utf8EncodeChar_ne_nil
  lt {a b} h x y := by
    have hab : a < b := compareOfLessAndEq_eq_lt.mp h
    have hlt : a.val.toNat < b.val.toNat := hab
    have hbound := toNat_lt_of_char b
    unfold String.utf8EncodeChar
    generalize a.val.toNat = v at hlt ⊢
    generalize b.val.toNat = w at hlt hbound ⊢
    dsimp only
    -- the digits to base 64 are those of one number
    have hv : v / 64 / 64 = v / 4096 ∧ v / 4096 / 64 = v / 262144 ∧ v / 262144 / 8 = 0 := by omega
    have hw : w / 64 / 64 = w / 4096 ∧ w / 4096 / 64 = w / 262144 ∧ w / 262144 / 8 = 0 := by omega
    -- by the two lengths: a longer code has the greater lead byte, and between codes of
    -- one length the first digit that differs decides
    split_ifs <;>
      simp (disch := omega) only [List.cons_append, List.nil_append,
        compare_byte_cons_lt_iff] <;>
      omega

end OrderedCode
