/-
**Binary interchange formats** and the numbers their bit patterns denote.

A format is its two field widths; everything else (bias, least exponent) follows
from them. `decode` reads a bit pattern as an exact rational, an infinity or no
number.

The one question answered here is what a bit pattern says when its width is
forgotten. A pattern that fits into a narrow format, read in a format wide
enough, has only fraction bits: it is a subnormal, smaller than everything the
narrow format can express (`decode_of_lt`, `least_le_of_decode`). So the two
readings agree on the zero pattern and nowhere else (`decode_eq_decode_iff`).
-/
import Mathlib.Algebra.Order.Field.Power
import Mathlib.Data.Rat.Cast.Order
import Mathlib.Tactic.Positivity
import Mathlib.Tactic.Ring
import Mathlib.Tactic.NormNum

set_option autoImplicit false

namespace BinaryFloat

/-- The widths of the exponent and fraction fields. There is one sign bit. -/
structure Format where
  expBits : ℕ
  fracBits : ℕ
  deriving DecidableEq, Repr

/-- What a bit pattern denotes. -/
inductive Value where
  | finite (q : ℚ)
  | infinite (negative : Bool)
  | nan
  deriving DecidableEq, Repr

namespace Format

def width (f : Format) : ℕ := 1 + f.expBits + f.fracBits

def bias (f : Format) : ℕ := 2 ^ (f.expBits - 1) - 1

/-- The exponent of the unit in the last place of a subnormal. -/
def emin (f : Format) : ℤ := 1 - f.bias - f.fracBits

/-- The least positive number of the format. -/
def least (f : Format) : ℚ := 2 ^ f.emin

end Format

def binary16 : Format := ⟨5, 10⟩
def binary32 : Format := ⟨8, 23⟩
def binary64 : Format := ⟨11, 52⟩

/-! ## Fields and value of a bit pattern -/

def fraction (f : Format) (x : ℕ) : ℕ := x % 2 ^ f.fracBits

def exponent (f : Format) (x : ℕ) : ℕ := x / 2 ^ f.fracBits % 2 ^ f.expBits

def negative (f : Format) (x : ℕ) : Bool := x / 2 ^ (f.fracBits + f.expBits) % 2 = 1

/-- The significand as a multiple of the unit in the last place: the fraction,
with the hidden bit in front of it unless the number is subnormal. -/
def significand (f : Format) (x : ℕ) : ℕ :=
  if exponent f x = 0 then fraction f x else 2 ^ f.fracBits + fraction f x

/-- The absolute value of a finite number. Exponents 0 and 1 share their scale. -/
def magnitude (f : Format) (x : ℕ) : ℚ :=
  significand f x * 2 ^ (exponent f x - 1) * f.least

/-- The value of a bit pattern. -/
def decode (f : Format) (x : ℕ) : Value :=
  if exponent f x = 2 ^ f.expBits - 1 then
    if fraction f x = 0 then .infinite (negative f x) else .nan
  else .finite (if negative f x then -magnitude f x else magnitude f x)

/-! ## The numbers of a format -/

theorem Format.least_pos (f : Format) : 0 < f.least := zpow_pos (by norm_num) _

/-- A finite number is zero or at least the least positive one. -/
theorem magnitude_eq_zero_or (f : Format) (x : ℕ) :
    magnitude f x = 0 ∨ f.least ≤ magnitude f x := by
  by_cases h : significand f x = 0
  · left
    rw [magnitude, h, Nat.cast_zero, zero_mul, zero_mul]
  · right
    -- the number is a positive multiple of the least one
    have hone : (1 : ℚ) ≤ (significand f x * 2 ^ (exponent f x - 1) : ℕ) := by
      have hpos : 0 < significand f x * 2 ^ (exponent f x - 1) :=
        Nat.mul_pos (Nat.pos_of_ne_zero h) (Nat.two_pow_pos _)
      exact_mod_cast hpos
    calc f.least = 1 * f.least := (one_mul _).symm
      _ ≤ (significand f x * 2 ^ (exponent f x - 1) : ℕ) * f.least :=
        mul_le_mul_of_nonneg_right hone f.least_pos.le
      _ = magnitude f x := by rw [magnitude, Nat.cast_mul, Nat.cast_pow, Nat.cast_ofNat]

theorem least_le_of_decode {f : Format} {x : ℕ} {q : ℚ} (h : decode f x = .finite q)
    (hq : 0 < q) : f.least ≤ q := by
  unfold decode at h
  split_ifs at h with h1 h2 h3
  · -- a negative number is not positive
    have hmag : 0 ≤ magnitude f x := by
      rcases magnitude_eq_zero_or f x with h0 | hle
      · exact h0.ge
      · exact f.least_pos.le.trans hle
    obtain rfl : -magnitude f x = q := by simpa using h
    exact absurd hq (not_lt.mpr (neg_nonpos.mpr hmag))
  · obtain rfl : magnitude f x = q := by simpa using h
    rcases magnitude_eq_zero_or f x with h0 | hle
    · exact absurd h0 hq.ne'
    · exact hle

/-- A pattern inside the fraction field is a subnormal. -/
theorem decode_of_lt {f : Format} {x : ℕ} (hexp : 1 ≤ f.expBits) (hx : x < 2 ^ f.fracBits) :
    decode f x = .finite (x * f.least) := by
  have hfrac : fraction f x = x := Nat.mod_eq_of_lt hx
  have he : exponent f x = 0 := by
    rw [exponent, Nat.div_eq_of_lt hx, Nat.zero_mod]
  have hneg : negative f x = false := by
    have hlt : x < 2 ^ (f.fracBits + f.expBits) :=
      hx.trans_le (Nat.pow_le_pow_right (by norm_num) (by omega))
    rw [negative, Nat.div_eq_of_lt hlt]
    rfl
  have htop : exponent f x ≠ 2 ^ f.expBits - 1 := by
    have hpow : 2 ^ 1 ≤ 2 ^ f.expBits := Nat.pow_le_pow_right (by norm_num) hexp
    omega
  rw [decode, if_neg htop, hneg, magnitude, significand, if_pos he, hfrac, he]
  simp

/-! ## Reading a pattern at the wrong width -/

/-- Every pattern of `f` lies inside the fraction field of `g`, below the least
positive number of `f`. -/
structure Format.Narrower (f g : Format) : Prop where
  expBits_pos : 1 ≤ f.expBits
  expBits_pos' : 1 ≤ g.expBits
  width_le : f.width ≤ g.fracBits
  emin_le : g.emin + f.width ≤ f.emin

instance (f g : Format) : Decidable (f.Narrower g) :=
  decidable_of_iff (1 ≤ f.expBits ∧ 1 ≤ g.expBits ∧ f.width ≤ g.fracBits ∧
      g.emin + f.width ≤ f.emin)
    ⟨fun ⟨h₁, h₂, h₃, h₄⟩ => ⟨h₁, h₂, h₃, h₄⟩, fun ⟨h₁, h₂, h₃, h₄⟩ => ⟨h₁, h₂, h₃, h₄⟩⟩

theorem binary16_narrower_binary32 : binary16.Narrower binary32 := by decide
theorem binary16_narrower_binary64 : binary16.Narrower binary64 := by decide
theorem binary32_narrower_binary64 : binary32.Narrower binary64 := by decide

/-- Read in the wider format, a pattern stays below everything positive in the
narrower one. -/
theorem Format.Narrower.mul_least_lt {f g : Format} (h : f.Narrower g) {x : ℕ}
    (hx : x < 2 ^ f.width) : (x : ℚ) * g.least < f.least := by
  have hx' : (x : ℚ) < 2 ^ f.width := by exact_mod_cast hx
  calc (x : ℚ) * g.least < 2 ^ f.width * g.least := mul_lt_mul_of_pos_right hx' g.least_pos
    _ = 2 ^ (g.emin + f.width) := by
      rw [Format.least, zpow_add₀ (by norm_num), zpow_natCast, mul_comm]
    _ ≤ f.least := zpow_le_zpow_right₀ (by norm_num) h.emin_le

/-- The two readings of a pattern agree on the zero pattern only. -/
theorem decode_eq_decode_iff {f g : Format} (h : f.Narrower g) {x : ℕ} (hx : x < 2 ^ f.width) :
    decode f x = decode g x ↔ x = 0 := by
  have hwide : decode g x = .finite (x * g.least) :=
    decode_of_lt h.expBits_pos' (hx.trans_le (Nat.pow_le_pow_right (by norm_num) h.width_le))
  constructor
  · intro heq
    by_contra hne
    -- positive in both formats, but too small for the narrow one
    have hpos : 0 < (x : ℚ) * g.least :=
      mul_pos (by exact_mod_cast Nat.pos_of_ne_zero hne) g.least_pos
    have hle := least_le_of_decode (heq.trans hwide) hpos
    exact absurd (h.mul_least_lt hx) (not_lt.mpr hle)
  · rintro rfl
    rw [hwide, decode_of_lt h.expBits_pos (Nat.two_pow_pos _), Nat.cast_zero, zero_mul, zero_mul]

end BinaryFloat
