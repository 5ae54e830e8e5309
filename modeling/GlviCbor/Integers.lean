/-
The integer types: `glvi_cbor_u64.h`, `glvi_cbor_uint.h`, `glvi_cbor_nint.h` and
`glvi_cbor_int.h`.

A `CBORNint` stores `-1 - n` for the number `n`, so its raw field runs against
the numeric order. Its `operator<=>` is defaulted, i.e. it compares the raw
fields. `CBORInt.three_way_iff` and its companions say where that shows: every
overload is the numeric comparison, except on two different negative numbers,
where the answer is the opposite one. `operator==` is not affected.

A C++ signed integer is a bit vector of its own width; `-1 - n` is computed
after promotion to at least `int` and cast back, as `make_nint` does.
-/
import Mathlib.Algebra.Order.Ring.Int
import Mathlib.Order.Compare
import Mathlib.Order.Monotone.Basic
import Mathlib.Tactic.NormNum

set_option autoImplicit false

namespace GlviCbor

/-! ## `CBOR_U64`, `CBORUint` and `CBORNint` -/

structure CBOR_U64 where
  value : UInt64
  deriving DecidableEq, Repr

/-- The constructor template of `CBOR_U64`, from an unsigned integer of any width. -/
def CBOR_U64.of_unsigned {w : ℕ} (n : BitVec w) : CBOR_U64 := ⟨.ofBitVec (n.setWidth 64)⟩

/-- The defaulted `operator<=>`. `std::strong_ordering` is `Ordering`. -/
def CBOR_U64.three_way (a b : CBOR_U64) : Ordering := cmp a.value b.value

structure CBORUint where
  value : CBOR_U64
  deriving DecidableEq, Repr

def CBORUint.three_way (a b : CBORUint) : Ordering := a.value.three_way b.value

structure CBORNint where
  value : CBOR_U64
  deriving DecidableEq, Repr

/-- Defaulted as well: it compares what is stored. -/
def CBORNint.three_way (a b : CBORNint) : Ordering := a.value.three_way b.value

/-! ## `CBORInt` -/

/-- `std::variant<CBORUint, CBORNint>`. -/
inductive CBORInt where
  | uint (value : CBORUint)
  | nint (value : CBORNint)
  deriving DecidableEq, Repr

/-- A value of a signed integer type of at most 64 bits. -/
structure SignedIntegral where
  width : ℕ
  width_le : width ≤ 64
  bits : BitVec width

/-- The number it is, in two's complement. -/
def SignedIntegral.toInt (n : SignedIntegral) : ℤ := n.bits.toInt

/-- The width of `int`, to which narrower operands of `-` are promoted. -/
def INT_WIDTH : ℕ := 32

namespace CBORInt

def make_nint (n : SignedIntegral) : CBORNint :=
  let promoted := n.bits.signExtend (max INT_WIDTH n.width)
  ⟨.of_unsigned ((-1 - promoted).setWidth n.width)⟩

def make_uint (n : SignedIntegral) : CBORUint := ⟨.of_unsigned n.bits⟩

/-- The constructor from `std::signed_integral`. -/
def of_signed (n : SignedIntegral) : CBORInt :=
  if n.bits.slt 0 then .nint (make_nint n) else .uint (make_uint n)

def three_way (a b : CBORInt) : Ordering :=
  match a with
  | .nint a =>
    match b with
    | .nint b => a.three_way b
    | .uint _ => .lt
  | .uint a =>
    match b with
    | .nint _ => .gt
    | .uint b => a.three_way b

def three_way_uint (a : CBORInt) (b : CBORUint) : Ordering :=
  match a with
  | .uint a => a.three_way b
  | .nint _ => .lt

def uint_three_way (a : CBORUint) (b : CBORInt) : Ordering :=
  match b with
  | .uint b => a.three_way b
  | .nint _ => .gt

def eq_uint (a : CBORInt) (b : CBORUint) : Bool := a.three_way_uint b == .eq

def uint_eq (a : CBORUint) (b : CBORInt) : Bool := uint_three_way a b == .eq

def three_way_nint (a : CBORInt) (b : CBORNint) : Ordering :=
  match a with
  | .nint a => a.three_way b
  | .uint _ => .gt

def nint_three_way (a : CBORNint) (b : CBORInt) : Ordering :=
  match b with
  | .nint b => a.three_way b
  | .uint _ => .lt

def eq_nint (a : CBORInt) (b : CBORNint) : Bool := a.three_way_nint b == .eq

def nint_eq (a : CBORNint) (b : CBORInt) : Bool := nint_three_way a b == .eq

end CBORInt

/-! ## The numbers they stand for -/

def CBORUint.denote (a : CBORUint) : ℤ := a.value.value.toNat

def CBORNint.denote (a : CBORNint) : ℤ := -1 - a.value.value.toNat

def CBORInt.denote : CBORInt → ℤ
  | .uint a => a.denote
  | .nint a => a.denote

theorem CBORUint.denote_nonneg (a : CBORUint) : 0 ≤ a.denote := Int.natCast_nonneg _

theorem CBORNint.denote_neg (a : CBORNint) : a.denote < 0 := by
  rw [CBORNint.denote]
  omega

theorem toNat_of_unsigned {w : ℕ} (hw : w ≤ 64) (n : BitVec w) :
    (CBOR_U64.of_unsigned n).value.toNat = n.toNat := by
  have hlt : n.toNat < 2 ^ 64 := n.isLt.trans_le (Nat.pow_le_pow_right (by norm_num) hw)
  rw [CBOR_U64.of_unsigned, UInt64.toNat_ofBitVec, BitVec.toNat_setWidth, Nat.mod_eq_of_lt hlt]

/-- Promotion, subtraction and the cast back flip every bit of `n`. -/
theorem minus_one_sub (n : SignedIntegral) :
    (-1 - n.bits.signExtend (max INT_WIDTH n.width)).setWidth n.width = ~~~ n.bits := by
  -- `-1` is all ones at any width, and subtracting from it flips every bit; the
  -- cast keeps the low ones, which promotion had not touched
  have hle : n.width ≤ max INT_WIDTH n.width := Nat.le_max_right _ _
  have hone : (-1 : BitVec (max INT_WIDTH n.width)) = BitVec.allOnes _ :=
    BitVec.neg_one_eq_allOnes
  have hback : (n.bits.signExtend (max INT_WIDTH n.width)).setWidth n.width = n.bits := by
    ext i hi
    rw [BitVec.getElem_setWidth, BitVec.getLsbD_signExtend, if_pos hi, BitVec.getLsbD_eq_getElem hi,
      decide_eq_true (hi.trans_le hle), Bool.true_and]
  rw [hone, BitVec.allOnes_sub_eq_not, BitVec.setWidth_not hle, hback]

theorem SignedIntegral.slt_zero (n : SignedIntegral) :
    n.bits.slt 0 = decide (n.toInt < 0) := by
  rw [BitVec.slt, show (0 : BitVec n.width) = 0#n.width from rfl, BitVec.toInt_zero]
  rfl

/-- A signed integer is stored as the number it is. -/
theorem CBORInt.denote_of_signed (n : SignedIntegral) :
    (CBORInt.of_signed n).denote = n.toInt := by
  have hlt := n.bits.isLt
  rw [CBORInt.of_signed, n.slt_zero]
  by_cases h : n.toInt < 0
  · -- flipped, the bits of a negative `n` are those of `-1 - n`
    have hbits := BitVec.toInt_neg_iff.mp h
    rw [if_pos (decide_eq_true h), CBORInt.denote, CBORNint.denote, CBORInt.make_nint,
      minus_one_sub, toNat_of_unsigned n.width_le, BitVec.toNat_not, SignedIntegral.toInt,
      BitVec.toInt_eq_toNat_cond, if_neg (by omega)]
    omega
  · have hbits := BitVec.toInt_pos_iff.mp (not_lt.mp h)
    rw [if_neg (by simpa using h), CBORInt.denote, CBORUint.denote, CBORInt.make_uint,
      toNat_of_unsigned n.width_le, SignedIntegral.toInt, BitVec.toInt_eq_toNat_cond, if_pos hbits]

/-! ## Computing in range

The same computations with every step checked: `none` is a subtraction that
overflows its signed type, or a conversion that changes the value. -/

/-- Integral promotion, and conversion to a wider signed type. -/
def checked_sign_extend {w : ℕ} (v : ℕ) (n : BitVec w) : Option (BitVec v) :=
  if (n.signExtend v).toInt = n.toInt then some (n.signExtend v) else none

/-- `a - b` in a signed type. -/
def checked_sub {w : ℕ} (a b : BitVec w) : Option (BitVec w) :=
  if a.ssubOverflow b then none else some (a - b)

/-- `static_cast` of a signed number to an unsigned type. -/
def checked_unsigned {w : ℕ} (v : ℕ) (n : BitVec w) : Option (BitVec v) :=
  if ((n.setWidth v).toNat : ℤ) = n.toInt then some (n.setWidth v) else none

/-- The constructor of `CBOR_U64`. -/
def checked_u64 {w : ℕ} (n : BitVec w) : Option CBOR_U64 :=
  if (CBOR_U64.of_unsigned n).value.toNat = n.toNat then some (.of_unsigned n) else none

def CBORInt.make_nint_checked (n : SignedIntegral) : Option CBORNint := do
  let promoted ← checked_sign_extend (max INT_WIDTH n.width) n.bits
  let difference ← checked_sub (-1) promoted
  let magnitude ← checked_unsigned n.width difference
  let value ← checked_u64 magnitude
  return ⟨value⟩

def CBORInt.make_uint_checked (n : SignedIntegral) : Option CBORUint := do
  let magnitude ← checked_unsigned n.width n.bits
  let value ← checked_u64 magnitude
  return ⟨value⟩

/-- `CBORInt(n)`, every step checked. -/
def CBORInt.of_signed_checked (n : SignedIntegral) : Option CBORInt :=
  if n.bits.slt 0 then (make_nint_checked n).map .nint else (make_uint_checked n).map .uint

theorem checked_sign_extend_eq {w v : ℕ} (h : w ≤ v) (n : BitVec w) :
    checked_sign_extend v n = some (n.signExtend v) :=
  if_pos (BitVec.toInt_signExtend_of_le h)

theorem checked_u64_eq {w : ℕ} (hw : w ≤ 64) (n : BitVec w) :
    checked_u64 n = some (.of_unsigned n) := if_pos (toNat_of_unsigned hw n)

/-- `-1 - n` cannot overflow for a negative `n`, whatever it is promoted to, and the
result is a number the unsigned type has. -/
theorem CBORInt.make_nint_checked_eq {n : SignedIntegral} (h : n.toInt < 0) :
    make_nint_checked n = some (make_nint n) := by
  have hle : n.width ≤ max INT_WIDTH n.width := Nat.le_max_right _ _
  have hpos : 0 < max INT_WIDTH n.width :=
    (by decide : 0 < INT_WIDTH).trans_le (Nat.le_max_left _ _)
  have hpromoted : (n.bits.signExtend (max INT_WIDTH n.width)).toInt = n.toInt :=
    BitVec.toInt_signExtend_of_le hle
  have hone : (-1 : BitVec (max INT_WIDTH n.width)).toInt = -1 := by
    have hones : (-1 : BitVec (max INT_WIDTH n.width)) = BitVec.allOnes _ :=
      BitVec.neg_one_eq_allOnes
    rw [hones, BitVec.toInt_allOnes, if_pos hpos]
  -- the difference lies between zero and the greatest number of the promoted type
  have hrange : ¬ (-1 : BitVec (max INT_WIDTH n.width)).ssubOverflow
      (n.bits.signExtend (max INT_WIDTH n.width)) := by
    have hlow := BitVec.le_toInt (n.bits.signExtend (max INT_WIDTH n.width))
    have hnonneg : (0 : ℤ) ≤ 2 ^ (max INT_WIDTH n.width - 1) := by positivity
    unfold BitVec.ssubOverflow
    rw [hpromoted] at hlow
    rw [hone, hpromoted, Bool.or_eq_true, decide_eq_true_iff, decide_eq_true_iff]
    omega
  have hdifference := BitVec.toInt_sub_of_not_ssubOverflow hrange
  rw [hone, hpromoted] at hdifference
  have hcast : (((-1 - n.bits.signExtend (max INT_WIDTH n.width)).setWidth n.width).toNat : ℤ)
      = (-1 - n.bits.signExtend (max INT_WIDTH n.width)).toInt := by
    have hlt := n.bits.isLt
    have hbits := BitVec.toInt_neg_iff.mp h
    have hsigned : n.toInt = n.bits.toNat - (2 ^ n.width : ℕ) := by
      rw [SignedIntegral.toInt, BitVec.toInt_eq_toNat_cond, if_neg (by omega)]
    rw [hdifference, minus_one_sub, BitVec.toNat_not, hsigned]
    omega
  unfold make_nint_checked checked_sub checked_unsigned
  rw [checked_sign_extend_eq hle]
  dsimp only [Option.bind_eq_bind, Option.bind_some]
  rw [if_neg hrange, Option.bind_some, if_pos hcast, Option.bind_some,
    checked_u64_eq n.width_le, Option.bind_some]
  rfl

theorem CBORInt.make_uint_checked_eq {n : SignedIntegral} (h : ¬ n.toInt < 0) :
    make_uint_checked n = some (make_uint n) := by
  have hcast : ((n.bits.setWidth n.width).toNat : ℤ) = n.bits.toInt := by
    rw [BitVec.setWidth_eq, BitVec.toInt_eq_toNat_cond,
      if_pos (BitVec.toInt_pos_iff.mp (not_lt.mp h))]
  unfold make_uint_checked checked_unsigned
  rw [if_pos hcast]
  dsimp only [Option.bind_eq_bind, Option.bind_some]
  rw [checked_u64_eq n.width_le, Option.bind_some, BitVec.setWidth_eq]
  rfl

/-- No step of `CBORInt(n)` overflows or changes a value. -/
theorem CBORInt.of_signed_checked_eq (n : SignedIntegral) :
    of_signed_checked n = some (of_signed n) := by
  rw [of_signed_checked, of_signed, n.slt_zero]
  by_cases h : n.toInt < 0
  · rw [if_pos (decide_eq_true h), if_pos (decide_eq_true h), make_nint_checked_eq h,
      Option.map_some]
  · rw [if_neg (by simpa using h), if_neg (by simpa using h), make_uint_checked_eq h,
      Option.map_some]

/-! ## The comparisons -/

theorem CBOR_U64.three_way_eq (a b : CBOR_U64) :
    a.three_way b = cmp a.value.toNat b.value.toNat := rfl

theorem CBORUint.three_way_eq (a b : CBORUint) : a.three_way b = cmp a.denote b.denote :=
  (Nat.strictMono_cast.cmp_map_eq _ _).symm

/-- The raw field runs against the numeric order, and so does the comparison. -/
theorem CBORNint.three_way_eq (a b : CBORNint) : a.three_way b = cmp b.denote a.denote := by
  have hanti : StrictAnti fun v : ℕ => -1 - (v : ℤ) := by
    intro v w h
    dsimp only
    omega
  exact (hanti.cmp_map_eq b.value.value.toNat a.value.value.toNat).symm

/-- Two negative numbers that differ. -/
def Reversed (x y : ℤ) : Prop := x < 0 ∧ y < 0 ∧ x ≠ y

instance (x y : ℤ) : Decidable (Reversed x y) := inferInstanceAs (Decidable (_ ∧ _ ∧ _))

/-- Swapping the arguments of a comparison changes nothing only between equals. -/
theorem cmp_swap_eq_iff {α : Type*} [LinearOrder α] (x y : α) : cmp y x = cmp x y ↔ x = y := by
  rcases lt_trichotomy x y with h | rfl | h
  · rw [h.cmp_eq_lt, h.cmp_eq_gt]
    exact iff_of_false (by simp) h.ne
  · exact iff_of_true rfl rfl
  · rw [h.cmp_eq_lt, h.cmp_eq_gt]
    exact iff_of_false (by simp) h.ne'

theorem CBORInt.three_way_iff (a b : CBORInt) :
    a.three_way b = cmp a.denote b.denote ↔ ¬ Reversed a.denote b.denote := by
  rcases a with a | a <;> rcases b with b | b
  · have hno : ¬ Reversed a.denote b.denote := fun h => absurd h.1 (not_lt.mpr a.denote_nonneg)
    exact iff_of_true (a.three_way_eq b) hno
  -- a negative number is below every other
  · have hno : ¬ Reversed a.denote b.denote := fun h => absurd h.1 (not_lt.mpr a.denote_nonneg)
    have hlt : b.denote < a.denote := b.denote_neg.trans_le a.denote_nonneg
    exact iff_of_true hlt.cmp_eq_gt.symm hno
  · have hno : ¬ Reversed a.denote b.denote := fun h => absurd h.2.1 (not_lt.mpr b.denote_nonneg)
    have hlt : a.denote < b.denote := a.denote_neg.trans_le b.denote_nonneg
    exact iff_of_true hlt.cmp_eq_lt.symm hno
  · -- two negative numbers are compared the wrong way round
    have hiff : Reversed a.denote b.denote ↔ a.denote ≠ b.denote :=
      ⟨fun h => h.2.2, fun h => ⟨a.denote_neg, b.denote_neg, h⟩⟩
    change a.three_way b = cmp a.denote b.denote ↔ ¬ Reversed a.denote b.denote
    rw [hiff, not_not, a.three_way_eq, cmp_swap_eq_iff]

/-! ## The heterogeneous overloads -/

/-- Each overload is `CBORInt`'s own with the other operand put into the variant. -/
theorem CBORInt.three_way_uint_eq (a : CBORInt) (b : CBORUint) :
    a.three_way_uint b = a.three_way (.uint b) := by
  rcases a <;> rfl

theorem CBORInt.uint_three_way_eq (a : CBORUint) (b : CBORInt) :
    uint_three_way a b = three_way (.uint a) b := by
  rcases b <;> rfl

theorem CBORInt.three_way_nint_eq (a : CBORInt) (b : CBORNint) :
    a.three_way_nint b = a.three_way (.nint b) := by
  rcases a <;> rfl

theorem CBORInt.nint_three_way_eq (a : CBORNint) (b : CBORInt) :
    nint_three_way a b = three_way (.nint a) b := by
  rcases b <;> rfl

/-- Every comparison is the numeric one, except between two different negative
numbers. Signed integers of any width enter as the numbers they are. -/
theorem CBORInt.three_way_numeric_iff (m n : SignedIntegral) (a : CBORInt) (u : CBORUint)
    (v w : CBORNint) :
    ((of_signed m).three_way (of_signed n) = cmp m.toInt n.toInt ↔
      ¬ Reversed m.toInt n.toInt) ∧
    a.three_way_uint u = cmp a.denote u.denote ∧
    uint_three_way u a = cmp u.denote a.denote ∧
    (a.three_way_nint v = cmp a.denote v.denote ↔ ¬ Reversed a.denote v.denote) ∧
    (nint_three_way v a = cmp v.denote a.denote ↔ ¬ Reversed v.denote a.denote) ∧
    (v.three_way w = cmp v.denote w.denote ↔ ¬ Reversed v.denote w.denote) := by
  refine ⟨?_, ?_, ?_, ?_, ?_, ?_⟩
  · rw [← denote_of_signed m, ← denote_of_signed n]
    exact three_way_iff _ _
  · rw [three_way_uint_eq]
    exact (three_way_iff a (.uint u)).mpr fun h => absurd h.2.1 (not_lt.mpr u.denote_nonneg)
  · rw [uint_three_way_eq]
    exact (three_way_iff (.uint u) a).mpr fun h => absurd h.1 (not_lt.mpr u.denote_nonneg)
  · rw [three_way_nint_eq]
    exact three_way_iff a (.nint v)
  · rw [nint_three_way_eq]
    exact three_way_iff (.nint v) a
  · exact three_way_iff (.nint v) (.nint w)

/-- `CBORInt(-1) <=> CBORInt(-2)`, both from `std::int8_t`, is `less`. -/
theorem CBORInt.three_way_minus_one :
    ¬ ∀ m n : SignedIntegral,
      (of_signed m).three_way (of_signed n) = cmp m.toInt n.toInt := by
  intro h
  exact absurd (h ⟨8, by decide, -1⟩ ⟨8, by decide, -2⟩) (by decide)

/-- Equality does not depend on the direction of the order. -/
theorem CBORInt.three_way_eq_eq_iff (a b : CBORInt) :
    a.three_way b = .eq ↔ a.denote = b.denote := by
  by_cases hrev : Reversed a.denote b.denote
  · -- the opposite answer is still `eq` between equals only
    rcases a with a | a <;> rcases b with b | b
    · exact absurd hrev.1 (not_lt.mpr a.denote_nonneg)
    · exact absurd hrev.1 (not_lt.mpr a.denote_nonneg)
    · exact absurd hrev.2.1 (not_lt.mpr b.denote_nonneg)
    · change a.three_way b = .eq ↔ a.denote = b.denote
      rw [a.three_way_eq, cmp_eq_eq_iff, eq_comm]
  · rw [(three_way_iff a b).mpr hrev, cmp_eq_eq_iff]

/-- The four heterogeneous `operator==` are numeric equality, in either order of
the operands. -/
theorem CBORInt.eq_iff :
    (∀ (a : CBORInt) (b : CBORUint), (a.eq_uint b ↔ a.denote = b.denote) ∧
      (uint_eq b a ↔ b.denote = a.denote)) ∧
    (∀ (a : CBORInt) (b : CBORNint), (a.eq_nint b ↔ a.denote = b.denote) ∧
      (nint_eq b a ↔ b.denote = a.denote)) := by
  refine ⟨fun a b => ⟨?_, ?_⟩, fun a b => ⟨?_, ?_⟩⟩
  · rw [eq_uint, beq_iff_eq, three_way_uint_eq, three_way_eq_eq_iff]
    rfl
  · rw [uint_eq, beq_iff_eq, uint_three_way_eq, three_way_eq_eq_iff]
    rfl
  · rw [eq_nint, beq_iff_eq, three_way_nint_eq, three_way_eq_eq_iff]
    rfl
  · rw [nint_eq, beq_iff_eq, nint_three_way_eq, three_way_eq_eq_iff]
    rfl

/-! ## The order there is

On two negative numbers `operator<=>` is not the numeric comparison, but it is the
comparison of something: of the place `rank` gives each object. -/

/-- The place of a `CBORInt` in the order of its `operator<=>`. -/
def CBORInt.rank : CBORInt → ℤ
  | .uint a => a.value.value.toNat
  | .nint a => a.value.value.toNat - 2 ^ 64

/-- From zero on the rank is the number; below, the negative numbers are turned
round. -/
theorem CBORInt.rank_eq (a : CBORInt) :
    a.rank = if a.denote < 0 then -(2 ^ 64 + 1) - a.denote else a.denote := by
  rcases a with a | a
  · rw [if_neg (show ¬ (CBORInt.uint a).denote < 0 from not_lt.mpr a.denote_nonneg)]
    rfl
  · rw [if_pos (show (CBORInt.nint a).denote < 0 from a.denote_neg), rank, denote,
      CBORNint.denote]
    omega

theorem CBORInt.three_way_eq_rank (a b : CBORInt) : a.three_way b = cmp a.rank b.rank := by
  have hmono : StrictMono fun v : ℕ => (v : ℤ) - 2 ^ 64 := by
    intro v w h
    dsimp only
    omega
  rcases a with ⟨⟨⟨a⟩⟩⟩ | ⟨⟨⟨a⟩⟩⟩ <;> rcases b with ⟨⟨⟨b⟩⟩⟩ | ⟨⟨⟨b⟩⟩⟩
  · exact (Nat.strictMono_cast.cmp_map_eq a.toNat b.toNat).symm
  -- the two halves do not overlap: a stored number is below `2 ^ 64`
  · have hlt : (CBORInt.nint ⟨⟨b⟩⟩).rank < (CBORInt.uint ⟨⟨a⟩⟩).rank := by
      have hb := b.toNat_lt
      simp only [rank]
      omega
    exact hlt.cmp_eq_gt.symm
  · have hlt : (CBORInt.nint ⟨⟨a⟩⟩).rank < (CBORInt.uint ⟨⟨b⟩⟩).rank := by
      have ha := a.toNat_lt
      simp only [rank]
      omega
    exact hlt.cmp_eq_lt.symm
  · exact (hmono.cmp_map_eq a.toNat b.toNat).symm

theorem CBORInt.rank_injective : Function.Injective rank := by
  intro a b h
  rcases a with ⟨⟨⟨a⟩⟩⟩ | ⟨⟨⟨a⟩⟩⟩ <;> rcases b with ⟨⟨⟨b⟩⟩⟩ | ⟨⟨⟨b⟩⟩⟩ <;>
    have ha := a.toNat_lt <;> have hb := b.toNat_lt <;> simp only [rank] at h
  · rw [UInt64.toNat.inj (by omega : a.toNat = b.toNat)]
  · omega
  · omega
  · rw [UInt64.toNat.inj (by omega : a.toNat = b.toNat)]

/-- Every place between `-2^64` and `2^64` is taken. -/
theorem CBORInt.exists_rank {z : ℤ} (hlow : -2 ^ 64 ≤ z) (hhigh : z < 2 ^ 64) :
    ∃ a : CBORInt, a.rank = z := by
  by_cases hz : z < 0
  · have hnat : (z + 2 ^ 64).toNat < 2 ^ 64 := by omega
    refine ⟨.nint ⟨⟨.ofNat (z + 2 ^ 64).toNat⟩⟩, ?_⟩
    rw [rank, UInt64.toNat_ofNat', Nat.mod_eq_of_lt hnat]
    omega
  · have hnat : z.toNat < 2 ^ 64 := by omega
    refine ⟨.uint ⟨⟨.ofNat z.toNat⟩⟩, ?_⟩
    rw [rank, UInt64.toNat_ofNat', Nat.mod_eq_of_lt hnat]
    omega

/-- The overloads are one total order. All five `operator<=>` compare the rank of
their operands, and the four `operator==` say that both are the same object; the
ranks are the integers from `-2^64` to `2^64 - 1`, each of them the rank of exactly
one `CBORInt`, and on the negative numbers they run against the numeric order. So
the objects in ascending order are `-1`, `-2`, …, `-2^64`, `0`, `1`, …. -/
theorem CBORInt.one_order :
    (∀ a b : CBORInt, a.three_way b = cmp a.rank b.rank) ∧
    (∀ (a : CBORInt) (b : CBORUint), a.three_way_uint b = cmp a.rank (uint b).rank ∧
      uint_three_way b a = cmp (uint b).rank a.rank ∧
      (a.eq_uint b ↔ a = .uint b) ∧ (uint_eq b a ↔ a = .uint b)) ∧
    (∀ (a : CBORInt) (b : CBORNint), a.three_way_nint b = cmp a.rank (nint b).rank ∧
      nint_three_way b a = cmp (nint b).rank a.rank ∧
      (a.eq_nint b ↔ a = .nint b) ∧ (nint_eq b a ↔ a = .nint b)) ∧
    (∀ z : ℤ, (∃! a : CBORInt, a.rank = z) ↔ -2 ^ 64 ≤ z ∧ z < 2 ^ 64) ∧
    (∀ a : CBORInt, a.rank = if a.denote < 0 then -(2 ^ 64 + 1) - a.denote else a.denote) := by
  have heq : ∀ a b : CBORInt, cmp a.rank b.rank = .eq ↔ a = b := by
    intro a b
    rw [cmp_eq_eq_iff, rank_injective.eq_iff]
  refine ⟨three_way_eq_rank, fun a b => ?_, fun a b => ?_, fun z => ⟨?_, ?_⟩, rank_eq⟩
  · rw [eq_uint, uint_eq, beq_iff_eq, beq_iff_eq, three_way_uint_eq, uint_three_way_eq,
      three_way_eq_rank, three_way_eq_rank]
    exact ⟨rfl, rfl, heq _ _, (heq _ _).trans eq_comm⟩
  · rw [eq_nint, nint_eq, beq_iff_eq, beq_iff_eq, three_way_nint_eq, nint_three_way_eq,
      three_way_eq_rank, three_way_eq_rank]
    exact ⟨rfl, rfl, heq _ _, (heq _ _).trans eq_comm⟩
  · rintro ⟨⟨⟨⟨a⟩⟩⟩ | ⟨⟨⟨a⟩⟩⟩, rfl, -⟩ <;> have ha := a.toNat_lt <;> simp only [rank] <;> omega
  · rintro ⟨hlow, hhigh⟩
    obtain ⟨a, rfl⟩ := exists_rank hlow hhigh
    exact ⟨a, rfl, fun b hb => rank_injective hb⟩

end GlviCbor
