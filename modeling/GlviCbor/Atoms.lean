/-
From the wire to a value, for the data items that are one token.

A scanned token reaches the caller as what `make_value` makes of it. `Atom` is the
data item itself, and `Atom.value` is how the library denotes it: by the types of
`glvi_cbor_value.h`, and by the constants of `glvi_cbor_simple.h` where there is one.
`scanned_atom_iff` compares the two for every encoding. They agree but for the four
constants, which hold the head bytes `0xf4` to `0xf7`: the scanner has subtracted the
major type by then, and its number for `CBOR_Null` is 22.

The integers have a second way to a value, `CBORInt(n)` from a C++ integer.
`signed_paths_agree` says that this one computes in range, and that both ways lead to
values that compare equal for the same number and for no other.
-/
import GlviCbor.DataModel
import GlviCbor.Parser

set_option autoImplicit false

namespace GlviCbor

/-! ## The library's values -/

/-- `struct CBORSimple`. -/
structure CBORSimple where
  number : UInt8
  deriving DecidableEq, Repr

def CBOR_False : CBORSimple := ⟨0xf4⟩
def CBOR_True : CBORSimple := ⟨0xf5⟩
def CBOR_Null : CBORSimple := ⟨0xf6⟩
def CBOR_Undefined : CBORSimple := ⟨0xf7⟩

/-- `CBORValue(simple)`. -/
def CBORSimple.value (simple : CBORSimple) : CBORValue := .simple simple.number

/-- The constant for a simple value, where the library has one. -/
def simple_constant : UInt8 → Option CBORSimple
  | 20 => some CBOR_False
  | 21 => some CBOR_True
  | 22 => some CBOR_Null
  | 23 => some CBOR_Undefined
  | _ => none

/-- The data items that are one token, floats left aside. A negative one is `-1 - v`. -/
inductive Atom where
  | unsigned (v : UInt64)
  | negative (v : UInt64)
  | bstr (bytes : List UInt8)
  | tstr (units : List UInt8)
  | simple (number : UInt8)
  deriving DecidableEq, Repr

/-- The data item as an element of the data model. -/
def Atom.datum : Atom → Datum
  | .unsigned v => .integer v.toNat
  | .negative v => .integer (-1 - v.toNat)
  | .bstr bytes => .bstr bytes
  | .tstr units => .tstr units
  | .simple number => .simple number.toNat

/-- The token of the data item. -/
def Atom.token : Atom → Token
  | .unsigned v => .Uint v
  | .negative v => .Nint v
  | .bstr bytes => .Bstr bytes
  | .tstr units => .Tstr units
  | .simple number => .Simple number

/-- The value by which the library denotes the data item. -/
def Atom.value : Atom → CBORValue
  | .unsigned v => .uint ⟨⟨v⟩⟩
  | .negative v => .nint ⟨⟨v⟩⟩
  | .bstr bytes => .bstr bytes
  | .tstr units => .tstr units
  | .simple number => ((simple_constant number).getD ⟨number⟩).value

/-- A simple value the library has a constant for: false, true, null, undefined. -/
def Atom.Named : Atom → Prop
  | .simple number => 20 ≤ number ∧ number ≤ 23
  | _ => False

instance : DecidablePred Atom.Named := fun atom =>
  match atom with
  | .simple number => inferInstanceAs (Decidable (20 ≤ number ∧ number ≤ 23))
  | .unsigned _ => inferInstanceAs (Decidable False)
  | .negative _ => inferInstanceAs (Decidable False)
  | .bstr _ => inferInstanceAs (Decidable False)
  | .tstr _ => inferInstanceAs (Decidable False)

/-! ## One data item -/

/-- The data of a token that is no float do not depend on the width, and those of an
atom determine the token. -/
theorem Atom.token_of_datum {atom : Atom} {token : Token} {width : ℕ}
    (h : token.datum width = atom.datum) : token = atom.token := by
  rcases token <;> rcases atom <;>
    simp only [Token.datum, GlviCbor.datum, Atom.datum, Token.kind, Token.argument, Token.payload,
      Datum.integer.injEq, Datum.bstr.injEq, Datum.tstr.injEq, Datum.simple.injEq,
      reduceCtorEq] at h
  case Uint.unsigned => exact congrArg Token.Uint (UInt64.toNat_inj.mp (by omega))
  case Nint.negative => exact congrArg Token.Nint (UInt64.toNat_inj.mp (by omega))
  case Bstr.bstr => exact congrArg Token.Bstr h
  case Tstr.tstr => exact congrArg Token.Tstr h
  case Simple.simple => exact congrArg Token.Simple (UInt8.toNat_inj.mp h)
  -- a natural number is no negative one
  all_goals omega

theorem Atom.datum_token (atom : Atom) (width : ℕ) : atom.token.datum width = atom.datum := by
  rcases atom <;> rfl

/-- What `make_value` makes of the token of an atom. The numbers of the constants are
not those of the simple values. -/
theorem Atom.make_value_iff (atom : Atom) :
    make_value atom.token = some atom.value ↔ ¬ atom.Named := by
  rcases atom with v | v | bytes | units | number
  case simple =>
    have hconst : ∀ number : UInt8, (simple_constant number).getD ⟨number⟩ = ⟨number⟩ ↔
        ¬ (20 ≤ number ∧ number ≤ 23) := forall_octet (by decide +kernel)
    rw [Atom.Named, ← hconst number]
    constructor
    · intro h
      have hnumber : number = ((simple_constant number).getD ⟨number⟩).number :=
        CBORValue.simple.inj (Option.some.inj h)
      rw [CBORSimple.mk.injEq]
      exact hnumber.symm
    · intro h
      rw [Atom.value, h]
      rfl
  all_goals exact iff_of_true rfl id

/-- An encoding of an atom is accepted, and is an encoding of it: any form its
argument fits in, any content within the limits. -/
theorem Atom.scansTo_encode {cfg : Config} {atom : Atom} {form : ArgForm}
    (h : atom.token.Admits form) (hw : atom.token.Within cfg) :
    denote (encode atom.token form) = some atom.datum ∧
      ScansTo cfg (encode atom.token form) atom.token := by
  have href := ref_encode_nil cfg h hw
  refine ⟨?_, scansTo_of_ref href⟩
  rw [denote_eq (decoded_of_ref href), atom.datum_token]

/-- Scanned atoms are the library's own values but for its four constants. For every
setting of the limits and every data item of one token that is no float: each encoding
of it within the limits is accepted, in any form; and for every byte string that
denotes the item and is accepted, what `make_value` makes of the token is the value by
which the library denotes the item if and only if the item is none of the simple
values 20 to 23. -/
theorem scanned_atom_iff (cfg : Config) (atom : Atom) :
    (∀ form, atom.token.Admits form → atom.token.Within cfg →
      denote (encode atom.token form) = some atom.datum ∧
        ScansTo cfg (encode atom.token form) atom.token) ∧
    ∀ bs token, denote bs = some atom.datum → ScansTo cfg bs token →
      (make_value token = some atom.value ↔ ¬ atom.Named) := by
  refine ⟨fun form => Atom.scansTo_encode, ?_⟩
  intro bs token hdenote hscan
  have hdatum : token.datum (arg_width bs) = atom.datum := by
    have heq := denote_eq hscan.decoded
    rw [hdenote] at heq
    exact (Option.some.inj heq).symm
  rw [Atom.token_of_datum hdatum]
  exact atom.make_value_iff

/-- `0xf6` is null, and scans to the simple value 22; `CBOR_Null` holds `0xf6`. -/
theorem null_is_not_cbor_null :
    ¬ ∀ (cfg : Config) (atom : Atom) (bs : List UInt8) (token : Token),
      denote bs = some atom.datum → ScansTo cfg bs token →
        make_value token = some atom.value := by
  intro h
  have hnull := h ⟨0, 0, 0, 0⟩ (.simple 22) [0xf6] (.Simple 22) (by decide) (by decide)
  exact absurd (CBORValue.simple.inj (Option.some.inj hnull)) (by decide)

/-! ## Two ways to an integer -/

/-- The token of an integer of at most 64 bits: major type 0, or 1 with `-1 - z`. -/
def integer_token (z : ℤ) : Token :=
  if z < 0 then .Nint (.ofNat (-1 - z).toNat) else .Uint (.ofNat z.toNat)

/-- The `operator==` that applies to a `CBORInt` and the object in a value. -/
def CBORInt.eq_value (a : CBORInt) : CBORValue → Option Bool
  | .uint b => some (a.eq_uint b)
  | .nint b => some (a.eq_nint b)
  | _ => none

/-- And with the operands in the other order. -/
def CBORInt.value_eq (v : CBORValue) (b : CBORInt) : Option Bool :=
  match v with
  | .uint a => some (uint_eq a b)
  | .nint a => some (nint_eq a b)
  | _ => none

/-- The number in a value that holds one. -/
def CBORValue.integer : CBORValue → Option ℤ
  | .uint a => some a.denote
  | .nint a => some a.denote
  | _ => none

/-- Both operators compare the numbers. -/
theorem CBORInt.eq_value_of_integer {v : CBORValue} {z : ℤ} (h : v.integer = some z)
    (a : CBORInt) :
    a.eq_value v = some (decide (a.denote = z)) ∧
      CBORInt.value_eq v a = some (decide (a.denote = z)) := by
  have heq := CBORInt.eq_iff
  rcases v with b | b | _ | _ | _ | _ | _ | _ | _
  case uint =>
    obtain rfl : b.denote = z := Option.some.inj h
    obtain ⟨hleft, hright⟩ := heq.1 a b
    refine ⟨congrArg some ?_, congrArg some ?_⟩
    · rw [Bool.eq_iff_iff, hleft, decide_eq_true_iff]
    · rw [Bool.eq_iff_iff, hright, decide_eq_true_iff, eq_comm]
  case nint =>
    obtain rfl : b.denote = z := Option.some.inj h
    obtain ⟨hleft, hright⟩ := heq.2 a b
    refine ⟨congrArg some ?_, congrArg some ?_⟩
    · rw [Bool.eq_iff_iff, hleft, decide_eq_true_iff]
    · rw [Bool.eq_iff_iff, hright, decide_eq_true_iff, eq_comm]
  all_goals exact nomatch h

/-- The value made of an integer's token holds the integer. -/
theorem integer_make_value {z : ℤ} (hlow : -2 ^ 64 ≤ z) (hhigh : z < 2 ^ 64) :
    ∃ v, make_value (integer_token z) = some v ∧ v.integer = some z := by
  unfold integer_token
  by_cases hneg : z < 0
  · rw [if_pos hneg]
    refine ⟨_, rfl, ?_⟩
    have hnat : (UInt64.ofNat (-1 - z).toNat).toNat = (-1 - z).toNat :=
      toNat_ofNat_of_lt (by omega)
    rw [CBORValue.integer, CBORNint.denote, hnat, Option.some.injEq]
    omega
  · rw [if_neg hneg]
    refine ⟨_, rfl, ?_⟩
    have hnat : (UInt64.ofNat z.toNat).toNat = z.toNat := toNat_ofNat_of_lt (by omega)
    rw [CBORValue.integer, CBORUint.denote, hnat, Option.some.injEq]
    omega

theorem integer_within (cfg : Config) (z : ℤ) : (integer_token z).Within cfg := by
  unfold integer_token
  split_ifs
  · rintro ⟨l, hl, -⟩
    exact nomatch hl
  · rintro ⟨l, hl, -⟩
    exact nomatch hl

/-- A signed integer of at most 64 bits is in the range of the two major types. -/
theorem SignedIntegral.bounds (n : SignedIntegral) : -2 ^ 64 ≤ n.toInt ∧ n.toInt < 2 ^ 64 := by
  have hpow : (2 : ℤ) ^ (n.width - 1) ≤ 2 ^ 64 :=
    pow_le_pow_right₀ (by norm_num) (by have := n.width_le; omega)
  have hlow := BitVec.le_toInt n.bits
  have hhigh := BitVec.toInt_lt (x := n.bits)
  unfold SignedIntegral.toInt
  omega

/-- The two ways to an integer agree. For every signed integer of any width up to 64
bits, `CBORInt(n)` is computed without an overflow and without a conversion that
changes the value; every encoding of `n` scans from `Head`, and the value made of the
token is a `CBORUint` or `CBORNint` that equals `CBORInt(n)`, in either order of the
operands, and differs from `CBORInt(m)` for every other number `m`. -/
theorem signed_paths_agree (cfg : Config) (n : SignedIntegral) :
    CBORInt.of_signed_checked n = some (CBORInt.of_signed n) ∧
    ∀ form, (integer_token n.toInt).Admits form →
      ∃ token v, ScansTo cfg (encode (integer_token n.toInt) form) token ∧
        make_value token = some v ∧
        (CBORInt.of_signed n).eq_value v = some true ∧
        CBORInt.value_eq v (CBORInt.of_signed n) = some true ∧
        ∀ m : SignedIntegral, m.toInt ≠ n.toInt →
          (CBORInt.of_signed m).eq_value v = some false ∧
          CBORInt.value_eq v (CBORInt.of_signed m) = some false := by
  refine ⟨CBORInt.of_signed_checked_eq n, ?_⟩
  intro form hform
  obtain ⟨v, hmake, hinteger⟩ := integer_make_value n.bounds.1 n.bounds.2
  have href := ref_encode_nil cfg hform (integer_within cfg n.toInt)
  have heq := fun m : SignedIntegral =>
    CBORInt.eq_value_of_integer hinteger (CBORInt.of_signed m)
  refine ⟨integer_token n.toInt, v, scansTo_of_ref href, hmake, ?_, ?_, ?_⟩
  · rw [(heq n).1, CBORInt.denote_of_signed, decide_eq_true rfl]
  · rw [(heq n).2, CBORInt.denote_of_signed, decide_eq_true rfl]
  · intro m hne
    rw [(heq m).1, (heq m).2, CBORInt.denote_of_signed, decide_eq_false hne]
    exact ⟨rfl, rfl⟩

end GlviCbor
