/-
The initial byte, read the way CBOR defines it.

`consume_head` is a switch with one label for each of the 256 bytes; CBOR itself
splits the byte into a major type (high three bits) and additional information
(low five bits). `head_form` is that reading, and `consume_head_eq` says the
switch is it. Everything later goes through the table, so the switch is looked
at once, here.
-/
import Mathlib.Algebra.Ring.Nat
import GlviCbor.Scanner

set_option autoImplicit false

namespace GlviCbor

/-! ## Major type and additional information -/

/-- What an initial byte announces. -/
inductive HeadForm where
  | reserved
  | indefinite (token : Token)
  | immediate (kind : Kind) (n : ℕ)
  | argument (kind : Kind) (width : ℕ)
  deriving DecidableEq, Repr

def major (byte : UInt8) : ℕ := byte.toNat / 32

def info (byte : UInt8) : ℕ := byte.toNat % 32

def kind_of_major : ℕ → Kind
  | 0 => .Uint
  | 1 => .Nint
  | 2 => .Bstr
  | 3 => .Tstr
  | 4 => .Array
  | 5 => .Map
  | 6 => .Tag
  | _ => .Simple

/-- Major type 7 is shared: `0xf8` is a simple value, `0xf9` to `0xfb` are floats. -/
def argument_kind (major info : ℕ) : Kind :=
  if major = 7 ∧ info ≠ 24 then .Float else kind_of_major major

/-- The heads with additional information 31. -/
def indefinite_token : ℕ → Option Token
  | 2 => some .BstrX
  | 3 => some .TstrX
  | 4 => some .ArrayX
  | 5 => some .MapX
  | 7 => some .Break
  | _ => none

/-- Additional information below 24 is the argument itself, 24 to 27 announce 1,
2, 4 or 8 argument bytes, 31 is indefinite length, and the rest is reserved. -/
def head_form (byte : UInt8) : HeadForm :=
  if info byte < 24 then .immediate (kind_of_major (major byte)) (info byte)
  else if info byte < 28 then
    -- 24, 25, 26, 27: one, two, four, eight bytes
    .argument (argument_kind (major byte) (info byte)) (2 ^ (info byte - 24))
  else if info byte = 31 then
    match indefinite_token (major byte) with
    | some token => .indefinite token
    | none => .reserved
  else .reserved

/-! ## The table -/

/-- A property of octets is checked on the 256 of them. -/
theorem forall_octet {p : UInt8 → Prop} (h : ∀ n : Fin 256, p (UInt8.ofNat n)) (byte : UInt8) :
    p byte := by
  have hb := h ⟨byte.toNat, byte.toNat_lt⟩
  rwa [UInt8.ofNat_toNat] at hb

/-- What the scanner does with a head of each form. -/
def HeadForm.result (byte : UInt8) : HeadForm → ScanResult
  | .reserved => .Error (.UnexpectedHead byte)
  | .indefinite token => .Complete .Head token
  | .immediate kind n =>
    if kind.is_string ∧ n ≠ 0 then .Incomplete (.Pay kind [] (.ofNat n))
    else .Complete .Head (Token.make kind (.ofNat n) [])
  | .argument kind width => .Incomplete (.Arg kind 0 (.ofNat width))

/-- The switch is the table. -/
theorem consume_head_eq : ∀ byte, consume_head byte = (head_form byte).result byte :=
  forall_octet (by decide +kernel)

/-- The argument widths CBOR has for the heads of a kind. -/
def Kind.widths : Kind → List ℕ
  | .Uint | .Nint | .Bstr | .Tstr | .Array | .Map | .Tag => [1, 2, 4, 8]
  | .Simple => [1]
  | .Float => [2, 4, 8]
  | _ => []

/-- The entries a head form can have: the width is one of its kind's, an
immediate argument is below 24 and is no float's, and only the five
argument-less tokens are indefinite. -/
def HeadForm.Valid : HeadForm → Prop
  | .reserved => True
  | .indefinite token => token ∈ [.BstrX, .TstrX, .ArrayX, .MapX, .Break]
  | .immediate kind n => n < 24 ∧ 1 ∈ kind.widths
  | .argument kind width => width ∈ kind.widths

instance : DecidablePred HeadForm.Valid := fun form =>
  match form with
  | .reserved => inferInstanceAs (Decidable True)
  | .indefinite token => inferInstanceAs (Decidable (token ∈ _))
  | .immediate kind n => inferInstanceAs (Decidable (n < 24 ∧ 1 ∈ kind.widths))
  | .argument kind width => inferInstanceAs (Decidable (width ∈ kind.widths))

theorem head_form_valid : ∀ byte, (head_form byte).Valid :=
  forall_octet (by decide +kernel)

theorem valid_of_head_form {byte : UInt8} {form : HeadForm} (h : head_form byte = form) :
    form.Valid := by
  rw [← h]
  exact head_form_valid byte

theorem indefinite_cases {byte : UInt8} {token : Token}
    (h : head_form byte = .indefinite token) :
    token = .BstrX ∨ token = .TstrX ∨ token = .ArrayX ∨ token = .MapX ∨ token = .Break := by
  have hvalid := valid_of_head_form h
  simpa only [HeadForm.Valid, List.mem_cons, List.not_mem_nil, or_false] using hvalid

/-- A width is one of the four. -/
theorem Kind.mem_widths {kind : Kind} {w : ℕ} (h : w ∈ kind.widths) :
    w = 1 ∨ w = 2 ∨ w = 4 ∨ w = 8 := by
  rcases kind <;> simp [Kind.widths] at h <;> omega

theorem Kind.width_bounds {kind : Kind} {w : ℕ} (h : w ∈ kind.widths) : 1 ≤ w ∧ w ≤ 8 := by
  have := Kind.mem_widths h
  omega

end GlviCbor
