/-
The token layer: `token.def` instantiated through `token.tpl`.

`Kind` and `Token` are the enumeration and the variant the template generates,
in the order of `token.def`. A `std::vector<std::byte>` and a `std::u8string`
are both lists of octets: `Token::make` builds the latter by reinterpreting
`payload.data()` as `char8_t const*`, so no octet changes.
-/
import Mathlib.Data.Nat.Notation

set_option autoImplicit false

namespace GlviCbor

/-- `enum class Kind`. -/
inductive Kind where
  | Uint | Nint | BstrX | Bstr | TstrX | Tstr | ArrayX | Array | MapX | Map | Tag | Simple
  | Float | Break
  deriving DecidableEq, Repr

/-- `token::Token`: the alternatives that `token.def` gives a `value_type` carry it. -/
inductive Token where
  | Uint (value : UInt64)
  | Nint (value : UInt64)
  | BstrX
  | Bstr (value : List UInt8)
  | TstrX
  | Tstr (value : List UInt8)
  | ArrayX
  | Array (value : UInt64)
  | MapX
  | Map (value : UInt64)
  | Tag (value : UInt64)
  | Simple (value : UInt8)
  | Float (value : UInt64)
  | Break
  deriving DecidableEq, Repr

/-- `Token::kind`. -/
def Token.kind : Token → Kind
  | .Uint _ => .Uint
  | .Nint _ => .Nint
  | .BstrX => .BstrX
  | .Bstr _ => .Bstr
  | .TstrX => .TstrX
  | .Tstr _ => .Tstr
  | .ArrayX => .ArrayX
  | .Array _ => .Array
  | .MapX => .MapX
  | .Map _ => .Map
  | .Tag _ => .Tag
  | .Simple _ => .Simple
  | .Float _ => .Float
  | .Break => .Break

/-- `Token::make`: one case for each `value_type` of the template. Only the
`std::uint8_t` case narrows the argument; the string cases do not look at it. -/
def Token.make (kind : Kind) (argument : UInt64) (payload : List UInt8) : Token :=
  match kind with
  | .Uint => .Uint argument
  | .Nint => .Nint argument
  | .BstrX => .BstrX
  | .Bstr => .Bstr payload
  | .TstrX => .TstrX
  | .Tstr => .Tstr payload
  | .ArrayX => .ArrayX
  | .Array => .Array argument
  | .MapX => .MapX
  | .Map => .Map argument
  | .Tag => .Tag argument
  | .Simple => .Simple argument.toUInt8
  | .Float => .Float argument
  | .Break => .Break

/-- The two kinds that are followed by a payload of octets. -/
def Kind.is_string : Kind → Bool
  | .Bstr | .Tstr => true
  | _ => false

/-- The argument of a string token is not looked at: its length is the payload's. -/
theorem Token.make_of_is_string {kind : Kind} (h : kind.is_string) (a a' : UInt64)
    (payload : List UInt8) : Token.make kind a payload = Token.make kind a' payload := by
  rcases kind <;> simp [Kind.is_string] at h <;> rfl

end GlviCbor
