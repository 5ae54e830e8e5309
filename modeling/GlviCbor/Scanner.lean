/-
The scanner: `glvi_cbor_scanner.h` and `glvi_cbor_scanner.cpp`.

A faithful model of the byte consumer, of the range overload built on it and of
the `Scanner` that owns a state. Three points of the source decide its shape.

* `scan(ScanState&& state, ...)` visits `std::move(state)`, and the visitor
  takes `Arg&&` and `Pay&&`: it updates the alternative *inside the caller's
  object*. `scan` therefore returns the result together with what is left in
  the caller's state. A `Pay` whose vector has been moved out is left with an
  empty one.
* the `default` branch of the `Pay` consumer calls `::abort()`; that is `none`.
* `std::size_t` has 64 bits, so `pending`, the counts and the limits are
  `UInt64`, and `pending -= 1` wraps.
-/
import GlviCbor.Token

set_option autoImplicit false

namespace GlviCbor

/-! ## Limits -/

/-- The four configure-time limits. An undefined one takes the branch of `0`. -/
structure Config where
  GLVI_CBOR_BSTR_COUNT_MAX : UInt64
  GLVI_CBOR_TSTR_COUNT_MAX : UInt64
  GLVI_CBOR_ARRAY_COUNT_MAX : UInt64
  GLVI_CBOR_MAP_COUNT_MAX : UInt64
  deriving DecidableEq, Repr

/-- `std::numeric_limits<std::size_t>::max()`. -/
def SIZE_MAX : UInt64 := 0xffffffffffffffff

/-- The `#if defined(X) && X > 0` that initialises each of the four maxima. -/
def limit_of (x : UInt64) : UInt64 := if x > 0 then x else SIZE_MAX

namespace scan_state

def bstr_count_max (cfg : Config) : UInt64 := limit_of cfg.GLVI_CBOR_BSTR_COUNT_MAX

def tstr_count_max (cfg : Config) : UInt64 := limit_of cfg.GLVI_CBOR_TSTR_COUNT_MAX

def array_count_max (cfg : Config) : UInt64 := limit_of cfg.GLVI_CBOR_ARRAY_COUNT_MAX

def map_count_max (cfg : Config) : UInt64 := limit_of cfg.GLVI_CBOR_MAP_COUNT_MAX

end scan_state

/-! ## States, errors and results -/

/-- `scan_error::ScanError`. -/
inductive ScanError where
  | UnexpectedHead (head : UInt8)
  | Excessive (count : UInt64)
  deriving DecidableEq, Repr

/-- `scan_state::ScanState`. -/
inductive ScanState where
  | Head
  | Arg (kind : Kind) (arg : UInt64) (pending : UInt64)
  | Pay (kind : Kind) (bytes : List UInt8) (pending : UInt64)
  deriving DecidableEq, Repr

/-- `scan_result::ScanResult`. -/
inductive ScanResult where
  | Incomplete (state : ScanState)
  | Complete (state : ScanState) (token : Token)
  | Error (error : ScanError)
  deriving DecidableEq, Repr

def unexpected_head_error (octet : UInt8) : ScanResult := .Error (.UnexpectedHead octet)

def make_token (kind : Kind) (argument : UInt64) (payload : List UInt8) : ScanResult :=
  .Complete .Head (Token.make kind argument payload)

def token_uint (arg : UInt64) : ScanResult := make_token .Uint arg []
def token_nint (arg : UInt64) : ScanResult := make_token .Nint arg []
def token_bstr_empty : ScanResult := make_token .Bstr 0 []
def token_bstr_indef : ScanResult := make_token .BstrX 0xff []
def token_tstr_empty : ScanResult := make_token .Tstr 0 []
def token_tstr_indef : ScanResult := make_token .TstrX 0xff []
def token_array_empty : ScanResult := make_token .Array 0 []
def token_array (arg : UInt64) : ScanResult := make_token .Array arg []
def token_array_indef : ScanResult := make_token .ArrayX 0xff []
def token_map_empty : ScanResult := make_token .Map 0 []
def token_map (arg : UInt64) : ScanResult := make_token .Map arg []
def token_map_indef : ScanResult := make_token .MapX 0xff []
def token_tag (arg : UInt64) : ScanResult := make_token .Tag arg []
def token_simple (arg : UInt64) : ScanResult := make_token .Simple arg []
def token_break : ScanResult := make_token .Break 0xff []

/-- `protect_size`, at the one type it is used at. -/
def protect_size (a b : UInt64) : Option ScanError :=
  if a ≤ b then none else some (.Excessive a)

def count_max (cfg : Config) (kind : Kind) : UInt64 :=
  match kind with
  | .Bstr => scan_state.bstr_count_max cfg
  | .Tstr => scan_state.tstr_count_max cfg
  | .Array => scan_state.array_count_max cfg
  | .Map => scan_state.map_count_max cfg
  | _ => SIZE_MAX

def ARGC_N1 : UInt64 := 1
def ARGC_N2 : UInt64 := 2
def ARGC_N4 : UInt64 := 4
def ARGC_N8 : UInt64 := 8

def gather_argument (kind : Kind) (count : UInt64) : ScanResult :=
  .Incomplete (.Arg kind 0 count)

def gather_bytes (kind : Kind) (count : UInt64) : ScanResult :=
  .Incomplete (.Pay kind [] count)

/-! ## `ByteConsumer` -/

/-- `ByteConsumer::operator()(Head)`: the switch over the initial byte, a
`CASES_lo_hi` label as a range test. -/
def consume_head (byte : UInt8) : ScanResult :=
  -- integers: `0x1c` to `0x1f` and `0x3c` to `0x3f` have no label
  if byte ≤ 0x17 then token_uint byte.toUInt64
  else if byte = 0x18 then gather_argument .Uint ARGC_N1
  else if byte = 0x19 then gather_argument .Uint ARGC_N2
  else if byte = 0x1a then gather_argument .Uint ARGC_N4
  else if byte = 0x1b then gather_argument .Uint ARGC_N8
  else if 0x20 ≤ byte ∧ byte ≤ 0x37 then token_nint (byte - 0x20).toUInt64
  else if byte = 0x38 then gather_argument .Nint ARGC_N1
  else if byte = 0x39 then gather_argument .Nint ARGC_N2
  else if byte = 0x3a then gather_argument .Nint ARGC_N4
  else if byte = 0x3b then gather_argument .Nint ARGC_N8
  -- strings: a count in the head goes to `gather_bytes` at once
  else if byte = 0x40 then token_bstr_empty
  else if 0x41 ≤ byte ∧ byte ≤ 0x57 then gather_bytes .Bstr (byte - 0x40).toUInt64
  else if byte = 0x58 then gather_argument .Bstr ARGC_N1
  else if byte = 0x59 then gather_argument .Bstr ARGC_N2
  else if byte = 0x5a then gather_argument .Bstr ARGC_N4
  else if byte = 0x5b then gather_argument .Bstr ARGC_N8
  else if byte = 0x5f then token_bstr_indef
  else if byte = 0x60 then token_tstr_empty
  else if 0x61 ≤ byte ∧ byte ≤ 0x77 then gather_bytes .Tstr (byte - 0x60).toUInt64
  else if byte = 0x78 then gather_argument .Tstr ARGC_N1
  else if byte = 0x79 then gather_argument .Tstr ARGC_N2
  else if byte = 0x7a then gather_argument .Tstr ARGC_N4
  else if byte = 0x7b then gather_argument .Tstr ARGC_N8
  else if byte = 0x7f then token_tstr_indef
  -- arrays and maps: a count in the head makes the token at once
  else if byte = 0x80 then token_array_empty
  else if 0x81 ≤ byte ∧ byte ≤ 0x97 then token_array (byte - 0x80).toUInt64
  else if byte = 0x98 then gather_argument .Array ARGC_N1
  else if byte = 0x99 then gather_argument .Array ARGC_N2
  else if byte = 0x9a then gather_argument .Array ARGC_N4
  else if byte = 0x9b then gather_argument .Array ARGC_N8
  else if byte = 0x9f then token_array_indef
  else if byte = 0xa0 then token_map_empty
  else if 0xa1 ≤ byte ∧ byte ≤ 0xb7 then token_map (byte - 0xa0).toUInt64
  else if byte = 0xb8 then gather_argument .Map ARGC_N1
  else if byte = 0xb9 then gather_argument .Map ARGC_N2
  else if byte = 0xba then gather_argument .Map ARGC_N4
  else if byte = 0xbb then gather_argument .Map ARGC_N8
  else if byte = 0xbf then token_map_indef
  -- tags, simple values and floats; only the break has no argument
  else if 0xc0 ≤ byte ∧ byte ≤ 0xd7 then token_tag (byte - 0xc0).toUInt64
  else if byte = 0xd8 then gather_argument .Tag ARGC_N1
  else if byte = 0xd9 then gather_argument .Tag ARGC_N2
  else if byte = 0xda then gather_argument .Tag ARGC_N4
  else if byte = 0xdb then gather_argument .Tag ARGC_N8
  else if 0xe0 ≤ byte ∧ byte ≤ 0xf7 then token_simple (byte - 0xe0).toUInt64
  else if byte = 0xf8 then gather_argument .Simple ARGC_N1
  else if byte = 0xf9 then gather_argument .Float ARGC_N2
  else if byte = 0xfa then gather_argument .Float ARGC_N4
  else if byte = 0xfb then gather_argument .Float ARGC_N8
  else if byte = 0xff then token_break
  else unexpected_head_error byte

/-- What `ByteConsumer::operator()(Arg&&)` does once the last argument byte is in. -/
def finish_argument (cfg : Config) (kind : Kind) (arg : UInt64) : ScanResult :=
  -- a string of length zero is complete, without a payload and without a check
  if arg = 0 then make_token kind 0 []
  else
    match protect_size arg (count_max cfg kind) with
    | some err => .Error err
    | none =>
      match kind with
      | .Bstr => gather_bytes kind arg
      | .Tstr => gather_bytes kind arg
      | _ => make_token kind arg []

/-- `ByteConsumer::operator()(Arg&&)`. The update stays in the caller's state
whichever branch returns. -/
def consume_arg (cfg : Config) (kind : Kind) (arg pending : UInt64) (byte : UInt8) :
    ScanResult × ScanState :=
  -- in place, before anything is decided
  let arg := arg <<< 8
  let arg := arg ||| byte.toUInt64
  let pending := pending - 1
  if pending > 0 then (.Incomplete (.Arg kind arg pending), .Arg kind arg pending)
  else (finish_argument cfg kind arg, .Arg kind arg pending)

/-- `ByteConsumer::operator()(Pay&&)`. `pay.bytes.size()` and
`std::move(pay.bytes)` are arguments of one call, in no fixed order; that does
not matter here, see `Token.make_of_is_string`. -/
def consume_pay (kind : Kind) (bytes : List UInt8) (pending : UInt64) (byte : UInt8) :
    Option (ScanResult × ScanState) :=
  let bytes := bytes ++ [byte]
  let pending := pending - 1
  -- `bytes` is moved into the result, the caller's vector is left empty
  if pending > 0 then some (.Incomplete (.Pay kind bytes pending), .Pay kind [] pending)
  else
    match kind with
    | .Bstr => some (make_token kind (.ofNat bytes.length) bytes, .Pay kind [] pending)
    | .Tstr => some (make_token kind (.ofNat bytes.length) bytes, .Pay kind [] pending)
    -- `::abort()`
    | _ => none

/-- `scan(ScanState&& state, std::uint8_t byte)`: the result, and what the call
leaves in the caller's `state`. -/
def scan (cfg : Config) (state : ScanState) (byte : UInt8) : Option (ScanResult × ScanState) :=
  match state with
  | .Head => some (consume_head byte, .Head)
  | .Arg kind arg pending => some (consume_arg cfg kind arg pending byte)
  | .Pay kind bytes pending => consume_pay kind bytes pending byte

/-! ## The range overload and `Scanner` -/

/-- `scan(ScanState&& state, Iterator first, Sentinel last)`. Beside the result
the model returns `[first, last)` as it stands when the function returns; in
the source that position is a local variable. -/
def scan_range (cfg : Config) : ScanState → List UInt8 → Option (ScanResult × List UInt8)
  | state, [] => some (.Incomplete state, [])
  | state, byte :: rest =>
    match scan cfg state byte with
    | none => none
    | some (.Error e, _) => some (.Error e, rest)
    | some (.Complete s t, _) => some (.Complete s t, rest)
    | some (.Incomplete s, _) => scan_range cfg s rest

/-- The caller of the range overload who gets the input in pieces: the state of
each `Incomplete` goes into the next call, anything else ends the loop. -/
def scan_chunks (cfg : Config) : ScanState → List (List UInt8) →
    Option (ScanResult × List UInt8)
  | state, [] => some (.Incomplete state, [])
  | state, chunk :: chunks =>
    match scan_range cfg state chunk with
    | none => none
    | some (.Incomplete s, _) => scan_chunks cfg s chunks
    | some (.Complete s t, rest) => some (.Complete s t, rest ++ chunks.flatten)
    | some (.Error e, rest) => some (.Error e, rest ++ chunks.flatten)

/-- `struct Scanner`. -/
structure Scanner where
  state : ScanState
  deriving DecidableEq, Repr

/-- `Scanner::scan`. `Incomplete` and `Complete` overwrite the state; the
`ScanError` branch does not, so what `scan` left there stays. -/
def Scanner.scan (cfg : Config) (scanner : Scanner) (octet : UInt8) :
    Option (Except ScanError (Option Token) × Scanner) :=
  match GlviCbor.scan cfg scanner.state octet with
  | none => none
  | some (.Incomplete state, _) => some (.ok none, ⟨state⟩)
  | some (.Complete state token, _) => some (.ok (some token), ⟨state⟩)
  -- no assignment to `state` here: it is what `scan` made of it
  | some (.Error e, left) => some (.error e, ⟨left⟩)

end GlviCbor
