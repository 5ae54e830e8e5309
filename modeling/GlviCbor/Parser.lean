/-
The parser: `glvi_cbor_parser.h`, `glvi_cbor_parser.cpp`, and the value types it
builds.

A faithful model of `Parser::consume` and of the functions under it. Four points
of the source decide its shape.

* `ContextStack::push`, `ValueStack::push`, `ValueStack::pop` and the
  `Context::is_*` tests are declared and nowhere defined. They are the stack
  operations and tests their names say. The stacks are lists, top first.
* an `Action` holds a `std::function` on both stacks, and sits on one of them. It
  is a code of an arbitrary type `ι`, and `invoke` says what the code does.
* `do_flush` and `do_consume` call themselves again after every action, and an
  action may push further actions, so the recursion need not end. It has fuel;
  `none` is "not yet".
* `Parser::consume` reads and writes `parseState` only; `scanState` has no part
  in it.
-/
import GlviCbor.Token
import GlviCbor.Scanner
import GlviCbor.Integers

set_option autoImplicit false

namespace GlviCbor

/-! ## Values -/

/-- `CBORValue::storage_type`, with the content of the alternative in it. A
`CBORTag` points to its value, a `CBORFloat` is the bit pattern of its `double`. -/
inductive CBORValue where
  | uint (value : CBORUint)
  | nint (value : CBORNint)
  | bstr (storage : List UInt8)
  | tstr (storage : List UInt8)
  | array (elements : List CBORValue)
  | map (entries : List CBORValue)
  | tag (number : CBOR_U64) (storage : Option CBORValue)
  | simple (number : UInt8)
  | float (value : UInt64)
  deriving Repr

/-- `make_value`. The last line is the `auto&&` overload: definite arrays and
maps, tags and breaks. -/
def make_value : Token → Option CBORValue
  | .Uint value => some (.uint ⟨⟨value⟩⟩)
  | .Nint value => some (.nint ⟨⟨value⟩⟩)
  | .BstrX => some (.bstr [])
  | .Bstr value => some (.bstr value)
  | .TstrX => some (.tstr [])
  | .Tstr value => some (.tstr value)
  | .ArrayX => some (.array [])
  | .MapX => some (.map [])
  | .Simple value => some (.simple value)
  | .Float _ => some (.float 0)
  | .Array _ | .Map _ | .Tag _ | .Break => none

/-! ## Contexts, stacks, errors and results -/

/-- `enum class NonTerm`. -/
inductive NonTerm where
  | Array | ArrayXSeq | Bstr | BstrXSeq | Map | MapXSeq | Tag | Tstr | TstrXSeq | Value
  deriving DecidableEq, Repr

/-- `parse_state::context::Context`. -/
inductive Context (ι : Type*) where
  | Action (name : String) (action : ι)
  | TerminalSymbol (kind : Kind)
  | NonTerminalSymbol (nonTerm : NonTerm)
  deriving DecidableEq, Repr

abbrev ContextStack (ι : Type*) := List (Context ι)

abbrev ValueStack := List CBORValue

/-- `ContextStack::pop`: the top and the rest. -/
def ContextStack.pop {ι : Type*} : ContextStack ι → Option (Context ι × ContextStack ι)
  | [] => none
  | context :: theStack => some (context, theStack)

def ContextStack.push {ι : Type*} (theStack : ContextStack ι) (context : Context ι) :
    ContextStack ι :=
  context :: theStack

def ValueStack.pop : ValueStack → Option (CBORValue × ValueStack)
  | [] => none
  | value :: theStack => some (value, theStack)

def ValueStack.push (theStack : ValueStack) (value : CBORValue) : ValueStack := value :: theStack

/-- `parse_state::ParseState`; a default-constructed one has empty stacks. -/
structure ParseState (ι : Type*) where
  cxtStack : ContextStack ι := []
  valStack : ValueStack := []

/-- `parse_error::ParseError`. -/
inductive ParseError where
  | Invalid
  | Incomplete
  | UnexpectedT (expected : List Kind) (found : Token)
  | UnexpectedNT (expected : List NonTerm) (found : NonTerm)
  | Unexpected (message : String)
  | TrailingInput
  | Scanner (scanError : ScanError)
  | InsufficientStackSize
  | Internal
  | Todo
  deriving DecidableEq, Repr

/-- `parse_result::ParseResult`. -/
inductive ParseResult where
  | Incomplete
  | Complete (value : CBORValue)
  | Error (error : ParseError)

/-! ## `do_flush` and `do_consume` -/

section Parser

variable {ι : Type*} (invoke : ι → ParseState ι → ParseState ι)

/-- `do_flush(valStack, cxtStack, context)`; `again` is the call of the overload
without a context. -/
def do_flush_context (again : ParseState ι → Option (Except ParseError Unit × ParseState ι))
    (s : ParseState ι) (context : Context ι) : Option (Except ParseError Unit × ParseState ι) :=
  match context with
  | .Action _ action => again (invoke action s)
  | arg => some (.ok (), { s with cxtStack := s.cxtStack.push arg })

/-- `do_flush(valStack, cxtStack)`. -/
def do_flush : ℕ → ParseState ι → Option (Except ParseError Unit × ParseState ι)
  | 0, _ => none
  | fuel + 1, s =>
    match s.cxtStack.pop with
    | some (context, cxtStack) =>
      do_flush_context invoke (do_flush fuel) { s with cxtStack := cxtStack } context
    | none => some (.ok (), s)

/-- The value of a token goes onto the value stack, if it has one. -/
def push_value (input : Token) (valStack : ValueStack) : ValueStack :=
  match make_value input with
  | some value => valStack.push value
  | none => valStack

/-- `do_consume(valStack, cxtStack, context, input)`; `again` is the call of the
overload without a context. The ten branches for the non-terminals are empty
(`// TODO:`), so all of them fall through to the last line, with the context gone. -/
def do_consume_context (again : ParseState ι → Option (Except ParseError Unit × ParseState ι))
    (fuel : ℕ) (s : ParseState ι) (context : Context ι) (input : Token) :
    Option (Except ParseError Unit × ParseState ι) :=
  match context with
  | .Action _ action => again (invoke action s)
  | .TerminalSymbol kind =>
    -- `is_terminal_symbol(input.kind())`, then `is_terminal_symbol()`
    if kind = input.kind then
      do_flush invoke fuel { s with valStack := push_value input s.valStack }
    else
      some (.error (.UnexpectedT [kind] input),
        { s with cxtStack := s.cxtStack.push (.TerminalSymbol kind) })
  | .NonTerminalSymbol _ => some (.error .Internal, s)

/-- `do_consume(valStack, cxtStack, input)`. -/
def do_consume (input : Token) : ℕ → ParseState ι → Option (Except ParseError Unit × ParseState ι)
  | 0, _ => none
  | fuel + 1, s =>
    match s.cxtStack.pop with
    | some (context, cxtStack) =>
      do_consume_context invoke (do_consume input fuel) fuel { s with cxtStack := cxtStack }
        context input
    | none => some (.error .TrailingInput, s)

/-- The verdict of `Parser::consume` once `do_consume` has succeeded. -/
def verdict (s : ParseState ι) : ParseResult × ParseState ι :=
  if s.cxtStack.length > 0 then (.Incomplete, s)
  -- here the values stay on the stack, with no context left to use them
  else if s.valStack.length > 1 then (.Error .Internal, s)
  else
    match ValueStack.pop s.valStack with
    | some (value, valStack) => (.Complete value, { s with valStack := valStack })
    | none => (.Error .Invalid, s)

/-- `Parser::consume`. -/
def Parser.consume (fuel : ℕ) (parseState : ParseState ι) (term : Token) :
    Option (ParseResult × ParseState ι) :=
  match do_consume invoke term fuel parseState with
  | none => none
  | some (.error e, s) => some (.Error e, s)
  | some (.ok _, s) => some (verdict s)

end Parser

end GlviCbor
