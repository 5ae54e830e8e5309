/-
Wire forms, and the round trip of a token stream through one `Scanner`.

The library only decodes, so the encoder is CBOR's: a head byte of major type
and additional information, the argument in the head byte or in 1, 2, 4 or 8
bytes of its own, and the payload of a string. A `Wire` is a token together
with a form that can hold its argument, so a stream of them is any choice of
encodings, canonical or not.

The proof goes through the reference decoder. `ref_encode` is the round trip of
one token there, whatever follows it; `scan_decodes` carries it to the scanner,
`Machine.Responds.of_feed` to one segment of the `Scanner`'s run, and the stream
is an induction over the segments.
-/
import GlviCbor.Limits

set_option autoImplicit false

namespace GlviCbor

open Machine BigEndian

/-! ## Forms -/

/-- Where the argument goes: into the head byte, or behind it. -/
inductive ArgForm where
  | immediate
  | one
  | two
  | four
  | eight
  deriving DecidableEq, Repr

/-- The number of argument bytes behind the head byte. -/
def ArgForm.width : ArgForm → ℕ
  | .immediate => 0
  | .one => 1
  | .two => 2
  | .four => 4
  | .eight => 8

/-- The additional information of a head of this form with argument `n`. -/
def ArgForm.info (n : ℕ) : ArgForm → ℕ
  | .immediate => n
  | .one => 24
  | .two => 25
  | .four => 26
  | .eight => 27

/-- The form can hold the argument `n`. -/
def ArgForm.Fits (n : ℕ) : ArgForm → Prop
  | .immediate => n < 24
  | .one => n < 256 ^ 1
  | .two => n < 256 ^ 2
  | .four => n < 256 ^ 4
  | .eight => n < 256 ^ 8

/-- The major type of a token. -/
def Token.major : Token → ℕ
  | .Uint _ => 0
  | .Nint _ => 1
  | .BstrX | .Bstr _ => 2
  | .TstrX | .Tstr _ => 3
  | .ArrayX | .Array _ => 4
  | .MapX | .Map _ => 5
  | .Tag _ => 6
  | .Simple _ | .Float _ | .Break => 7

/-- The payload behind the argument. -/
def Token.payload : Token → List UInt8
  | .Bstr payload | .Tstr payload => payload
  | _ => []

/-- The head has no argument, its additional information is 31. -/
def Token.is_indefinite : Token → Bool
  | .BstrX | .TstrX | .ArrayX | .MapX | .Break => true
  | _ => false

/-- The forms a token can be written in. Simple values have the head byte and
one byte, floats 2, 4 and 8 bytes; a head without argument has one form. -/
def Token.Admits (form : ArgForm) : Token → Prop
  | .BstrX | .TstrX | .ArrayX | .MapX | .Break => form = .immediate
  | .Simple v => form = .one ∨ form = .immediate ∧ v.toNat < 24
  | .Float v => (form = .two ∨ form = .four ∨ form = .eight) ∧ form.Fits v.toNat
  | token => form.Fits token.argument

instance (n : ℕ) : DecidablePred (ArgForm.Fits n) := fun form =>
  match form with
  | .immediate => inferInstanceAs (Decidable (n < 24))
  | .one => inferInstanceAs (Decidable (n < 256 ^ 1))
  | .two => inferInstanceAs (Decidable (n < 256 ^ 2))
  | .four => inferInstanceAs (Decidable (n < 256 ^ 4))
  | .eight => inferInstanceAs (Decidable (n < 256 ^ 8))

instance (form : ArgForm) : DecidablePred (Token.Admits form) := fun token => by
  rcases token <;> unfold Token.Admits <;> infer_instance

/-- The head byte of a major type and additional information. -/
def head_byte (major info : ℕ) : UInt8 := .ofNat (major * 32 + info)

/-- The encoding of a token in a form. -/
def encode (token : Token) (form : ArgForm) : List UInt8 :=
  if token.is_indefinite then [head_byte token.major 31]
  else head_byte token.major (form.info token.argument) ::
    (toBE form.width token.argument ++ token.payload)

/-! ## Heads -/

theorem major_head_byte {m i : ℕ} (hm : m < 8) (hi : i < 32) : major (head_byte m i) = m := by
  rw [major, head_byte, UInt8.toNat_ofNat']
  omega

theorem info_head_byte {m i : ℕ} (hi : i < 32) : info (head_byte m i) = i := by
  rw [info, head_byte, UInt8.toNat_ofNat']
  omega

theorem head_form_immediate {m n : ℕ} (hm : m < 8) (hn : n < 24) :
    head_form (head_byte m n) = .immediate (kind_of_major m) n := by
  rw [head_form, major_head_byte hm (by omega), info_head_byte (by omega), if_pos hn]

/-- A head of one of the four argument forms. -/
theorem head_form_argument {m n : ℕ} {form : ArgForm} (hm : m < 8) (hform : form ≠ .immediate) :
    head_form (head_byte m (form.info n)) =
      .argument (argument_kind m (form.info n)) form.width := by
  rcases form with _ | _ | _ | _ | _
  · exact absurd rfl hform
  all_goals
    rw [head_form, major_head_byte hm (by simp [ArgForm.info]),
      info_head_byte (by simp [ArgForm.info])]
    rfl

theorem head_form_indefinite {token : Token} (h : token.is_indefinite) :
    head_form (head_byte token.major 31) = .indefinite token := by
  rcases token <;> simp [Token.is_indefinite] at h <;> rfl

theorem Token.major_lt (token : Token) : token.major < 8 := by
  rcases token <;> simp [Token.major]

/-- Only a float has another kind than its major type says. -/
theorem kind_of_major_major {token : Token} (hx : ¬ token.is_indefinite)
    (hf : token.kind ≠ .Float) : kind_of_major token.major = token.kind := by
  rcases token <;> simp [Token.is_indefinite, Token.kind] at hx hf <;> rfl

/-- A token is determined by its kind, argument and payload. -/
theorem token_of_self (token : Token) :
    token_of token.kind token.argument token.payload = token := by
  rcases token <;> simp [token_of, Token.kind, Token.argument, Token.payload]

/-! ## One token -/

/-- The argument kind of an admitted form is the kind of the token. -/
theorem argument_kind_of_admits {token : Token} {form : ArgForm} (h : token.Admits form)
    (hx : ¬ token.is_indefinite) (hform : form ≠ .immediate) :
    argument_kind token.major (form.info token.argument) = token.kind := by
  rcases token <;> simp [Token.is_indefinite] at hx <;> try rfl
  -- `Simple` and `Float` share a major type, and are told apart by the form
  · rcases h with rfl | h
    · rfl
    · exact absurd h.1 hform
  · rcases h.1 with rfl | rfl | rfl <;> rfl

theorem Token.Admits.lt {token : Token} {form : ArgForm} (h : token.Admits form)
    (hx : ¬ token.is_indefinite) (hform : form ≠ .immediate) :
    token.argument < 256 ^ form.width := by
  rcases token with _ | _ | _ | _ | _ | _ | _ | _ | _ | _ | _ | v | _ | _ <;>
    simp [Token.is_indefinite] at hx
  case Simple =>
    rcases h with rfl | h
    · exact v.toNat_lt
    · exact absurd h.1 hform
  case Float =>
    rcases form <;> first | exact absurd rfl hform | exact h.2
  all_goals rcases form <;> first | exact absurd rfl hform | exact h

/-- In the immediate form the argument is below 24 and the token is no float. -/
theorem Token.Admits.immediate {token : Token} (h : token.Admits .immediate)
    (hx : ¬ token.is_indefinite) : token.argument < 24 ∧ token.kind ≠ .Float := by
  rcases token <;> simp [Token.is_indefinite] at hx <;>
    simp_all [Token.Admits, ArgForm.Fits, Token.argument, Token.kind]

/-- After its argument, a token's body is its payload. -/
theorem ref_body_payload (token : Token) (rest : List UInt8) :
    ref_body token.kind token.argument (token.payload ++ rest) = (some (.token token), rest) := by
  by_cases hk : token.kind.is_string
  · -- a string's argument is the length of its payload
    have hlen : token.argument = token.payload.length := by
      rcases token <;> simp [Token.kind, Kind.is_string] at hk <;> rfl
    rw [ref_body, if_pos hk, hlen, if_neg (by simp), List.take_left', List.drop_left', ← hlen,
      token_of_self]
    · rfl
    · rfl
  · have hpay : token.payload = [] := by
      rcases token <;> simp [Token.kind, Kind.is_string] at hk <;> rfl
    have hself := token_of_self token
    rw [hpay] at hself
    rw [ref_body_of_not_string hk, hpay, List.nil_append, hself]

/-- The reference decoder undoes the encoder, whatever follows. -/
theorem ref_encode (cfg : Config) {token : Token} {form : ArgForm} (h : token.Admits form)
    (hw : token.Within cfg) (rest : List UInt8) :
    ref cfg (encode token form ++ rest) = (some (.token token), rest) := by
  by_cases hx : token.is_indefinite
  · rw [encode, if_pos hx]
    simp only [List.singleton_append, ref, head_form_indefinite hx]
  · rw [encode, if_neg hx, List.cons_append, List.append_assoc]
    by_cases hform : form = .immediate
    · -- the argument is in the head byte
      subst hform
      obtain ⟨hlt, hfloat⟩ := h.immediate hx
      simp only [ref, ArgForm.info, head_form_immediate token.major_lt hlt,
        kind_of_major_major hx hfloat, ArgForm.width, toBE, List.nil_append]
      exact ref_body_payload token rest
    · -- the argument follows: written with `toBE`, taken off and read with `ofBE`
      have hlt := h.lt hx hform
      have hcount : ¬ (token.argument ≠ 0 ∧ Exceeds cfg token.kind token.argument) :=
        fun hc => hw hc.2
      simp only [ref, head_form_argument token.major_lt hform,
        argument_kind_of_admits h hx hform]
      rw [if_neg (by simp), List.take_left' (length_toBE _ _), List.drop_left' (length_toBE _ _),
        ofBE_toBE hlt, ref_count, if_neg hcount]
      exact ref_body_payload token rest

/-- And with nothing behind it. -/
theorem ref_encode_nil (cfg : Config) {token : Token} {form : ArgForm} (h : token.Admits form)
    (hw : token.Within cfg) : ref cfg (encode token form) = (some (.token token), []) := by
  have href := ref_encode cfg h hw []
  rwa [List.append_nil] at href

/-! ## A stream through one `Scanner` -/

/-- A token together with a form able to hold its argument. -/
structure Wire where
  token : Token
  form : ArgForm
  admits : token.Admits form

def Wire.bytes (w : Wire) : List UInt8 := encode w.token w.form

/-- What the scanner says to the bytes of one token: nothing yet, and the token
at the last byte. -/
def Wire.replies (w : Wire) : List (Except ScanError (Option Token)) :=
  List.replicate (w.bytes.length - 1) (.ok none) ++ [.ok (some w.token)]

/-- Feeding bytes one by one to a `Scanner`: what each call returns, and the
scanner at the end. -/
def Scanner.Replies (cfg : Config) (scanner : Scanner) (bs : List UInt8)
    (out : List (Except ScanError (Option Token))) (scanner' : Scanner) : Prop :=
  Responds (fun s b o s' => Scanner.scan cfg s b = some (o, s')) scanner bs out scanner'

/-- One encoded token, from `Head` to `Head`. -/
theorem Wire.scan (cfg : Config) (w : Wire) (hw : w.token.Within cfg) :
    Scanner.Replies cfg ⟨.Head⟩ w.bytes w.replies ⟨.Head⟩ := by
  have href : ref cfg w.bytes = (some (.token w.token), []) := ref_encode_nil cfg w.admits hw
  -- the decoder stops with the token and nothing left over, so the feed does
  refine Responds.of_feed Scanner.mk ?_ ?_ w.bytes .Head (feed_of_ref href)
  · -- `more` is `Incomplete`, to which `Scanner::scan` answers `nullopt`
    intro s b s' hstep
    unfold scan_outcome at hstep
    rcases hscan : GlviCbor.scan cfg s b with _ | ⟨s₁ | ⟨s₁, token⟩ | e, left⟩ <;>
      rw [hscan] at hstep <;> simp only [Option.some.injEq, Outcome.more.injEq, reduceCtorEq]
        at hstep
    subst hstep
    rw [Scanner.scan, hscan]
  · -- `stop` with a token is `Complete`, at `Head`
    intro s b hstep
    unfold scan_outcome at hstep
    rcases hscan : GlviCbor.scan cfg s b with _ | ⟨s₁ | ⟨s₁, token⟩ | e, left⟩ <;>
      rw [hscan] at hstep <;> simp only [Option.some.injEq, Outcome.stop.injEq,
        Answer.token.injEq, reduceCtorEq] at hstep
    obtain rfl := scan_complete_state hscan
    subst hstep
    rw [Scanner.scan, hscan]

/-- Encoding then scanning gives the stream back. For every list of tokens
within the configured limits, each in any form able to hold its argument,
feeding the concatenated encodings byte by byte to one scanner at `Head` never
returns an error, returns each token at the last byte of its encoding and
nothing at every other byte, and ends at `Head`. -/
theorem scan_stream (cfg : Config) (ws : List Wire) (h : ∀ w ∈ ws, w.token.Within cfg) :
    Scanner.Replies cfg ⟨.Head⟩ (ws.flatMap Wire.bytes) (ws.flatMap Wire.replies) ⟨.Head⟩ := by
  induction ws with
  | nil => exact Responds.nil _
  | cons w ws ih =>
    rw [List.forall_mem_cons] at h
    rw [List.flatMap_cons, List.flatMap_cons]
    exact Responds.append (w.scan cfg h.1) (ih h.2)

/-- A number in a form longer than needed, a string at its limit, a simple value,
a float and a break. -/
theorem scan_stream_mixed :
    ∃ ws : List Wire,
      ws.map Wire.token = [.Uint 5, .Bstr [7, 8], .Simple 255, .Float 0x7c00, .Break] ∧
      ws.flatMap Wire.bytes =
        [0x19, 0x00, 0x05, 0x58, 0x02, 0x07, 0x08, 0xf8, 0xff, 0xf9, 0x7c, 0x00, 0xff] ∧
      Scanner.Replies ⟨2, 0, 0, 0⟩ ⟨.Head⟩ (ws.flatMap Wire.bytes) (ws.flatMap Wire.replies)
        ⟨.Head⟩ :=
  ⟨[⟨.Uint 5, .two, by decide⟩, ⟨.Bstr [7, 8], .one, by decide⟩,
      ⟨.Simple 255, .one, by decide⟩, ⟨.Float 0x7c00, .two, by decide⟩,
      ⟨.Break, .immediate, by decide⟩],
    rfl, by decide, scan_stream ⟨2, 0, 0, 0⟩ _ (by decide)⟩

end GlviCbor
