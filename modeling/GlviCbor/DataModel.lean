/-
Does a token determine the data it was scanned from?

`denote` reads the encoding of one token as an element of the CBOR data model,
from the bytes alone and with exact numbers. `denote_eq` compares that with the
token the scanner makes of the same bytes: the datum is a function of the token
*and the number of argument bytes*. Every kind but one ignores the width. A
`Float` token is the bit pattern as a plain 64-bit number, and whether it was
the pattern of a binary16, a binary32 or a binary64 is not in it.

`denote_eq_iff` is the resulting law for two encodings: equal tokens mean the same
datum if and only if the two are not floats of different widths that share a
non-zero pattern.
-/
import GlviCbor.Lib.BinaryFloat
import GlviCbor.Encode

set_option autoImplicit false

namespace GlviCbor

open Machine BigEndian BinaryFloat

/-! ## Data items -/

/-- What one token stands for. Counts and tag numbers are those of the header;
the items behind it are tokens of their own. -/
inductive Datum where
  | integer (n : ℤ)
  | bstr (bytes : List UInt8)
  | tstr (bytes : List UInt8)
  | array (count : ℕ)
  | map (count : ℕ)
  | tag (number : ℕ)
  | simple (number : ℕ)
  | float (value : Value)
  | opener (kind : Kind)
  | stop
  deriving DecidableEq, Repr

/-- The format of a float with so many argument bytes. -/
def float_format : ℕ → Format
  | 2 => binary16
  | 4 => binary32
  | _ => binary64

/-- The datum of a kind with argument `n`, the argument being `width` bytes. -/
def datum (kind : Kind) (width n : ℕ) (payload : List UInt8) : Datum :=
  match kind with
  | .Uint => .integer n
  | .Nint => .integer (-1 - n)
  | .Bstr => .bstr payload
  | .Tstr => .tstr payload
  | .Array => .array n
  | .Map => .map n
  | .Tag => .tag n
  | .Simple => .simple n
  | .Float => .float (decode (float_format width) n)
  | .BstrX => .opener .BstrX
  | .TstrX => .opener .TstrX
  | .ArrayX => .opener .ArrayX
  | .MapX => .opener .MapX
  | .Break => .stop

/-- The datum the encoding of one token denotes. -/
def denote : List UInt8 → Option Datum
  | [] => none
  | byte :: bs =>
    match head_form byte with
    | .reserved => none
    | .indefinite token => some (datum token.kind 0 0 [])
    | .immediate kind n => some (datum kind 0 n bs)
    | .argument kind width =>
      some (datum kind width (ofBE (bs.take width)) (bs.drop width))

/-- The number of argument bytes an encoding announces. -/
def arg_width : List UInt8 → ℕ
  | [] => 0
  | byte :: _ =>
    match head_form byte with
    | .argument _ width => width
    | _ => 0

/-- A token and a width give a datum. -/
def Token.datum (width : ℕ) (token : Token) : Datum :=
  GlviCbor.datum token.kind width token.argument token.payload

/-- The scan from `Head` completes exactly this token, at the last byte. -/
def ScansTo (cfg : Config) (bs : List UInt8) (token : Token) : Prop :=
  scan_range cfg .Head bs = some (.Complete .Head token, [])

instance (cfg : Config) (bs : List UInt8) (token : Token) : Decidable (ScansTo cfg bs token) :=
  inferInstanceAs (Decidable (_ = _))

/-! ## Encodings of one token -/

/-- How the encoding of one token and nothing else is made up, by its head. -/
inductive Decoded : List UInt8 → Token → Prop
  | indefinite {byte : UInt8} {token : Token} :
      head_form byte = .indefinite token → Decoded [byte] token
  | immediate {byte : UInt8} {kind : Kind} {n : ℕ} (bs : List UInt8) :
      head_form byte = .immediate kind n → Decoded (byte :: bs) (token_of kind n bs)
  | argument {byte : UInt8} {kind : Kind} {width : ℕ} (bs : List UInt8) :
      head_form byte = .argument kind width → width ≤ bs.length →
      (¬ kind.is_string → bs.length = width) →
      Decoded (byte :: bs) (token_of kind (ofBE (bs.take width)) (bs.drop width))

/-- Decoding a body to its end leaves only one token, made of all the bytes;
without a payload there are none. -/
theorem token_of_ref_body {kind : Kind} {n : ℕ} {bs : List UInt8} {token : Token}
    (h : ref_body kind n bs = (some (.token token), [])) :
    token = token_of kind n bs ∧ (¬ kind.is_string → bs = []) := by
  by_cases hk : kind.is_string
  · rw [ref_body_string hk] at h
    split_ifs at h with hlen
    · simp at h
    · simp only [Prod.mk.injEq, Option.some.injEq, Answer.token.injEq,
        List.drop_eq_nil_iff] at h
      obtain ⟨rfl, hle⟩ := h
      rw [List.take_of_length_le hle, token_of_is_string hk 0 n]
      exact ⟨rfl, fun hno => absurd hk hno⟩
  · rw [ref_body_of_not_string hk] at h
    simp only [Prod.mk.injEq, Option.some.injEq, Answer.token.injEq] at h
    obtain ⟨rfl, rfl⟩ := h
    exact ⟨rfl, fun _ => rfl⟩

theorem decoded_of_ref {cfg : Config} {bs : List UInt8} {token : Token}
    (h : ref cfg bs = (some (.token token), [])) : Decoded bs token := by
  rcases bs with _ | ⟨byte, bs⟩
  · simp [ref] at h
  rcases hform : head_form byte with _ | t | ⟨kind, n⟩ | ⟨kind, width⟩ <;>
    simp only [ref, hform] at h
  · simp at h
  · simp only [Prod.mk.injEq, Option.some.injEq, Answer.token.injEq] at h
    obtain ⟨rfl, rfl⟩ := h
    exact .indefinite hform
  · obtain ⟨rfl, -⟩ := token_of_ref_body h
    exact .immediate bs hform
  · split_ifs at h with hlen
    · simp at h
    · have hbody : ref_body kind (ofBE (bs.take width)) (bs.drop width)
          = (some (.token token), []) := by
        unfold ref_count at h
        split_ifs at h with hx
        · simp at h
        · exact h
      obtain ⟨rfl, hrest⟩ := token_of_ref_body hbody
      refine .argument bs hform (not_lt.mp hlen) fun hk => ?_
      have hle := List.drop_eq_nil_iff.mp (hrest hk)
      omega

/-- What the scanner completes at the last byte is decoded from all the bytes. -/
theorem ScansTo.decoded {cfg : Config} {bs : List UInt8} {token : Token}
    (h : ScansTo cfg bs token) : Decoded bs token := by
  obtain ⟨o, hfeed, hans, -⟩ := (scan_decodes cfg).feed_eq bs .Head trivial
  rw [ScansTo, scan_range_eq_feed, hfeed, Option.map_some, Option.some.injEq, Prod.mk.injEq] at h
  obtain ⟨hres, hrest⟩ := h
  have ho : o = .stop (.token token) := by
    rcases o with s | (t | e) <;> simp only [result_of, reduceCtorEq] at hres
    simp only [ScanResult.Complete.injEq, true_and] at hres
    rw [hres]
  rw [ho] at hans
  exact decoded_of_ref (Prod.ext hans.symm hrest)

/-- And what decodes to a token and nothing else scans to it. -/
theorem scansTo_of_ref {cfg : Config} {bs : List UInt8} {token : Token}
    (h : ref cfg bs = (some (.token token), [])) : ScansTo cfg bs token := by
  rw [ScansTo, scan_range_eq_feed, feed_of_ref h]
  rfl

/-! ## The datum of a decoded token -/

/-- Neither the accumulator nor the narrowing of a simple value loses a bit, so
the datum can be read off the token instead of the bytes. -/
theorem datum_token_of {kind : Kind} {n : ℕ} (width : ℕ) (payload : List UInt8)
    (hn : n < 256 ^ 8) (hsimple : kind = .Simple → n < 256) :
    (token_of kind n payload).datum width = datum kind width n payload := by
  -- 64 bits hold every argument; only `Simple` has fewer
  have h64 : (UInt64.ofNat n).toNat = n := toNat_ofNat_of_lt (by norm_num at hn ⊢; exact hn)
  rcases kind <;>
    simp only [token_of, Token.datum, Token.kind, Token.argument, datum, Token.payload, h64]
  have h8 : (UInt8.ofNat n).toNat = n := by
    rw [UInt8.toNat_ofNat', Nat.mod_eq_of_lt (hsimple rfl)]
  rw [h8]

/-- The datum is a function of the token and the width of its argument. -/
theorem denote_eq {bs : List UInt8} {token : Token} (h : Decoded bs token) :
    denote bs = some (token.datum (arg_width bs)) := by
  rcases h with hform | ⟨bs, hform⟩ | @⟨_, kind, width, bs, hform, hlen, -⟩ <;>
    simp only [denote, arg_width, hform]
  · rcases indefinite_cases hform with rfl | rfl | rfl | rfl | rfl <;> rfl
  · have hvalid := valid_of_head_form hform
    have h24 := hvalid.1
    rw [datum_token_of 0 bs (by omega) (fun _ => by omega)]
  · have hvalid := valid_of_head_form hform
    have hw := Kind.width_bounds hvalid
    have hlt := ofBE_lt (bs.take width)
    rw [List.length_take_of_le hlen] at hlt
    have hwide : 256 ^ width ≤ 256 ^ 8 := Nat.pow_le_pow_right (by norm_num) hw.2
    -- the one head of a simple value with an argument has one byte of it
    have hsimple : kind = .Simple → ofBE (bs.take width) < 256 := by
      rintro rfl
      obtain rfl : width = 1 := List.mem_singleton.mp hvalid
      exact hlt
    rw [datum_token_of width _ (hlt.trans_le hwide) hsimple]

/-- Only a float's datum depends on the width. -/
theorem datum_of_not_float {token : Token} (h : token.kind ≠ .Float) (w w' : ℕ) :
    token.datum w = token.datum w' := by
  rcases token <;> first | rfl | exact absurd rfl h

/-! ## Floats -/

/-- The argument bytes of a float head: `0xf9`, `0xfa`, `0xfb` and no other. -/
def float_head_width (byte : UInt8) : Option ℕ :=
  if byte = 0xf9 then some 2 else if byte = 0xfa then some 4
  else if byte = 0xfb then some 8 else none

def float_width (bs : List UInt8) : Option ℕ := bs.head?.bind float_head_width

theorem head_form_float : ∀ byte w, float_head_width byte = some w →
    head_form byte = .argument .Float w := by
  have h : ∀ byte, ∀ w ∈ float_head_width byte, head_form byte = .argument .Float w :=
    forall_octet (by decide +kernel)
  exact h

/-- The scanner makes a `Float` token of the three float heads, holding the
pattern. -/
theorem float_of_decoded {bs : List UInt8} {token : Token} {w : ℕ} (h : Decoded bs token)
    (hw : float_width bs = some w) :
    arg_width bs = w ∧ bs.tail.length = w ∧ token = .Float (.ofNat (ofBE bs.tail)) := by
  rcases h with hform | ⟨bs, hform⟩ | ⟨bs, hform, hlen, hrest⟩
  all_goals
    have hfloat := head_form_float _ w hw
    rw [hform] at hfloat
  -- the float heads are in the table under `argument`
  · simp at hfloat
  · simp at hfloat
  · obtain ⟨rfl, rfl⟩ := HeadForm.argument.inj hfloat
    have hlen' := hrest (by decide)
    refine ⟨?_, hlen', ?_⟩
    · simp only [arg_width, hform]
    · rw [List.tail_cons, List.take_of_length_le hlen'.le]
      rfl

/-- And of no other head. -/
theorem float_width_of_kind {bs : List UInt8} {token : Token} (h : Decoded bs token)
    (hf : token.kind = .Float) : float_width bs = some (arg_width bs) := by
  have hhead : ∀ byte, ∀ w ∈ Kind.widths .Float, head_form byte = .argument .Float w →
      float_head_width byte = some w := forall_octet (by decide +kernel)
  have hkind : ∀ kind n payload, (token_of kind n payload).kind = kind := by
    rintro (_ | _) n payload <;> rfl
  rcases h with hform | ⟨bs, hform⟩ | ⟨bs, hform, -, -⟩
  all_goals
    have hvalid := valid_of_head_form hform
  · rcases indefinite_cases hform with rfl | rfl | rfl | rfl | rfl <;> exact absurd hf (by decide)
  · -- an immediate argument needs a one-byte form, and a float has none
    rw [hkind] at hf
    subst hf
    exact absurd hvalid.2 (by decide)
  · rw [hkind] at hf
    subst hf
    simp only [float_width, arg_width, List.head?_cons, Option.bind_some, hform]
    exact hhead _ _ hvalid hform

theorem float_width_cases {bs : List UInt8} {w : ℕ} (h : float_width bs = some w) :
    w = 2 ∨ w = 4 ∨ w = 8 := by
  rcases bs with _ | ⟨byte, bs⟩
  · exact nomatch h
  · simp only [float_width, float_head_width, List.head?_cons, Option.bind_some] at h
    split_ifs at h <;> simp at h <;> omega

/-- One pattern read at two of the widths: the same number only if it is zero. -/
theorem decode_widths_iff {w w' x : ℕ} (hw : w = 2 ∨ w = 4 ∨ w = 8)
    (hw' : w' = 2 ∨ w' = 4 ∨ w' = 8) (hne : w ≠ w') (hx : x < 256 ^ w) (hx' : x < 256 ^ w') :
    decode (float_format w) x = decode (float_format w') x ↔ x = 0 := by
  rcases hw with rfl | rfl | rfl <;> rcases hw' with rfl | rfl | rfl
  -- the bound that counts is the one at the narrower width
  · exact absurd rfl hne
  · exact decode_eq_decode_iff binary16_narrower_binary32 hx
  · exact decode_eq_decode_iff binary16_narrower_binary64 hx
  · rw [eq_comm]
    exact decode_eq_decode_iff binary16_narrower_binary32 hx'
  · exact absurd rfl hne
  · exact decode_eq_decode_iff binary32_narrower_binary64 hx
  · rw [eq_comm]
    exact decode_eq_decode_iff binary16_narrower_binary64 hx'
  · rw [eq_comm]
    exact decode_eq_decode_iff binary32_narrower_binary64 hx'
  · exact absurd rfl hne

/-! ## Two encodings of one token -/

/-- Two floats of different widths that have one bit pattern, and a bit set in it. -/
def WidthLost (a b : List UInt8) : Prop :=
  ∃ w ∈ float_width a, ∃ w' ∈ float_width b,
    w ≠ w' ∧ ofBE a.tail = ofBE b.tail ∧ ∃ d ∈ a.tail, d ≠ 0

instance (a b : List UInt8) : Decidable (WidthLost a b) :=
  inferInstanceAs (Decidable (∃ w ∈ float_width a, ∃ w' ∈ float_width b,
    w ≠ w' ∧ ofBE a.tail = ofBE b.tail ∧ ∃ d ∈ a.tail, d ≠ 0))

/-- What a decoded float keeps: its bytes as one 64-bit number. -/
theorem float_pattern {bs : List UInt8} {token : Token} {w : ℕ} (h : Decoded bs token)
    (hw : float_width bs = some w) :
    token.argument = ofBE bs.tail ∧ ofBE bs.tail < 256 ^ w ∧
      token.datum (arg_width bs) = .float (decode (float_format w) (ofBE bs.tail)) := by
  obtain ⟨hwidth, hlen, rfl⟩ := float_of_decoded h hw
  have hlt := ofBE_lt bs.tail
  rw [hlen] at hlt
  have harg : (UInt64.ofNat (ofBE bs.tail)).toNat = ofBE bs.tail := by
    have h8 : w ≤ 8 := by
      have := float_width_cases hw
      omega
    have hwide : 256 ^ w ≤ 256 ^ 8 := Nat.pow_le_pow_right (by norm_num) h8
    exact toNat_ofNat_of_lt (by norm_num at hwide ⊢; omega)
  refine ⟨harg, hlt, ?_⟩
  rw [hwidth, Token.datum, Token.argument, harg]
  rfl

/-- Two encodings of one token denote the same datum, but for floats of two widths. -/
theorem denote_eq_iff_of_token {cfg : Config} {a b : List UInt8} {token : Token}
    (ha : ScansTo cfg a token) (hb : ScansTo cfg b token) :
    denote a = denote b ↔ ¬ WidthLost a b := by
  have hda := ha.decoded
  have hdb := hb.decoded
  rw [denote_eq hda, denote_eq hdb, Option.some.injEq]
  by_cases hdiff : ∃ w ∈ float_width a, ∃ w' ∈ float_width b, w ≠ w'
  · obtain ⟨w, hw, w', hw', hne⟩ := hdiff
    obtain ⟨harg, hlt, hfa⟩ := float_pattern hda hw
    obtain ⟨harg', hlt', hfb⟩ := float_pattern hdb hw'
    -- equal tokens hold equal patterns, whatever the widths
    have hsame : ofBE b.tail = ofBE a.tail := harg'.symm.trans harg
    rw [hsame] at hlt' hfb
    have hlost : WidthLost a b ↔ ofBE a.tail ≠ 0 := by
      rw [Ne, ofBE_eq_zero_iff, not_forall₂]
      refine ⟨fun ⟨_, _, _, _, _, _, d, hd, h0⟩ => ⟨d, hd, h0⟩, fun ⟨d, hd, h0⟩ => ?_⟩
      exact ⟨w, hw, w', hw', hne, hsame.symm, d, hd, h0⟩
    rw [hfa, hfb, Datum.float.injEq, hlost, not_not]
    exact decode_widths_iff (float_width_cases hw) (float_width_cases hw') hne hlt hlt'
  · have hno : ¬ WidthLost a b := fun ⟨w, hw, w', hw', hne, _⟩ => hdiff ⟨w, hw, w', hw', hne⟩
    -- the width is the same, or it is not looked at
    refine iff_of_true ?_ hno
    by_cases hf : token.kind = .Float
    · have hwidth : arg_width a = arg_width b := by
        by_contra hne
        exact hdiff ⟨_, float_width_of_kind hda hf, _, float_width_of_kind hdb hf, hne⟩
      rw [hwidth]
    · exact datum_of_not_float hf _ _

/-- A token determines its datum except for the width of a float. Of any two byte strings
that scan to one token each, equal tokens mean the same element of the data model if and
only if the two are not floats of different widths that share a non-zero bit pattern. -/
theorem denote_eq_iff {cfg : Config} {a b : List UInt8} {token token' : Token}
    (ha : ScansTo cfg a token) (hb : ScansTo cfg b token') :
    (token = token' → denote a = denote b) ↔ ¬ WidthLost a b := by
  by_cases htoken : token = token'
  · subst htoken
    rw [← denote_eq_iff_of_token ha hb]
    exact forall_prop_of_true rfl
  · refine iff_of_true (fun h => absurd h htoken) ?_
    -- floats that share a pattern are one token
    rintro ⟨w, hw, w', hw', -, hpattern, -⟩
    obtain ⟨-, -, rfl⟩ := float_of_decoded ha.decoded hw
    obtain ⟨-, -, rfl⟩ := float_of_decoded hb.decoded hw'
    exact htoken (by rw [hpattern])

/-- The binary16 and the binary64 pattern of all zeros are both the number 0. -/
theorem denote_eq_zero : denote [0xf9, 0, 0] = denote [0xfb, 0, 0, 0, 0, 0, 0, 0, 0] := by
  have ha : ScansTo ⟨0, 0, 0, 0⟩ [0xf9, 0, 0] (.Float 0) := by decide
  have hb : ScansTo ⟨0, 0, 0, 0⟩ [0xfb, 0, 0, 0, 0, 0, 0, 0, 0] (.Float 0) := by decide
  exact (denote_eq_iff ha hb).mpr (by decide) rfl

/-- `0xf9 0x3c 0x00` is the number 1 and `0xfa 0x00 0x00 0x3c 0x00` is about
`2.2e-41`; the scanner makes the same token of both. -/
theorem float_width_lost :
    ¬ ∀ (cfg : Config) (a b : List UInt8) (t t' : Token), ScansTo cfg a t → ScansTo cfg b t' →
      t = t' → denote a = denote b := by
  intro h
  have heq := h ⟨0, 0, 0, 0⟩ [0xf9, 0x3c, 0x00] [0xfa, 0x00, 0x00, 0x3c, 0x00]
    (.Float 0x3c00) (.Float 0x3c00) (by decide) (by decide) rfl
  have hpat : decode binary16 0x3c00 = decode binary32 0x3c00 :=
    Datum.float.inj (Option.some.inj heq)
  exact absurd ((decode_eq_decode_iff binary16_narrower_binary32 (by decide)).mp hpat) (by decide)

end GlviCbor
