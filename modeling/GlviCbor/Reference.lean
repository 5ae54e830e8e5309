/-
The **one-shot reference decoder** of a token, and the proof that the
incremental scanner computes it.

`ref` reads a whole input the way CBOR describes it: initial byte, argument as
one big-endian number, limit, payload as one slice. It knows no states. The
scanner is tied to it state by state: `residual cfg s` is the batch decoder of
what is still to come when the scanner is in `s`, and `scan_decodes` is the
step law of `Machine.Decodes` between the two. The invariant that carries it,
`Sound`, is what makes the 64-bit accumulator exact: after `8 - pending` bytes
it is below `256 ^ (8 - pending)`.
-/
import GlviCbor.Lib.Machine
import GlviCbor.Lib.BigEndian
import GlviCbor.Step

set_option autoImplicit false

namespace GlviCbor

open Machine BigEndian

/-! ## The reference decoder -/

/-- How the decoding of one token ends. -/
inductive Answer where
  | token (token : Token)
  | error (error : ScanError)
  deriving DecidableEq, Repr

/-- The token of a kind, from its argument and payload. -/
def token_of (kind : Kind) (n : ℕ) (payload : List UInt8) : Token :=
  match kind with
  | .Uint => .Uint (.ofNat n)
  | .Nint => .Nint (.ofNat n)
  | .BstrX => .BstrX
  | .Bstr => .Bstr payload
  | .TstrX => .TstrX
  | .Tstr => .Tstr payload
  | .ArrayX => .ArrayX
  | .Array => .Array (.ofNat n)
  | .MapX => .MapX
  | .Map => .Map (.ofNat n)
  | .Tag => .Tag (.ofNat n)
  | .Simple => .Simple (.ofNat n)
  | .Float => .Float (.ofNat n)
  | .Break => .Break

/-- After the argument `n`: a string takes `n` octets of payload, every other
kind is complete. -/
def ref_body (kind : Kind) (n : ℕ) (bs : List UInt8) : Option Answer × List UInt8 :=
  if kind.is_string then
    if bs.length < n then (none, [])
    else (some (.token (token_of kind n (bs.take n))), bs.drop n)
  else (some (.token (token_of kind n [])), bs)

/-- A non-zero argument of its own bytes is held against the limit first. -/
def ref_count (cfg : Config) (kind : Kind) (n : ℕ) (bs : List UInt8) :
    Option Answer × List UInt8 :=
  if n ≠ 0 ∧ Exceeds cfg kind n then (some (.error (.Excessive (.ofNat n))), bs)
  else ref_body kind n bs

/-- One token from the front of `bs`: the answer, `none` for "more input
needed", and the input left over. -/
def ref (cfg : Config) (bs : List UInt8) : Option Answer × List UInt8 :=
  match bs with
  | [] => (none, [])
  | byte :: bs =>
    match head_form byte with
    | .reserved => (some (.error (.UnexpectedHead byte)), bs)
    | .indefinite token => (some (.token token), bs)
    | .immediate kind n => ref_body kind n bs
    | .argument kind width =>
      if bs.length < width then (none, [])
      else ref_count cfg kind (ofBE (bs.take width)) (bs.drop width)

/-- `Token::make` on a 64-bit argument is `token_of`; its narrowing for
`Simple` is the one `token_of` makes. -/
theorem make_eq_token_of (kind : Kind) (argument : UInt64) (payload : List UInt8) :
    Token.make kind argument payload = token_of kind argument.toNat payload := by
  rcases kind <;> simp [Token.make, token_of]

theorem token_of_is_string {kind : Kind} (h : kind.is_string) (n m : ℕ) (payload : List UInt8) :
    token_of kind n payload = token_of kind m payload := by
  rcases kind <;> simp [Kind.is_string] at h <;> rfl

theorem ref_body_string {kind : Kind} (h : kind.is_string) (n : ℕ) (bs : List UInt8) :
    ref_body kind n bs = if bs.length < n then (none, [])
      else (some (.token (token_of kind 0 (bs.take n))), bs.drop n) := by
  rw [ref_body, if_pos h, token_of_is_string h n 0]

theorem ref_body_of_not_string {kind : Kind} (h : ¬ kind.is_string) (n : ℕ) (bs : List UInt8) :
    ref_body kind n bs = (some (.token (token_of kind n [])), bs) := by
  rw [ref_body, if_neg h]

/-! ## The scanner as a machine -/

/-- `scan` seen as one step of an incremental machine. -/
def scan_outcome (cfg : Config) (s : ScanState) (byte : UInt8) :
    Option (Outcome ScanState Answer) :=
  match scan cfg s byte with
  | none => none
  | some (.Incomplete s', _) => some (.more s')
  | some (.Complete _ token, _) => some (.stop (.token token))
  | some (.Error e, _) => some (.stop (.error e))

/-- The scan result an outcome stands for. -/
def result_of : Outcome ScanState Answer → ScanResult
  | .more s => .Incomplete s
  | .stop (.token token) => .Complete .Head token
  | .stop (.error e) => .Error e

/-- The range overload is the machine's feed. -/
theorem scan_range_eq_feed (cfg : Config) (s : ScanState) (bs : List UInt8) :
    scan_range cfg s bs =
      (feed (scan_outcome cfg) s bs).map fun p => (result_of p.1, p.2) := by
  induction bs generalizing s with
  | nil => rfl
  | cons b bs ih =>
    rw [scan_range]
    rcases h : scan cfg s b with _ | ⟨s' | ⟨s', token⟩ | e, left⟩
    · have ho : scan_outcome cfg s b = none := by rw [scan_outcome, h]
      rw [feed_cons_none bs ho]
      rfl
    · have ho : scan_outcome cfg s b = some (.more s') := by rw [scan_outcome, h]
      rw [feed_cons_more bs ho]
      exact ih s'
    · have ho : scan_outcome cfg s b = some (.stop (.token token)) := by rw [scan_outcome, h]
      rw [feed_cons_stop bs ho]
      obtain rfl := scan_complete_state h
      rfl
    · have ho : scan_outcome cfg s b = some (.stop (.error e)) := by rw [scan_outcome, h]
      rw [feed_cons_stop bs ho]
      rfl

/-- So is the chunked caller. -/
theorem scan_chunks_eq_feed (cfg : Config) (s : ScanState) (chunks : List (List UInt8)) :
    scan_chunks cfg s chunks =
      (feed (scan_outcome cfg) s chunks.flatten).map fun p => (result_of p.1, p.2) := by
  rw [← feedChunks_eq_feed]
  induction chunks generalizing s with
  | nil => rfl
  | cons chunk chunks ih =>
    rw [scan_chunks, scan_range_eq_feed, feedChunks]
    rcases feed (scan_outcome cfg) s chunk with _ | ⟨s' | (token | e), rest⟩
    · rfl
    · exact ih s'
    · rfl
    · rfl

/-! ## The invariant -/

/-- What every state on the way to a token satisfies. -/
def Sound : ScanState → Prop
  | .Head => True
  | .Arg _ arg pending =>
    1 ≤ pending.toNat ∧ pending.toNat ≤ 8 ∧ arg.toNat < 256 ^ (8 - pending.toNat)
  | .Pay kind _ pending => kind.is_string ∧ 1 ≤ pending.toNat

/-- The accumulator has room for the next byte. -/
theorem Sound.arg_lt {kind : Kind} {arg pending : UInt64} (h : Sound (.Arg kind arg pending)) :
    arg.toNat < 2 ^ 56 := by
  obtain ⟨h1, -, harg⟩ := h
  calc arg.toNat < 256 ^ (8 - pending.toNat) := harg
    _ ≤ 256 ^ 7 := Nat.pow_le_pow_right (by norm_num) (by omega)
    _ = 2 ^ 56 := by norm_num

theorem Sound.arg_step {kind : Kind} {arg pending : UInt64} (byte : UInt8)
    (h : Sound (.Arg kind arg pending)) (h2 : 2 ≤ pending.toNat) :
    Sound (.Arg kind (arg <<< 8 ||| byte.toUInt64) (pending - 1)) := by
  have hroom := h.arg_lt
  obtain ⟨h1, h8, harg⟩ := h
  have hb := byte.toNat_lt
  refine ⟨?_, ?_, ?_⟩
  · rw [pending_pred h1]
    omega
  · rw [pending_pred h1]
    omega
  · -- one octet more behind the accumulator, one factor 256 more in its bound
    rw [shift_in_toNat byte hroom, pending_pred h1,
      show 8 - (pending.toNat - 1) = (8 - pending.toNat) + 1 by omega, pow_succ]
    omega

/-- The five things one byte can do in a sound state, with what is left in the
caller's object. -/
inductive ScanStep (cfg : Config) (byte : UInt8) : ScanState → ScanResult → ScanState → Prop
  | head : ScanStep cfg byte .Head ((head_form byte).result byte) .Head
  | arg_more {kind : Kind} {arg pending : UInt64} (h : 2 ≤ pending.toNat) :
      ScanStep cfg byte (.Arg kind arg pending)
        (.Incomplete (.Arg kind (arg <<< 8 ||| byte.toUInt64) (pending - 1)))
        (.Arg kind (arg <<< 8 ||| byte.toUInt64) (pending - 1))
  | arg_last (kind : Kind) (arg : UInt64) :
      ScanStep cfg byte (.Arg kind arg 1) (finish_argument cfg kind (arg <<< 8 ||| byte.toUInt64))
        (.Arg kind (arg <<< 8 ||| byte.toUInt64) 0)
  | pay_more {kind : Kind} {bytes : List UInt8} {pending : UInt64} (h : 2 ≤ pending.toNat) :
      ScanStep cfg byte (.Pay kind bytes pending)
        (.Incomplete (.Pay kind (bytes ++ [byte]) (pending - 1))) (.Pay kind [] (pending - 1))
  | pay_last (kind : Kind) (bytes : List UInt8) :
      ScanStep cfg byte (.Pay kind bytes 1)
        (.Complete .Head (Token.make kind 0 (bytes ++ [byte]))) (.Pay kind [] 0)

/-- In a sound state `scan` does not abort, and takes one of the five steps. -/
theorem Sound.scan_step (cfg : Config) {s : ScanState} (byte : UInt8) (hs : Sound s) :
    ∃ r left, scan cfg s byte = some (r, left) ∧ ScanStep cfg byte s r left := by
  rcases s with _ | ⟨kind, arg, pending⟩ | ⟨kind, bytes, pending⟩
  · exact ⟨_, _, scan_head cfg byte, .head⟩
  · have h1 := hs.1
    by_cases hp : pending.toNat = 1
    · obtain rfl : pending = 1 := UInt64.toNat_inj.mp hp
      exact ⟨_, _, scan_arg_last cfg kind arg byte rfl, .arg_last kind arg⟩
    · have h2 : 2 ≤ pending.toNat := by omega
      exact ⟨_, _, scan_arg_more cfg kind arg byte h2, .arg_more h2⟩
  · obtain ⟨hk, h1⟩ := hs
    by_cases hp : pending.toNat = 1
    · obtain rfl : pending = 1 := UInt64.toNat_inj.mp hp
      exact ⟨_, _, scan_pay_last cfg hk bytes byte rfl, .pay_last kind bytes⟩
    · have h2 : 2 ≤ pending.toNat := by omega
      exact ⟨_, _, scan_pay_more cfg kind bytes byte h2, .pay_more h2⟩

/-! ## The residual decoders -/

/-- The batch decoder of the input still to come, in each state. -/
def residual (cfg : Config) : ScanState → List UInt8 → Option Answer × List UInt8
  | .Head, bs => ref cfg bs
  | .Arg kind arg pending, bs =>
    if bs.length < pending.toNat then (none, [])
    else ref_count cfg kind (arg.toNat * 256 ^ pending.toNat + ofBE (bs.take pending.toNat))
      (bs.drop pending.toNat)
  | .Pay kind bytes pending, bs =>
    if bs.length < pending.toNat then (none, [])
    else (some (.token (token_of kind 0 (bytes ++ bs.take pending.toNat))),
      bs.drop pending.toNat)

/-- A freshly opened payload is the whole body of a string. -/
theorem residual_pay_nil (cfg : Config) {kind : Kind} (h : kind.is_string) (n : UInt64)
    (bs : List UInt8) : residual cfg (.Pay kind [] n) bs = ref_body kind n.toNat bs := by
  rw [ref_body_string h, residual, List.nil_append]

/-- One argument byte, at the residual: shift it into the accumulator. -/
theorem residual_arg_cons (cfg : Config) (kind : Kind) {arg pending : UInt64} (byte : UInt8)
    (bs : List UInt8) (h : Sound (.Arg kind arg pending)) :
    residual cfg (.Arg kind arg pending) (byte :: bs) =
      if bs.length < pending.toNat - 1 then (none, [])
      else ref_count cfg kind
        ((arg <<< 8 ||| byte.toUInt64).toNat * 256 ^ (pending.toNat - 1)
          + ofBE (bs.take (pending.toNat - 1)))
        (bs.drop (pending.toNat - 1)) := by
  have hroom := h.arg_lt
  obtain ⟨p, hp⟩ : ∃ p, pending.toNat = p + 1 := ⟨pending.toNat - 1, by have := h.1; omega⟩
  rw [residual, hp, Nat.add_sub_cancel, List.length_cons, List.take_succ_cons,
    List.drop_succ_cons, shift_in_toNat byte hroom, ofBE_cons]
  by_cases hlen : bs.length < p
  · rw [if_pos (by omega), if_pos hlen]
  · have htake : (bs.take p).length = p := by
      rw [List.length_take]
      omega
    rw [if_neg (by omega), if_neg hlen, htake]
    -- `arg * 256 ^ (p + 1) + (byte * 256 ^ p + rest)`, Horner's way
    congr 1
    ring

/-- One payload byte, at the residual: append it. -/
theorem residual_pay_cons (cfg : Config) (kind : Kind) (bytes : List UInt8) {pending : UInt64}
    (byte : UInt8) (bs : List UInt8) (h : 1 ≤ pending.toNat) :
    residual cfg (.Pay kind bytes pending) (byte :: bs) =
      if bs.length < pending.toNat - 1 then (none, [])
      else (some (.token (token_of kind 0 (bytes ++ [byte] ++ bs.take (pending.toNat - 1)))),
        bs.drop (pending.toNat - 1)) := by
  obtain ⟨p, hp⟩ : ∃ p, pending.toNat = p + 1 := ⟨pending.toNat - 1, by omega⟩
  rw [residual, hp, Nat.add_sub_cancel, List.length_cons, List.take_succ_cons,
    List.drop_succ_cons]
  by_cases hlen : bs.length < p
  · rw [if_pos (by omega), if_pos hlen]
  · rw [if_neg (by omega), if_neg hlen, List.append_assoc, List.singleton_append]

/-! ## The step law -/

/-- A scan result follows a batch decoder of the input after the byte: it hands
over to a sound state whose residual is that decoder, or it is its answer. -/
def Follows (cfg : Config) (dec : List UInt8 → Option Answer × List UInt8) :
    ScanResult → Prop
  | .Incomplete s => Sound s ∧ ∀ bs, dec bs = residual cfg s bs
  | .Complete _ token => ∀ bs, dec bs = (some (.token token), bs)
  | .Error e => ∀ bs, dec bs = (some (.error e), bs)

/-- Opening the body of a token. -/
theorem body_follows (cfg : Config) (kind : Kind) (n : UInt64) :
    Follows cfg (ref_body kind n.toNat)
      (if kind.is_string ∧ n.toNat ≠ 0 then .Incomplete (.Pay kind [] n)
        else .Complete .Head (Token.make kind n [])) := by
  by_cases hk : kind.is_string
  · by_cases h0 : n.toNat = 0
    · -- the empty string has no payload to wait for
      rw [if_neg (fun h => h.2 h0)]
      intro bs
      rw [ref_body_string hk, h0, if_neg (by omega), make_eq_token_of, h0]
      rfl
    · rw [if_pos ⟨hk, h0⟩]
      exact ⟨⟨hk, by omega⟩, fun bs => (residual_pay_nil cfg hk n bs).symm⟩
  · rw [if_neg (fun h => hk h.1)]
    intro bs
    rw [ref_body_of_not_string hk, make_eq_token_of]

theorem finish_argument_follows (cfg : Config) (kind : Kind) (arg : UInt64) :
    Follows cfg (ref_count cfg kind arg.toNat) (finish_argument cfg kind arg) := by
  rw [finish_argument_eq]
  by_cases hx : arg.toNat ≠ 0 ∧ Exceeds cfg kind arg.toNat
  · rw [if_pos hx]
    intro bs
    rw [ref_count, if_pos hx, UInt64.ofNat_toNat]
  · have hcount : ref_count cfg kind arg.toNat = ref_body kind arg.toNat := by
      funext bs
      rw [ref_count, if_neg hx]
    rw [if_neg hx, hcount]
    exact body_follows cfg kind arg

theorem head_follows (cfg : Config) (byte : UInt8) :
    Follows cfg (fun bs => ref cfg (byte :: bs)) ((head_form byte).result byte) := by
  simp only [ref]
  rcases hform : head_form byte with _ | token | ⟨kind, n⟩ | ⟨kind, width⟩
  · intro bs
    rfl
  · intro bs
    rfl
  · have h := body_follows cfg kind (.ofNat n)
    rwa [toNat_immediate hform] at h
  · have hw := Kind.width_bounds (valid_of_head_form hform)
    have hwidth := toNat_width hform
    -- the accumulator starts at zero, with all `width` bytes pending
    refine ⟨⟨by omega, by omega, ?_⟩, fun bs => ?_⟩
    · exact Nat.pow_pos (by norm_num)
    · simp only [residual, hwidth, UInt64.toNat_zero, Nat.zero_mul, Nat.zero_add]

/-- One byte in a sound state: the result follows the residual. -/
theorem ScanStep.follows {cfg : Config} {s left : ScanState} {byte : UInt8} {r : ScanResult}
    (h : ScanStep cfg byte s r left) (hs : Sound s) :
    Follows cfg (fun bs => residual cfg s (byte :: bs)) r := by
  rcases h with _ | @⟨kind, arg, pending, h2⟩ | ⟨kind, arg⟩ | @⟨kind, bytes, pending, h2⟩ |
    ⟨kind, bytes⟩
  · exact head_follows cfg byte
  · refine ⟨hs.arg_step byte h2, fun bs => ?_⟩
    dsimp only
    rw [residual_arg_cons cfg kind byte bs hs, residual, pending_pred hs.1]
  · -- no argument byte is left for the residual, so it is the verdict on the argument
    have hres : (fun bs => residual cfg (.Arg kind arg 1) (byte :: bs))
        = ref_count cfg kind (arg <<< 8 ||| byte.toUInt64).toNat := by
      funext bs
      rw [residual_arg_cons cfg kind byte bs hs, if_neg (by simp)]
      simp
    rw [hres]
    exact finish_argument_follows cfg kind _
  · obtain ⟨hk, h1⟩ := hs
    refine ⟨⟨hk, ?_⟩, fun bs => ?_⟩
    · rw [pending_pred h1]
      omega
    · dsimp only
      rw [residual_pay_cons cfg kind bytes byte bs h1, residual, pending_pred h1]
  · -- and no payload byte is left here
    intro bs
    dsimp only
    rw [residual_pay_cons cfg kind bytes byte bs hs.2, if_neg (by simp), make_eq_token_of]
    simp

/-- The scanner computes the reference decoder, state by state. -/
theorem scan_decodes (cfg : Config) : Decodes (scan_outcome cfg) Sound (residual cfg) where
  nil := by
    rintro (_ | ⟨kind, arg, pending⟩ | ⟨kind, bytes, pending⟩) hs
    · rfl
    · exact if_pos hs.1
    · exact if_pos hs.2
  cons := by
    intro s byte hs
    obtain ⟨r, left, hscan, hstep⟩ := hs.scan_step cfg byte
    have hr := hstep.follows hs
    rcases r with s' | ⟨s', token⟩ | e
    · exact .inl ⟨s', by rw [scan_outcome, hscan], hr⟩
    · exact .inr ⟨.token token, by rw [scan_outcome, hscan], hr⟩
    · exact .inr ⟨.error e, by rw [scan_outcome, hscan], hr⟩

/-- A scan from `Head` stops where the reference decoder has an answer. -/
theorem feed_of_ref {cfg : Config} {bs rest : List UInt8} {r : Answer}
    (h : ref cfg bs = (some r, rest)) :
    feed (scan_outcome cfg) .Head bs = some (.stop r, rest) :=
  (scan_decodes cfg).feed_of_answer (s := .Head) trivial h

/-! ## Incremental scanning is one-shot decoding -/

/-- The answer a scan result carries. -/
def ScanResult.answer : ScanResult → Option Answer
  | .Incomplete _ => none
  | .Complete _ token => some (.token token)
  | .Error e => some (.error e)

/-- From a sound state, feeding a byte string in any chunks gives the answer of
the residual decoder and stops at the same byte. -/
theorem scan_chunks_eq_residual (cfg : Config) {s : ScanState} (hs : Sound s)
    (chunks : List (List UInt8)) :
    ∃ r, scan_chunks cfg s chunks = some (r, (residual cfg s chunks.flatten).2) ∧
      r.answer = (residual cfg s chunks.flatten).1 ∧
      (∀ s', r = .Incomplete s' → Sound s') ∧ ∀ s' token, r = .Complete s' token → s' = .Head := by
  obtain ⟨o, hfeed, hans, hinv⟩ := (scan_decodes cfg).feed_eq chunks.flatten s hs
  refine ⟨result_of o, ?_, ?_, ?_, ?_⟩
  · rw [scan_chunks_eq_feed, hfeed]
    rfl
  · rw [← hans]
    rcases o with s' | (token | e) <;> rfl
  · rcases o with s' | (token | e)
    · rintro s₂ ⟨⟩
      exact hinv s' rfl
    · exact fun _ h => nomatch h
    · exact fun _ h => nomatch h
  · rcases o with s' | (token | e)
    · exact fun _ _ h => nomatch h
    · rintro s' t ⟨⟩
      rfl
    · exact fun _ _ h => nomatch h

/-- Incremental scanning is one-shot decoding. For every setting of the limits
and every chunking of a byte string, feeding the chunks in turn to the range
scan from `Head` never aborts, answers what the reference decoder answers on
the whole string (`Incomplete` for "more input needed"), leaves exactly the
bytes unread that the reference decoder leaves over, and is back at `Head` when
it completes a token. -/
theorem scan_chunks_eq_ref (cfg : Config) (chunks : List (List UInt8)) :
    ∃ r, scan_chunks cfg .Head chunks = some (r, (ref cfg chunks.flatten).2) ∧
      r.answer = (ref cfg chunks.flatten).1 ∧
      ∀ s token, r = .Complete s token → s = .Head := by
  obtain ⟨r, hscan, hans, -, hhead⟩ := scan_chunks_eq_residual cfg (s := .Head) trivial chunks
  exact ⟨r, hscan, hans, hhead⟩

end GlviCbor
