/-
The language of the scanner: which byte streams it takes without an error.

`Encode` says that well-formed encodings are scanned; this is the other half. What
the reference decoder makes a token of is one of the encodings of that token
(`ref_eq_token_iff`), so a stream that is scanned without an error up to `Head` is a
concatenation of encodings, in one way only. A limit is part of the language in the
forms it is checked in: where the argument has bytes of its own.
-/
import GlviCbor.Lexer

set_option autoImplicit false

namespace GlviCbor

open Machine BigEndian

/-! ## Heads, read backwards -/

/-- A byte is its major type and its additional information. -/
theorem head_byte_major_info (byte : UInt8) : head_byte (major byte) (info byte) = byte := by
  rw [head_byte, major, info, Nat.div_add_mod', UInt8.ofNat_toNat]

theorem major_lt (byte : UInt8) : major byte < 8 := by
  have hb := byte.toNat_lt
  unfold major
  omega

theorem indefinite_token_major {m : ℕ} {token : Token} (h : indefinite_token m = some token) :
    token.is_indefinite ∧ token.major = m := by
  unfold indefinite_token at h
  split at h <;> simp only [reduceCtorEq, Option.some.injEq] at h <;> subst h <;>
    exact ⟨rfl, rfl⟩

theorem head_byte_of_indefinite {byte : UInt8} {token : Token}
    (h : head_form byte = .indefinite token) :
    token.is_indefinite ∧ byte = head_byte token.major 31 := by
  unfold head_form at h
  split_ifs at h with _ _ hinfo
  split at h
  · next token' htoken =>
    injection h with h
    subst h
    obtain ⟨hx, hm⟩ := indefinite_token_major htoken
    rw [hm, ← hinfo, head_byte_major_info]
    exact ⟨hx, rfl⟩
  · cases h

theorem head_byte_of_immediate {byte : UInt8} {kind : Kind} {n : ℕ}
    (h : head_form byte = .immediate kind n) :
    n < 24 ∧ ∃ m < 8, kind = kind_of_major m ∧ byte = head_byte m n := by
  have hbyte := head_byte_major_info byte
  unfold head_form at h
  split_ifs at h with hinfo
  · injection h with hkind hn
    subst hkind hn
    exact ⟨hinfo, major byte, major_lt byte, rfl, hbyte.symm⟩
  · split at h <;> cases h

/-- The additional information 24 to 27 is that of a form with argument bytes. -/
theorem head_byte_of_argument {byte : UInt8} {kind : Kind} {width : ℕ}
    (h : head_form byte = .argument kind width) :
    ∃ form : ArgForm, form ≠ .immediate ∧ width = form.width ∧
      ∃ m < 8, (∀ n, kind = argument_kind m (form.info n)) ∧
        ∀ n, byte = head_byte m (form.info n) := by
  have hbyte := head_byte_major_info byte
  unfold head_form at h
  split_ifs at h with hinfo hinfo₂
  · injection h with hkind hwidth
    subst hkind hwidth
    have hcases : info byte = 24 ∨ info byte = 25 ∨ info byte = 26 ∨ info byte = 27 := by omega
    have hform : ∃ form : ArgForm, form ≠ .immediate ∧ 2 ^ (info byte - 24) = form.width ∧
        ∀ n, form.info n = info byte := by
      rcases hcases with h | h | h | h <;> rw [h]
      · exact ⟨.one, by decide, rfl, fun _ => rfl⟩
      · exact ⟨.two, by decide, rfl, fun _ => rfl⟩
      · exact ⟨.four, by decide, rfl, fun _ => rfl⟩
      · exact ⟨.eight, by decide, rfl, fun _ => rfl⟩
    obtain ⟨form, hne, hwidth, hinfo⟩ := hform
    refine ⟨form, hne, hwidth, major byte, major_lt byte, ?_, ?_⟩
    · intro n
      rw [hinfo n]
    · intro n
      rw [hinfo n]
      exact hbyte.symm
  · split at h <;> cases h

/-! ## Tokens, read backwards -/

/-- A body ends with the payload of its token. -/
theorem payload_of_ref_body {kind : Kind} {n : ℕ} {bs rest : List UInt8} {token : Token}
    (h : ref_body kind n bs = (some (.token token), rest)) :
    ∃ payload, token = token_of kind n payload ∧ bs = payload ++ rest ∧
      (kind.is_string → payload.length = n) ∧ (¬ kind.is_string → payload = []) := by
  unfold ref_body at h
  by_cases hk : kind.is_string
  · rw [if_pos hk] at h
    split_ifs at h with hlen
    · simp at h
    · simp only [Prod.mk.injEq, Option.some.injEq, Answer.token.injEq] at h
      obtain ⟨rfl, rfl⟩ := h
      refine ⟨bs.take n, rfl, (List.take_append_drop n bs).symm, ?_, ?_⟩
      · intro _
        rw [List.length_take]
        omega
      · intro hno
        exact absurd hk hno
  · rw [if_neg hk] at h
    simp only [Prod.mk.injEq, Option.some.injEq, Answer.token.injEq] at h
    obtain ⟨rfl, rfl⟩ := h
    exact ⟨[], rfl, rfl, fun h => absurd h hk, fun _ => rfl⟩

/-- The kinds that a head can announce with an argument. -/
def Kind.has_argument : Kind → Bool
  | .BstrX | .TstrX | .ArrayX | .MapX | .Break => false
  | _ => true

/-- The bound on the argument of a kind. -/
def Kind.argument_bound : Kind → ℕ
  | .Simple => 2 ^ 8
  | _ => 2 ^ 64

/-- What a token was made of can be read off it. -/
theorem parts_of_token_of {kind : Kind} {n : ℕ} {payload : List UInt8} (ha : kind.has_argument)
    (hn : n < kind.argument_bound) (hlen : kind.is_string → payload.length = n)
    (hpay : ¬ kind.is_string → payload = []) :
    (token_of kind n payload).kind = kind ∧ (token_of kind n payload).argument = n ∧
      (token_of kind n payload).payload = payload ∧
      ¬ (token_of kind n payload).is_indefinite := by
  rcases kind <;> simp [Kind.has_argument] at ha <;>
    simp_all [Kind.is_string, Kind.argument_bound, token_of, Token.kind, Token.argument,
      Token.payload, Token.is_indefinite, Nat.mod_eq_of_lt]

/-- A form that can hold the argument is admitted, but for simple values and floats,
which have forms of their own. -/
theorem admits_of_fits {token : Token} {form : ArgForm} (hx : ¬ token.is_indefinite)
    (hsimple : token.kind = .Simple → form = .one ∨ form = .immediate)
    (hfloat : token.kind = .Float → form = .two ∨ form = .four ∨ form = .eight)
    (hfits : form.Fits token.argument) : token.Admits form := by
  rcases token with _ | _ | _ | _ | _ | _ | _ | _ | _ | _ | _ | v | v | _ <;>
    simp [Token.is_indefinite] at hx
  case Simple =>
    rcases hsimple rfl with rfl | rfl
    · exact .inl rfl
    · exact .inr ⟨rfl, hfits⟩
  case Float => exact ⟨hfloat rfl, hfits⟩
  all_goals exact hfits

/-- What the major types have in common. -/
theorem kind_of_major_spec {m : ℕ} (hm : m < 8) :
    (kind_of_major m).has_argument ∧ kind_of_major m ≠ .Float ∧
      ∀ n payload, (token_of (kind_of_major m) n payload).major = m := by
  interval_cases m <;> exact ⟨rfl, by decide, fun _ _ => rfl⟩

theorem argument_kind_spec {m i : ℕ} (hm : m < 8) :
    (argument_kind m i).has_argument ∧ (argument_kind m i = .Simple → i = 24) ∧
      (argument_kind m i = .Float → i ≠ 24) ∧
      ∀ n payload, (token_of (argument_kind m i) n payload).major = m := by
  obtain ⟨harg, hfloat, hmajor⟩ := kind_of_major_spec hm
  unfold argument_kind
  by_cases h : m = 7 ∧ i ≠ 24
  · rw [if_pos h]
    exact ⟨rfl, (by rintro ⟨⟩), fun _ => h.2, fun _ _ => h.1.symm⟩
  · rw [if_neg h]
    refine ⟨harg, ?_, fun hk => absurd hk hfloat, hmajor⟩
    intro hk
    by_contra hi
    -- only major type 7 has the simple values
    have hm7 : m = 7 := by
      interval_cases m <;> first | rfl | exact absurd hk (by decide)
    exact h ⟨hm7, hi⟩

/-! ## The decoder takes encodings only -/

/-- The form a token may be scanned in: the limit is looked at where the argument has
bytes of its own. -/
def Token.Accepted (cfg : Config) (token : Token) (form : ArgForm) : Prop :=
  token.Admits form ∧ (form = .immediate ∨ token.Within cfg)

/-- Without an argument in bytes of its own, the limits are not looked at. -/
theorem ref_immediate_congr (cfg cfg' : Config) {byte : UInt8} (bs : List UInt8)
    (h : ∀ kind width, head_form byte ≠ .argument kind width) :
    ref cfg (byte :: bs) = ref cfg' (byte :: bs) := by
  rcases hform : head_form byte with _ | token | ⟨kind, n⟩ | ⟨kind, width⟩
  · simp only [ref, hform]
  · simp only [ref, hform]
  · simp only [ref, hform]
  · exact absurd hform (h kind width)

/-- No limit is over anything. -/
theorem within_no_limits (token : Token) : token.Within ⟨0, 0, 0, 0⟩ := by
  rintro ⟨l, hl, -⟩
  rcases token <;> cases hl

theorem ref_accepted {cfg : Config} {token : Token} {form : ArgForm}
    (h : token.Accepted cfg form) (rest : List UInt8) :
    ref cfg (encode token form ++ rest) = (some (.token token), rest) := by
  obtain ⟨hadmits, rfl | hw⟩ := h
  · -- unlimited, this is the round trip; and the limits make no difference
    have href := ref_encode ⟨0, 0, 0, 0⟩ hadmits (within_no_limits token) rest
    rw [← href]
    by_cases hx : token.is_indefinite
    · rw [encode, if_pos hx, List.singleton_append]
      apply ref_immediate_congr
      intro kind width hform
      rw [head_form_indefinite hx] at hform
      cases hform
    · rw [encode, if_neg hx, List.cons_append]
      apply ref_immediate_congr
      intro kind width hform
      rw [ArgForm.info, head_form_immediate token.major_lt (hadmits.immediate hx).1] at hform
      cases hform
  · exact ref_encode cfg hadmits hw rest

/-- The immediate case: the whole argument is in the head byte. -/
theorem accepted_immediate (cfg : Config) {m n : ℕ} {payload : List UInt8} (hm : m < 8)
    (hn : n < 24) (hlen : (kind_of_major m).is_string → payload.length = n)
    (hpay : ¬ (kind_of_major m).is_string → payload = []) :
    (token_of (kind_of_major m) n payload).Accepted cfg .immediate ∧
      encode (token_of (kind_of_major m) n payload) .immediate = head_byte m n :: payload := by
  obtain ⟨harg, hfloat, hmajor⟩ := kind_of_major_spec hm
  have hbound : n < (kind_of_major m).argument_bound := by
    have h8 : 2 ^ 8 ≤ (kind_of_major m).argument_bound := by
      interval_cases m <;> decide
    omega
  obtain ⟨hkind, hargument, hpayload, hx⟩ := parts_of_token_of harg hbound hlen hpay
  refine ⟨⟨?_, .inl rfl⟩, ?_⟩
  · refine admits_of_fits hx (fun _ => .inr rfl) (fun hk => absurd (hkind ▸ hk) hfloat) ?_
    rw [hargument]
    exact hn
  · rw [encode, if_neg hx, hmajor, hargument, hpayload]
    rfl

/-- A form other than the immediate one is told by its additional information. -/
theorem ArgForm.info_eq_24_iff {form : ArgForm} (h : form ≠ .immediate) (n : ℕ) :
    form.info n = 24 ↔ form = .one := by
  rcases form with _ | _ | _ | _ | _
  · exact absurd rfl h
  all_goals simp [ArgForm.info]

theorem ArgForm.fits_of_lt {form : ArgForm} (h : form ≠ .immediate) {n : ℕ}
    (hn : n < 256 ^ form.width) : form.Fits n := by
  rcases form with _ | _ | _ | _ | _
  · exact absurd rfl h
  all_goals exact hn

/-- The other case: the argument is `ofBE` of the bytes behind the head. -/
theorem accepted_argument {cfg : Config} {m : ℕ} {form : ArgForm} {arg payload : List UInt8}
    (hm : m < 8) (hform : form ≠ .immediate) (harg : arg.length = form.width)
    (hlen : (argument_kind m (form.info (ofBE arg))).is_string → payload.length = ofBE arg)
    (hpay : ¬ (argument_kind m (form.info (ofBE arg))).is_string → payload = [])
    (hlimit : ¬ Exceeds cfg (argument_kind m (form.info (ofBE arg))) (ofBE arg)) :
    (token_of (argument_kind m (form.info (ofBE arg))) (ofBE arg) payload).Accepted cfg form ∧
      encode (token_of (argument_kind m (form.info (ofBE arg))) (ofBE arg) payload) form =
        head_byte m (form.info (ofBE arg)) :: (arg ++ payload) := by
  have hinfo := ArgForm.info_eq_24_iff hform (ofBE arg)
  obtain ⟨hhas, hsimple, hfloat, hmajor⟩ := argument_kind_spec (i := form.info (ofBE arg)) hm
  have hn := ofBE_lt arg
  rw [harg] at hn
  have hfits := ArgForm.fits_of_lt hform hn
  generalize hkind : argument_kind m (form.info (ofBE arg)) = kind at *
  have hbound : ofBE arg < kind.argument_bound := by
    have hwide : 256 ^ form.width ≤ 2 ^ 64 := by
      rcases form <;> decide
    by_cases hk : kind = .Simple
    · -- a simple value has one argument byte
      have hone := hinfo.mp (hsimple hk)
      subst hk hone
      exact hn
    · have h64 : kind.argument_bound = 2 ^ 64 := by
        rcases kind <;> first | rfl | exact absurd rfl hk
      omega
  obtain ⟨hk, hargument, hpayload, hx⟩ := parts_of_token_of hhas hbound hlen hpay
  refine ⟨⟨?_, .inr ?_⟩, ?_⟩
  · refine admits_of_fits hx (fun h => .inl (hinfo.mp (hsimple (hk ▸ h)))) ?_ ?_
    · intro h
      have hne : form ≠ .one := mt hinfo.mpr (hfloat (hk ▸ h))
      rcases form <;> simp_all
    · rw [hargument]
      exact hfits
  · rw [Token.Within, hk, hargument]
    exact hlimit
  · rw [encode, if_neg hx, hmajor, hargument, hpayload, ← harg, toBE_ofBE]

theorem accepted_of_ref {cfg : Config} {bs rest : List UInt8} {token : Token}
    (h : ref cfg bs = (some (.token token), rest)) :
    ∃ form, token.Accepted cfg form ∧ bs = encode token form ++ rest := by
  rcases bs with _ | ⟨byte, bs⟩
  · simp [ref] at h
  rcases hform : head_form byte with _ | t | ⟨kind, n⟩ | ⟨kind, width⟩ <;>
    simp only [ref, hform] at h
  · simp at h
  · simp only [Prod.mk.injEq, Option.some.injEq, Answer.token.injEq] at h
    obtain ⟨rfl, rfl⟩ := h
    obtain ⟨hx, hbyte⟩ := head_byte_of_indefinite hform
    refine ⟨.immediate, ⟨?_, .inl rfl⟩, ?_⟩
    · rcases t <;> simp [Token.is_indefinite] at hx <;> rfl
    · rw [encode, if_pos hx, hbyte, List.singleton_append]
  · obtain ⟨hn, m, hm, rfl, rfl⟩ := head_byte_of_immediate hform
    obtain ⟨payload, rfl, rfl, hlen, hpay⟩ := payload_of_ref_body h
    obtain ⟨haccepted, hencode⟩ := accepted_immediate cfg hm hn hlen hpay
    exact ⟨.immediate, haccepted, by rw [hencode, List.cons_append]⟩
  · obtain ⟨form, hne, rfl, m, hm, hkind, hbyte⟩ := head_byte_of_argument hform
    split_ifs at h with hlen
    · simp at h
    have htake : (bs.take form.width).length = form.width := by
      rw [List.length_take]
      omega
    obtain rfl := hkind (ofBE (bs.take form.width))
    unfold ref_count at h
    split_ifs at h with hx
    · simp at h
    -- the count has passed the check, or is zero
    have hlimit : ¬ Exceeds cfg (argument_kind m (form.info (ofBE (bs.take form.width))))
        (ofBE (bs.take form.width)) := by
      intro hex
      refine hx ⟨?_, hex⟩
      intro h0
      exact not_exceeds_zero cfg _ (h0 ▸ hex)
    obtain ⟨payload, rfl, hrest, hlen, hpay⟩ := payload_of_ref_body h
    obtain ⟨haccepted, hencode⟩ := accepted_argument hm hne htake hlen hpay hlimit
    refine ⟨form, haccepted, ?_⟩
    rw [hencode, ← hbyte, List.cons_append, List.append_assoc, ← hrest, List.take_append_drop]

/-- The reference decoder takes the encodings of the tokens and nothing else. -/
theorem ref_eq_token_iff {cfg : Config} {bs rest : List UInt8} {token : Token} :
    ref cfg bs = (some (.token token), rest) ↔
      ∃ form, token.Accepted cfg form ∧ bs = encode token form ++ rest := by
  constructor
  · exact accepted_of_ref
  · rintro ⟨form, h, rfl⟩
    exact ref_accepted h rest

/-! ## Streams of encodings -/

/-- A wire form that the scanner takes under the limits. -/
def Wire.Accepted (cfg : Config) (w : Wire) : Prop := w.form = .immediate ∨ w.token.Within cfg

instance (cfg : Config) : DecidablePred (Wire.Accepted cfg) := fun w =>
  inferInstanceAs (Decidable (w.form = .immediate ∨ w.token.Within cfg))

/-- The form can be read off the head byte. -/
theorem ArgForm.info_injective {n : ℕ} {form form' : ArgForm} (h : form.info n = form'.info n)
    (hn : form = .immediate ∨ form' = .immediate → n < 24) : form = form' := by
  rcases form <;> rcases form' <;> simp_all [ArgForm.info]
  all_goals omega

theorem ArgForm.info_lt {n : ℕ} {form : ArgForm} (h : form = .immediate → n < 24) :
    form.info n < 32 := by
  rcases form with _ | _ | _ | _ | _
  · have hn := h rfl
    simp only [ArgForm.info]
    omega
  all_goals simp [ArgForm.info]

theorem form_of_encode {token : Token} {form form' : ArgForm} (h : token.Admits form)
    (h' : token.Admits form') (heq : encode token form = encode token form') : form = form' := by
  by_cases hx : token.is_indefinite
  · rcases token <;> simp [Token.is_indefinite] at hx <;> exact Eq.trans h (Eq.symm h')
  · have himm : ∀ {f : ArgForm}, token.Admits f → f = .immediate → token.argument < 24 := by
      rintro f hf rfl
      exact (hf.immediate hx).1
    rw [encode, encode, if_neg hx, if_neg hx, List.cons.injEq] at heq
    have hinfo := congrArg info heq.1
    rw [info_head_byte (ArgForm.info_lt (himm h)), info_head_byte (ArgForm.info_lt (himm h'))]
      at hinfo
    refine ArgForm.info_injective hinfo ?_
    rintro (h0 | h0)
    · exact himm h h0
    · exact himm h' h0

/-- An encoding in front of anything tells its token, its form and where it ends. -/
theorem Wire.bytes_append_injective {w w' : Wire} {bs bs' : List UInt8}
    (h : w.bytes ++ bs = w'.bytes ++ bs') : w = w' ∧ bs = bs' := by
  -- without limits the decoder undoes both encodings
  have href := ref_encode ⟨0, 0, 0, 0⟩ w.admits (within_no_limits w.token) bs
  have href' := ref_encode ⟨0, 0, 0, 0⟩ w'.admits (within_no_limits w'.token) bs'
  rw [← Wire.bytes] at href href'
  rw [h, href'] at href
  simp only [Prod.mk.injEq, Option.some.injEq, Answer.token.injEq] at href
  obtain ⟨htoken, rfl⟩ := href
  have hbytes := List.append_cancel_right h
  obtain ⟨token, form, hadmits⟩ := w
  obtain ⟨token', form', hadmits'⟩ := w'
  obtain rfl : token' = token := htoken
  obtain rfl := form_of_encode hadmits hadmits' hbytes
  exact ⟨rfl, rfl⟩

theorem Wire.bytes_ne_nil (w : Wire) : w.bytes ≠ [] := by
  unfold Wire.bytes encode
  split_ifs <;> simp

/-- A concatenation of encodings can be cut in one way only. -/
theorem flatMap_bytes_injective {ws ws' : List Wire}
    (h : ws.flatMap Wire.bytes = ws'.flatMap Wire.bytes) : ws = ws' := by
  induction ws generalizing ws' with
  | nil =>
    rcases ws' with _ | ⟨w', ws'⟩
    · rfl
    · rw [List.flatMap_nil, List.flatMap_cons, eq_comm, List.append_eq_nil_iff] at h
      exact absurd h.1 w'.bytes_ne_nil
  | cons w ws ih =>
    rcases ws' with _ | ⟨w', ws'⟩
    · rw [List.flatMap_nil, List.flatMap_cons, List.append_eq_nil_iff] at h
      exact absurd h.1 w.bytes_ne_nil
    · rw [List.flatMap_cons, List.flatMap_cons] at h
      obtain ⟨rfl, hrest⟩ := Wire.bytes_append_injective h
      rw [ih hrest]

/-! ## Streams without an error -/

theorem Scanner.scans_unique (cfg : Config) (scanner : Scanner) (byte : UInt8)
    (o₁ : Except ScanError (Option Token)) (s₁ : Scanner)
    (o₂ : Except ScanError (Option Token)) (s₂ : Scanner)
    (h₁ : Scanner.Scans cfg scanner byte o₁ s₁) (h₂ : Scanner.Scans cfg scanner byte o₂ s₂) :
    o₁ = o₂ ∧ s₁ = s₂ := by
  unfold Scanner.Scans at h₁ h₂
  rw [h₁] at h₂
  simpa using h₂

/-- A call without an answer leaves `Head`, or does not go back to it. -/
theorem Scanner.Call.ne_head {cfg : Config} {s s' : ScanState} {byte : UInt8}
    (h : Scanner.Call cfg s byte (.ok none) s') : s' ≠ .Head := by
  rcases h <;> rintro ⟨⟩

/-- One accepted encoding, from `Head` to `Head`. -/
theorem Wire.scan_accepted {cfg : Config} {w : Wire} (h : w.Accepted cfg) :
    Scanner.Replies cfg ⟨.Head⟩ w.bytes w.replies ⟨.Head⟩ := by
  have href : ref cfg w.bytes = (some (.token w.token), []) := by
    have hrest := ref_accepted ⟨w.admits, h⟩ []
    rwa [List.append_nil] at hrest
  have hitem : item cfg .Head w.bytes = (some (.token w.token, .Head), []) := by
    rw [item, href]
    rfl
  obtain ⟨seg, ⟨s'⟩, hseg, ⟨rfl, -⟩, hrun⟩ :=
    (scan_lexes cfg).item w.bytes ⟨.Head⟩ .Head ⟨rfl, trivial⟩ hitem
  rw [List.append_nil] at hseg
  subst hseg
  exact hrun

theorem scan_accepted_stream {cfg : Config} (ws : List Wire) (h : ∀ w ∈ ws, w.Accepted cfg) :
    Scanner.Replies cfg ⟨.Head⟩ (ws.flatMap Wire.bytes) (ws.flatMap Wire.replies) ⟨.Head⟩ := by
  induction ws with
  | nil => exact Responds.nil _
  | cons w ws ih =>
    rw [List.forall_mem_cons] at h
    rw [List.flatMap_cons, List.flatMap_cons]
    exact Responds.append (Wire.scan_accepted h.1) (ih h.2)

/-- An error is not among the replies to accepted encodings. -/
theorem error_notMem_replies (ws : List Wire) (e : ScanError) :
    .error e ∉ ws.flatMap Wire.replies := by
  simp [Wire.replies]

/-- A stream that ends at `Head` without an error is one of accepted encodings. The
induction is on the items: each is a token, and the stream does not end inside one. -/
theorem exists_wires {cfg : Config} (bs : List UInt8) :
    ∀ out, Scanner.Replies cfg ⟨.Head⟩ bs out ⟨.Head⟩ → (∀ e, .error e ∉ out) →
      ∃ ws : List Wire, (∀ w ∈ ws, w.Accepted cfg) ∧ ws.flatMap Wire.bytes = bs ∧
        ws.flatMap Wire.replies = out := by
  induction hn : bs.length using Nat.strongRecOn generalizing bs with
  | ind n ih =>
    intro out hrun hclean
    have hstart : (⟨.Head⟩ : Scanner).state = .Head ∧ Held .Head := ⟨rfl, trivial⟩
    have hfun := Scanner.scans_unique cfg
    rcases hdec : item cfg .Head bs with ⟨_ | ⟨a, s'⟩, rest⟩
    · obtain ⟨t', hquiet, hlast⟩ := (scan_lexes cfg).unfinished bs ⟨.Head⟩ .Head hstart hdec
      obtain ⟨rfl, rfl⟩ := Responds.unique hfun hrun hquiet
      by_cases hbs : bs = []
      · subst hbs
        exact ⟨[], by simp, rfl, rfl⟩
      · -- the last call had no answer, so it did not lead to `Head`
        obtain ⟨t₀, s₀, b, ⟨rfl, hheld⟩, hstep⟩ := hlast hbs
        exact absurd rfl (Scanner.call_of_scans hheld hstep).ne_head
    · have hlt := (item_decoder cfg).shorter .Head bs _ _ hdec
      obtain ⟨seg, ⟨s₁⟩, rfl, ⟨rfl, -⟩, hseg⟩ :=
        (scan_lexes cfg).item bs ⟨.Head⟩ .Head hstart hdec
      obtain ⟨t, os₁, os₂, h₁, h₂, rfl⟩ := responds_append.mp hrun
      obtain ⟨rfl, rfl⟩ := Responds.unique hfun h₁ hseg
      obtain ⟨href, hplace⟩ := with_place_eq_some hdec
      rcases a with token | e
      · obtain rfl : s₁ = .Head := hplace
        obtain ⟨form, ⟨hadmits, haccepted⟩, hbytes⟩ := accepted_of_ref href
        have hseg' : seg = encode token form := List.append_cancel_right hbytes
        obtain ⟨ws, hws, rfl, rfl⟩ := ih rest.length (by omega) rest rfl os₂ h₂
          fun e he => hclean e (List.mem_append_right _ he)
        refine ⟨⟨token, form, hadmits⟩ :: ws, ?_, ?_, ?_⟩
        · rw [List.forall_mem_cons]
          exact ⟨haccepted, hws⟩
        · rw [List.flatMap_cons, Wire.bytes, ← hseg']
        · rw [List.flatMap_cons, Wire.replies, Wire.bytes, ← hseg']
          rfl
      · refine absurd ?_ (hclean e)
        simp [reply_of]

/-- The language of the scanner. For every setting of the limits, a scanner goes from
`Head` to `Head` over a byte stream with these replies and without an error if and only
if the stream is a concatenation of encodings, each of them in the head byte alone or
within its limit, and the replies are those tokens, each at the last byte of its
encoding. There is one such list of encodings. -/
theorem clean_stream_iff (cfg : Config) (bs : List UInt8)
    (out : List (Except ScanError (Option Token))) :
    (Scanner.Replies cfg ⟨.Head⟩ bs out ⟨.Head⟩ ∧ ∀ e, .error e ∉ out) ↔
      ∃! ws : List Wire, (∀ w ∈ ws, w.Accepted cfg) ∧ ws.flatMap Wire.bytes = bs ∧
        ws.flatMap Wire.replies = out := by
  constructor
  · rintro ⟨hrun, hclean⟩
    obtain ⟨ws, hws, hbytes, hreplies⟩ := exists_wires bs out hrun hclean
    refine ⟨ws, ⟨hws, hbytes, hreplies⟩, ?_⟩
    rintro ws' ⟨-, hbytes', -⟩
    exact flatMap_bytes_injective (hbytes'.trans hbytes.symm)
  · rintro ⟨ws, ⟨hws, rfl, rfl⟩, -⟩
    exact ⟨scan_accepted_stream ws hws, error_notMem_replies ws⟩

end GlviCbor
