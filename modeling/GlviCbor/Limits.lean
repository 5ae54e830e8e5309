/-
Are the configured limits enforced?

`README.md` ("Information security") and the comments of the four `*_count_max`
variables promise that a definite-length token over its limit is rejected. The
scanner compares a count with its limit in one place, `finish_argument`, i.e.
only when the count came in bytes of its own. A count of at most 23 inside the
initial byte reaches `token_array`, `token_map` or `gather_bytes` unchecked.

`within_limits_iff` makes that exact for whole runs: everything the scanner
produces before its first error respects the limits if and only if no head byte
read on the way carries an immediate count over its limit.
-/
import GlviCbor.Reference

set_option autoImplicit false

namespace GlviCbor

open Machine

/-! ## What it means to respect the limits -/

/-- The argument of a token: its number or count, the length of a string. -/
def Token.argument : Token → ℕ
  | .Uint v | .Nint v | .Array v | .Map v | .Tag v | .Float v => v.toNat
  | .Bstr payload | .Tstr payload => payload.length
  | .Simple v => v.toNat
  | .BstrX | .TstrX | .ArrayX | .MapX | .Break => 0

/-- The count of a token is not over the limit of its kind. Only `Bstr`, `Tstr`,
`Array` and `Map` have one. -/
def Token.Within (cfg : Config) (token : Token) : Prop := ¬ Exceeds cfg token.kind token.argument

/-- An unfinished payload will not grow over the limit of its kind. -/
def ScanState.Within (cfg : Config) : ScanState → Prop
  | .Head => True
  | .Arg _ _ _ => True
  | .Pay kind bytes pending => ¬ Exceeds cfg kind (bytes.length + pending.toNat)

/-- A scan result respects the limits; an error does by being one. -/
def ScanResult.Within (cfg : Config) : ScanResult → Prop
  | .Incomplete s => s.Within cfg
  | .Complete _ token => token.Within cfg
  | .Error _ => True

instance (cfg : Config) : DecidablePred (Token.Within cfg) := fun token =>
  inferInstanceAs (Decidable (¬ Exceeds cfg token.kind token.argument))

instance (cfg : Config) : DecidablePred (ScanState.Within cfg) := fun s =>
  match s with
  | .Head => inferInstanceAs (Decidable True)
  | .Arg _ _ _ => inferInstanceAs (Decidable True)
  | .Pay kind bytes pending =>
    inferInstanceAs (Decidable (¬ Exceeds cfg kind (bytes.length + pending.toNat)))

instance (cfg : Config) : DecidablePred (ScanResult.Within cfg) := fun r =>
  match r with
  | .Incomplete s => inferInstanceAs (Decidable (s.Within cfg))
  | .Complete _ token => inferInstanceAs (Decidable (token.Within cfg))
  | .Error _ => inferInstanceAs (Decidable True)

theorem not_exceeds_zero (cfg : Config) (kind : Kind) : ¬ Exceeds cfg kind 0 := by
  rintro ⟨l, -, hl⟩
  omega

/-- A made token respects the limits when its count does: the payload's length
for a string, the argument for everything else. -/
theorem within_make {cfg : Config} {kind : Kind} {argument : UInt64} {payload : List UInt8} :
    (Token.make kind argument payload).Within cfg ↔
      ¬ Exceeds cfg kind (if kind.is_string then payload.length else argument.toNat) := by
  -- both sides say the same for the four limited kinds, and hold for the others
  have hfree : ∀ {k : Kind} {n : ℕ}, cfg.limit k = none → ¬ Exceeds cfg k n := by
    rintro k n hk ⟨l, hl, -⟩
    rw [hk] at hl
    exact nomatch hl
  rcases kind <;> first | exact Iff.rfl | exact iff_of_true (hfree rfl) (hfree rfl)

/-! ## The unchecked path -/

/-- The scanner is at a head byte whose own five low bits are a count over the
limit of its kind: `0x41` to `0x57`, `0x61` to `0x77`, `0x81` to `0x97` or
`0xa1` to `0xb7` under a limit below 23. -/
def ImmediateExcess (cfg : Config) (s : ScanState) (byte : UInt8) : Prop :=
  s = .Head ∧ info byte < 24 ∧ Exceeds cfg (kind_of_major (major byte)) (info byte)

instance (cfg : Config) (s : ScanState) (byte : UInt8) :
    Decidable (ImmediateExcess cfg s byte) :=
  inferInstanceAs (Decidable (_ ∧ _ ∧ _))

/-- In terms of the head table: an immediate entry whose number is over. -/
theorem immediateExcess_head_iff {cfg : Config} {byte : UInt8} :
    ImmediateExcess cfg .Head byte ↔
      ∃ kind n, head_form byte = .immediate kind n ∧ Exceeds cfg kind n := by
  constructor
  · rintro ⟨-, hinfo, hx⟩
    exact ⟨_, _, if_pos hinfo, hx⟩
  · rintro ⟨kind, n, hform, hx⟩
    unfold head_form at hform
    by_cases hinfo : info byte < 24
    · rw [if_pos hinfo] at hform
      injection hform with hk hn
      subst hk hn
      exact ⟨rfl, hinfo, hx⟩
    · rw [if_neg hinfo] at hform
      split_ifs at hform
      split at hform <;> exact nomatch hform

/-! ## One step -/

/-- Opening the body of a token whose count is `n`: within the limits exactly
when `n` is. -/
theorem body_within (cfg : Config) (kind : Kind) (n : UInt64) :
    (if kind.is_string ∧ n.toNat ≠ 0 then ScanResult.Incomplete (.Pay kind [] n)
        else .Complete .Head (Token.make kind n [])).Within cfg ↔
      ¬ Exceeds cfg kind n.toNat := by
  by_cases hk : kind.is_string
  · by_cases h0 : n.toNat = 0
    · -- the empty string, within every limit
      rw [if_neg (fun h => h.2 h0)]
      simp [ScanResult.Within, within_make, hk, h0, not_exceeds_zero]
    · rw [if_pos ⟨hk, h0⟩]
      simp [ScanResult.Within, ScanState.Within]
  · rw [if_neg (fun h => hk h.1)]
    simp [ScanResult.Within, within_make, hk]

theorem head_within_iff {cfg : Config} {byte : UInt8} :
    ((head_form byte).result byte).Within cfg ↔ ¬ ImmediateExcess cfg .Head byte := by
  rw [immediateExcess_head_iff]
  rcases hform : head_form byte with _ | token | ⟨kind, n⟩ | ⟨kind, width⟩
  · simp [HeadForm.result, ScanResult.Within]
  · have hcount : token.argument = 0 := by
      rcases indefinite_cases hform with rfl | rfl | rfl | rfl | rfl <;> rfl
    simp [HeadForm.result, ScanResult.Within, Token.Within, hcount, not_exceeds_zero]
  · have h := body_within cfg kind (.ofNat n)
    rw [toNat_immediate hform] at h
    rw [HeadForm.result, h]
    simp
  · simp [HeadForm.result, ScanResult.Within, ScanState.Within]

theorem finish_argument_within (cfg : Config) (kind : Kind) (arg : UInt64) :
    (finish_argument cfg kind arg).Within cfg := by
  rw [finish_argument_eq]
  by_cases hx : arg.toNat ≠ 0 ∧ Exceeds cfg kind arg.toNat
  · rw [if_pos hx]
    trivial
  · -- the check has passed, and what it opens has the checked count
    rw [if_neg hx]
    refine (body_within cfg kind arg).mpr fun h => ?_
    by_cases h0 : arg.toNat = 0
    · exact not_exceeds_zero cfg kind (h0 ▸ h)
    · exact hx ⟨h0, h⟩

/-- One byte from a sound state within the limits: the result is within them
unless the byte is an oversized immediate head. -/
theorem ScanStep.within_iff {cfg : Config} {s left : ScanState} {byte : UInt8} {r : ScanResult}
    (h : ScanStep cfg byte s r left) (hs : Sound s) (hw : s.Within cfg) :
    r.Within cfg ↔ ¬ ImmediateExcess cfg s byte := by
  rcases h with _ | @⟨kind, arg, pending, h2⟩ | ⟨kind, arg⟩ | @⟨kind, bytes, pending, h2⟩ |
    ⟨kind, bytes⟩
  · exact head_within_iff
  · exact iff_of_true trivial fun hx => nomatch hx.1
  · exact iff_of_true (finish_argument_within cfg kind _) fun hx => nomatch hx.1
  · -- the byte moves from `pending` to `bytes`: the sum the limit is held against stays
    refine iff_of_true ?_ fun hx => nomatch hx.1
    rw [ScanResult.Within, ScanState.Within, length_concat_pending bytes byte hs.2]
    exact hw
  · have hlen : (bytes ++ [byte]).length = bytes.length + (1 : UInt64).toNat :=
      length_concat_pending bytes byte hs.2
    refine iff_of_true ?_ fun hx => nomatch hx.1
    rw [ScanResult.Within, within_make, if_pos hs.1, hlen]
    exact hw

/-! ## Whole runs, up to the first error -/

/-- Feeding `scan` byte by byte: the result, and the state to continue from
unless the result is an error. -/
def scan_next (cfg : Config) (s : ScanState) (byte : UInt8) : Option (ScanResult × ScanState) :=
  match scan cfg s byte with
  | some (.Incomplete s', _) => some (.Incomplete s', s')
  | some (.Complete s' token, _) => some (.Complete s' token, s')
  -- the run is over at an error
  | _ => none

/-- The steps of a run up to its first error. -/
abbrev scan_steps (cfg : Config) (bs : List UInt8) : List (Step ScanState UInt8 ScanResult) :=
  trace (scan_next cfg) .Head bs

/-- One step of a run: it is good or bad with the byte it reads, and after a
good one the state is sound and within the limits again. -/
theorem scan_next_within {cfg : Config} {s s' : ScanState} {byte : UInt8} {r : ScanResult}
    (hs : Sound s) (hw : s.Within cfg) (h : scan_next cfg s byte = some (r, s')) :
    (r.Within cfg ↔ ¬ ImmediateExcess cfg s byte) ∧
      (r.Within cfg → Sound s' ∧ s'.Within cfg) := by
  obtain ⟨r₁, left, hscan, hstep⟩ := hs.scan_step cfg byte
  have hwithin := hstep.within_iff hs hw
  have hfollows := hstep.follows hs
  rw [scan_next, hscan] at h
  rcases r₁ with s₁ | ⟨s₁, token⟩ | e
  · obtain ⟨rfl, rfl⟩ : .Incomplete s₁ = r ∧ s₁ = s' := by simpa using h
    exact ⟨hwithin, fun hr => ⟨hfollows.1, hr⟩⟩
  · obtain ⟨rfl, rfl⟩ : .Complete s₁ token = r ∧ s₁ = s' := by simpa using h
    obtain rfl := scan_complete_state hscan
    exact ⟨hwithin, fun _ => ⟨trivial, trivial⟩⟩
  · exact nomatch h

/-- The limits are enforced exactly where no immediate count is over them. For
every setting and every byte string fed from `Head`, every token completed and
every payload state reached before the first error respects its limit if and
only if no head byte on the way has an immediate count over its limit. -/
theorem within_limits_iff (cfg : Config) (bs : List UInt8) :
    (∀ st ∈ scan_steps cfg bs, st.output.Within cfg) ↔
      ∀ st ∈ scan_steps cfg bs, ¬ ImmediateExcess cfg st.before st.input := by
  obtain ⟨t, hrun⟩ := run_trace (scan_next cfg) .Head bs
  refine hrun.forall_iff (fun s => Sound s ∧ s.Within cfg) ?_ ?_ ⟨trivial, trivial⟩
  · rintro st hstep ⟨hs, hw⟩
    exact (scan_next_within hs hw hstep).1
  · rintro st hstep ⟨hs, hw⟩ hguard
    obtain ⟨hiff, hnext⟩ := scan_next_within hs hw hstep
    exact hnext (hiff.mpr hguard)

/-- With all four limits at 1, the two-byte string `0x42 0x01 0x02` becomes a
token, and the scanner waits for its payload in a state over the limit. -/
theorem limits_not_enforced :
    ¬ ∀ st ∈ scan_steps ⟨1, 1, 1, 1⟩ [0x42, 0x01, 0x02], st.output.Within ⟨1, 1, 1, 1⟩ := by
  decide +kernel

end GlviCbor
