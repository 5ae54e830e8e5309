/-
One call of `Scanner::scan`, errors included.

`Sound` speaks of the states on the way to a token. A scanner that goes on after
an `Excessive` leaves them: its `Arg` has nothing pending, and `pending -= 1`
wraps. `Held` is what is left of the invariant then, and `Scanner.Call` lists
what one byte can do under it, eleven cases in all. Nothing after this module
looks into `scan`: what holds of every call is a case analysis on `Call`, and what
holds of every run an induction over that.
-/
import GlviCbor.ScannerErrors
import GlviCbor.Limits

set_option autoImplicit false

namespace GlviCbor

open Machine

/-! ## Every state a scanner can hold -/

/-- The invariant that survives errors: an `Arg` is arbitrary, a `Pay` is a
string's and waits for something. -/
def Held : ScanState → Prop
  | .Head => True
  | .Arg _ _ _ => True
  | .Pay kind _ pending => kind.is_string ∧ 1 ≤ pending.toNat

/-- `arg <<= 8; arg |= byte`. -/
def shift_in (arg : UInt64) (byte : UInt8) : UInt64 := arg <<< 8 ||| byte.toUInt64

theorem toNat_shift_in (arg : UInt64) (byte : UInt8) :
    (shift_in arg byte).toNat = (arg.toNat * 256 + byte.toNat) % 2 ^ 64 :=
  shift_in_toNat_mod arg byte

/-! ## The eleven cases -/

/-- What one byte makes of the state of a scanner, and what the caller gets. -/
inductive Scanner.Call (cfg : Config) : ScanState → UInt8 →
    Except ScanError (Option Token) → ScanState → Prop
  | reserved {byte : UInt8} :
      head_form byte = .reserved →
      Call cfg .Head byte (.error (.UnexpectedHead byte)) .Head
  | indefinite {byte : UInt8} {token : Token} :
      head_form byte = .indefinite token → Call cfg .Head byte (.ok (some token)) .Head
  | immediate {byte : UInt8} {kind : Kind} {n : ℕ} :
      head_form byte = .immediate kind n → ¬ (kind.is_string ∧ n ≠ 0) →
      Call cfg .Head byte (.ok (some (token_of kind n []))) .Head
  | immediate_string {byte : UInt8} {kind : Kind} {n : ℕ} :
      head_form byte = .immediate kind n → kind.is_string → n ≠ 0 →
      Call cfg .Head byte (.ok none) (.Pay kind [] (.ofNat n))
  | argument {byte : UInt8} {kind : Kind} {width : ℕ} :
      head_form byte = .argument kind width →
      Call cfg .Head byte (.ok none) (.Arg kind 0 (.ofNat width))
  | arg_more {kind : Kind} {arg pending : UInt64} {byte : UInt8} :
      pending ≠ 1 →
      Call cfg (.Arg kind arg pending) byte (.ok none)
        (.Arg kind (shift_in arg byte) (pending - 1))
  | arg_excess {kind : Kind} {arg : UInt64} {byte : UInt8} :
      Exceeds cfg kind (shift_in arg byte).toNat →
      Call cfg (.Arg kind arg 1) byte (.error (.Excessive (shift_in arg byte)))
        (.Arg kind (shift_in arg byte) 0)
  | arg_string {kind : Kind} {arg : UInt64} {byte : UInt8} :
      ¬ Exceeds cfg kind (shift_in arg byte).toNat →
      kind.is_string → (shift_in arg byte).toNat ≠ 0 →
      Call cfg (.Arg kind arg 1) byte (.ok none) (.Pay kind [] (shift_in arg byte))
  | arg_token {kind : Kind} {arg : UInt64} {byte : UInt8} :
      ¬ Exceeds cfg kind (shift_in arg byte).toNat →
      ¬ (kind.is_string ∧ (shift_in arg byte).toNat ≠ 0) →
      Call cfg (.Arg kind arg 1) byte
        (.ok (some (token_of kind (shift_in arg byte).toNat []))) .Head
  | pay_more {kind : Kind} {bytes : List UInt8} {pending : UInt64} {byte : UInt8} :
      2 ≤ pending.toNat →
      Call cfg (.Pay kind bytes pending) byte (.ok none)
        (.Pay kind (bytes ++ [byte]) (pending - 1))
  | pay_last {kind : Kind} {bytes : List UInt8} {byte : UInt8} :
      Call cfg (.Pay kind bytes 1) byte
        (.ok (some (token_of kind 0 (bytes ++ [byte])))) .Head

section Call

variable {cfg : Config}

/-- What `Scanner::scan` makes of a call of `scan`. -/
theorem Scanner.scan_of_complete {s left : ScanState} {byte : UInt8} {token : Token}
    (h : GlviCbor.scan cfg s byte = some (.Complete .Head token, left)) :
    Scanner.scan cfg ⟨s⟩ byte = some (.ok (some token), ⟨.Head⟩) := by
  rw [Scanner.scan, h]

theorem Scanner.scan_of_incomplete {s s' left : ScanState} {byte : UInt8}
    (h : GlviCbor.scan cfg s byte = some (.Incomplete s', left)) :
    Scanner.scan cfg ⟨s⟩ byte = some (.ok none, ⟨s'⟩) := by
  rw [Scanner.scan, h]

theorem Scanner.scan_of_error {s left : ScanState} {byte : UInt8} {e : ScanError}
    (h : GlviCbor.scan cfg s byte = some (.Error e, left)) :
    Scanner.scan cfg ⟨s⟩ byte = some (.error e, ⟨left⟩) := by
  rw [Scanner.scan, h]

/-- Before the last byte of an argument, also where `pending` is zero and wraps. -/
theorem scan_arg_ne_one (cfg : Config) (kind : Kind) (arg : UInt64) {pending : UInt64}
    (byte : UInt8) (h : pending ≠ 1) :
    GlviCbor.scan cfg (.Arg kind arg pending) byte =
      some (.Incomplete (.Arg kind (shift_in arg byte) (pending - 1)),
        .Arg kind (shift_in arg byte) (pending - 1)) := by
  have hpos : pending - 1 > 0 := by
    have hne : pending - 1 ≠ 0 := by
      intro hzero
      exact h (by grind)
    rw [pending_pos_iff]
    have h0 := mt eq_zero_iff_toNat.mpr hne
    omega
  simp only [scan, consume_arg, if_pos hpos, shift_in]

theorem Scanner.call_head (byte : UInt8) :
    ∃ out s', Scanner.scan cfg ⟨.Head⟩ byte = some (out, ⟨s'⟩) ∧
      Scanner.Call cfg .Head byte out s' := by
  have hscan := scan_head cfg byte
  rcases hform : head_form byte with _ | token | ⟨kind, n⟩ | ⟨kind, width⟩ <;>
    rw [hform] at hscan
  · exact ⟨_, _, Scanner.scan_of_error hscan, .reserved hform⟩
  · exact ⟨_, _, Scanner.scan_of_complete hscan, .indefinite hform⟩
  · rw [HeadForm.result] at hscan
    by_cases hk : kind.is_string ∧ n ≠ 0
    · rw [if_pos hk] at hscan
      exact ⟨_, _, Scanner.scan_of_incomplete hscan, .immediate_string hform hk.1 hk.2⟩
    · rw [if_neg hk, make_eq_token_of, toNat_immediate hform] at hscan
      exact ⟨_, _, Scanner.scan_of_complete hscan, .immediate hform hk⟩
  · exact ⟨_, _, Scanner.scan_of_incomplete hscan, .argument hform⟩

theorem Scanner.call_arg (kind : Kind) (arg pending : UInt64) (byte : UInt8) :
    ∃ out s', Scanner.scan cfg ⟨.Arg kind arg pending⟩ byte = some (out, ⟨s'⟩) ∧
      Scanner.Call cfg (.Arg kind arg pending) byte out s' := by
  by_cases hp : pending = 1
  · subst hp
    have h1 : (1 : UInt64).toNat = 1 := rfl
    have hscan := scan_arg_last cfg kind arg byte h1
    rw [finish_argument_eq, ← shift_in] at hscan
    by_cases hx : Exceeds cfg kind (shift_in arg byte).toNat
    · -- a count over a limit is not zero, so the early return is not taken
      have h0 : (shift_in arg byte).toNat ≠ 0 := by
        intro hzero
        exact not_exceeds_zero cfg kind (hzero ▸ hx)
      rw [if_pos ⟨h0, hx⟩] at hscan
      exact ⟨_, _, Scanner.scan_of_error hscan, .arg_excess hx⟩
    · rw [if_neg fun h => hx h.2] at hscan
      by_cases hk : kind.is_string ∧ (shift_in arg byte).toNat ≠ 0
      · rw [if_pos hk] at hscan
        exact ⟨_, _, Scanner.scan_of_incomplete hscan, .arg_string hx hk.1 hk.2⟩
      · rw [if_neg hk, make_eq_token_of] at hscan
        exact ⟨_, _, Scanner.scan_of_complete hscan, .arg_token hx hk⟩
  · exact ⟨_, _, Scanner.scan_of_incomplete (scan_arg_ne_one cfg kind arg byte hp),
      .arg_more hp⟩

theorem Scanner.call_pay {kind : Kind} {bytes : List UInt8} {pending : UInt64} (byte : UInt8)
    (hs : Held (.Pay kind bytes pending)) :
    ∃ out s', Scanner.scan cfg ⟨.Pay kind bytes pending⟩ byte = some (out, ⟨s'⟩) ∧
      Scanner.Call cfg (.Pay kind bytes pending) byte out s' := by
  obtain ⟨hk, h1⟩ := hs
  by_cases hp : pending.toNat = 1
  · have hscan := scan_pay_last cfg hk bytes byte hp
    rw [make_eq_token_of] at hscan
    obtain rfl : pending = 1 := UInt64.toNat_inj.mp hp
    exact ⟨_, _, Scanner.scan_of_complete hscan, .pay_last⟩
  · have h2 : 2 ≤ pending.toNat := by omega
    exact ⟨_, _, Scanner.scan_of_incomplete (scan_pay_more cfg kind bytes byte h2),
      .pay_more h2⟩

/-- In every state it can hold, a scanner takes one of the eleven steps. -/
theorem Scanner.call (cfg : Config) {s : ScanState} (byte : UInt8) (hs : Held s) :
    ∃ out s', Scanner.scan cfg ⟨s⟩ byte = some (out, ⟨s'⟩) ∧ Scanner.Call cfg s byte out s' := by
  rcases s with _ | ⟨kind, arg, pending⟩ | ⟨kind, bytes, pending⟩
  · exact Scanner.call_head byte
  · exact Scanner.call_arg kind arg pending byte
  · exact Scanner.call_pay byte hs

/-- And holds such a state again. -/
theorem Scanner.Call.held {s s' : ScanState} {byte : UInt8}
    {out : Except ScanError (Option Token)} (h : Scanner.Call cfg s byte out s') (hs : Held s) :
    Held s' := by
  rcases h with _ | _ | _ | ⟨hform, hk, h0⟩ | _ | _ | _ | ⟨-, hk, h0⟩ | _ | h2 | _
  case immediate_string =>
    refine ⟨hk, ?_⟩
    rw [toNat_immediate hform]
    omega
  case arg_string =>
    refine ⟨hk, ?_⟩
    omega
  case pay_more =>
    refine ⟨hs.1, ?_⟩
    rw [pending_pred hs.2]
    omega
  all_goals trivial

/-! ## Runs -/

/-- The graph of `Scanner::scan`, as the steps of a run. -/
abbrev Scanner.Scans (cfg : Config) (scanner : Scanner) (byte : UInt8)
    (out : Except ScanError (Option Token)) (scanner' : Scanner) : Prop :=
  Scanner.scan cfg scanner byte = some (out, scanner')

/-- A step of a run is one of the calls. -/
theorem Scanner.call_of_scans {scanner scanner' : Scanner} {byte : UInt8}
    {out : Except ScanError (Option Token)} (hs : Held scanner.state)
    (h : Scanner.Scans cfg scanner byte out scanner') :
    Scanner.Call cfg scanner.state byte out scanner'.state := by
  obtain ⟨out₂, s₂, hscan, hcall⟩ := Scanner.call cfg byte hs
  obtain ⟨rfl, rfl⟩ : out₂ = out ∧ (⟨s₂⟩ : Scanner) = scanner' := by
    rw [Scanner.Scans, hscan] at h
    simpa using h
  exact hcall

end Call

end GlviCbor
