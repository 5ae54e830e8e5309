/-
What a scan error leaves behind.

`scan` updates `Arg` inside the caller's state before it looks at the limit, and
`Scanner::scan` keeps that state on a `ScanError`. After `UnexpectedHead` this
is harmless: the state is still `Head`. After `Excessive` it is an `Arg` whose
`pending` has already reached zero, so the next `pending -= 1` wraps.

`live_iff` says this is the only way: along any byte sequence, errors included,
every state held between calls has `pending >= 1` if and only if no argument
read on the way was over its limit. `stuck_of_pending_zero` is the price of the
other case: `2 ^ 64 - 1` bytes without a token or an error.
-/
import GlviCbor.Reference

set_option autoImplicit false

namespace GlviCbor

open Machine

/-- `pending >= 1` in the two states that count. -/
def ScanState.Live : ScanState → Prop
  | .Head => True
  | .Arg _ _ pending => 1 ≤ pending.toNat
  | .Pay _ _ pending => 1 ≤ pending.toNat

instance : DecidablePred ScanState.Live := fun s =>
  match s with
  | .Head => inferInstanceAs (Decidable True)
  | .Arg _ _ pending => inferInstanceAs (Decidable (1 ≤ pending.toNat))
  | .Pay _ _ pending => inferInstanceAs (Decidable (1 ≤ pending.toNat))

/-- The byte completes an argument that is over the limit of its kind. -/
def ArgumentExcess (cfg : Config) (s : ScanState) (byte : UInt8) : Prop :=
  match s with
  | .Arg kind arg pending => pending = 1 ∧ Exceeds cfg kind (arg.toNat * 256 + byte.toNat)
  | _ => False

theorem Sound.live {s : ScanState} (h : Sound s) : s.Live := by
  rcases s with _ | _ | _
  · trivial
  · exact h.1
  · exact h.2

/-- The steps of a `Scanner`, errors included. -/
abbrev Scanner.steps (cfg : Config) (scanner : Scanner) (bs : List UInt8) :
    List (Step Scanner UInt8 (Except ScanError (Option Token))) :=
  trace (Scanner.scan cfg) scanner bs

/-! ## One call -/

/-- An argument over its limit is an error, and what it leaves in the state is
an `Arg` with nothing pending. -/
theorem scan_of_argumentExcess {cfg : Config} {s : ScanState} {byte : UInt8} (hs : Sound s)
    (h : ArgumentExcess cfg s byte) :
    ∃ count left, scan cfg s byte = some (.Error (.Excessive count), left) ∧ ¬ left.Live := by
  rcases s with _ | ⟨kind, arg, pending⟩ | _
  · exact h.elim
  · obtain ⟨rfl, hx⟩ := h
    rw [← shift_in_toNat byte hs.arg_lt] at hx
    -- no limit is exceeded by zero, so the early return for zero is not taken
    have h0 : (arg <<< 8 ||| byte.toUInt64).toNat ≠ 0 := by
      obtain ⟨l, -, hl⟩ := hx
      omega
    refine ⟨arg <<< 8 ||| byte.toUInt64, .Arg kind (arg <<< 8 ||| byte.toUInt64) 0, ?_, ?_⟩
    · rw [scan_arg_last cfg kind arg byte rfl, finish_argument_eq, if_pos ⟨h0, hx⟩]
    · simp [ScanState.Live]
  · exact h.elim

/-- Every other error is an unexpected head, and leaves `Head`. -/
theorem ScanStep.left_of_error {cfg : Config} {s left : ScanState} {byte : UInt8} {e : ScanError}
    (h : ScanStep cfg byte s (.Error e) left) (hs : Sound s)
    (hno : ¬ ArgumentExcess cfg s byte) : left = .Head := by
  generalize hr : ScanResult.Error e = r at h
  rcases h with _ | _ | ⟨kind, arg⟩ | _ | _
  · rfl
  · exact nomatch hr
  · -- the argument is within its limit, so the verdict on it is no error
    have hx : ¬ Exceeds cfg kind (arg <<< 8 ||| byte.toUInt64).toNat := by
      rw [shift_in_toNat byte hs.arg_lt]
      exact fun hx => hno ⟨rfl, hx⟩
    rw [finish_argument_eq, if_neg (fun h => hx h.2)] at hr
    split_ifs at hr
  · exact nomatch hr
  · exact nomatch hr

/-- One call from a sound state: it never aborts, and it leaves the scanner in a
sound state unless it completed an argument over its limit, when it leaves it in
a dead one. -/
theorem Scanner.scan_sound (cfg : Config) {s : ScanState} (byte : UInt8) (hs : Sound s) :
    ∃ out s', Scanner.scan cfg ⟨s⟩ byte = some (out, ⟨s'⟩) ∧
      (ArgumentExcess cfg s byte → ¬ s'.Live) ∧ (¬ ArgumentExcess cfg s byte → Sound s') := by
  by_cases hx : ArgumentExcess cfg s byte
  · -- the error branch keeps what `scan` left
    obtain ⟨count, left, hscan, hdead⟩ := scan_of_argumentExcess hs hx
    exact ⟨.error (.Excessive count), left, by rw [Scanner.scan, hscan],
      fun _ => hdead, fun hno => absurd hx hno⟩
  · obtain ⟨r, left, hscan, hstep⟩ := hs.scan_step cfg byte
    have hfollows := hstep.follows hs
    rcases r with s' | ⟨s', token⟩ | e
    · exact ⟨.ok none, s', by rw [Scanner.scan, hscan], fun h => absurd h hx,
        fun _ => hfollows.1⟩
    · obtain rfl := scan_complete_state hscan
      exact ⟨.ok (some token), .Head, by rw [Scanner.scan, hscan], fun h => absurd h hx,
        fun _ => trivial⟩
    · obtain rfl := hstep.left_of_error hs hx
      exact ⟨.error e, .Head, by rw [Scanner.scan, hscan], fun h => absurd h hx,
        fun _ => trivial⟩

/-! ## No call aborts -/

/-- Only strings are ever in `Pay`. Unlike `Sound` this survives an error. -/
def ScanState.PayString : ScanState → Prop
  | .Head => True
  | .Arg _ _ _ => True
  | .Pay kind _ _ => kind.is_string

/-- The state a result hands over, if any, is a string's when it is a `Pay`. -/
def ScanResult.PayString : ScanResult → Prop
  | .Incomplete s => s.PayString
  | .Complete s _ => s.PayString
  | .Error _ => True

/-- The `Pay` states come from `gather_bytes`, which is called for strings only. -/
theorem payString_body (kind : Kind) (n : UInt64) (token : Token) :
    (if kind.is_string ∧ n.toNat ≠ 0 then ScanResult.Incomplete (.Pay kind [] n)
      else .Complete .Head token).PayString := by
  split_ifs with h
  · exact h.1
  · trivial

theorem scan_payString (cfg : Config) {s : ScanState} (byte : UInt8) (h : s.PayString) :
    ∃ r left, scan cfg s byte = some (r, left) ∧ r.PayString ∧ left.PayString := by
  rcases s with _ | ⟨kind, arg, pending⟩ | ⟨kind, bytes, pending⟩
  · refine ⟨_, _, scan_head cfg byte, ?_, trivial⟩
    rcases hform : head_form byte with _ | token | ⟨kind, n⟩ | ⟨kind, width⟩
    · trivial
    · trivial
    · have hbody := payString_body kind (.ofNat n) (Token.make kind (.ofNat n) [])
      rwa [toNat_immediate hform] at hbody
    · trivial
  · simp only [scan, consume_arg]
    split_ifs with hpos
    · exact ⟨_, _, rfl, trivial, trivial⟩
    · refine ⟨_, _, rfl, ?_, trivial⟩
      rw [finish_argument_eq]
      by_cases hx : (arg <<< 8 ||| byte.toUInt64).toNat ≠ 0
          ∧ Exceeds cfg kind (arg <<< 8 ||| byte.toUInt64).toNat
      · rw [if_pos hx]
        trivial
      · rw [if_neg hx]
        exact payString_body kind _ _
  · simp only [scan, consume_pay]
    split_ifs with hpos
    · exact ⟨_, _, rfl, h, h⟩
    · -- the aborting branch is for the other kinds
      rcases kind <;> simp [ScanState.PayString, Kind.is_string] at h
      · exact ⟨_, _, rfl, trivial, rfl⟩
      · exact ⟨_, _, rfl, trivial, rfl⟩

/-- The scanner never aborts: a run has one step for every byte, also after
errors and in the dead state. -/
theorem Scanner.length_steps (cfg : Config) (bs : List UInt8) :
    (Scanner.steps cfg ⟨.Head⟩ bs).length = bs.length := by
  refine length_trace (fun scanner : Scanner => scanner.state.PayString) ?_ _ bs trivial
  rintro ⟨s⟩ byte hs
  obtain ⟨r, left, hscan, hr, hleft⟩ := scan_payString cfg byte hs
  rcases r with s' | ⟨s', token⟩ | e
  · exact ⟨.ok none, ⟨s'⟩, by rw [Scanner.scan, hscan], hr⟩
  · exact ⟨.ok (some token), ⟨s'⟩, by rw [Scanner.scan, hscan], hr⟩
  · exact ⟨.error e, ⟨left⟩, by rw [Scanner.scan, hscan], hleft⟩

/-! ## Whole runs, errors included -/

/-- A scanner stays usable exactly as long as no argument is over its limit. For
every setting of the limits and every byte sequence, continuing after any number
of errors, every state held between calls has `pending >= 1` in `Arg` and `Pay`
if and only if no byte of the run completes an argument over the limit of its
kind. The run reads the whole sequence (`Scanner.length_steps`). -/
theorem live_iff (cfg : Config) (bs : List UInt8) :
    (∀ st ∈ Scanner.steps cfg ⟨.Head⟩ bs, st.after.state.Live) ↔
      ∀ st ∈ Scanner.steps cfg ⟨.Head⟩ bs, ¬ ArgumentExcess cfg st.before.state st.input := by
  obtain ⟨t, hrun⟩ := run_trace (Scanner.scan cfg) ⟨.Head⟩ bs
  refine hrun.forall_iff (fun scanner : Scanner => Sound scanner.state) ?_ ?_ trivial
  · rintro ⟨⟨s⟩, byte, out, ⟨s'⟩⟩ hstep hs
    dsimp only at hstep hs ⊢
    obtain ⟨out₂, s₂, hscan, hdead, hsound⟩ := Scanner.scan_sound cfg byte hs
    obtain ⟨rfl, rfl⟩ : out₂ = out ∧ s₂ = s' := by simpa [hscan] using hstep
    exact ⟨fun hlive hx => hdead hx hlive, fun hno => (hsound hno).live⟩
  · rintro ⟨⟨s⟩, byte, out, ⟨s'⟩⟩ hstep hs hno
    dsimp only at hstep hs hno ⊢
    obtain ⟨out₂, s₂, hscan, -, hsound⟩ := Scanner.scan_sound cfg byte hs
    obtain ⟨rfl, rfl⟩ : out₂ = out ∧ s₂ = s' := by simpa [hscan] using hstep
    exact hsound hno

/-- Under a limit of 1, the announcement of a two-byte string leaves the scanner
waiting for an argument with nothing pending. -/
theorem not_live_after_excessive :
    ¬ ∀ st ∈ Scanner.steps ⟨1, 0, 0, 0⟩ ⟨.Head⟩ [0x58, 0x02], st.after.state.Live := by
  decide +kernel

/-! ## The dead state -/

/-- From an argument with `pending` bytes to go, where zero stands for `2 ^ 64`,
fewer bytes than that bring neither a token nor an error. -/
theorem arg_quiet (cfg : Config) (kind : Kind) (bs : List UInt8) :
    ∀ (arg pending : UInt64), bs.length < (pending - 1).toNat + 1 →
      ∃ arg', Responds (fun s b out s' => Scanner.scan cfg s b = some (out, s'))
        ⟨.Arg kind arg pending⟩ bs (List.replicate bs.length (.ok none))
        ⟨.Arg kind arg' (pending - .ofNat bs.length)⟩ := by
  induction bs with
  | nil =>
    intro arg pending _
    refine ⟨arg, ?_⟩
    simp
  | cons b bs ih =>
    intro arg pending hlen
    rw [List.length_cons] at hlen
    have hpos : pending - 1 > 0 := by
      rw [pending_pos_iff]
      omega
    have hscan : Scanner.scan cfg ⟨.Arg kind arg pending⟩ b
        = some (.ok none, ⟨.Arg kind (arg <<< 8 ||| b.toUInt64) (pending - 1)⟩) := by
      simp only [Scanner.scan, GlviCbor.scan, consume_arg, if_pos hpos]
    have hpred : (pending - 1 - 1).toNat + 1 = (pending - 1).toNat := by
      rw [pending_pred (pending_pos_iff.mp hpos)]
      have := pending_pos_iff.mp hpos
      omega
    obtain ⟨arg', hrest⟩ := ih (arg <<< 8 ||| b.toUInt64) (pending - 1) (by omega)
    refine ⟨arg', ?_⟩
    -- modulo `2 ^ 64`: `pending` may be zero, and wraps at the first byte then
    have hsub : pending - .ofNat (bs.length + 1) = pending - 1 - .ofNat bs.length := by
      rw [UInt64.ofNat_add]
      simp only [UInt64.ofNat_one]
      grind
    rw [List.length_cons, List.replicate_succ, hsub]
    exact Responds.cons hscan hrest

/-- The dead state says nothing for `2 ^ 64 - 1` bytes, whatever they are. -/
theorem stuck_of_pending_zero (cfg : Config) (kind : Kind) (arg : UInt64) (bs : List UInt8)
    (h : bs.length < 2 ^ 64) :
    ∃ s', Responds (fun s b out s' => Scanner.scan cfg s b = some (out, s'))
      ⟨.Arg kind arg 0⟩ bs (List.replicate bs.length (.ok none)) s' := by
  have hwrap : ((0 : UInt64) - 1).toNat + 1 = 2 ^ 64 := rfl
  obtain ⟨arg', hquiet⟩ := arg_quiet cfg kind bs arg 0 (by omega)
  exact ⟨_, hquiet⟩

end GlviCbor
