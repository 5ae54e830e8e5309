/-
What the settings of the limits do to a scanner, over whole runs with errors in them.

`Limits` says where the limits are not looked at: a count in the head byte. Such a
count is at most 23, so there still is a bound on what a scanner ever holds and hands
out, the limit or 23 (`memory_bound`); and from that one on how long it can keep its
caller waiting (`answers_within`). `steps_eq_iff` is about two settings: the only
thing they can differ in is the verdict on an argument that has just been completed.
-/
import GlviCbor.Calls

set_option autoImplicit false

namespace GlviCbor

open Machine

/-! ## How much a scanner holds -/

/-- `n` is within the limit of a kind, or small enough for a head byte. -/
def Bounded (cfg : Config) (kind : Kind) (n : ℕ) : Prop := ∀ l ∈ cfg.limit kind, n ≤ max l 23

/-- What a state has of a payload, and is still waiting for. -/
def ScanState.Bounded (cfg : Config) : ScanState → Prop
  | .Head => True
  | .Arg _ _ _ => True
  | .Pay kind bytes pending => GlviCbor.Bounded cfg kind (bytes.length + pending.toNat)

theorem bounded_of_not_exceeds {cfg : Config} {kind : Kind} {n : ℕ} (h : ¬ Exceeds cfg kind n) :
    Bounded cfg kind n := by
  intro l hl
  by_contra hlt
  exact h ⟨l, hl, by omega⟩

theorem bounded_of_le {cfg : Config} {kind : Kind} {n : ℕ} (h : n ≤ 23) :
    Bounded cfg kind n := by
  intro l _
  omega

/-- A token is bounded when its count is: the payload's length for a string, the
argument for everything else. -/
theorem bounded_token_of {cfg : Config} {kind : Kind} {n : ℕ} {payload : List UInt8}
    (h : Bounded cfg kind (if kind.is_string then payload.length else n)) :
    Bounded cfg (token_of kind n payload).kind (token_of kind n payload).argument := by
  -- only four kinds have a limit; for the others there is nothing to show
  rcases kind <;> first
    | exact h
    | exact fun l hl => le_trans (Nat.mod_le _ _) (h l hl)
    | rintro l ⟨⟩

/-- One call from a bounded state: so is the state after it, and the token it returns. -/
theorem Scanner.Call.bounded {cfg : Config} {s s' : ScanState} {byte : UInt8}
    {out : Except ScanError (Option Token)} (h : Scanner.Call cfg s byte out s') (hs : Held s)
    (hb : s.Bounded cfg) :
    s'.Bounded cfg ∧
      ∀ token, out = .ok (some token) → Bounded cfg token.kind token.argument := by
  rcases h with _ | hform | ⟨hform, hk⟩ | ⟨hform, hk, h0⟩ | _ | _ | _ | ⟨hx, -, -⟩ | ⟨hx, hk⟩ |
    h2 | _
  case indefinite token =>
    refine ⟨trivial, ?_⟩
    rintro _ ⟨⟩
    rcases indefinite_cases hform with rfl | rfl | rfl | rfl | rfl <;> rintro l ⟨⟩
  case immediate kind n =>
    refine ⟨trivial, ?_⟩
    rintro _ ⟨⟩
    have hn : n < 24 := (valid_of_head_form hform).1
    apply bounded_token_of
    apply bounded_of_le
    split_ifs
    · simp
    · omega
  case immediate_string kind n =>
    have hn : n < 24 := (valid_of_head_form hform).1
    refine ⟨?_, by rintro _ ⟨⟩⟩
    apply bounded_of_le
    rw [toNat_immediate hform, List.length_nil]
    omega
  case arg_string kind arg =>
    refine ⟨?_, by rintro _ ⟨⟩⟩
    apply bounded_of_not_exceeds
    rwa [List.length_nil, Nat.zero_add]
  case arg_token kind arg =>
    refine ⟨trivial, ?_⟩
    rintro _ ⟨⟩
    apply bounded_token_of
    by_cases hstring : kind.is_string
    · rw [if_pos hstring]
      exact bounded_of_le (Nat.zero_le _)
    · rw [if_neg hstring]
      exact bounded_of_not_exceeds hx
  case pay_more kind bytes pending =>
    refine ⟨?_, by rintro _ ⟨⟩⟩
    rw [ScanState.Bounded, length_concat_pending bytes byte hs.2]
    exact hb
  case pay_last kind bytes =>
    refine ⟨trivial, ?_⟩
    rintro _ ⟨⟩
    apply bounded_token_of
    have hlen := length_concat_pending bytes byte hs.2
    rw [if_pos hs.1, List.length_append, List.length_singleton]
    exact hb
  all_goals exact ⟨trivial, by rintro _ ⟨⟩⟩

/-- What a scanner holds and hands out is bounded by the limits, but for 23. For every
setting and every byte sequence, continuing after any number of errors: a payload under
way never has more bytes than its limit or 23, counting those still to come, and no
string, array or map that is returned has a count over its limit or 23. -/
theorem memory_bound (cfg : Config) (bs : List UInt8) :
    ∀ st ∈ Scanner.steps cfg ⟨.Head⟩ bs, st.after.state.Bounded cfg ∧
      ∀ token, st.output = .ok (some token) → Bounded cfg token.kind token.argument := by
  obtain ⟨t, hrun⟩ := run_trace (Scanner.scan cfg) ⟨.Head⟩ bs
  refine hrun.forall_of_invariant
    (fun scanner : Scanner => Held scanner.state ∧ scanner.state.Bounded cfg) ?_
    ⟨trivial, trivial⟩
  intro st hstep hinv
  have hcall := Scanner.call_of_scans hinv.1 hstep
  have hbounded := hcall.bounded hinv.1 hinv.2
  exact ⟨hbounded, hcall.held hinv.1, hbounded.1⟩

/-- A string of two bytes under a limit of one, with its length in the head. -/
theorem memory_bound_string : (ScanState.Pay .Bstr [] 2).Bounded ⟨1, 1, 1, 1⟩ :=
  (memory_bound ⟨1, 1, 1, 1⟩ [0x42] ⟨⟨.Head⟩, 0x42, .ok none, ⟨.Pay .Bstr [] 2⟩⟩ (.head _)).1

/-! ## How long a scanner keeps its caller waiting -/

/-- The bytes until the next answer, at most: a head, eight bytes of argument and a
payload of `n`. -/
def ScanState.patience (n : ℕ) : ScanState → ℕ
  | .Head => 9 + n
  | .Arg _ _ pending => pending.toNat + n
  | .Pay _ _ pending => pending.toNat

/-- A call without an answer uses up some of the patience. -/
theorem Scanner.Call.patience_lt {cfg : Config} {s s' : ScanState} {byte : UInt8} {n : ℕ}
    (h : Scanner.Call cfg s byte (.ok none) s') (hs : Sound s)
    (hn : ∀ kind : Kind, kind.is_string → ∃ l ∈ cfg.limit kind, max l 23 ≤ n) :
    s'.patience n < s.patience n := by
  rcases h with _ | _ | _ | ⟨hform, hk, -⟩ | hform | hp | _ | ⟨hx, hk, -⟩ | _ | h2 | _
  case immediate_string kind m =>
    obtain ⟨l, -, hl⟩ := hn kind hk
    have hm : m < 24 := (valid_of_head_form hform).1
    simp only [ScanState.patience, toNat_immediate hform]
    omega
  case argument kind width =>
    have hw := Kind.width_bounds (valid_of_head_form hform)
    simp only [ScanState.patience, toNat_width hform]
    omega
  case arg_more kind arg pending =>
    have h1 := hs.1
    simp only [ScanState.patience, pending_pred h1]
    omega
  case arg_string kind arg =>
    -- the payload is within the limit, the argument was waiting for one more byte
    obtain ⟨l, hl, hle⟩ := hn kind hk
    have hcount : (shift_in arg byte).toNat ≤ l := by
      by_contra hlt
      exact hx ⟨l, hl, by omega⟩
    have hone : (1 : UInt64).toNat = 1 := rfl
    simp only [ScanState.patience, hone]
    omega
  case pay_more kind bytes pending =>
    simp only [ScanState.patience, pending_pred hs.2]
    omega

theorem Sound.held {s : ScanState} (h : Sound s) : Held s := by
  rcases s with _ | _ | _
  · trivial
  · trivial
  · exact h

/-- There is always something to wait for. -/
theorem Sound.patience_pos {s : ScanState} (h : Sound s) (n : ℕ) : 1 ≤ s.patience n := by
  rcases s with _ | ⟨kind, arg, pending⟩ | ⟨kind, bytes, pending⟩
  · simp only [ScanState.patience]
    omega
  · have h1 := h.1
    simp only [ScanState.patience]
    omega
  · exact h.2

/-- And it is no more than after a head. -/
theorem Sound.patience_le {cfg : Config} {s : ScanState} {n : ℕ} (h : Sound s)
    (hb : s.Bounded cfg)
    (hn : ∀ kind : Kind, kind.is_string → ∃ l ∈ cfg.limit kind, max l 23 ≤ n) :
    s.patience n ≤ 9 + n := by
  rcases s with _ | ⟨kind, arg, pending⟩ | ⟨kind, bytes, pending⟩
  · exact le_refl _
  · have h8 := h.2.1
    simp only [ScanState.patience]
    omega
  · obtain ⟨l, hl, hle⟩ := hn kind h.1
    have hcount := hb l hl
    simp only [ScanState.patience]
    omega

instance (cfg : Config) (s : ScanState) (byte : UInt8) : Decidable (ArgumentExcess cfg s byte) :=
  match s with
  | .Head => inferInstanceAs (Decidable False)
  | .Arg kind arg pending =>
    inferInstanceAs (Decidable (pending = 1 ∧ Exceeds cfg kind (arg.toNat * 256 + byte.toNat)))
  | .Pay _ _ _ => inferInstanceAs (Decidable False)

/-- What holds between the calls of a run in which no argument is over its limit. -/
structure Waiting (cfg : Config) (s : ScanState) : Prop where
  sound : Sound s
  bounded : s.Bounded cfg

theorem Waiting.step {cfg : Config} {scanner scanner' : Scanner} {byte : UInt8}
    {out : Except ScanError (Option Token)} (h : Waiting cfg scanner.state)
    (hscan : Scanner.Scans cfg scanner byte out scanner')
    (hx : ¬ ArgumentExcess cfg scanner.state byte) : Waiting cfg scanner'.state := by
  have hcall := Scanner.call_of_scans h.sound.held hscan
  refine ⟨?_, (hcall.bounded h.sound.held h.bounded).1⟩
  obtain ⟨out₂, s₂, hscan₂, -, hsound⟩ := Scanner.scan_sound cfg byte h.sound
  rw [Scanner.Scans, hscan₂] at hscan
  obtain ⟨-, rfl⟩ : out₂ = out ∧ (⟨s₂⟩ : Scanner) = scanner' := by simpa using hscan
  exact hsound hx

/-- A scanner answers in bounded time. Under a limit for byte strings and one for text
strings, in every run in which no argument is over its limit, errors of the other kind
included, nine bytes more than the largest limit (or 23) never go by without a token or
an error, wherever in the run they start. -/
theorem answers_within (cfg : Config) (n : ℕ)
    (hn : ∀ kind : Kind, kind.is_string → ∃ l ∈ cfg.limit kind, max l 23 ≤ n)
    (bs : List UInt8)
    (hx : ∀ st ∈ Scanner.steps cfg ⟨.Head⟩ bs, ¬ ArgumentExcess cfg st.before.state st.input)
    (before during after : List (Step Scanner UInt8 (Except ScanError (Option Token))))
    (hsteps : Scanner.steps cfg ⟨.Head⟩ bs = before ++ during ++ after)
    (hlen : 9 + n ≤ during.length) : ∃ st ∈ during, st.output ≠ .ok none := by
  obtain ⟨t, hrun⟩ := run_trace (Scanner.scan cfg) ⟨.Head⟩ bs
  rw [← Scanner.steps, hsteps] at hrun
  obtain ⟨v, hrun, -⟩ := hrun.split
  obtain ⟨u, hbefore, hduring⟩ := hrun.split
  rw [hsteps] at hx
  -- up to where the long wait starts
  have hu : Waiting cfg u.state := by
    refine hbefore.invariant (fun scanner : Scanner => Waiting cfg scanner.state)
      (fun st hR hs hno => hs.step hR hno) ⟨trivial, trivial⟩ fun st hst => ?_
    exact hx st (List.mem_append_left _ (List.mem_append_left _ hst))
  by_contra hquiet
  have hguard : ∀ st ∈ during, st.output = .ok none ∧
      ¬ ArgumentExcess cfg st.before.state st.input := by
    intro st hst
    refine ⟨?_, hx st (List.mem_append_left _ (List.mem_append_right _ hst))⟩
    by_contra hne
    exact hquiet ⟨st, hst, hne⟩
  have hv : Waiting cfg v.state :=
    hduring.invariant (fun scanner : Scanner => Waiting cfg scanner.state)
      (fun st hR hs hg => hs.step hR hg.2) hu hguard
  -- every quiet step costs some of the patience, and there is some left at the end
  have hle : v.state.patience n + during.length ≤ u.state.patience n := by
    refine hduring.length_le_of_variant (fun scanner : Scanner => Waiting cfg scanner.state)
      (fun scanner => scanner.state.patience n) ?_ hu hguard
    intro st hR hs hg
    have hcall := Scanner.call_of_scans hs.sound.held hR
    rw [hg.1] at hcall
    exact ⟨hs.step hR hg.2, hcall.patience_lt hs.sound hn⟩
  have hpos := hv.sound.patience_pos n
  have hmax := hu.sound.patience_le hu.bounded hn
  omega

/-- A byte string of thirty bytes under limits of thirty, its count in eight bytes: the
last of its thirty-nine bytes is the first that is answered. -/
theorem answers_within_string :
    let steps := Scanner.steps ⟨30, 30, 0, 0⟩ ⟨.Head⟩
      (0x5b :: List.replicate 7 0 ++ 30 :: List.replicate 30 0)
    (∃ st ∈ steps, st.output ≠ .ok none) ∧ ∀ st ∈ steps.take 38, st.output = .ok none := by
  have hn : ∀ kind : Kind, kind.is_string →
      ∃ l ∈ (⟨30, 30, 0, 0⟩ : Config).limit kind, max l 23 ≤ 30 := by
    intro kind hk
    rcases kind <;> simp [Kind.is_string] at hk <;> exact ⟨30, rfl, by decide⟩
  let bs : List UInt8 := 0x5b :: List.replicate 7 0 ++ 30 :: List.replicate 30 0
  have hlen : (Scanner.steps ⟨30, 30, 0, 0⟩ ⟨.Head⟩ bs).length = 39 := by decide +kernel
  refine ⟨?_, by decide +kernel⟩
  exact answers_within ⟨30, 30, 0, 0⟩ 30 hn bs (by decide +kernel) []
    (Scanner.steps ⟨30, 30, 0, 0⟩ ⟨.Head⟩ bs) [] (by simp) hlen.ge

/-! ## Two settings -/

/-- The byte completes an argument that is over the limit. Unlike `ArgumentExcess` this
is the accumulator as it is, also where it has run over. -/
def Refuses (cfg : Config) (s : ScanState) (byte : UInt8) : Prop :=
  match s with
  | .Arg kind arg pending => pending = 1 ∧ Exceeds cfg kind (shift_in arg byte).toNat
  | _ => False

/-- What a call does apart from the verdict. -/
theorem Scanner.Call.congr {cfg cfg' : Config} {s s' : ScanState} {byte : UInt8}
    {out : Except ScanError (Option Token)} (h : Scanner.Call cfg s byte out s')
    (hiff : Refuses cfg' s byte ↔ Refuses cfg s byte) : Scanner.Call cfg' s byte out s' := by
  rcases h with hform | hform | ⟨hform, hk⟩ | ⟨hform, hk, h0⟩ | hform | hp | hx |
    ⟨hx, hk, h0⟩ | ⟨hx, hk⟩ | h2 | _
  case reserved => exact .reserved hform
  case indefinite => exact .indefinite hform
  case immediate => exact .immediate hform hk
  case immediate_string => exact .immediate_string hform hk h0
  case argument => exact .argument hform
  case arg_more => exact .arg_more hp
  case arg_excess => exact .arg_excess (hiff.mpr ⟨rfl, hx⟩).2
  case arg_string => exact .arg_string (fun hx' => hx (hiff.mp ⟨rfl, hx'⟩).2) hk h0
  case arg_token => exact .arg_token (fun hx' => hx (hiff.mp ⟨rfl, hx'⟩).2) hk
  case pay_more => exact .pay_more h2
  case pay_last => exact .pay_last

/-- An argument is refused by exactly the calls that report it. -/
theorem Scanner.Call.refuses_iff {cfg : Config} {s s' : ScanState} {byte : UInt8}
    {out : Except ScanError (Option Token)} (h : Scanner.Call cfg s byte out s') :
    Refuses cfg s byte ↔ ∃ count, out = .error (.Excessive count) := by
  rcases h with _ | _ | _ | _ | _ | hp | hx | ⟨hx, -, -⟩ | ⟨hx, -⟩ | _ | _
  case arg_more => simp [Refuses, hp]
  case arg_excess => simp [Refuses, hx]
  case arg_string => simp [Refuses, hx]
  case arg_token => simp [Refuses, hx]
  all_goals simp [Refuses]

/-- A state and a byte determine the call. -/
theorem Scanner.Call.unique {cfg : Config} {s s₁ s₂ : ScanState} {byte : UInt8}
    {o₁ o₂ : Except ScanError (Option Token)} (h₁ : Scanner.Call cfg s byte o₁ s₁)
    (h₂ : Scanner.Call cfg s byte o₂ s₂) : o₁ = o₂ ∧ s₁ = s₂ := by
  rcases h₁ <;> rcases h₂ <;> simp_all

/-- Two settings agree on a call exactly if both or neither of them refuse it. -/
theorem scan_eq_iff (cfg cfg' : Config) {s : ScanState} (byte : UInt8) (hs : Held s) :
    Scanner.scan cfg' ⟨s⟩ byte = Scanner.scan cfg ⟨s⟩ byte ↔
      (Refuses cfg' s byte ↔ Refuses cfg s byte) := by
  obtain ⟨o, u, hscan, hcall⟩ := Scanner.call cfg byte hs
  obtain ⟨o', u', hscan', hcall'⟩ := Scanner.call cfg' byte hs
  rw [hscan, hscan']
  constructor
  · intro heq
    obtain ⟨rfl, -⟩ : o' = o ∧ u' = u := by simpa using heq
    rw [hcall.refuses_iff, hcall'.refuses_iff]
  · intro hiff
    obtain ⟨rfl, rfl⟩ := (hcall.congr hiff).unique hcall'
    rfl

/-- The limits decide about completed arguments and nothing else. Two settings take a
scanner through the same steps on a byte stream, errors included, if and only if every
argument completed on the way is over its limit under both or under neither. -/
theorem steps_eq_iff (cfg cfg' : Config) (bs : List UInt8) :
    Scanner.steps cfg' ⟨.Head⟩ bs = Scanner.steps cfg ⟨.Head⟩ bs ↔
      ∀ st ∈ Scanner.steps cfg ⟨.Head⟩ bs,
        (Refuses cfg' st.before.state st.input ↔ Refuses cfg st.before.state st.input) := by
  refine trace_eq_iff (fun scanner : Scanner => Held scanner.state)
    (fun scanner byte => Refuses cfg' scanner.state byte ↔ Refuses cfg scanner.state byte)
    ?_ ?_ ⟨.Head⟩ bs trivial
  · rintro ⟨s⟩ byte hs
    obtain ⟨out, s', hscan, hcall⟩ := Scanner.call cfg byte hs
    exact ⟨out, ⟨s'⟩, hscan, hcall.held hs⟩
  · rintro ⟨s⟩ byte hs
    exact scan_eq_iff cfg cfg' byte hs

end GlviCbor
