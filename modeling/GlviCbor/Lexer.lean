/-
The `Scanner` as a lexer: what it says to a whole byte stream.

`item` decodes the front item of a stream in one piece, from every state a scanner
can be left in. At `Head` it is the reference decoder. After a count over its limit
the scanner is in that argument with nothing pending; the counter wraps, so it takes
`2 ^ 64` bytes more, the last eight of which stay in the 64-bit accumulator.
Iterating `item` over a stream is all there is to a `Scanner`: `scan_stream_replies`
has no hypothesis on the stream, its length or its errors.
-/
import GlviCbor.Lib.Stream
import GlviCbor.Calls
import GlviCbor.Encode

set_option autoImplicit false

namespace GlviCbor

open Machine BigEndian

/-! ## One item -/

/-- The kind of the argument an input begins with. -/
def argument_kind_at : List UInt8 → Kind
  | [] => .Break
  | byte :: _ => argument_kind (major byte) (info byte)

/-- Where the scanner is after an answer: at `Head`, or in the argument that was over
the limit of `kind`. -/
def Answer.place (kind : Kind) : Answer → ScanState
  | .token _ => .Head
  | .error (.UnexpectedHead _) => .Head
  | .error (.Excessive count) => .Arg kind count 0

def with_place (kind : Kind) (p : Option Answer × List UInt8) :
    Option (Answer × ScanState) × List UInt8 :=
  (p.1.map fun answer => (answer, answer.place kind), p.2)

/-- The bytes a state waits for. With nothing pending the counter has to wrap. -/
def bytes_pending (pending : UInt64) : ℕ := if pending = 0 then 2 ^ 64 else pending.toNat

/-- The front item of a stream and the state after it, in one piece; `none` where the
stream ends before it does. -/
def item (cfg : Config) (s : ScanState) (bs : List UInt8) :
    Option (Answer × ScanState) × List UInt8 :=
  match s with
  | .Head => with_place (argument_kind_at bs) (ref cfg bs)
  | .Arg kind arg pending =>
    let width := bytes_pending pending
    if bs.length < width then (none, [])
    else with_place kind (ref_count cfg kind
      ((arg.toNat * 256 ^ width + ofBE (bs.take width)) % 2 ^ 64) (bs.drop width))
  | .Pay kind bytes pending =>
    let width := bytes_pending pending
    if bs.length < width then (none, [])
    else (some (.token (token_of kind 0 (bytes ++ bs.take width)), .Head), bs.drop width)

theorem bytes_pending_pos (pending : UInt64) : 1 ≤ bytes_pending pending := by
  unfold bytes_pending
  by_cases h : pending = 0
  · rw [if_pos h]
    omega
  · rw [if_neg h]
    have h0 := mt eq_zero_iff_toNat.mpr h
    omega

theorem bytes_pending_of_pos {pending : UInt64} (h : 1 ≤ pending.toNat) :
    bytes_pending pending = pending.toNat := by
  rw [bytes_pending, if_neg]
  intro h0
  rw [h0] at h
  exact absurd h (by decide)

/-- One byte less to wait for, also where the counter wraps. -/
theorem bytes_pending_pred {pending : UInt64} (h : pending ≠ 1) :
    bytes_pending pending = bytes_pending (pending - 1) + 1 := by
  have h1 : pending.toNat ≠ 1 := fun heq => h (UInt64.toNat_inj.mp heq)
  by_cases h0 : pending = 0
  · subst h0
    rfl
  · have hpos := mt eq_zero_iff_toNat.mpr h0
    have hpred : (pending - 1).toNat = pending.toNat - 1 := pending_pred (by omega)
    rw [bytes_pending_of_pos (by omega), bytes_pending_of_pos (by omega), hpred]
    omega

/-! ## Every answer takes a byte -/

theorem length_of_ref_body {kind : Kind} {n : ℕ} {bs rest : List UInt8} {a : Answer}
    (h : ref_body kind n bs = (some a, rest)) : rest.length ≤ bs.length := by
  unfold ref_body at h
  split_ifs at h
  · simp at h
  · simp only [Prod.mk.injEq] at h
    rw [← h.2, List.length_drop]
    omega
  · simp only [Prod.mk.injEq] at h
    rw [h.2]

theorem length_of_ref_count {cfg : Config} {kind : Kind} {n : ℕ} {bs rest : List UInt8}
    {a : Answer} (h : ref_count cfg kind n bs = (some a, rest)) : rest.length ≤ bs.length := by
  unfold ref_count at h
  split_ifs at h
  · simp only [Prod.mk.injEq] at h
    rw [h.2]
  · exact length_of_ref_body h

theorem length_of_ref {cfg : Config} {bs rest : List UInt8} {a : Answer}
    (h : ref cfg bs = (some a, rest)) : rest.length < bs.length := by
  rcases bs with _ | ⟨byte, bs⟩
  · simp [ref] at h
  · rw [List.length_cons]
    rcases hform : head_form byte with _ | token | ⟨kind, n⟩ | ⟨kind, width⟩ <;>
      simp only [ref, hform] at h
    · simp only [Prod.mk.injEq] at h
      rw [h.2]
      omega
    · simp only [Prod.mk.injEq] at h
      rw [h.2]
      omega
    · have hle := length_of_ref_body h
      omega
    · split_ifs at h
      · simp at h
      · have hle := length_of_ref_count h
        rw [List.length_drop] at hle
        omega

theorem with_place_eq_some {kind : Kind} {p : Option Answer × List UInt8}
    {a : Answer × ScanState} {rest : List UInt8} (h : with_place kind p = (some a, rest)) :
    p = (some a.1, rest) ∧ a.2 = a.1.place kind := by
  obtain ⟨_ | answer, left⟩ := p
  · simp [with_place] at h
  · simp only [with_place, Option.map_some, Prod.mk.injEq, Option.some.injEq] at h
    obtain ⟨rfl, rfl⟩ := h
    exact ⟨rfl, rfl⟩

/-- The decoder of one item of a stream. -/
def item_decoder (cfg : Config) : ItemDecoder ScanState UInt8 Answer where
  decode := item cfg
  shorter := by
    intro s bs a rest h
    rcases s with _ | ⟨kind, arg, pending⟩ | ⟨kind, bytes, pending⟩
    · exact length_of_ref (with_place_eq_some h).1
    · have hpos := bytes_pending_pos pending
      simp only [item] at h
      split_ifs at h with hlen
      · simp at h
      · have hle := length_of_ref_count (with_place_eq_some h).1
        rw [List.length_drop] at hle
        omega
    · have hpos := bytes_pending_pos pending
      simp only [item] at h
      split_ifs at h with hlen
      · simp at h
      · simp only [Prod.mk.injEq] at h
        rw [← h.2, List.length_drop]
        omega

/-! ## One byte of an item -/

/-- No argument is refused in a body, so the kind is of no account. -/
theorem with_place_ref_body (kind k : Kind) (n : ℕ) (bs : List UInt8) :
    with_place k (ref_body kind n bs) =
      ((ref_body kind n bs).1.map fun answer => (answer, .Head), (ref_body kind n bs).2) := by
  unfold with_place ref_body
  split_ifs <;> rfl

/-- Without a payload the body is the token alone. -/
theorem ref_body_eq_token {kind : Kind} {n : ℕ} (h : ¬ (kind.is_string ∧ n ≠ 0))
    (bs : List UInt8) : ref_body kind n bs = (some (.token (token_of kind n [])), bs) := by
  by_cases hk : kind.is_string
  · have h0 : n = 0 := by
      by_contra hne
      exact h ⟨hk, hne⟩
    subst h0
    rw [ref_body, if_pos hk, if_neg (by omega)]
    rfl
  · exact ref_body_of_not_string hk n bs

/-- A string's body is what its `Pay` decodes. -/
theorem with_place_string (cfg : Config) {kind : Kind} (k : Kind) (hk : kind.is_string)
    {n : UInt64} (h : 1 ≤ n.toNat) (bs : List UInt8) :
    with_place k (ref_body kind n.toNat bs) = item cfg (.Pay kind [] n) bs := by
  rw [with_place_ref_body, ref_body_string hk]
  simp only [item, bytes_pending_of_pos h, List.nil_append]
  split_ifs <;> rfl

/-- An argument opened by a head. -/
theorem item_argument (cfg : Config) {byte : UInt8} {kind : Kind} {width : ℕ}
    (hform : head_form byte = .argument kind width) (bs : List UInt8) :
    item cfg .Head (byte :: bs) = item cfg (.Arg kind 0 (.ofNat width)) bs := by
  have hw := Kind.width_bounds (valid_of_head_form hform)
  have hwidth := toNat_width hform
  have hpending : bytes_pending (.ofNat width) = width := by
    rw [bytes_pending_of_pos (by omega), hwidth]
  have hkind : argument_kind_at (byte :: bs) = kind := by
    unfold head_form at hform
    split_ifs at hform
    · injection hform
    · split at hform <;> cases hform
  simp only [item, ref, hform, hkind, hpending, UInt64.toNat_zero, Nat.zero_mul, Nat.zero_add]
  split_ifs with hlen
  · rfl
  · -- at most eight bytes, so the accumulator does not overflow
    have hlt : ofBE (bs.take width) < 2 ^ 64 := by
      have hbound := ofBE_lt (bs.take width)
      rw [List.length_take, Nat.min_eq_left (by omega)] at hbound
      calc ofBE (bs.take width) < 256 ^ width := hbound
        _ ≤ 256 ^ 8 := Nat.pow_le_pow_right (by norm_num) hw.2
        _ = 2 ^ 64 := by norm_num
    rw [Nat.mod_eq_of_lt hlt]

/-- An argument byte that is not the last one. Horner's way, modulo `2 ^ 64`. -/
theorem item_arg_more (cfg : Config) (kind : Kind) (arg : UInt64) {pending : UInt64}
    (byte : UInt8) (h : pending ≠ 1) (bs : List UInt8) :
    item cfg (.Arg kind arg pending) (byte :: bs) =
      item cfg (.Arg kind (shift_in arg byte) (pending - 1)) bs := by
  simp only [item, bytes_pending_pred h, List.length_cons, List.take_succ_cons,
    List.drop_succ_cons, Nat.add_lt_add_iff_right]
  split_ifs with hlen
  · rfl
  · have htake : (bs.take (bytes_pending (pending - 1))).length = bytes_pending (pending - 1) := by
      rw [List.length_take]
      omega
    have hvalue : (arg.toNat * 256 ^ (bytes_pending (pending - 1) + 1)
          + ofBE (byte :: bs.take (bytes_pending (pending - 1)))) % 2 ^ 64
        = ((shift_in arg byte).toNat * 256 ^ bytes_pending (pending - 1)
          + ofBE (bs.take (bytes_pending (pending - 1)))) % 2 ^ 64 := by
      rw [toNat_shift_in, ofBE_cons, htake, Nat.add_mod (_ % _ * _), Nat.mod_mul_mod,
        ← Nat.add_mod]
      congr 1
      ring
    rw [hvalue]

/-- The last argument byte. -/
theorem item_arg_last (cfg : Config) (kind : Kind) (arg : UInt64) (byte : UInt8)
    (bs : List UInt8) :
    item cfg (.Arg kind arg 1) (byte :: bs) =
      with_place kind (ref_count cfg kind (shift_in arg byte).toNat bs) := by
  have hone : bytes_pending 1 = 1 := rfl
  simp only [item, hone, toNat_shift_in, List.length_cons, List.take_succ_cons, List.take_zero,
    List.drop_succ_cons, List.drop_zero, ofBE_singleton, pow_one]
  rw [if_neg (by omega)]

/-- A payload byte that is not the last one. -/
theorem item_pay_more (cfg : Config) (kind : Kind) (bytes : List UInt8) {pending : UInt64}
    (byte : UInt8) (h : pending ≠ 1) (bs : List UInt8) :
    item cfg (.Pay kind bytes pending) (byte :: bs) =
      item cfg (.Pay kind (bytes ++ [byte]) (pending - 1)) bs := by
  simp only [item, bytes_pending_pred h, List.length_cons, List.take_succ_cons,
    List.drop_succ_cons, Nat.add_lt_add_iff_right, List.append_assoc, List.singleton_append]

theorem item_pay_last (cfg : Config) (kind : Kind) (bytes : List UInt8) (byte : UInt8)
    (bs : List UInt8) :
    item cfg (.Pay kind bytes 1) (byte :: bs) =
      (some (.token (token_of kind 0 (bytes ++ [byte])), .Head), bs) := by
  have hone : bytes_pending 1 = 1 := rfl
  simp only [item, hone, List.length_cons, List.take_succ_cons, List.take_zero,
    List.drop_succ_cons, List.drop_zero]
  rw [if_neg (by omega)]

/-- How the scanner puts an answer, or that there is none yet. -/
def reply_of : Option Answer → Except ScanError (Option Token)
  | none => .ok none
  | some (.token token) => .ok (some token)
  | some (.error e) => .error e

/-- A call does one byte of the item, or ends it. -/
theorem Scanner.Call.item {cfg : Config} {s s' : ScanState} {byte : UInt8}
    {out : Except ScanError (Option Token)} (h : Scanner.Call cfg s byte out s') (hs : Held s) :
    ∃ o, out = reply_of o ∧
      ((o = none ∧ ∀ bs, item cfg s (byte :: bs) = item cfg s' bs) ∨
        ∃ a, o = some a ∧ ∀ bs, item cfg s (byte :: bs) = (some (a, s'), bs)) := by
  rcases h with hform | hform | ⟨hform, hk⟩ | ⟨hform, hk, h0⟩ | hform | hp | hx |
    ⟨hx, hk, h0⟩ | ⟨hx, hk⟩ | h2 | _
  case reserved =>
    refine ⟨some (.error (.UnexpectedHead byte)), rfl, .inr ⟨_, rfl, fun bs => ?_⟩⟩
    simp only [GlviCbor.item, ref, hform]
    rfl
  case indefinite token =>
    refine ⟨some (.token token), rfl, .inr ⟨_, rfl, fun bs => ?_⟩⟩
    simp only [GlviCbor.item, ref, hform]
    rfl
  case immediate kind n =>
    refine ⟨some (.token (token_of kind n [])), rfl, .inr ⟨_, rfl, fun bs => ?_⟩⟩
    simp only [GlviCbor.item, ref, hform]
    rw [with_place_ref_body, ref_body_eq_token hk]
    rfl
  case immediate_string kind n =>
    have hn := toNat_immediate hform
    refine ⟨none, rfl, .inl ⟨rfl, fun bs => ?_⟩⟩
    rw [← with_place_string cfg (argument_kind_at (byte :: bs)) hk (by omega), hn]
    simp only [GlviCbor.item, ref, hform]
  case argument kind width =>
    exact ⟨none, rfl, .inl ⟨rfl, item_argument cfg hform⟩⟩
  case arg_more kind arg pending =>
    exact ⟨none, rfl, .inl ⟨rfl, item_arg_more cfg kind arg byte hp⟩⟩
  case arg_excess kind arg =>
    refine ⟨some (.error (.Excessive (shift_in arg byte))), rfl, .inr ⟨_, rfl, fun bs => ?_⟩⟩
    have h0 : (shift_in arg byte).toNat ≠ 0 := fun hzero => not_exceeds_zero cfg kind (hzero ▸ hx)
    rw [item_arg_last, ref_count, if_pos ⟨h0, hx⟩, UInt64.ofNat_toNat]
    rfl
  case arg_string kind arg =>
    refine ⟨none, rfl, .inl ⟨rfl, fun bs => ?_⟩⟩
    rw [item_arg_last, ref_count, if_neg fun h => hx h.2]
    exact with_place_string cfg kind hk (by omega) bs
  case arg_token kind arg =>
    refine ⟨some (.token (token_of kind (shift_in arg byte).toNat [])), rfl,
      .inr ⟨_, rfl, fun bs => ?_⟩⟩
    rw [item_arg_last, ref_count, if_neg fun h => hx h.2, with_place_ref_body,
      ref_body_eq_token hk]
    rfl
  case pay_more kind bytes pending =>
    have hp : pending ≠ 1 := by
      rintro rfl
      exact absurd h2 (by decide)
    exact ⟨none, rfl, .inl ⟨rfl, item_pay_more cfg kind bytes byte hp⟩⟩
  case pay_last kind bytes =>
    exact ⟨some (.token (token_of kind 0 (bytes ++ [byte]))), rfl,
      .inr ⟨_, rfl, item_pay_last cfg kind bytes byte⟩⟩

/-! ## Whole streams -/

/-- The scanner under the step law of lexers. -/
theorem scan_lexes (cfg : Config) :
    Lexes (Scanner.Scans cfg) (item_decoder cfg) reply_of
      (fun scanner s => scanner.state = s ∧ Held s) where
  step := by
    rintro ⟨s⟩ _ byte ⟨rfl, hs⟩
    obtain ⟨out, s', hscan, hcall⟩ := Scanner.call cfg byte hs
    obtain ⟨o, rfl, hitem⟩ := hcall.item hs
    exact ⟨o, ⟨s'⟩, s', hscan, ⟨rfl, hcall.held hs⟩, hitem⟩

/-- A `Scanner` is the one-shot decoder, applied again and again. For every setting of
the limits and every byte stream, of any length and with any errors in it, a scanner fed
byte by byte from `Head` never aborts, and returns the answer of each item at the item's
last byte and nothing at every other byte. An item is what the reference decoder takes
from the front of the stream. It starts at a head, right behind the item before it, an
`UnexpectedHead` included; only after an `Excessive` does it start in the refused
argument, with `2 ^ 64` bytes still to come. -/
theorem scan_stream_replies (cfg : Config) (bs : List UInt8) :
    ∃ scanner', Scanner.Replies cfg ⟨.Head⟩ bs
      (((item_decoder cfg).replies .Head bs).map reply_of) scanner' :=
  (scan_lexes cfg).responds bs ⟨.Head⟩ .Head ⟨rfl, trivial⟩

end GlviCbor
