/-
One byte at a time: what `scan` does in each of its three states.

The lemmas below are the only place that looks inside `consume_arg`,
`consume_pay` and the 64-bit arithmetic. They say each step on natural numbers:
the accumulator is `arg * 256 + byte`, `pending` goes down by one as long as it
is positive, and the last argument byte either fails the configured limit or
hands over to a payload or a token.
-/
import GlviCbor.Head
import Mathlib.Tactic.Ring

set_option autoImplicit false

namespace GlviCbor

/-! ## 64-bit arithmetic -/

/-- `arg <<= 8; arg |= byte`. -/
theorem shift_in_toNat_mod (arg : UInt64) (byte : UInt8) :
    (arg <<< 8 ||| byte.toUInt64).toNat = (arg.toNat * 256 + byte.toNat) % 2 ^ 64 := by
  have hb := byte.toNat_lt
  -- the shift drops the top octet and clears the low one, so the `or` is a sum
  have hshift : (arg <<< 8).toNat = (arg.toNat % 2 ^ 56) <<< 8 := by
    rw [UInt64.toNat_shiftLeft]
    simp only [UInt64.reduceToNat, Nat.reduceMod, Nat.shiftLeft_eq]
    omega
  rw [UInt64.toNat_or, hshift, UInt8.toNat_toUInt64, ← Nat.shiftLeft_add_eq_or_of_lt (by omega),
    Nat.shiftLeft_eq]
  omega

/-- The shift loses nothing while the accumulator is below `2 ^ 56`. -/
theorem shift_in_toNat {arg : UInt64} (byte : UInt8) (h : arg.toNat < 2 ^ 56) :
    (arg <<< 8 ||| byte.toUInt64).toNat = arg.toNat * 256 + byte.toNat := by
  have hb := byte.toNat_lt
  rw [shift_in_toNat_mod, Nat.mod_eq_of_lt (by omega)]

/-- `pending -= 1`, while it is positive. -/
theorem pending_pred {pending : UInt64} (h : 1 ≤ pending.toNat) :
    (pending - 1).toNat = pending.toNat - 1 := by
  have hle : (1 : UInt64) ≤ pending := UInt64.le_iff_toNat_le.mpr (by simpa using h)
  rw [UInt64.toNat_sub_of_le _ _ hle]
  rfl

/-- A payload byte moves from `pending` to `bytes`. -/
theorem length_concat_pending (bytes : List UInt8) (byte : UInt8) {pending : UInt64}
    (h : 1 ≤ pending.toNat) :
    (bytes ++ [byte]).length + (pending - 1).toNat = bytes.length + pending.toNat := by
  rw [List.length_append, List.length_singleton, pending_pred h]
  omega

theorem pending_pos_iff {pending : UInt64} : pending > 0 ↔ 1 ≤ pending.toNat := by
  rw [gt_iff_lt, UInt64.lt_iff_toNat_lt]
  rfl

theorem toNat_ofNat_of_lt {n : ℕ} (h : n < 2 ^ 64) : (UInt64.ofNat n).toNat = n :=
  UInt64.toNat_ofNat_of_lt (by simpa [UInt64.size] using h)

theorem toNat_immediate {byte : UInt8} {kind : Kind} {n : ℕ}
    (h : head_form byte = .immediate kind n) : (UInt64.ofNat n).toNat = n := by
  have hlt : n < 24 := (valid_of_head_form h).1
  exact toNat_ofNat_of_lt (by omega)

theorem toNat_width {byte : UInt8} {kind : Kind} {width : ℕ}
    (h : head_form byte = .argument kind width) : (UInt64.ofNat width).toNat = width := by
  have hw := Kind.width_bounds (valid_of_head_form h)
  exact toNat_ofNat_of_lt (by omega)

theorem eq_zero_iff_toNat {n : UInt64} : n = 0 ↔ n.toNat = 0 := by
  rw [← UInt64.toNat_inj]
  rfl

/-! ## The limits

`Config.limit` is what the configuration means: a positive setting is a limit,
`0` is none. `count_max` spells "no limit" as `SIZE_MAX`, which no 64-bit count
exceeds. -/

/-- The limit configured for the counts of a kind. -/
def Config.limit (cfg : Config) (kind : Kind) : Option ℕ :=
  let setting := match kind with
    | .Bstr => cfg.GLVI_CBOR_BSTR_COUNT_MAX
    | .Tstr => cfg.GLVI_CBOR_TSTR_COUNT_MAX
    | .Array => cfg.GLVI_CBOR_ARRAY_COUNT_MAX
    | .Map => cfg.GLVI_CBOR_MAP_COUNT_MAX
    | _ => 0
  if setting = 0 then none else some setting.toNat

/-- A count of a kind is over the limit configured for that kind. -/
def Exceeds (cfg : Config) (kind : Kind) (n : ℕ) : Prop := ∃ l ∈ cfg.limit kind, l < n

instance (cfg : Config) (kind : Kind) (n : ℕ) : Decidable (Exceeds cfg kind n) :=
  inferInstanceAs (Decidable (∃ l ∈ cfg.limit kind, l < n))

theorem limit_of_lt_iff (x n : UInt64) :
    limit_of x < n ↔ ∃ l ∈ (if x = 0 then none else some x.toNat), l < n.toNat := by
  rw [UInt64.lt_iff_toNat_lt, limit_of]
  by_cases hx : x = 0
  · -- no limit is the largest limit there is
    have hn := n.toNat_lt
    have hmax : SIZE_MAX.toNat = 2 ^ 64 - 1 := rfl
    have hpos : ¬ x > 0 := by simp [hx]
    rw [if_neg hpos, if_pos hx, hmax]
    constructor
    · intro h
      omega
    · rintro ⟨l, hl, -⟩
      exact nomatch hl
  · have hpos : x > 0 := by
      rw [eq_zero_iff_toNat] at hx
      rw [pending_pos_iff]
      omega
    rw [if_pos hpos, if_neg hx]
    simp

/-- The code's comparison is the configured one. -/
theorem count_max_lt_iff (cfg : Config) (kind : Kind) (n : UInt64) :
    count_max cfg kind < n ↔ Exceeds cfg kind n.toNat := by
  have hnone : SIZE_MAX = limit_of 0 := rfl
  rcases kind <;>
    simp only [count_max, Exceeds, Config.limit, scan_state.bstr_count_max,
      scan_state.tstr_count_max, scan_state.array_count_max, scan_state.map_count_max, hnone] <;>
    exact limit_of_lt_iff _ n

/-! ## The last argument byte -/

/-- The argument fails the limit, opens a payload, or is a token by itself. -/
theorem finish_argument_eq (cfg : Config) (kind : Kind) (arg : UInt64) :
    finish_argument cfg kind arg =
      if arg.toNat ≠ 0 ∧ Exceeds cfg kind arg.toNat then .Error (.Excessive arg)
      else if kind.is_string ∧ arg.toNat ≠ 0 then .Incomplete (.Pay kind [] arg)
      else .Complete .Head (Token.make kind arg []) := by
  unfold finish_argument protect_size
  by_cases h0 : arg = 0
  · -- the early return: neither of the two conditions holds of zero
    rw [if_pos h0, h0]
    simp [make_token]
  · have h0' : arg.toNat ≠ 0 := by rwa [Ne, ← eq_zero_iff_toNat]
    rw [if_neg h0]
    by_cases hle : arg ≤ count_max cfg kind
    · have hx : ¬ Exceeds cfg kind arg.toNat := by
        rw [← count_max_lt_iff]
        exact UInt64.not_lt.mpr hle
      rw [if_pos hle, if_neg (fun h => hx h.2)]
      rcases kind <;> simp [Kind.is_string, h0', gather_bytes, make_token]
    · have hx : Exceeds cfg kind arg.toNat := by
        rw [← count_max_lt_iff]
        exact UInt64.not_le.mp hle
      rw [if_neg hle, if_pos ⟨h0', hx⟩]

/-! ## The three states -/

theorem scan_head (cfg : Config) (byte : UInt8) :
    scan cfg .Head byte = some ((head_form byte).result byte, .Head) := by
  rw [scan, consume_head_eq]

/-- An argument byte that is not the last one. -/
theorem scan_arg_more (cfg : Config) (kind : Kind) (arg : UInt64) {pending : UInt64}
    (byte : UInt8) (h : 2 ≤ pending.toNat) :
    scan cfg (.Arg kind arg pending) byte =
      some (.Incomplete (.Arg kind (arg <<< 8 ||| byte.toUInt64) (pending - 1)),
        .Arg kind (arg <<< 8 ||| byte.toUInt64) (pending - 1)) := by
  have hpos : pending - 1 > 0 := by
    rw [pending_pos_iff, pending_pred (by omega)]
    omega
  simp only [scan, consume_arg, if_pos hpos]

/-- The last argument byte. The decremented `pending` is left in the caller's
state, whatever the verdict. -/
theorem scan_arg_last (cfg : Config) (kind : Kind) (arg : UInt64) {pending : UInt64}
    (byte : UInt8) (h : pending.toNat = 1) :
    scan cfg (.Arg kind arg pending) byte =
      some (finish_argument cfg kind (arg <<< 8 ||| byte.toUInt64),
        .Arg kind (arg <<< 8 ||| byte.toUInt64) 0) := by
  obtain rfl : pending = 1 := UInt64.toNat_inj.mp h
  rfl

/-- A payload byte that is not the last one. -/
theorem scan_pay_more (cfg : Config) (kind : Kind) (bytes : List UInt8) {pending : UInt64}
    (byte : UInt8) (h : 2 ≤ pending.toNat) :
    scan cfg (.Pay kind bytes pending) byte =
      some (.Incomplete (.Pay kind (bytes ++ [byte]) (pending - 1)),
        .Pay kind [] (pending - 1)) := by
  have hpos : pending - 1 > 0 := by
    rw [pending_pos_iff, pending_pred (by omega)]
    omega
  simp only [scan, consume_pay, if_pos hpos]

/-- The last payload byte of a string. -/
theorem scan_pay_last (cfg : Config) {kind : Kind} (hkind : kind.is_string) (bytes : List UInt8)
    {pending : UInt64} (byte : UInt8) (h : pending.toNat = 1) :
    scan cfg (.Pay kind bytes pending) byte =
      some (.Complete .Head (Token.make kind 0 (bytes ++ [byte])), .Pay kind [] 0) := by
  obtain rfl : pending = 1 := UInt64.toNat_inj.mp h
  rcases kind <;> simp [Kind.is_string] at hkind <;> rfl

/-- Whatever the state, a completed token leaves the scanner at `Head`. -/
theorem scan_complete_state {cfg : Config} {s s' left : ScanState} {byte : UInt8} {token : Token}
    (h : scan cfg s byte = some (.Complete s' token, left)) : s' = .Head := by
  rcases s with _ | ⟨kind, arg, pending⟩ | ⟨kind, bytes, pending⟩
  · rw [scan_head] at h
    rcases hf : head_form byte with _ | _ | ⟨k, n⟩ | _ <;>
      simp only [hf, HeadForm.result, Option.some.injEq, Prod.mk.injEq, ScanResult.Complete.injEq,
        reduceCtorEq, false_and] at h
    · exact h.1.1.symm
    · split at h <;> simp_all
  · simp only [scan, consume_arg, finish_argument_eq, Option.some.injEq] at h
    split_ifs at h <;> simp_all
  · simp only [scan, consume_pay] at h
    split_ifs at h
    · simp at h
    · rcases kind <;> simp [make_token] at h <;> exact h.1.1.symm

end GlviCbor
