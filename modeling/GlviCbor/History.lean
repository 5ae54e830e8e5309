/-
What the scanner remembers of the bytes it has read.

`ScanState` stores three fields and not the bytes they came from. The history is
therefore a variable beside the run, `unfinished`: the bytes read since the last
token was complete. `Represents` ties it to the state: in `Arg` the accumulator is
the number the argument bytes spell, and the width of the argument, which no field
stores, is what was read together with what is pending; in `Pay` the bytes are the
payload so far, behind a head that announced all of it.

`ScanStep.accounts` says that this is kept by every byte, whatever the configuration,
and that a completed token accounts for all of the bytes as well: its head announced
its argument. That no call aborts, shifts out a bit, wraps `pending` or narrows a
number that does not fit is read off from it.
-/
import GlviCbor.Encode

set_option autoImplicit false

namespace GlviCbor

open Machine BigEndian

/-! ## Heads and histories -/

/-- A complete head: an initial byte and its argument bytes. It announces a kind
and a number, the argument. -/
inductive Announces : List UInt8 → Kind → ℕ → Prop
  | immediate {byte : UInt8} {kind : Kind} {n : ℕ} :
      head_form byte = .immediate kind n → Announces [byte] kind n
  | argument {byte : UInt8} {kind : Kind} (args : List UInt8) :
      head_form byte = .argument kind args.length → Announces (byte :: args) kind (ofBE args)

/-- What a state says about the bytes read since the last complete token. The kinds
that have widths are the nine that have an argument. -/
def Represents (read : List UInt8) : ScanState → Prop
  | .Head => read = []
  | .Arg kind arg pending =>
    ∃ byte args width, read = byte :: args ∧ head_form byte = .argument kind width ∧
      width ∈ kind.widths ∧ args.length + pending.toNat = width ∧ 1 ≤ pending.toNat ∧
      arg.toNat = ofBE args ∧ arg.toNat < 2 ^ (8 * (width - pending.toNat))
  | .Pay kind bytes pending =>
    kind.is_string ∧ 1 ≤ pending.toNat ∧
      ∃ head, read = head ++ bytes ∧ Announces head kind (bytes.length + pending.toNat)

/-- A token accounts for the bytes of its encoding: they are the one byte of a token
without an argument, or a head that announced the argument and then the payload. -/
def Token.Accounts (read : List UInt8) (token : Token) : Prop :=
  (∃ byte, read = [byte] ∧ head_form byte = .indefinite token) ∨
    ∃ head, read = head ++ token.payload ∧ Announces head token.kind token.argument

/-- A scan result accounts for the bytes read; an error does by being one. -/
def ScanResult.Accounts (read : List UInt8) : ScanResult → Prop
  | .Incomplete s => Represents read s
  | .Complete s token => s = .Head ∧ token.Accounts read
  | .Error _ => True

theorem two_pow_eight_mul (n : ℕ) : 2 ^ (8 * n) = 256 ^ n := by
  rw [pow_mul]
  norm_num

/-- Argument bytes that are read so far, with the accumulator they make. -/
theorem represents_arg {byte : UInt8} {args : List UInt8} {kind : Kind} {width : ℕ}
    {arg pending : UInt64} (hform : head_form byte = .argument kind width)
    (hlen : args.length + pending.toNat = width) (hpos : 1 ≤ pending.toNat)
    (harg : arg.toNat = ofBE args) : Represents (byte :: args) (.Arg kind arg pending) := by
  refine ⟨byte, args, width, rfl, hform, valid_of_head_form hform, hlen, hpos, harg, ?_⟩
  have hread : width - pending.toNat = args.length := by omega
  rw [hread, harg, two_pow_eight_mul]
  exact ofBE_lt args

/-- The state by itself is sound. -/
theorem Represents.sound {read : List UInt8} {s : ScanState} (h : Represents read s) :
    Sound s := by
  rcases s with _ | ⟨kind, arg, pending⟩ | ⟨kind, bytes, pending⟩
  · trivial
  · obtain ⟨byte, args, width, -, -, hwidth, hlen, hpos, harg, -⟩ := h
    have hw := Kind.width_bounds hwidth
    refine ⟨hpos, by omega, ?_⟩
    rw [harg]
    exact (ofBE_lt args).trans_le (Nat.pow_le_pow_right (by norm_num) (by omega))
  · exact ⟨h.1, h.2.1⟩

/-! ## One byte -/

/-- After a complete head: a payload is opened, with all of it pending, or the token
is made, and its argument is the number announced. -/
theorem body_accounts {read : List UInt8} {kind : Kind} {n : UInt64}
    (hread : Announces read kind n.toNat) (hkind : kind.widths ≠ [])
    (hfits : kind = .Simple → n.toNat < 256) :
    (if kind.is_string ∧ n.toNat ≠ 0 then ScanResult.Incomplete (.Pay kind [] n)
      else .Complete .Head (Token.make kind n [])).Accounts read := by
  by_cases hopen : kind.is_string ∧ n.toNat ≠ 0
  · rw [if_pos hopen]
    refine ⟨hopen.1, by omega, read, (List.append_nil read).symm, ?_⟩
    rw [List.length_nil, Nat.zero_add]
    exact hread
  · rw [if_neg hopen]
    have hkind' : (Token.make kind n []).kind = kind := by
      rcases kind <;> rfl
    have hpayload : (Token.make kind n []).payload = [] := by
      rcases kind <;> rfl
    have hcount : (Token.make kind n []).argument = n.toNat := by
      rcases kind <;> first | rfl | exact absurd rfl hkind | skip
      case Simple =>
        show n.toUInt8.toNat = n.toNat
        rw [UInt64.toNat_toUInt8, Nat.mod_eq_of_lt (hfits rfl)]
      -- a string without a payload to wait for is the empty one
      all_goals exact (not_not.mp fun h0 => hopen ⟨rfl, h0⟩).symm
    refine ⟨rfl, .inr ⟨read, ?_, ?_⟩⟩
    · rw [hpayload, List.append_nil]
    · rw [hcount, hkind']
      exact hread

theorem head_accounts (byte : UInt8) : ((head_form byte).result byte).Accounts [byte] := by
  rcases hform : head_form byte with _ | token | ⟨kind, n⟩ | ⟨kind, width⟩
  · trivial
  · exact ⟨rfl, .inl ⟨byte, rfl, hform⟩⟩
  · have hvalid := valid_of_head_form hform
    have hn := toNat_immediate hform
    have hread : Announces [byte] kind (UInt64.ofNat n).toNat := by
      rw [hn]
      exact .immediate hform
    have hbody := body_accounts hread (List.ne_nil_of_mem hvalid.2) fun _ => by
      have := hvalid.1
      omega
    rwa [hn] at hbody
  · have hw := Kind.width_bounds (valid_of_head_form hform)
    have hwidth := toNat_width hform
    refine represents_arg hform ?_ ?_ rfl
    · rw [hwidth, List.length_nil, Nat.zero_add]
    · omega

/-- What the accumulator is after one more argument byte. -/
theorem shift_in_ofBE {args : List UInt8} {arg : UInt64} (byte : UInt8)
    (harg : arg.toNat = ofBE args) (hroom : arg.toNat < 2 ^ 56) :
    (arg <<< 8 ||| byte.toUInt64).toNat = ofBE (args ++ [byte]) := by
  rw [shift_in_toNat byte hroom, ofBE_concat, harg]

/-- One byte: the result accounts for the history with this byte in it. -/
theorem ScanStep.accounts {cfg : Config} {read : List UInt8} {s left : ScanState} {byte : UInt8}
    {r : ScanResult} (h : ScanStep cfg byte s r left) (hs : Represents read s) :
    r.Accounts (read ++ [byte]) := by
  have hsound := hs.sound
  rcases h with _ | @⟨kind, arg, pending, h2⟩ | ⟨kind, arg⟩ | @⟨kind, bytes, pending, h2⟩ |
    ⟨kind, bytes⟩
  · obtain rfl : read = [] := hs
    exact head_accounts byte
  · obtain ⟨head, args, width, rfl, hform, -, hlen, hpos, harg, -⟩ := hs
    rw [List.cons_append]
    refine represents_arg hform ?_ ?_ (shift_in_ofBE byte harg hsound.arg_lt)
    · rw [pending_pred hpos, List.length_append, List.length_singleton]
      omega
    · rw [pending_pred hpos]
      omega
  · -- the head is complete, and the accumulator is the number it announces
    obtain ⟨head, args, width, rfl, hform, hwidth, hlen, hpos, harg, -⟩ := hs
    have hfull : (args ++ [byte]).length = width := by
      rw [List.length_append, List.length_singleton, ← hlen]
      rfl
    have hnum := shift_in_ofBE byte harg hsound.arg_lt
    have hread : Announces (head :: (args ++ [byte])) kind
        (arg <<< 8 ||| byte.toUInt64).toNat := by
      rw [hnum]
      exact .argument _ (by rw [hform, hfull])
    have hfits : kind = .Simple → (arg <<< 8 ||| byte.toUInt64).toNat < 256 := by
      rintro rfl
      obtain rfl : width = 1 := List.mem_singleton.mp hwidth
      rw [hnum]
      have hlt := ofBE_lt (args ++ [byte])
      rwa [hfull, pow_one] at hlt
    rw [finish_argument_eq]
    by_cases hx : (arg <<< 8 ||| byte.toUInt64).toNat ≠ 0
        ∧ Exceeds cfg kind (arg <<< 8 ||| byte.toUInt64).toNat
    · rw [if_pos hx]
      trivial
    · rw [if_neg hx]
      exact body_accounts hread (List.ne_nil_of_mem hwidth) hfits
  · obtain ⟨hkind, hpos, head, rfl, hread⟩ := hs
    refine ⟨hkind, ?_, head, List.append_assoc head bytes [byte], ?_⟩
    · rw [pending_pred hpos]
      omega
    · rw [length_concat_pending bytes byte hpos]
      exact hread
  · obtain ⟨hkind, hpos, head, rfl, hread⟩ := hs
    have hlen : (bytes ++ [byte]).length = bytes.length + (1 : UInt64).toNat :=
      length_concat_pending bytes byte hpos
    rw [← hlen] at hread
    refine ⟨rfl, .inr ⟨head, ?_, ?_⟩⟩
    · rcases kind <;> simp [Kind.is_string] at hkind <;>
        exact List.append_assoc head bytes [byte]
    · rcases kind <;> simp [Kind.is_string] at hkind <;> exact hread

/-! ## Nothing is lost -/

/-- The arithmetic of one byte is exact: the shift of the accumulator drops no bit,
`pending -= 1` does not wrap, and the number of a simple value fits the octet it is
narrowed to. -/
def NoLoss (s : ScanState) (byte : UInt8) : Prop :=
  match s with
  | .Head => True
  | .Arg kind arg pending =>
    (arg <<< 8).toNat = arg.toNat * 2 ^ 8 ∧ (pending - 1).toNat + 1 = pending.toNat ∧
      (kind = .Simple → pending - 1 = 0 →
        (arg <<< 8 ||| byte.toUInt64).toUInt8.toUInt64 = arg <<< 8 ||| byte.toUInt64)
  | .Pay _ _ pending => (pending - 1).toNat + 1 = pending.toNat

theorem Represents.noLoss {read : List UInt8} {s : ScanState} (h : Represents read s)
    (byte : UInt8) : NoLoss s byte := by
  have hsound := h.sound
  rcases s with _ | ⟨kind, arg, pending⟩ | ⟨kind, bytes, pending⟩
  · trivial
  · have hroom := hsound.arg_lt
    have hshift : (arg <<< 8).toNat = arg.toNat * 2 ^ 8 := by
      have hlast := shift_in_toNat 0 hroom
      simpa using hlast
    obtain ⟨head, args, width, -, -, hwidth, hlen, hpos, harg, -⟩ := h
    refine ⟨hshift, ?_, ?_⟩
    · rw [pending_pred hpos]
      omega
    · -- the last byte of a simple value is the only one, so the accumulator is that byte
      rintro rfl hlast
      rw [eq_zero_iff_toNat, pending_pred hpos] at hlast
      obtain rfl : width = 1 := List.mem_singleton.mp hwidth
      obtain rfl : args = [] := List.length_eq_zero_iff.mp (by omega)
      have hbyte : arg <<< 8 ||| byte.toUInt64 = byte.toUInt64 := by
        apply UInt64.toNat_inj.mp
        rw [shift_in_toNat byte hroom, harg, ofBE_nil, UInt8.toNat_toUInt64]
        omega
      rw [hbyte, UInt8.toUInt8_toUInt64]
  · show (pending - 1).toNat + 1 = pending.toNat
    have hpos := h.2.1
    rw [pending_pred hpos]
    omega

/-! ## Whole runs, up to the first error -/

/-- The bytes of the token in progress: those read since the last complete one. -/
def unfinished (read : List UInt8) (st : Step ScanState UInt8 ScanResult) : List UInt8 :=
  match st.output with
  | .Complete _ _ => []
  | _ => read ++ [st.input]

/-- One byte: from a sound state the scan does not abort, and its result accounts for
the bytes. -/
theorem Represents.scan (cfg : Config) {read : List UInt8} {s : ScanState}
    (h : Represents read s) (byte : UInt8) :
    ∃ r left, scan cfg s byte = some (r, left) ∧ r.Accounts (read ++ [byte]) := by
  obtain ⟨r, left, hscan, hstep⟩ := h.sound.scan_step cfg byte
  exact ⟨r, left, hscan, hstep.accounts h⟩

theorem scan_next_represents (cfg : Config) (read : List UInt8)
    (st : Step ScanState UInt8 ScanResult)
    (hstep : scan_next cfg st.before st.input = some (st.output, st.after))
    (h : Represents read st.before) : Represents (unfinished read st) st.after := by
  obtain ⟨before, byte, r, after⟩ := st
  obtain ⟨r', left, hscan, haccounts⟩ := Represents.scan cfg h byte
  dsimp only at hstep
  rw [scan_next, hscan] at hstep
  rcases r' with s' | ⟨s', token⟩ | e <;> simp only [Option.some.injEq, Prod.mk.injEq,
    reduceCtorEq] at hstep
  · obtain ⟨rfl, rfl⟩ := hstep
    exact haccounts
  · obtain ⟨rfl, rfl⟩ := hstep
    obtain rfl := haccounts.1
    exact (rfl : ([] : List UInt8) = [])

/-- The scan state represents what has been read. For every setting of the limits and
every run from `Head` without an error, the state reached spells the bytes read since
the last complete token. On any byte that comes next, the arithmetic is exact, the
scan does not abort, and what it returns accounts for the bytes again: a completed
token is the one its only byte stands for, or has the argument its head announced, also
where it is narrowed. -/
theorem scan_state_represents {cfg : Config} {steps : List (Step ScanState UInt8 ScanResult)}
    {s : ScanState}
    (hrun : Run (fun s b r s' => scan_next cfg s b = some (r, s')) .Head steps s) :
    Represents (steps.foldl unfinished []) s ∧
      ∀ byte, NoLoss s byte ∧ ∃ r left, scan cfg s byte = some (r, left) ∧
        r.Accounts (steps.foldl unfinished [] ++ [byte]) := by
  have hrep : Represents (steps.foldl unfinished []) s :=
    hrun.foldl_invariant unfinished Represents (scan_next_represents cfg) rfl
  exact ⟨hrep, fun byte => ⟨hrep.noLoss byte, hrep.scan cfg byte⟩⟩

/-- A two-byte string after one of its payload bytes, behind a finished number. -/
theorem scan_state_represents_pay :
    Represents [0x58, 0x02, 0x07] (.Pay .Bstr [0x07] 1) := by
  have hrun : Run (fun s b r s' => scan_next ⟨2, 0, 0, 0⟩ s b = some (r, s')) .Head
      [⟨.Head, 0x05, .Complete .Head (.Uint 5), .Head⟩,
        ⟨.Head, 0x58, .Incomplete (.Arg .Bstr 0 1), .Arg .Bstr 0 1⟩,
        ⟨.Arg .Bstr 0 1, 0x02, .Incomplete (.Pay .Bstr [] 2), .Pay .Bstr [] 2⟩,
        ⟨.Pay .Bstr [] 2, 0x07, .Incomplete (.Pay .Bstr [0x07] 1), .Pay .Bstr [0x07] 1⟩]
      (.Pay .Bstr [0x07] 1) :=
    .cons rfl (.cons rfl (.cons rfl (.cons rfl (.nil _))))
  exact (scan_state_represents hrun).1

end GlviCbor
