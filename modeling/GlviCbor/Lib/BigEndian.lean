/-
Fixed-width **big-endian** numbers over octets.

`ofBE` is Mathlib's `Nat.ofDigits` at base 256 read from the other end, so the
bound is Mathlib's; what is added here is the shape an incremental reader needs
(`ofBE_cons`, `ofBE_concat`: one octet at either end) and the writer `toBE` with
its round trip.
-/
import Mathlib.Data.Nat.Digits.Lemmas

set_option autoImplicit false

namespace BigEndian

/-- The number a big-endian octet string denotes. -/
def ofBE (bs : List UInt8) : ℕ := Nat.ofDigits 256 (bs.reverse.map UInt8.toNat)

/-- The `w` low octets of `n`, most significant first. -/
def toBE : ℕ → ℕ → List UInt8
  | 0, _ => []
  | w + 1, n => toBE w (n / 256) ++ [UInt8.ofNat n]

/-! ## Reading -/

@[simp] theorem ofBE_nil : ofBE [] = 0 := rfl

theorem ofBE_append (xs ys : List UInt8) :
    ofBE (xs ++ ys) = ofBE xs * 256 ^ ys.length + ofBE ys := by
  rw [ofBE, List.reverse_append, List.map_append, Nat.ofDigits_append, List.length_map,
    List.length_reverse, ← ofBE, ← ofBE]
  ring

@[simp] theorem ofBE_singleton (b : UInt8) : ofBE [b] = b.toNat := by
  simp [ofBE]

/-- One more octet at the front. -/
theorem ofBE_cons (b : UInt8) (bs : List UInt8) :
    ofBE (b :: bs) = b.toNat * 256 ^ bs.length + ofBE bs := by
  have h := ofBE_append [b] bs
  rwa [ofBE_singleton, List.singleton_append] at h

/-- One more octet at the end: the accumulator step of an incremental reader. -/
theorem ofBE_concat (bs : List UInt8) (b : UInt8) :
    ofBE (bs ++ [b]) = ofBE bs * 256 + b.toNat := by
  rw [ofBE_append, ofBE_singleton, List.length_singleton, pow_one]

theorem ofBE_lt (bs : List UInt8) : ofBE bs < 256 ^ bs.length := by
  have h : ∀ d ∈ bs.reverse.map UInt8.toNat, d < 256 := by
    intro d hd
    obtain ⟨b, -, rfl⟩ := List.mem_map.mp hd
    exact b.toNat_lt
  have hlt := Nat.ofDigits_lt_base_pow_length (by norm_num : 1 < 256) h
  rwa [List.length_map, List.length_reverse] at hlt

theorem ofBE_eq_zero_iff {bs : List UInt8} : ofBE bs = 0 ↔ ∀ d ∈ bs, d = 0 := by
  induction bs with
  | nil => simp
  | cons b bs ih =>
    -- the weight of the first octet is positive, so the octet itself has to vanish
    have hpow : 256 ^ bs.length ≠ 0 := (Nat.pow_pos (by norm_num)).ne'
    rw [ofBE_cons, List.forall_mem_cons, ← ih, Nat.add_eq_zero_iff, Nat.mul_eq_zero,
      or_iff_left hpow, ← UInt8.toNat_inj, UInt8.toNat_zero]

/-! ## Writing -/

@[simp] theorem length_toBE (w n : ℕ) : (toBE w n).length = w := by
  induction w generalizing n with
  | zero => rfl
  | succ w ih => rw [toBE, List.length_append, ih, List.length_singleton]

/-- What the reader makes of the writer's output: the number, cut to width. -/
theorem ofBE_toBE_mod (w n : ℕ) : ofBE (toBE w n) = n % 256 ^ w := by
  induction w generalizing n with
  | zero => rw [toBE, ofBE_nil, pow_zero, Nat.mod_one]
  | succ w ih =>
    -- the last octet is `n % 256`, the ones before it are those of `n / 256`
    have hb : (UInt8.ofNat n).toNat = n % 256 := UInt8.toNat_ofNat'
    rw [toBE, ofBE_concat, ih, hb, pow_succ', Nat.mod_mul]
    ring

/-- The round trip, for a number that fits. -/
theorem ofBE_toBE {w n : ℕ} (h : n < 256 ^ w) : ofBE (toBE w n) = n := by
  rw [ofBE_toBE_mod, Nat.mod_eq_of_lt h]

/-- And the other way: octets are the digits of the number they are read as. -/
theorem toBE_ofBE (bs : List UInt8) : toBE bs.length (ofBE bs) = bs := by
  induction bs using List.reverseRecOn with
  | nil => rfl
  | append_singleton bs b ih =>
    have hb := b.toNat_lt
    have hdiv : (ofBE bs * 256 + b.toNat) / 256 = ofBE bs := by omega
    have hdigit : UInt8.ofNat (ofBE bs * 256 + b.toNat) = b := by
      rw [← UInt8.toNat_inj, UInt8.toNat_ofNat']
      omega
    rw [List.length_append, List.length_singleton, ofBE_concat, toBE, hdiv, hdigit, ih]

end BigEndian
