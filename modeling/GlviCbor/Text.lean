/-
`CBORTstr` and its comparisons, of `glvi_cbor_tstr.h`.

The class compares the bytes it stores. `text_order` says what that is for texts that
come in over the wire: the order of their code points, whatever head each of them was
sent with. Nothing checks that a text string is UTF-8; the comparison is defined for
every byte string. There is no `==` of two `CBORTstr`: the two that are declared, with a
`std::u8string` on one side, keep the compiler from defaulting it along with `<=>`.
-/
import GlviCbor.Lib.OrderedCode
import GlviCbor.Accessors

set_option autoImplicit false

namespace GlviCbor

/-! ## `CBORTstr` -/

structure CBORTstr where
  storage : List UInt8
  deriving DecidableEq

namespace CBORTstr

/-- `std::u8string` compares unsigned bytes, and the longer string is greater where one
begins with the other. -/
def three_way (a b : CBORTstr) : Ordering := compare a.storage b.storage

def three_way_u8string (a : CBORTstr) (b : List UInt8) : Ordering := compare a.storage b

def u8string_three_way (a : List UInt8) (b : CBORTstr) : Ordering := compare a b.storage

def eq_u8string (a : CBORTstr) (b : List UInt8) : Bool := a.three_way_u8string b == .eq

def u8string_eq (a : List UInt8) (b : CBORTstr) : Bool := u8string_three_way a b == .eq

end CBORTstr

/-! ## Texts in their order -/

/-- The UTF-8 form of a text. -/
def utf8 (s : List Char) : List UInt8 := s.flatMap String.utf8EncodeChar

theorem compare_utf8 (s t : List Char) : compare (utf8 s) (utf8 t) = compare s t :=
  OrderedCode.ordered_utf8.compare_flatMap s t

/-- The text string a caller gets for a byte string that is one scanned token. -/
def ReadsText (cfg : Config) (bs : List UInt8) (a : CBORTstr) : Prop :=
  ∃ v, ScansToValue cfg bs v ∧ v.as_tstr = some a.storage

/-- One byte string reads as one text. -/
theorem ReadsText.unique {cfg : Config} {bs : List UInt8} {a b : CBORTstr}
    (ha : ReadsText cfg bs a) (hb : ReadsText cfg bs b) : a = b := by
  obtain ⟨v, ⟨t, hscan, hmake⟩, hv⟩ := ha
  obtain ⟨w, ⟨u, hscan', hmake'⟩, hw⟩ := hb
  have ht : t = u := by
    have href := (ref_of_scan_range hscan).symm.trans (ref_of_scan_range hscan')
    simpa using href
  subst ht
  rw [hmake] at hmake'
  cases hmake'
  rw [hv] at hw
  cases a
  cases b
  cases hw
  rfl

theorem readsText_of_encodingOf {cfg : Config} {bs : List UInt8} {units : List UInt8}
    (h : EncodingOf cfg (.Tstr units) bs) : ReadsText cfg bs ⟨units⟩ :=
  ⟨.tstr units, ⟨.Tstr units, scansTo_iff.mpr h, rfl⟩, rfl⟩

/-- Two texts over the wire, each in any encoding that is accepted under the limits: what
the caller gets compares, in each of the three `<=>`, as the texts do code point by code
point, and is equal to the `std::u8string` of the other, on either side of `==`, exactly
for one text. -/
theorem text_order {cfg : Config} {s t : List Char} {bs bs' : List UInt8} {a b : CBORTstr}
    (hs : EncodingOf cfg (.Tstr (utf8 s)) bs) (ht : EncodingOf cfg (.Tstr (utf8 t)) bs')
    (ha : ReadsText cfg bs a) (hb : ReadsText cfg bs' b) :
    a.three_way b = compare s t ∧
      a.three_way_u8string b.storage = compare s t ∧
      CBORTstr.u8string_three_way a.storage b = compare s t ∧
      (a.eq_u8string b.storage ↔ s = t) ∧ (CBORTstr.u8string_eq a.storage b ↔ s = t) := by
  obtain rfl := ha.unique (readsText_of_encodingOf hs)
  obtain rfl := hb.unique (readsText_of_encodingOf ht)
  have hcompare : compare (utf8 s) (utf8 t) = compare s t := compare_utf8 s t
  have heq : (compare (utf8 s) (utf8 t) == .eq) = true ↔ s = t := by
    rw [hcompare, beq_iff_eq]
    exact Std.LawfulEqOrd.compare_eq_iff_eq
  exact ⟨hcompare, hcompare, hcompare, heq, heq⟩

/-- `"é"` with its length in a byte of its own, and `"z"` with the length in the head. -/
theorem text_order_heads :
    (CBORTstr.mk [0xc3, 0xa9]).three_way ⟨[0x7a]⟩ = .gt := by
  have hs : EncodingOf ⟨2, 2, 2, 2⟩ (.Tstr (utf8 ['é'])) [0x78, 0x02, 0xc3, 0xa9] :=
    ⟨.one, ⟨by decide, .inr (by decide)⟩, by decide⟩
  have ht : EncodingOf ⟨2, 2, 2, 2⟩ (.Tstr (utf8 ['z'])) [0x61, 0x7a] :=
    ⟨.immediate, ⟨by decide, .inl rfl⟩, by decide⟩
  exact (text_order hs ht (readsText_of_encodingOf hs) (readsText_of_encodingOf ht)).1

end GlviCbor
