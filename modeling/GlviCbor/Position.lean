/-
Where a scan of a range stops.

The range overloads of `scan` take the iterators, or the range, by value: a caller
learns the token and not how many bytes it took. `position_known_iff` says for which
tokens that number can be told from the token. For all others the token alone does not
tell where the next one starts; a caller has to look at the head byte as well, or count
along with `Scanner::scan`, one byte at a time.
-/
import GlviCbor.Language

set_option autoImplicit false

namespace GlviCbor

open Machine BigEndian

/-! ## What a range is scanned to -/

/-- A scan to a token is a decoding to that token, with the same rest. -/
theorem ref_of_scan_range {cfg : Config} {bs rest : List UInt8} {t : Token}
    (h : scan_range cfg .Head bs = some (.Complete .Head t, rest)) :
    ref cfg bs = (some (.token t), rest) := by
  rcases href : ref cfg bs with ⟨_ | a, rest'⟩
  · -- an unfinished token would have left the scan incomplete
    obtain ⟨o, hfeed, hans, -⟩ := (scan_decodes cfg).feed_eq bs .Head trivial
    rw [residual, href] at hfeed hans
    rw [scan_range_eq_feed, hfeed] at h
    rcases o with s | a
    · simp [result_of] at h
    · cases hans
  · rw [scan_range_eq_feed, feed_of_ref href] at h
    rcases a with t' | e
    · simp only [Option.map_some, result_of, Option.some.injEq, Prod.mk.injEq,
        ScanResult.Complete.injEq, true_and] at h
      rw [h.1, h.2]
    · simp [result_of] at h

/-- The range overload takes an accepted encoding off the front, and nothing else. -/
theorem scan_range_eq_complete_iff {cfg : Config} {bs rest : List UInt8} {t : Token} :
    scan_range cfg .Head bs = some (.Complete .Head t, rest) ↔
      ∃ form, t.Accepted cfg form ∧ bs = encode t form ++ rest := by
  rw [← ref_eq_token_iff]
  constructor
  · exact ref_of_scan_range
  · intro href
    rw [scan_range_eq_feed, feed_of_ref href]
    rfl

/-! ## The length of an encoding -/

theorem length_encode {t : Token} {form : ArgForm} (h : t.Admits form) :
    (encode t form).length = 1 + form.width + t.payload.length := by
  unfold encode
  by_cases hx : t.is_indefinite
  · -- one byte, and the form has no width
    rw [if_pos hx]
    rcases t <;> simp [Token.is_indefinite] at hx <;> rw [show form = .immediate from h] <;> rfl
  · rw [if_neg hx, List.length_cons, List.length_append, length_toBE]
    omega

theorem ArgForm.width_injective {form form' : ArgForm} (h : form.width = form'.width) :
    form = form' := by
  rcases form <;> rcases form' <;> first | rfl | exact absurd h (by decide)

/-- One number of bytes is read for every range that is scanned to the token. -/
def PositionKnown (cfg : Config) (t : Token) : Prop :=
  ∃ n, ∀ bs rest, scan_range cfg .Head bs = some (.Complete .Head t, rest) →
    bs.length = n + rest.length

theorem positionKnown_iff {cfg : Config} {t : Token} :
    PositionKnown cfg t ↔
      ∀ form form', t.Accepted cfg form → t.Accepted cfg form' → form = form' := by
  constructor
  · rintro ⟨n, hn⟩ form form' h h'
    have hlen := hn (encode t form ++ []) [] (scan_range_eq_complete_iff.mpr ⟨form, h, rfl⟩)
    have hlen' := hn (encode t form' ++ []) [] (scan_range_eq_complete_iff.mpr ⟨form', h', rfl⟩)
    apply ArgForm.width_injective
    rw [List.append_nil, length_encode h.1] at hlen
    rw [List.append_nil, length_encode h'.1] at hlen'
    omega
  · intro hone
    by_cases hsome : ∃ form, t.Accepted cfg form
    · obtain ⟨form, h⟩ := hsome
      refine ⟨(encode t form).length, ?_⟩
      intro bs rest hscan
      obtain ⟨form', h', rfl⟩ := scan_range_eq_complete_iff.mp hscan
      rw [hone form' form h' h, List.length_append]
    · -- no range is scanned to the token
      refine ⟨0, ?_⟩
      intro bs rest hscan
      obtain ⟨form, h, -⟩ := scan_range_eq_complete_iff.mp hscan
      exact absurd ⟨form, h⟩ hsome

/-! ## Tokens with one form -/

/-- The token has no argument, or one that takes all eight bytes, or one over its limit;
a simple value has a byte of its own. -/
def Token.OneForm (cfg : Config) : Token → Prop
  | .Simple v => 24 ≤ v.toNat
  | t => t.is_indefinite ∨ 2 ^ 32 ≤ t.argument ∨ ¬ t.Within cfg

/-- A form for an argument of more than four bytes is the one of eight. -/
theorem ArgForm.eq_eight {form : ArgForm} {n : ℕ} (h : form.Fits n) (hn : 2 ^ 32 ≤ n) :
    form = .eight := by
  rcases form with _ | _ | _ | _ | _
  case eight => rfl
  all_goals
    unfold ArgForm.Fits at h
    omega

theorem Token.Admits.fits {t : Token} {form : ArgForm} (h : t.Admits form)
    (hx : ¬ t.is_indefinite) (hs : t.kind ≠ .Simple) : form.Fits t.argument := by
  rcases t <;> first | exact absurd rfl hx | exact absurd rfl hs | exact h | exact h.2

/-- An argument of four bytes has a form of four and one of eight. -/
theorem admits_four_eight {t : Token} (hx : ¬ t.is_indefinite) (hs : t.kind ≠ .Simple)
    (hn : t.argument < 2 ^ 32) : t.Admits .four ∧ t.Admits .eight := by
  have hfour : ArgForm.four.Fits t.argument := hn
  have height : ArgForm.eight.Fits t.argument := by
    unfold ArgForm.Fits
    omega
  rcases t <;> first
    | exact absurd rfl hx
    | exact absurd rfl hs
    | exact ⟨hfour, height⟩
    | exact ⟨⟨.inr (.inl rfl), hfour⟩, .inr (.inr rfl), height⟩

theorem eq_of_oneForm {cfg : Config} {t : Token} (h : t.OneForm cfg) {form form' : ArgForm}
    (hform : t.Accepted cfg form) (hform' : t.Accepted cfg form') : form = form' := by
  by_cases hs : t.kind = .Simple
  · rcases t <;> simp [Token.kind] at hs
    -- the head byte has no room for it
    rcases hform.1 with rfl | ⟨rfl, hlt⟩
    · rcases hform'.1 with rfl | ⟨rfl, hlt⟩
      · rfl
      · exact absurd hlt (Nat.not_lt.mpr h)
    · exact absurd hlt (Nat.not_lt.mpr h)
  · have hcases : t.is_indefinite ∨ 2 ^ 32 ≤ t.argument ∨ ¬ t.Within cfg := by
      rcases t <;> first | exact absurd rfl hs | exact h
    by_cases hx : t.is_indefinite
    · rcases t <;> simp [Token.is_indefinite] at hx <;> exact Eq.trans hform.1 (Eq.symm hform'.1)
    · rcases hcases with hind | hbig | hover
      · exact absurd hind hx
      · rw [ArgForm.eq_eight (hform.1.fits hx hs) hbig, ArgForm.eq_eight (hform'.1.fits hx hs) hbig]
      · rw [hform.2.resolve_right hover, hform'.2.resolve_right hover]

/-- What the token tells of the range it was scanned from. For every setting of the limits
and every token: all ranges that are scanned to it are read to the same number of bytes
if and only if it is a break or the opener of something indefinite, its argument takes
all eight bytes, its count is over the limit (so that it comes in a head byte or not at
all), or it is a simple value from 24 on. -/
theorem position_known_iff (cfg : Config) (t : Token) :
    PositionKnown cfg t ↔ t.OneForm cfg := by
  rw [positionKnown_iff]
  constructor
  · intro hone
    by_cases hs : t.kind = .Simple
    · rcases t <;> simp [Token.kind] at hs
      rename_i v
      by_contra hv
      have hlt : v.toNat < 24 := Nat.not_le.mp hv
      have hwithin : (Token.Simple v).Within cfg := by
        rintro ⟨l, ⟨⟩, -⟩
      have heq := hone .one .immediate ⟨.inl rfl, .inr hwithin⟩ ⟨.inr ⟨rfl, hlt⟩, .inl rfl⟩
      cases heq
    · have hgoal : t.is_indefinite ∨ 2 ^ 32 ≤ t.argument ∨ ¬ t.Within cfg := by
        by_contra hno
        rw [not_or, not_or, not_not] at hno
        obtain ⟨hx, hn, hwithin⟩ := hno
        obtain ⟨hfour, height⟩ := admits_four_eight hx hs (Nat.not_le.mp hn)
        have heq := hone .four .eight ⟨hfour, .inr hwithin⟩ ⟨height, .inr hwithin⟩
        cases heq
      rcases t <;> first | exact absurd rfl hs | exact hgoal
  · intro h form form'
    exact eq_of_oneForm h

end GlviCbor
