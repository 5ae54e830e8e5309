/-
What the parser sees of a token.

`do_consume` compares the kind of a token with the terminal on top, and hands the
actions what `make_value` makes of it. There is no other way from a token to the
stacks. `make_value` has no value for definite arrays, maps and tags, and one and the
same for all floats, so the counts, the tag numbers and the bits of a float are gone
before any action runs: `indistinguishable_iff` says that this is exactly what the
parser, whatever its actions, does not see.

The second half is what follows for the inputs a parser completes. The terminal on top
is one kind, so two of them part only where a value does (`completed_branch`); and a
parser that completes nothing but well-formed data items completes none with a count in
it (`sound_without_counts`).
-/
import GlviCbor.Derivation
import GlviCbor.Rejected

set_option autoImplicit false

namespace GlviCbor

open Machine Settle

/-! ## Tokens that look the same -/

/-- The token without what `make_value` drops. -/
def Token.seen : Token → Token
  | .Array _ => .Array 0
  | .Map _ => .Map 0
  | .Tag _ => .Tag 0
  | .Float _ => .Float 0
  | token => token

/-- The result without what the token in it has dropped. -/
def ParseResult.seen : ParseResult → ParseResult
  | .Error (.UnexpectedT expected found) => .Error (.UnexpectedT expected found.seen)
  | r => r

theorem Token.kind_seen (t : Token) : t.seen.kind = t.kind := by
  rcases t <;> rfl

theorem make_value_seen (t : Token) : make_value t.seen = make_value t := by
  rcases t <;> rfl

/-- Kind and value are all there is to see. -/
theorem Token.seen_eq_iff (t t' : Token) :
    t.seen = t'.seen ↔ t.kind = t'.kind ∧ make_value t = make_value t' := by
  constructor
  · intro h
    rw [← t.kind_seen, ← t'.kind_seen, ← make_value_seen t, ← make_value_seen t', h]
    exact ⟨rfl, rfl⟩
  · rintro ⟨hkind, hvalue⟩
    rcases t <;> rcases t' <;> first
      | rfl
      | contradiction
      | simpa [make_value, Token.seen] using hvalue

section Seen

variable {ι : Type*} {invoke : ι → ParseState ι → ParseState ι}

/-- Tokens that look the same have results that look the same, and leave the same
stacks. -/
theorem consumes_of_seen {s s' : ParseState ι} {w w' : Token} {r : ParseResult}
    (hw : w.seen = w'.seen) (h : Consumes invoke s w r s') :
    ∃ r', Consumes invoke s w' r' s' ∧ r'.seen = r.seen := by
  obtain ⟨hkind, hvalue⟩ := (w.seen_eq_iff w').mp hw
  obtain ⟨e, u, hdo, hfin⟩ := consumes_iff.mp h
  obtain ⟨t, ht, hreply⟩ := doConsumes_iff.mp hdo
  have hpush : ∀ valStack, push_value w' valStack = push_value w valStack := by
    intro valStack
    rw [push_value, push_value, hvalue]
  rcases hreply with ⟨valStack⟩ | @⟨kind, cxtStack, valStack, _, hk, hu⟩ |
    @⟨kind, cxtStack, valStack, hne⟩ | ⟨nonTerm, cxtStack, valStack⟩
  · exact ⟨r, consumes_iff.mpr ⟨_, _, doConsumes_iff.mpr ⟨_, ht, .trailing valStack⟩, hfin⟩, rfl⟩
  · rw [← hpush valStack] at hu
    exact ⟨r, consumes_iff.mpr ⟨_, _, doConsumes_iff.mpr
      ⟨_, ht, .accept (hk.trans hkind) hu⟩, hfin⟩, rfl⟩
  · -- the one result that quotes the token
    obtain ⟨rfl, rfl⟩ := Prod.mk.inj hfin
    rw [hkind] at hne
    refine ⟨_, consumes_iff.mpr ⟨_, _, doConsumes_iff.mpr
      ⟨_, ht, .unexpected cxtStack valStack hne⟩, rfl⟩, ?_⟩
    simp only [ParseResult.seen, hw]
  · exact ⟨r, consumes_iff.mpr ⟨_, _, doConsumes_iff.mpr
      ⟨_, ht, .internal nonTerm cxtStack valStack⟩, hfin⟩, rfl⟩

theorem parses_of_seen {s u : ParseState ι} {ts ts' : List Token} {out : List ParseResult}
    (h : ts.map Token.seen = ts'.map Token.seen) (hparse : Parses invoke s ts out u) :
    ∃ out', Parses invoke s ts' out' u ∧ out'.map ParseResult.seen = out.map ParseResult.seen := by
  refine Responds.of_map_eq ?_ h hparse
  intro s w w' r s' hw hstep
  exact consumes_of_seen hw hstep

end Seen

/-- Put into any place of any input, the two tokens leave any parser with the same
stacks and the same results, where a token that is quoted in a result counts without
what `Token.seen` takes away. -/
def Indistinguishable (t t' : Token) : Prop :=
  ∀ (ι : Type) (invoke : ι → ParseState ι → ParseState ι) (s u : ParseState ι)
    (before after : List Token) (out : List ParseResult),
    Parses invoke s (before ++ t :: after) out u →
      ∃ out', Parses invoke s (before ++ t' :: after) out' u ∧
        out'.map ParseResult.seen = out.map ParseResult.seen

/-- An action of no kind. -/
def idle (_action : Empty) (s : ParseState Empty) : ParseState Empty := s

/-- What a stack with one terminal makes of a token of its kind. -/
def alone (t : Token) : ParseResult :=
  match make_value t with
  | some value => .Complete value
  | none => .Error .Invalid

theorem consumes_alone (t : Token) :
    Consumes idle ⟨[.TerminalSymbol t.kind], []⟩ t (alone t) ⟨[], []⟩ := by
  have hverdict : verdict (⟨[], push_value t []⟩ : ParseState Empty) = (alone t, ⟨[], []⟩) := by
    unfold push_value alone
    rcases make_value t with _ | value <;> rfl
  exact consumes_iff.mpr ⟨.ok (), _, doConsumes_iff.mpr
    ⟨_, (settles_of_rest rfl).mpr rfl, .accept rfl ((settles_of_rest rfl).mpr rfl)⟩, hverdict⟩

theorem consumes_other {t : Token} {kind : Kind} (h : kind ≠ t.kind) :
    Consumes idle ⟨[.TerminalSymbol kind], []⟩ t (.Error (.UnexpectedT [kind] t))
      ⟨[.TerminalSymbol kind], []⟩ :=
  consumes_iff.mpr ⟨.error (.UnexpectedT [kind] t), _, doConsumes_iff.mpr
    ⟨_, (settles_of_rest rfl).mpr rfl, .unexpected [] [] h⟩, rfl⟩

/-- The verdict tells the values. -/
theorem make_value_of_alone {t t' : Token} (h : (alone t').seen = (alone t).seen) :
    make_value t = make_value t' := by
  unfold alone at h
  generalize make_value t = v at h ⊢
  generalize make_value t' = v' at h ⊢
  rcases v with _ | value <;> rcases v' with _ | value'
  · rfl
  · cases h
  · cases h
  · obtain rfl := ParseResult.Complete.inj h
    rfl

/-- What no parser sees. Two tokens can be exchanged anywhere in any input, for any
actions and any stacks, if and only if they are the same token up to the count of an
array or a map, the number of a tag and the bits of a float. -/
theorem indistinguishable_iff (t t' : Token) : Indistinguishable t t' ↔ t.seen = t'.seen := by
  constructor
  · intro h
    -- one terminal tells the kinds by its place, and the values by its verdict
    obtain ⟨out', hparse, hout⟩ := h Empty _ _ _ [] [] _ ((Responds.nil _).cons (consumes_alone t))
    obtain ⟨r', s', _, hcall, hnil, rfl⟩ := responds_cons.mp hparse
    obtain ⟨rfl, rfl⟩ := responds_nil.mp hnil
    by_cases hkind : t.kind = t'.kind
    · have hown := consumes_alone t'
      rw [← hkind] at hown
      obtain ⟨rfl, -⟩ := hcall.unique hown
      exact (t.seen_eq_iff t').mpr ⟨hkind, make_value_of_alone (List.cons.inj hout).1⟩
    · obtain ⟨-, hstacks⟩ := hcall.unique (consumes_other hkind)
      cases congrArg ParseState.cxtStack hstacks
  · intro h ι invoke s u before after out hparse
    apply parses_of_seen ?_ hparse
    rw [List.map_append, List.map_append, List.map_cons, List.map_cons, h]

/-! ## The inputs a parser completes -/

section Completes

variable {ι : Type*} (invoke : ι → ParseState ι → ParseState ι)

/-- The last call on the input completes a value, the others ask for more. -/
def Completes (s : ParseState ι) (ts : List Token) : Prop :=
  ∃ k value u, Parses invoke s ts (List.replicate k .Incomplete ++ [.Complete value]) u

variable {invoke}

theorem not_completes_nil (s : ParseState ι) : ¬ Completes invoke s [] := by
  rintro ⟨k, value, u, hparse⟩
  obtain ⟨hnil, -⟩ := responds_nil.mp hparse
  simp at hnil

/-- The first call completes a value, and there is no other, or it asks for more. -/
theorem Completes.first {s : ParseState ι} {w : Token} {ts : List Token}
    (h : Completes invoke s (w :: ts)) :
    (ts = [] ∧ ∃ value u, Consumes invoke s w (.Complete value) u) ∨
      ∃ t, Consumes invoke s w .Incomplete t ∧ Completes invoke t ts := by
  obtain ⟨k, value, u, hparse⟩ := h
  rcases k with _ | k
  · rw [List.replicate_zero, List.nil_append, parses_cons_iff] at hparse
    obtain ⟨t, hcall, hrest⟩ := hparse
    rcases ts with _ | ⟨w', ts⟩
    · exact .inl ⟨rfl, value, t, hcall⟩
    · -- no result is left for another token
      obtain ⟨_, _, _, -, -, hnil⟩ := responds_cons.mp hrest
      cases hnil
  · rw [List.replicate_succ, List.cons_append, parses_cons_iff] at hparse
    obtain ⟨t, hcall, hrest⟩ := hparse
    exact .inr ⟨t, hcall, k, value, u, hrest⟩

/-- The terminal on top is the kind of every token that is taken there. -/
theorem kind_of_accepted {s u u' : ParseState ι} {w w' : Token} {r r' : ParseResult}
    (h : Consumes invoke s w r u) (hr : ¬ r.is_error) (h' : Consumes invoke s w' r' u')
    (hr' : ¬ r'.is_error) : w.kind = w'.kind := by
  obtain ⟨cxtStack, valStack, -, ht, -, -⟩ := settles_of_consumes h hr
  obtain ⟨cxtStack', valStack', -, ht', -, -⟩ := settles_of_consumes h' hr'
  have hstack := congrArg ParseState.cxtStack (ht.unique ht')
  exact Context.TerminalSymbol.inj (List.cons.inj hstack).1

theorem Completes.kind_eq {s : ParseState ι} {w w' : Token} {ts ts' : List Token}
    (h : Completes invoke s (w :: ts)) (h' : Completes invoke s (w' :: ts')) :
    w.kind = w'.kind := by
  have hcall : ∀ {w ts}, Completes invoke s (w :: ts) →
      ∃ r t, Consumes invoke s w r t ∧ ¬ r.is_error := by
    intro w ts h
    rcases h.first with ⟨-, value, t, hcall⟩ | ⟨t, hcall, -⟩
    · exact ⟨_, t, hcall, Bool.false_ne_true⟩
    · exact ⟨_, t, hcall, Bool.false_ne_true⟩
  obtain ⟨r, t, hfirst, hr⟩ := hcall h
  obtain ⟨r', t', hfirst', hr'⟩ := hcall h'
  exact kind_of_accepted hfirst hr hfirst' hr'

/-- A result that is no error is seen as it is. -/
theorem eq_of_seen_eq {r r' : ParseResult} (h : r'.seen = r.seen) (hr : ¬ r.is_error) : r' = r := by
  rcases r with _ | value | e
  · rcases r' with _ | value' | e'
    · rfl
    · cases h
    · rcases e' <;> cases h
  · rcases r' with _ | value' | e'
    · cases h
    · exact h
    · rcases e' <;> cases h
  · exact absurd rfl hr

/-- After first tokens that look the same, both inputs end or both go on from one state. -/
theorem Completes.rest {s : ParseState ι} {w w' : Token} {ts ts' : List Token}
    (hw : w.seen = w'.seen) (h : Completes invoke s (w :: ts))
    (h' : Completes invoke s (w' :: ts')) :
    (ts = [] ∧ ts' = []) ∨ ∃ t, Completes invoke t ts ∧ Completes invoke t ts' := by
  rcases h.first with ⟨rfl, value, t, hcall⟩ | ⟨t, hcall, hrest⟩
  · obtain ⟨r', hcall', hr'⟩ := consumes_of_seen hw hcall
    obtain rfl := eq_of_seen_eq hr' Bool.false_ne_true
    rcases h'.first with ⟨rfl, -, -, -⟩ | ⟨t', hmore, -⟩
    · exact .inl ⟨rfl, rfl⟩
    · cases (hmore.unique hcall').1
  · obtain ⟨r', hcall', hr'⟩ := consumes_of_seen hw hcall
    obtain rfl := eq_of_seen_eq hr' Bool.false_ne_true
    rcases h'.first with ⟨-, value, t', hlast⟩ | ⟨t', hmore, hrest'⟩
    · cases (hlast.unique hcall').1
    · obtain rfl := (hmore.unique hcall').2
      exact .inr ⟨t', hrest, hrest'⟩

/-- What a parser can tell apart. Of two inputs it completes from one state, whatever its
actions, none goes on where the other ends: they look the same from the first to the
last token, or the first two tokens that do not are of one kind and have different
values. So nothing but a value ever decides what may come next. -/
theorem completed_branch {s : ParseState ι} {ts ts' : List Token} (h : Completes invoke s ts)
    (h' : Completes invoke s ts') :
    ts.map Token.seen = ts'.map Token.seen ∨
      ∃ before w after before' w' after', ts = before ++ w :: after ∧
        ts' = before' ++ w' :: after' ∧ before.map Token.seen = before'.map Token.seen ∧
        w.kind = w'.kind ∧ make_value w ≠ make_value w' := by
  induction ts generalizing s ts' with
  | nil => exact absurd h (not_completes_nil s)
  | cons w ts ih =>
    rcases ts' with _ | ⟨w', ts'⟩
    · exact absurd h' (not_completes_nil s)
    · have hkind : w.kind = w'.kind := h.kind_eq h'
      by_cases hvalue : make_value w = make_value w'
      · have hw : w.seen = w'.seen := (w.seen_eq_iff w').mpr ⟨hkind, hvalue⟩
        rcases h.rest hw h' with ⟨rfl, rfl⟩ | ⟨t, hrest, hrest'⟩
        · left
          rw [List.map_singleton, List.map_singleton, hw]
        · rcases ih hrest hrest' with hsame | ⟨before, v, after, before', v', after', hparts⟩
          · left
            rw [List.map_cons, List.map_cons, hw, hsame]
          · obtain ⟨rfl, rfl, hbefore, hrest⟩ := hparts
            right
            refine ⟨w :: before, v, after, w' :: before', v', after', rfl, rfl, ?_, hrest⟩
            rw [List.map_cons, List.map_cons, hw, hbefore]
      · exact .inr ⟨[], w, ts, [], w', ts', rfl, rfl, rfl, hkind, hvalue⟩

end Completes

theorem completes_alone {t : Token} {value : CBORValue} (h : make_value t = some value) :
    Completes idle ⟨[.TerminalSymbol t.kind], []⟩ [t] := by
  have hcall := consumes_alone t
  rw [alone, h] at hcall
  exact ⟨0, value, _, parses_singleton.mpr hcall⟩

/-- Two numbers, each completed by the stack that waits for one. -/
theorem completed_branch_uint :
    ∃ before w after before' w' after', [Token.Uint 1] = before ++ w :: after ∧
      [Token.Uint 2] = before' ++ w' :: after' ∧
      before.map Token.seen = before'.map Token.seen ∧
      w.kind = w'.kind ∧ make_value w ≠ make_value w' := by
  have hone : Completes idle ⟨[.TerminalSymbol .Uint], []⟩ [.Uint 1] :=
    completes_alone (t := .Uint 1) rfl
  have htwo : Completes idle ⟨[.TerminalSymbol .Uint], []⟩ [.Uint 2] :=
    completes_alone (t := .Uint 2) rfl
  exact (completed_branch hone htwo).resolve_left (by decide)

/-! ## Data items -/

/-- The tokens are `n` well-formed data items in a row. A tag takes the item after it,
an array its count of them and a map twice its count; what has no count goes up to its
break. -/
inductive Items : ℕ → List Token → Prop
  | none : Items 0 []
  | atom {n : ℕ} {token : Token} {rest : List Token} :
      token.is_atomic ∨ token.kind = .Float → Items n rest → Items (n + 1) (token :: rest)
  | tag {n : ℕ} (number : UInt64) {rest : List Token} :
      Items (n + 1) rest → Items (n + 1) (.Tag number :: rest)
  | array {n : ℕ} (count : UInt64) {rest : List Token} :
      Items (count.toNat + n) rest → Items (n + 1) (.Array count :: rest)
  | map {n : ℕ} (count : UInt64) {rest : List Token} :
      Items (2 * count.toNat + n) rest → Items (n + 1) (.Map count :: rest)
  | array_x {n k : ℕ} {elements rest : List Token} :
      Items k elements → Items n rest → Items (n + 1) (.ArrayX :: (elements ++ .Break :: rest))
  | map_x {n k : ℕ} {entries rest : List Token} :
      Items (2 * k) entries → Items n rest → Items (n + 1) (.MapX :: (entries ++ .Break :: rest))
  | bstr_x {n : ℕ} {chunks rest : List Token} :
      (∀ chunk ∈ chunks, chunk.kind = .Bstr) → Items n rest →
        Items (n + 1) (.BstrX :: (chunks ++ .Break :: rest))
  | tstr_x {n : ℕ} {chunks rest : List Token} :
      (∀ chunk ∈ chunks, chunk.kind = .Tstr) → Items n rest →
        Items (n + 1) (.TstrX :: (chunks ++ .Break :: rest))

/-- The count of an array or a map. -/
def Token.count : Token → Option UInt64
  | .Array count => some count
  | .Map count => some count
  | _ => none

/-- Every count among the tokens is less than `m`. -/
def CountsBelow (m : ℕ) (ts : List Token) : Prop :=
  ∀ token ∈ ts, ∀ count, token.count = some count → count.toNat < m

theorem CountsBelow.mono {m m' : ℕ} {ts : List Token} (h : CountsBelow m ts) (hle : m ≤ m') :
    CountsBelow m' ts := by
  intro token hmem count hcount
  exact (h token hmem count hcount).trans_le hle

theorem CountsBelow.cons {m : ℕ} {token : Token} {ts : List Token} (h : CountsBelow m ts)
    (htoken : ∀ count, token.count = some count → count.toNat < m) :
    CountsBelow m (token :: ts) := List.forall_mem_cons.mpr ⟨htoken, h⟩

theorem countsBelow_of_none {m : ℕ} {ts : List Token} (h : ∀ token ∈ ts, token.count = none) :
    CountsBelow m ts := by
  intro token hmem count hcount
  rw [h token hmem] at hcount
  cases hcount

/-- What goes up to a break has no count of its own. -/
theorem CountsBelow.enclosed {token : Token} {inner rest : List Token} (hopen : token.count = none)
    (hinner : CountsBelow inner.length inner) (hrest : CountsBelow rest.length rest) :
    CountsBelow (token :: (inner ++ .Break :: rest)).length
      (token :: (inner ++ .Break :: rest)) := by
  simp only [List.length_cons, List.length_append]
  apply CountsBelow.cons
  · intro t hmem count hcount
    rcases List.mem_append.mp hmem with hmem | hmem
    · have := hinner t hmem count hcount
      omega
    · rcases List.mem_cons.mp hmem with rfl | hmem
      · cases hcount
      · have := hrest t hmem count hcount
        omega
  · intro count hcount
    rw [hopen] at hcount
    cases hcount

/-- Every item takes a token, so there are more tokens than any count among them. -/
theorem Items.count_lt {n : ℕ} {ts : List Token} (h : Items n ts) :
    n ≤ ts.length ∧ CountsBelow ts.length ts := by
  induction h with
  | none => exact ⟨le_refl 0, by rintro token ⟨⟩⟩
  | @atom n token rest hatom _ ih =>
    obtain ⟨hle, hbelow⟩ := ih
    have hnone : token.count = Option.none := by
      revert hatom
      rcases token <;> simp [Token.is_atomic, Token.kind, Token.count]
    refine ⟨Nat.succ_le_succ hle, (hbelow.mono (Nat.le_succ _)).cons ?_⟩
    intro count hcount
    rw [hnone] at hcount
    cases hcount
  | tag number _ ih =>
    obtain ⟨hle, hbelow⟩ := ih
    refine ⟨hle.trans (Nat.le_succ _), (hbelow.mono (Nat.le_succ _)).cons ?_⟩
    intro count hcount
    cases hcount
  | @array n count rest _ ih =>
    obtain ⟨hle, hbelow⟩ := ih
    rw [List.length_cons]
    refine ⟨by omega, (hbelow.mono (Nat.le_succ _)).cons ?_⟩
    rintro _ ⟨⟩
    omega
  | @map n count rest _ ih =>
    obtain ⟨hle, hbelow⟩ := ih
    rw [List.length_cons]
    refine ⟨by omega, (hbelow.mono (Nat.le_succ _)).cons ?_⟩
    rintro _ ⟨⟩
    omega
  | array_x _ _ ihelements ihrest =>
    refine ⟨?_, ihelements.2.enclosed rfl ihrest.2⟩
    simp only [List.length_cons, List.length_append]
    have := ihrest.1
    omega
  | map_x _ _ ihentries ihrest =>
    refine ⟨?_, ihentries.2.enclosed rfl ihrest.2⟩
    simp only [List.length_cons, List.length_append]
    have := ihrest.1
    omega
  | bstr_x hchunks _ ih =>
    refine ⟨?_, CountsBelow.enclosed rfl (countsBelow_of_none ?_) ih.2⟩
    · simp only [List.length_cons, List.length_append]
      have := ih.1
      omega
    · intro chunk hmem
      have hkind := hchunks chunk hmem
      rcases chunk <;> first | rfl | cases hkind
  | tstr_x hchunks _ ih =>
    refine ⟨?_, CountsBelow.enclosed rfl (countsBelow_of_none ?_) ih.2⟩
    · simp only [List.length_cons, List.length_append]
      have := ih.1
      omega
    · intro chunk hmem
      have hkind := hchunks chunk hmem
      rcases chunk <;> first | rfl | cases hkind

/-! ## Counts nobody sees -/

section Counts

variable {ι : Type*} {invoke : ι → ParseState ι → ParseState ι}

theorem not_is_error_of_completes (k : ℕ) (value : CBORValue) :
    ∀ r ∈ List.replicate k ParseResult.Incomplete ++ [.Complete value], ¬ r.is_error := by
  intro r hr
  rcases List.mem_append.mp hr with hr | hr
  · rw [List.eq_of_mem_replicate hr]
    exact Bool.false_ne_true
  · rw [List.mem_singleton.mp hr]
    exact Bool.false_ne_true

theorem eq_of_map_seen_eq {out out' : List ParseResult}
    (h : out'.map ParseResult.seen = out.map ParseResult.seen) (hout : ∀ r ∈ out, ¬ r.is_error) :
    out' = out := by
  induction out generalizing out' with
  | nil => exact List.map_eq_nil_iff.mp h
  | cons r out ih =>
    obtain ⟨r', out', rfl, hr, hrest⟩ := List.map_eq_cons_iff.mp h
    rw [List.forall_mem_cons] at hout
    rw [eq_of_seen_eq hr hout.1, ih hrest hout.2]

theorem completes_of_seen {s : ParseState ι} {ts ts' : List Token}
    (h : ts.map Token.seen = ts'.map Token.seen) (hts : Completes invoke s ts) :
    Completes invoke s ts' := by
  obtain ⟨k, value, u, hparse⟩ := hts
  obtain ⟨out', hparse', hout⟩ := parses_of_seen h hparse
  rw [eq_of_map_seen_eq hout (not_is_error_of_completes k value)] at hparse'
  exact ⟨k, value, u, hparse'⟩

/-- The token with the greatest count there is, if it has one. -/
def Token.inflate : Token → Token
  | .Array _ => .Array (.ofNat (2 ^ 64 - 1))
  | .Map _ => .Map (.ofNat (2 ^ 64 - 1))
  | token => token

theorem Token.seen_inflate (t : Token) : t.inflate.seen = t.seen := by
  rcases t <;> rfl

theorem Token.count_inflate {t : Token} {count : UInt64} (h : t.count = some count) :
    t.inflate.count = some (.ofNat (2 ^ 64 - 1)) := by
  rcases t <;> first | rfl | cases h

/-- A parser that completes nothing but data items completes none with a count in it.
Whatever its actions and its stacks: if every input it completes is one well-formed
item, then no input it completes (of less than `2 ^ 64` tokens) has a definite array or
map in it, since with another count it would complete the same. So there are items it
does not complete, the empty array for one. -/
theorem sound_without_counts {s : ParseState ι}
    (hsound : ∀ ts, Completes invoke s ts → Items 1 ts) :
    (∀ ts, Completes invoke s ts → ts.length < 2 ^ 64 → ∀ token ∈ ts, token.count = none) ∧
      ¬ ∀ ts, Items 1 ts → Completes invoke s ts := by
  have hnone : ∀ ts, Completes invoke s ts → ts.length < 2 ^ 64 →
      ∀ token ∈ ts, token.count = none := by
    intro ts hts hlength token hmem
    rcases hcount : token.count with _ | count
    · rfl
    · exfalso
      -- all counts are raised at once, to a number there are not enough tokens for
      have hlook : ts.map Token.seen = (ts.map Token.inflate).map Token.seen := by
        rw [List.map_map]
        exact (List.map_congr_left fun t _ => t.seen_inflate).symm
      have hitems := hsound _ (completes_of_seen hlook hts)
      have hlt := hitems.count_lt.2 _ (List.mem_map_of_mem hmem) _ (Token.count_inflate hcount)
      rw [List.length_map, UInt64.toNat_ofNat'] at hlt
      omega
  refine ⟨hnone, fun hall => ?_⟩
  have hempty : Items 1 [.Array 0] := .array 0 .none
  cases hnone _ (hall _ hempty) (by simp) (.Array 0) (by simp)

end Counts

/-- A stack that waits for one number completes it, and nothing else. -/
theorem sound_without_counts_uint :
    (∀ ts, Completes idle ⟨[.TerminalSymbol .Uint], []⟩ ts → ts.length < 2 ^ 64 →
        ∀ token ∈ ts, token.count = none) ∧
      ¬ ∀ ts, Items 1 ts → Completes idle ⟨[.TerminalSymbol .Uint], []⟩ ts := by
  apply sound_without_counts
  have huint : ∀ n, Completes idle ⟨[.TerminalSymbol .Uint], []⟩ [.Uint n] := by
    intro n
    exact completes_alone (t := .Uint n) rfl
  rintro (_ | ⟨w, ts⟩) h
  · exact absurd h (not_completes_nil _)
  · -- the token has the kind of any other that is taken there
    have hkind := h.kind_eq (huint 0)
    obtain ⟨n, rfl⟩ : ∃ n, w = .Uint n := by
      rcases w <;> first | exact ⟨_, rfl⟩ | contradiction
    rcases h.rest rfl (huint n) with ⟨rfl, -⟩ | ⟨t, -, hnil⟩
    · exact .atom (.inl rfl) .none
    · exact absurd hnil (not_completes_nil t)

end GlviCbor
