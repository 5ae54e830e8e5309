/-
Tokens the parser rejects.

`do_consume` pops a context before it knows whether it can use it, and runs every
action it finds on the way to a symbol, also when the token turns out to be
wrong. What it leaves is then the settled state (`settles_of_rejected`): the
actions have run earlier than they would have, and the symbol is back. No later
token can tell (`inert_rejected`), so rejected tokens may be put into an input or
taken out of it without changing what the others produce.

The other half is the parser nobody has set up. Its context stack is empty, so it
rejects every token there is.
-/
import GlviCbor.Lib.Inert
import GlviCbor.Consume

set_option autoImplicit false

namespace GlviCbor

open Machine Settle

section Rejected

variable {ι : Type*} {invoke : ι → ParseState ι → ParseState ι}

/-- The two errors by which a token is refused. -/
def ParseResult.Rejected : ParseResult → Prop
  | .Error (.UnexpectedT _ _) => True
  | .Error .TrailingInput => True
  | _ => False

/-- No input tells the two states apart: they settle alike. -/
def Alike (invoke : ι → ParseState ι → ParseState ι) (s s' : ParseState ι) : Prop :=
  ∀ t, Settles (pop_action invoke) s t ↔ Settles (pop_action invoke) s' t

/-- The verdict after a match is no rejection. -/
theorem not_rejected_verdict (u : ParseState ι) : ¬ (verdict u).1.Rejected := by
  obtain ⟨cxtStack, _ | ⟨v, _ | ⟨v', valStack⟩⟩⟩ := u <;> rcases cxtStack <;>
    simp [verdict, ValueStack.pop, ParseResult.Rejected]

/-- A rejected token leaves the state settled, and nothing else. -/
theorem settles_of_rejected {s s' : ParseState ι} {w : Token} {r : ParseResult}
    (h : Consumes invoke s w r s') (hr : r.Rejected) : Settles (pop_action invoke) s s' := by
  obtain ⟨e, u, hdo, hfin⟩ := consumes_iff.mp h
  obtain ⟨t, ht, hreply⟩ := doConsumes_iff.mp hdo
  rcases hreply with _ | ⟨_, hu⟩ | _ | _ <;>
    obtain ⟨rfl, rfl⟩ := Prod.mk.inj hfin
  -- trailing input, match, wrong kind, non-terminal
  · exact ht
  · exact absurd hr (not_rejected_verdict u)
  · exact ht
  · exact hr.elim

/-- States that settle alike answer every token alike. -/
theorem Alike.consumes_iff {s s' : ParseState ι} (h : Alike invoke s s') {t : ParseState ι}
    {w : Token} {r : ParseResult} : Consumes invoke s w r t ↔ Consumes invoke s' w r t := by
  rw [GlviCbor.consumes_iff, GlviCbor.consumes_iff]
  simp only [doConsumes_iff, h _]

theorem inert_rejected (invoke : ι → ParseState ι → ParseState ι) :
    Inert (Consumes invoke) (Alike invoke) ParseResult.Rejected where
  congr h := h.consumes_iff
  step h hr _ := (settles_of_rejected h hr).settles_iff.symm

/-- An action is on top of the context stack. -/
def ParseState.action_on_top (s : ParseState ι) : Bool :=
  match s.cxtStack with
  | .Action _ _ :: _ => true
  | _ => false

theorem pop_action_of_not_on_top {s : ParseState ι} (h : ¬ s.action_on_top) :
    pop_action invoke s = none := by
  obtain ⟨_ | ⟨_ | _ | _, _⟩, _⟩ := s <;> first | rfl | exact absurd rfl h

/-- Rejected tokens are inert. After a token that is refused with `UnexpectedT`
or `TrailingInput`, every non-empty further input has the same results and the
same final stacks as without it, and if no action was on top, both stacks are as
before. Hence a run with any number of refused tokens at any places gives the
run on the tokens that are left, with the same results for these. -/
theorem rejected_inert (invoke : ι → ParseState ι → ParseState ι) :
    (∀ s w r s', Consumes invoke s w r s' → r.Rejected →
      (∀ ts out t, ts ≠ [] → (Parses invoke s' ts out t ↔ Parses invoke s ts out t)) ∧
      (¬ s.action_on_top → s' = s)) ∧
    ∀ s steps t ts out, Run (Consumes invoke) s steps t →
      Inserted ParseResult.Rejected steps ts out → Parses invoke s ts out t := by
  refine ⟨fun s w r s' h hr => ⟨?_, ?_⟩, ?_⟩
  · intro ts out t hne
    exact ((inert_rejected invoke).responds_iff ((inert_rejected invoke).step h hr) hne).symm
  · intro htop
    exact (settles_of_rest (pop_action_of_not_on_top htop)).mp (settles_of_rejected h hr)
  · intro s steps t ts out hrun hins
    exact hins.responds (inert_rejected invoke) hrun

/-- Two actions: one pushes the other, and that one a value. -/
def pushing (action : Bool) (s : ParseState Bool) : ParseState Bool :=
  if action then { s with cxtStack := s.cxtStack.push (.Action "leaf" false) }
  else { s with valStack := ValueStack.push s.valStack (.bstr []) }

/-- A break is refused by a stack that waits for a number, after both actions have
run. The number then has the result it would have had at once. -/
theorem rejected_inert_break :
    Consumes pushing ⟨[.Action "grow" true, .TerminalSymbol .Uint], []⟩ .Break
      (.Error (.UnexpectedT [.Uint] .Break)) ⟨[.TerminalSymbol .Uint], [.bstr []]⟩ ∧
    (∀ out t, Parses pushing ⟨[.TerminalSymbol .Uint], [.bstr []]⟩ [.Uint 5] out t ↔
      Parses pushing ⟨[.Action "grow" true, .TerminalSymbol .Uint], []⟩ [.Uint 5] out t) ∧
    Parses pushing ⟨[.Action "grow" true, .TerminalSymbol .Uint], []⟩ [.Uint 5]
      [.Error .Internal] ⟨[], [.uint ⟨⟨5⟩⟩, .bstr []]⟩ := by
  have hbreak : Consumes pushing ⟨[.Action "grow" true, .TerminalSymbol .Uint], []⟩ .Break
      (.Error (.UnexpectedT [.Uint] .Break)) ⟨[.TerminalSymbol .Uint], [.bstr []]⟩ := ⟨3, rfl⟩
  have huint : Consumes pushing ⟨[.TerminalSymbol .Uint], [.bstr []]⟩ (.Uint 5)
      (.Error .Internal) ⟨[], [.uint ⟨⟨5⟩⟩, .bstr []]⟩ := ⟨2, rfl⟩
  refine ⟨hbreak, ?_, ?_⟩
  · intro out t
    exact ((rejected_inert pushing).1 _ _ _ _ hbreak trivial).1 [.Uint 5] out t (by simp)
  · exact (rejected_inert pushing).2 _ _ _ _ _ (.cons hbreak (.cons huint (.nil _)))
      (.skip _ trivial (.last _))

/-! ## A parser nobody has set up -/

/-- The tokens that are complete data items. -/
def Token.is_atomic : Token → Bool
  | .Uint _ | .Nint _ | .Bstr _ | .Tstr _ | .Simple _ => true
  | _ => false

/-- A default-constructed parser takes the token for a whole value, and refuses
everything after it. -/
def AcceptsAlone (invoke : ι → ParseState ι → ParseState ι) (token : Token) : Prop :=
  ∃ value s', make_value token = some value ∧ Consumes invoke {} token (.Complete value) s' ∧
    ∀ ts out t, Parses invoke s' ts out t → ∀ r ∈ out, r = .Error .TrailingInput

/-- A default-constructed parser accepts no token: it refuses each as trailing
input, the first one included. -/
theorem fresh_accepts_nothing (invoke : ι → ParseState ι → ParseState ι) (token : Token) :
    (∀ r s', Consumes invoke {} token r s' ↔ r = .Error .TrailingInput ∧ s' = {}) ∧
      ¬ AcceptsAlone invoke token := by
  refine ⟨fun _ _ => consumes_empty_iff, ?_⟩
  rintro ⟨value, s', -, h, -⟩
  exact nomatch (consumes_empty_iff.mp h).1

end Rejected

/-- The token of the number 0, as the repository's own parser test feeds it. -/
theorem fresh_refuses_zero :
    ¬ ∀ token : Token, token.is_atomic →
      AcceptsAlone (fun (_ : Empty) (s : ParseState Empty) => s) token := by
  intro h
  obtain ⟨value, s', -, hcomplete, -⟩ := h (.Uint 0) rfl
  exact nomatch (consumes_empty_iff.mp hcomplete).1

end GlviCbor
