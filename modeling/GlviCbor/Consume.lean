/-
What `Parser::consume` does, without fuel.

`do_flush` and `do_consume` are both the loop of `Settle.loop` over one step, the
running of the action on top of the context stack. So a call of `consume` first
lets the state settle, until no action is on top, and what it does then depends
on the top alone: `Reply` has one case for each. `consumes_iff` says that this is
all, and is the one place where the recursion of the source is looked at.
-/
import GlviCbor.Lib.Machine
import GlviCbor.Lib.Settle
import GlviCbor.Parser

set_option autoImplicit false

namespace GlviCbor

open Settle

section Consume

variable {ι : Type*} (invoke : ι → ParseState ι → ParseState ι)

/-! ## Running the actions on top -/

/-- Runs the action on top of the context stack, if there is one. -/
def pop_action (s : ParseState ι) : Option (ParseState ι) :=
  match s.cxtStack with
  | .Action _ action :: cxtStack => some (invoke action { s with cxtStack := cxtStack })
  | _ => none

/-- What `do_consume` does with the context on top once that is not an action. -/
def do_consume_settled (input : Token) (fuel : ℕ) (s : ParseState ι) :
    Option (Except ParseError Unit × ParseState ι) :=
  match s.cxtStack with
  | [] => some (.error .TrailingInput, s)
  -- no action, so the recursive call is never made
  | context :: cxtStack =>
    do_consume_context invoke (fun _ => none) fuel { s with cxtStack := cxtStack } context input

theorem do_flush_eq (fuel : ℕ) (s : ParseState ι) :
    do_flush invoke fuel s = loop (pop_action invoke) (fun _ t => some (.ok (), t)) fuel s := by
  induction fuel generalizing s with
  | zero => rfl
  | succ fuel ih =>
    obtain ⟨_ | ⟨context, cxtStack⟩, valStack⟩ := s
    · rfl
    · -- a symbol is popped and pushed back at once
      rcases context with ⟨name, action⟩ | kind | nonTerm
      · exact ih _
      · rfl
      · rfl

theorem do_consume_eq (input : Token) (fuel : ℕ) (s : ParseState ι) :
    do_consume invoke input fuel s =
      loop (pop_action invoke) (do_consume_settled invoke input) fuel s := by
  induction fuel generalizing s with
  | zero => rfl
  | succ fuel ih =>
    obtain ⟨_ | ⟨context, cxtStack⟩, valStack⟩ := s
    · rfl
    · rcases context with ⟨name, action⟩ | kind | nonTerm
      · exact ih _
      · rfl
      · rfl

/-- `do_flush` succeeds, and leaves the settled state. -/
theorem exists_do_flush_iff {s s' : ParseState ι} {r : Except ParseError Unit} :
    (∃ fuel, do_flush invoke fuel s = some (r, s')) ↔
      r = .ok () ∧ Settles (pop_action invoke) s s' := by
  simp only [do_flush_eq, exists_loop_iff]
  constructor
  · rintro ⟨t, ht, fuel, h⟩
    simp only [Option.some.injEq, Prod.mk.injEq] at h
    obtain ⟨rfl, rfl⟩ := h
    exact ⟨rfl, ht⟩
  · rintro ⟨rfl, hs⟩
    exact ⟨s', hs, 0, rfl⟩

/-! ## One call -/

/-- With enough fuel, `do_consume` on `s` returns `e` and leaves `u`. -/
def DoConsumes (s : ParseState ι) (input : Token) (e : Except ParseError Unit)
    (u : ParseState ι) : Prop :=
  ∃ fuel, do_consume invoke input fuel s = some (e, u)

/-- With enough fuel, `consume` on `s` returns `r` and leaves `s'`. -/
def Consumes (s : ParseState ι) (input : Token) (r : ParseResult) (s' : ParseState ι) : Prop :=
  ∃ fuel, Parser.consume invoke fuel s input = some (r, s')

/-- `do_consume` from a settled state, by what is on top of its context stack. -/
inductive Reply (input : Token) : ParseState ι → Except ParseError Unit → ParseState ι → Prop
  | trailing (valStack : ValueStack) :
      Reply input ⟨[], valStack⟩ (.error .TrailingInput) ⟨[], valStack⟩
  | accept {kind : Kind} {cxtStack : ContextStack ι} {valStack : ValueStack} {u : ParseState ι} :
      kind = input.kind →
      Settles (pop_action invoke) ⟨cxtStack, push_value input valStack⟩ u →
      Reply input ⟨.TerminalSymbol kind :: cxtStack, valStack⟩ (.ok ()) u
  | unexpected {kind : Kind} (cxtStack : ContextStack ι) (valStack : ValueStack) :
      kind ≠ input.kind →
      Reply input ⟨.TerminalSymbol kind :: cxtStack, valStack⟩
        (.error (.UnexpectedT [kind] input)) ⟨.TerminalSymbol kind :: cxtStack, valStack⟩
  | internal (nonTerm : NonTerm) (cxtStack : ContextStack ι) (valStack : ValueStack) :
      Reply input ⟨.NonTerminalSymbol nonTerm :: cxtStack, valStack⟩ (.error .Internal)
        ⟨cxtStack, valStack⟩

variable {invoke}

theorem exists_settled_iff {t u : ParseState ι} {input : Token} {e : Except ParseError Unit}
    (hrest : pop_action invoke t = none) :
    (∃ fuel, do_consume_settled invoke input fuel t = some (e, u)) ↔ Reply invoke input t e u := by
  obtain ⟨_ | ⟨⟨name, action⟩ | kind | nonTerm, cxtStack⟩, valStack⟩ := t
  · constructor
    · rintro ⟨fuel, h⟩
      simp only [do_consume_settled, Option.some.injEq, Prod.mk.injEq] at h
      obtain ⟨rfl, rfl⟩ := h
      exact .trailing valStack
    · rintro ⟨⟩
      exact ⟨0, rfl⟩
  · exact nomatch hrest
  · by_cases hkind : kind = input.kind
    · -- the match goes on with a flush, which settles a second time
      have hflush : ∀ fuel, do_consume_settled invoke input fuel
          ⟨.TerminalSymbol kind :: cxtStack, valStack⟩
          = do_flush invoke fuel ⟨cxtStack, push_value input valStack⟩ := fun _ => if_pos hkind
      simp only [hflush, exists_do_flush_iff]
      constructor
      · rintro ⟨rfl, h⟩
        exact .accept hkind h
      · rintro (_ | ⟨_, h⟩ | ⟨_, _, hne⟩)
        · exact ⟨rfl, h⟩
        · exact absurd hkind hne
    · have herr : ∀ fuel, do_consume_settled invoke input fuel
          ⟨.TerminalSymbol kind :: cxtStack, valStack⟩
          = some (.error (.UnexpectedT [kind] input),
              ⟨.TerminalSymbol kind :: cxtStack, valStack⟩) := fun _ => if_neg hkind
      simp only [herr, Option.some.injEq, Prod.mk.injEq]
      constructor
      · rintro ⟨-, rfl, rfl⟩
        exact .unexpected cxtStack valStack hkind
      · rintro (_ | ⟨heq, -⟩ | ⟨_, _, hne⟩)
        · exact absurd heq hkind
        · exact ⟨0, rfl, rfl⟩
  · constructor
    · rintro ⟨fuel, h⟩
      simp only [do_consume_settled, do_consume_context, Option.some.injEq, Prod.mk.injEq] at h
      obtain ⟨rfl, rfl⟩ := h
      exact .internal nonTerm cxtStack valStack
    · rintro ⟨⟩
      exact ⟨0, rfl⟩

/-- `do_consume` is: settle, then reply. -/
theorem doConsumes_iff {s u : ParseState ι} {input : Token} {e : Except ParseError Unit} :
    DoConsumes invoke s input e u ↔
      ∃ t, Settles (pop_action invoke) s t ∧ Reply invoke input t e u := by
  unfold DoConsumes
  simp only [do_consume_eq, exists_loop_iff]
  constructor
  · rintro ⟨t, ht, h⟩
    exact ⟨t, ht, (exists_settled_iff ht.rest).mp h⟩
  · rintro ⟨t, ht, h⟩
    exact ⟨t, ht, (exists_settled_iff ht.rest).mpr h⟩

/-- What `consume` makes of the outcome of `do_consume`. -/
def finish : Except ParseError Unit → ParseState ι → ParseResult × ParseState ι
  | .error e, u => (.Error e, u)
  | .ok _, u => verdict u

/-- `consume` is: `do_consume`, then the verdict. -/
theorem consumes_iff {s s' : ParseState ι} {input : Token} {r : ParseResult} :
    Consumes invoke s input r s' ↔
      ∃ e u, DoConsumes invoke s input e u ∧ finish e u = (r, s') := by
  constructor
  · rintro ⟨fuel, h⟩
    unfold Parser.consume at h
    rcases hdo : do_consume invoke input fuel s with _ | ⟨e | _, u⟩ <;>
      rw [hdo] at h
    · exact nomatch h
    · exact ⟨.error e, u, ⟨fuel, hdo⟩, Option.some.inj h⟩
    · exact ⟨.ok (), u, ⟨fuel, hdo⟩, Option.some.inj h⟩
  · rintro ⟨e, u, ⟨fuel, hdo⟩, h⟩
    refine ⟨fuel, ?_⟩
    rw [Parser.consume, hdo, ← h]
    rcases e with e | _ <;> rfl

/-- A reply is determined by the state and the token. -/
theorem Reply.unique {t u u' : ParseState ι} {input : Token} {e e' : Except ParseError Unit}
    (h : Reply invoke input t e u) (h' : Reply invoke input t e' u') : e = e' ∧ u = u' := by
  rcases h with _ | ⟨hkind, hu⟩ | ⟨_, _, hne⟩ | _ <;>
    rcases h' with _ | ⟨hkind', hu'⟩ | ⟨_, _, hne'⟩ | _
  · exact ⟨rfl, rfl⟩
  · exact ⟨rfl, hu.unique hu'⟩
  · exact absurd hkind hne'
  · exact absurd hkind' hne
  · exact ⟨rfl, rfl⟩
  · exact ⟨rfl, rfl⟩

theorem DoConsumes.unique {s u u' : ParseState ι} {input : Token} {e e' : Except ParseError Unit}
    (h : DoConsumes invoke s input e u) (h' : DoConsumes invoke s input e' u') :
    e = e' ∧ u = u' := by
  obtain ⟨t, ht, hr⟩ := doConsumes_iff.mp h
  obtain ⟨t', ht', hr'⟩ := doConsumes_iff.mp h'
  obtain rfl := ht.unique ht'
  exact hr.unique hr'

/-- A call has one result. -/
theorem Consumes.unique {s s₁ s₂ : ParseState ι} {input : Token} {r₁ r₂ : ParseResult}
    (h₁ : Consumes invoke s input r₁ s₁) (h₂ : Consumes invoke s input r₂ s₂) :
    r₁ = r₂ ∧ s₁ = s₂ := by
  obtain ⟨e, u, he, hf⟩ := consumes_iff.mp h₁
  obtain ⟨e', u', he', hf'⟩ := consumes_iff.mp h₂
  obtain ⟨rfl, rfl⟩ := he.unique he'
  exact Prod.mk.inj (hf.symm.trans hf')

/-! ## Every call returns, where the actions do -/

/-- From every state the actions on top come to an end. -/
def Terminates (invoke : ι → ParseState ι → ParseState ι) : Prop :=
  ∀ s, ∃ t, Settles (pop_action invoke) s t

theorem exists_consumes (hterm : Terminates invoke) (s : ParseState ι) (w : Token) :
    ∃ r s', Consumes invoke s w r s' := by
  obtain ⟨t, ht⟩ := hterm s
  have hreply : ∃ e u, Reply invoke w t e u := by
    have hrest := ht.rest
    obtain ⟨_ | ⟨⟨_, _⟩ | kind | nonTerm, cxtStack⟩, valStack⟩ := t
    · exact ⟨_, _, .trailing valStack⟩
    · exact nomatch hrest
    · by_cases hkind : kind = w.kind
      · obtain ⟨u, hu⟩ := hterm ⟨cxtStack, push_value w valStack⟩
        exact ⟨_, _, .accept hkind hu⟩
      · exact ⟨_, _, .unexpected cxtStack valStack hkind⟩
    · exact ⟨_, _, .internal nonTerm cxtStack valStack⟩
  obtain ⟨e, u, he⟩ := hreply
  exact ⟨_, _, consumes_iff.mpr ⟨e, u, doConsumes_iff.mpr ⟨t, ht, he⟩, rfl⟩⟩

/-- So every input has a run. -/
theorem exists_run (hterm : Terminates invoke) (s : ParseState ι) (input : List Token) :
    ∃ steps t, Machine.Run (Consumes invoke) s steps t ∧
      steps.map Machine.Step.input = input := by
  induction input generalizing s with
  | nil => exact ⟨[], s, .nil s, rfl⟩
  | cons w input ih =>
    obtain ⟨r, s', h⟩ := exists_consumes hterm s w
    obtain ⟨steps, t, hrun, hin⟩ := ih s'
    exact ⟨⟨s, w, r, s'⟩ :: steps, t, .cons h hrun, by rw [List.map_cons, hin]⟩

/-! ## The verdict and the empty stack -/

/-- A verdict other than `Incomplete` needs an empty context stack. -/
theorem cxtStack_of_verdict {u : ParseState ι} (h : (verdict u).1 ≠ .Incomplete) :
    u.cxtStack = [] := by
  unfold verdict at h
  split_ifs at h with h1 h2
  · exact absurd rfl h
  · exact List.length_eq_zero_iff.mp (by omega)
  · exact List.length_eq_zero_iff.mp (by omega)

/-- The verdict looks at the context stack and leaves it alone. -/
theorem cxtStack_verdict (u : ParseState ι) : (verdict u).2.cxtStack = u.cxtStack := by
  obtain ⟨_ | _, _ | ⟨_, _ | _⟩⟩ := u <;> rfl

/-- An empty context stack refuses every token as trailing input. -/
theorem consumes_empty_iff {valStack : ValueStack} {w : Token} {r : ParseResult}
    {s' : ParseState ι} :
    Consumes invoke ⟨[], valStack⟩ w r s' ↔
      r = .Error .TrailingInput ∧ s' = ⟨[], valStack⟩ := by
  constructor
  · intro h
    exact h.unique ⟨1, rfl⟩
  · rintro ⟨rfl, rfl⟩
    exact ⟨1, rfl⟩

/-- Feeding tokens one by one. -/
abbrev Parses (invoke : ι → ParseState ι → ParseState ι) (s : ParseState ι)
    (input : List Token) (out : List ParseResult) (s' : ParseState ι) : Prop :=
  Machine.Responds (Consumes invoke) s input out s'

/-- Nothing more happens with an empty context stack. -/
theorem parses_empty (valStack : ValueStack) (input : List Token) :
    Parses invoke ⟨[], valStack⟩ input (List.replicate input.length (.Error .TrailingInput))
      ⟨[], valStack⟩ := by
  induction input with
  | nil => exact Machine.Responds.nil _
  | cons w input ih => exact ih.cons (consumes_empty_iff.mpr ⟨rfl, rfl⟩)

end Consume

end GlviCbor
