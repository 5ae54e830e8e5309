/-
The driver as a top-down reading, whatever the actions do.

An action may push what stands on the right-hand side of its rule, so that the context
stack unfolds as it is worked off. `Expands` reads it in one pass with the tokens at
hand: an action on top is run, a terminal on top takes the next token, of its kind,
and pushes its value. `Parser::consume` gets the tokens one by one, and is back with
its caller between any two of them; `parses_iff_expands` says that it reads the same.
`consume_stack` is this for actions that leave the context stack alone, where the
reading is a function of the stack; here it is a derivation, which the actions make as
they go.
-/
import GlviCbor.ContextStack
import GlviCbor.Protocol

set_option autoImplicit false

namespace GlviCbor

open Machine Settle StateTransition

section Derivation

variable {ι : Type*} (invoke : ι → ParseState ι → ParseState ι)

/-- Reads the tokens, from one pair of stacks to another. -/
inductive Expands : ParseState ι → List Token → ParseState ι → Prop
  | stop (s : ParseState ι) : Expands s [] s
  | action {name : String} {action : ι} {cxtStack : ContextStack ι} {valStack : ValueStack}
      {ts : List Token} {u : ParseState ι} :
      Expands (invoke action ⟨cxtStack, valStack⟩) ts u →
      Expands ⟨.Action name action :: cxtStack, valStack⟩ ts u
  | terminal {kind : Kind} {cxtStack : ContextStack ι} {valStack : ValueStack} {w : Token}
      {ts : List Token} {u : ParseState ι} : kind = w.kind →
      Expands ⟨cxtStack, push_value w valStack⟩ ts u →
      Expands ⟨.TerminalSymbol kind :: cxtStack, valStack⟩ (w :: ts) u

variable {invoke}

/-! ## Readings and settling -/

/-- A reading that ends at rest goes through the action on top, as there is nothing
else it could do. -/
theorem expands_of_pop_action {s s' u : ParseState ι} {ts : List Token}
    (hstep : pop_action invoke s = some s') (hrest : pop_action invoke u = none) :
    Expands invoke s ts u ↔ Expands invoke s' ts u := by
  obtain ⟨_ | ⟨⟨name, action⟩ | kind | nonTerm, cxtStack⟩, valStack⟩ := s
  · cases hstep
  · obtain rfl := Option.some.inj hstep
    constructor
    · rintro (_ | h | _)
      · cases hrest
      · exact h
    · exact .action
  · cases hstep
  · cases hstep

theorem expands_of_settles {s t u : ParseState ι} {ts : List Token}
    (h : Settles (pop_action invoke) s t) (hrest : pop_action invoke u = none) :
    Expands invoke s ts u ↔ Expands invoke t ts u := by
  obtain ⟨hreach, -⟩ := mem_eval.mp h
  clear h
  induction hreach using Relation.ReflTransGen.head_induction_on with
  | refl => exact Iff.rfl
  | head hab _ ih => exact (expands_of_pop_action hab hrest).trans ih

/-- A reading that ends at rest does not get lost in the actions at its start. -/
theorem Expands.settles {s u : ParseState ι} {ts : List Token} (h : Expands invoke s ts u)
    (hrest : pop_action invoke u = none) : ∃ t, Settles (pop_action invoke) s t := by
  induction h with
  | stop s => exact ⟨s, (settles_of_rest hrest).mpr rfl⟩
  | @action name action cxtStack valStack ts u _ ih =>
    obtain ⟨t, ht⟩ := ih hrest
    have hstep : pop_action invoke ⟨.Action name action :: cxtStack, valStack⟩
        = some (invoke action ⟨cxtStack, valStack⟩) := rfl
    exact ⟨t, (settles_of_step hstep).mpr ht⟩
  | terminal => exact ⟨_, (settles_of_rest rfl).mpr rfl⟩

/-- Reading no token is settling. -/
theorem expands_nil_iff {s u : ParseState ι} (hrest : pop_action invoke u = none) :
    Expands invoke s [] u ↔ Settles (pop_action invoke) s u := by
  constructor
  · intro h
    obtain ⟨t, ht⟩ := h.settles hrest
    have hstop := (expands_of_settles ht hrest).mp h
    have hat := ht.rest
    rcases hstop with _ | _ | _
    · exact ht
    · cases hat
  · intro h
    exact (expands_of_settles h hrest).mpr (.stop u)

/-- Reading one token more: the actions before its terminal, the token, and the
actions after it, up to the next symbol. -/
theorem expands_cons_iff {s u : ParseState ι} {w : Token} {ts : List Token}
    (hrest : pop_action invoke u = none) :
    Expands invoke s (w :: ts) u ↔
      ∃ cxtStack valStack t,
        Settles (pop_action invoke) s ⟨.TerminalSymbol w.kind :: cxtStack, valStack⟩ ∧
        Settles (pop_action invoke) ⟨cxtStack, push_value w valStack⟩ t ∧
        Expands invoke t ts u := by
  constructor
  · intro h
    obtain ⟨t, ht⟩ := h.settles hrest
    have hat := ht.rest
    have hgo := (expands_of_settles ht hrest).mp h
    rcases hgo with _ | _ | @⟨_, cxtStack, valStack, _, _, _, rfl, hgo⟩
    · cases hat
    · obtain ⟨t', ht'⟩ := hgo.settles hrest
      exact ⟨cxtStack, valStack, t', ht, ht', (expands_of_settles ht' hrest).mp hgo⟩
  · rintro ⟨cxtStack, valStack, t, hbefore, hafter, hgo⟩
    rw [expands_of_settles hbefore hrest]
    exact .terminal rfl ((expands_of_settles hafter hrest).mpr hgo)

/-! ## One call -/

theorem consumes_of_settles {s t : ParseState ι} {w : Token} {cxtStack : ContextStack ι}
    {valStack : ValueStack}
    (hbefore : Settles (pop_action invoke) s ⟨.TerminalSymbol w.kind :: cxtStack, valStack⟩)
    (hafter : Settles (pop_action invoke) ⟨cxtStack, push_value w valStack⟩ t) :
    Consumes invoke s w (verdict t).1 (verdict t).2 :=
  consumes_iff.mpr ⟨.ok (), t, doConsumes_iff.mpr ⟨_, hbefore, .accept rfl hafter⟩, rfl⟩

/-- A call without an error has taken its token, and its result is the verdict. -/
theorem settles_of_consumes {s s' : ParseState ι} {w : Token} {r : ParseResult}
    (h : Consumes invoke s w r s') (hr : ¬ r.is_error) :
    ∃ cxtStack valStack t,
      Settles (pop_action invoke) s ⟨.TerminalSymbol w.kind :: cxtStack, valStack⟩ ∧
      Settles (pop_action invoke) ⟨cxtStack, push_value w valStack⟩ t ∧ verdict t = (r, s') := by
  obtain ⟨e, u, hdo, hfin⟩ := consumes_iff.mp h
  obtain ⟨t, ht, hreply⟩ := doConsumes_iff.mp hdo
  rcases hreply with ⟨valStack⟩ | @⟨kind, cxtStack, valStack, _, rfl, hu⟩ |
    @⟨kind, cxtStack, valStack, hne⟩ | ⟨nonTerm, cxtStack, valStack⟩
  · obtain ⟨rfl, -⟩ := Prod.mk.inj hfin
    exact absurd rfl hr
  · exact ⟨cxtStack, valStack, u, ht, hu, hfin⟩
  · obtain ⟨rfl, -⟩ := Prod.mk.inj hfin
    exact absurd rfl hr
  · obtain ⟨rfl, -⟩ := Prod.mk.inj hfin
    exact absurd rfl hr

theorem rest_of_symbol_on_top {u : ParseState ι} (h : u.symbol_on_top) :
    pop_action invoke u = none := by
  obtain ⟨_ | ⟨⟨name, action⟩ | kind | nonTerm, cxtStack⟩, valStack⟩ := u
  · rfl
  · obtain ⟨context, hmem, hsymbol⟩ := h
    obtain rfl : .Action name action = context := Option.some.inj hmem
    cases hsymbol
  · rfl
  · rfl

theorem verdict_of_symbol_on_top {u : ParseState ι} (h : u.symbol_on_top) :
    verdict u = (.Incomplete, u) := by
  obtain ⟨_ | ⟨context, cxtStack⟩, valStack⟩ := u
  · obtain ⟨context, hmem, -⟩ := h
    cases hmem
  · exact if_pos (Nat.succ_pos _)

theorem verdict_eq_complete_iff {u s' : ParseState ι} {value : CBORValue} :
    verdict u = (.Complete value, s') ↔ u = ⟨[], [value]⟩ ∧ s' = ⟨[], []⟩ := by
  obtain ⟨_ | ⟨context, cxtStack⟩, _ | ⟨v, _ | ⟨v', valStack⟩⟩⟩ := u <;>
    simp [verdict, ValueStack.pop, eq_comm]

/-- The call asks for more. -/
theorem consumes_incomplete_iff {s t : ParseState ι} {w : Token} :
    Consumes invoke s w .Incomplete t ↔ Expands invoke s [w] t ∧ t.symbol_on_top := by
  constructor
  · intro h
    have htop := (consumes_verdict h).1 rfl
    have hrest : pop_action invoke t = none := rest_of_symbol_on_top htop
    obtain ⟨cxtStack, valStack, u, hbefore, hafter, hverdict⟩ :=
      settles_of_consumes h Bool.false_ne_true
    have hu : u.symbol_on_top :=
      symbol_on_top_of_rest hafter.rest (cxtStack_of_incomplete (congrArg Prod.fst hverdict))
    rw [verdict_of_symbol_on_top hu] at hverdict
    obtain rfl := congrArg Prod.snd hverdict
    exact ⟨(expands_cons_iff hrest).mpr ⟨cxtStack, valStack, u, hbefore, hafter, .stop u⟩, htop⟩
  · rintro ⟨h, htop⟩
    have hrest : pop_action invoke t = none := rest_of_symbol_on_top htop
    obtain ⟨cxtStack, valStack, u, hbefore, hafter, hstop⟩ := (expands_cons_iff hrest).mp h
    obtain rfl : t = u := (settles_of_rest hafter.rest).mp ((expands_nil_iff hrest).mp hstop)
    have hcall := consumes_of_settles hbefore hafter
    rwa [verdict_of_symbol_on_top htop] at hcall

/-- The call completes a value. -/
theorem consumes_complete_iff {s t : ParseState ι} {w : Token} {value : CBORValue} :
    Consumes invoke s w (.Complete value) t ↔
      t = ⟨[], []⟩ ∧ Expands invoke s [w] ⟨[], [value]⟩ := by
  have hrest : pop_action invoke (⟨[], [value]⟩ : ParseState ι) = none := rfl
  constructor
  · intro h
    obtain ⟨cxtStack, valStack, u, hbefore, hafter, hverdict⟩ :=
      settles_of_consumes h Bool.false_ne_true
    obtain ⟨rfl, rfl⟩ := verdict_eq_complete_iff.mp hverdict
    exact ⟨rfl, (expands_cons_iff hrest).mpr ⟨cxtStack, valStack, _, hbefore, hafter, .stop _⟩⟩
  · rintro ⟨rfl, h⟩
    obtain ⟨cxtStack, valStack, u, hbefore, hafter, hstop⟩ := (expands_cons_iff hrest).mp h
    obtain rfl := (settles_of_rest hafter.rest).mp ((expands_nil_iff hrest).mp hstop)
    exact consumes_of_settles hbefore hafter

/-! ## Whole inputs -/

theorem parses_cons_iff {s u : ParseState ι} {w : Token} {ts : List Token} {r : ParseResult}
    {out : List ParseResult} :
    Parses invoke s (w :: ts) (r :: out) u ↔
      ∃ t, Consumes invoke s w r t ∧ Parses invoke t ts out u := by
  refine responds_cons.trans ?_
  constructor
  · rintro ⟨_, t, _, hcall, hgo, heq⟩
    obtain ⟨rfl, rfl⟩ := List.cons.inj heq
    exact ⟨t, hcall, hgo⟩
  · rintro ⟨t, hcall, hgo⟩
    exact ⟨r, t, out, hcall, hgo, rfl⟩

theorem parses_singleton {s u : ParseState ι} {w : Token} {r : ParseResult} :
    Parses invoke s [w] [r] u ↔ Consumes invoke s w r u := by
  rw [parses_cons_iff]
  simp

/-- A reading can be interrupted where it is at rest with a symbol on top. -/
theorem expands_cons_cons_iff {s u : ParseState ι} {w w' : Token} {ts : List Token}
    (hrest : pop_action invoke u = none) :
    Expands invoke s (w :: w' :: ts) u ↔
      ∃ t, Consumes invoke s w .Incomplete t ∧ Expands invoke t (w' :: ts) u := by
  constructor
  · intro h
    obtain ⟨cxtStack, valStack, t, hbefore, hafter, hgo⟩ := (expands_cons_iff hrest).mp h
    -- the next terminal is on top of what has settled
    obtain ⟨cxtStack', valStack', -, hnext, -, -⟩ := (expands_cons_iff hrest).mp hgo
    have htop : t.symbol_on_top := by
      obtain rfl := (settles_of_rest hafter.rest).mp hnext
      exact ⟨.TerminalSymbol w'.kind, rfl, rfl⟩
    have hcall := consumes_of_settles hbefore hafter
    rw [verdict_of_symbol_on_top htop] at hcall
    exact ⟨t, hcall, hgo⟩
  · rintro ⟨t, hcall, hgo⟩
    obtain ⟨hone, htop⟩ := consumes_incomplete_iff.mp hcall
    have hat : pop_action invoke t = none := rest_of_symbol_on_top htop
    obtain ⟨cxtStack, valStack, t', hbefore, hafter, hstop⟩ := (expands_cons_iff hat).mp hone
    obtain rfl : t = t' := (settles_of_rest hafter.rest).mp ((expands_nil_iff hat).mp hstop)
    exact (expands_cons_iff hrest).mpr ⟨cxtStack, valStack, t, hbefore, hafter, hgo⟩

/-- A reading of the whole context stack: every call but the last asks for more, and
the last has the verdict on the values that are left. -/
theorem parses_of_expands {s : ParseState ι} {w : Token} {ts : List Token} {valStack : ValueStack}
    (h : Expands invoke s (w :: ts) ⟨[], valStack⟩) :
    ∃ last s', Verdict valStack last s' ∧
      Parses invoke s (w :: ts) (List.replicate ts.length .Incomplete ++ [last]) s' := by
  have hrest : pop_action invoke (⟨[], valStack⟩ : ParseState ι) = none := rfl
  induction ts generalizing s w with
  | nil =>
    obtain ⟨cxtStack, valStack', t, hbefore, hafter, hstop⟩ := (expands_cons_iff hrest).mp h
    obtain rfl := (settles_of_rest hafter.rest).mp ((expands_nil_iff hrest).mp hstop)
    have hverdict := verdict_final (u := (⟨[], valStack⟩ : ParseState ι)) rfl
    exact ⟨_, _, hverdict, parses_singleton.mpr (consumes_of_settles hbefore hafter)⟩
  | cons w' ts ih =>
    obtain ⟨t, hcall, hgo⟩ := (expands_cons_cons_iff hrest).mp h
    obtain ⟨last, s', hverdict, hparse⟩ := ih hgo
    exact ⟨last, s', hverdict, hparse.cons hcall⟩

/-- The driver reads. For arbitrary actions, any stacks and any non-empty input: every
call asks for more, and leaves the stacks as they are, if and only if there is a
reading of the input that ends there, with a symbol on top; all calls but the last ask
for more and that one completes a value, if and only if there is a reading of the whole
context stack that leaves this value alone. -/
theorem parses_iff_expands (invoke : ι → ParseState ι → ParseState ι) (s : ParseState ι)
    (w : Token) (ts : List Token) :
    (∀ u, Parses invoke s (w :: ts) (List.replicate (ts.length + 1) .Incomplete) u ↔
      Expands invoke s (w :: ts) u ∧ u.symbol_on_top) ∧
    ∀ value u, Parses invoke s (w :: ts)
        (List.replicate ts.length .Incomplete ++ [.Complete value]) u ↔
      u = ⟨[], []⟩ ∧ Expands invoke s (w :: ts) ⟨[], [value]⟩ := by
  induction ts generalizing s w with
  | nil =>
    refine ⟨fun u => ?_, fun value u => ?_⟩
    · rw [← consumes_incomplete_iff]
      exact parses_singleton
    · rw [← consumes_complete_iff]
      exact parses_singleton
  | cons w' ts ih =>
    refine ⟨fun u => ?_, fun value u => ?_⟩
    · rw [List.length_cons, List.replicate_succ, parses_cons_iff]
      simp only [(ih _ w').1]
      constructor
      · rintro ⟨t, hcall, hgo, htop⟩
        exact ⟨(expands_cons_cons_iff (rest_of_symbol_on_top htop)).mpr ⟨t, hcall, hgo⟩, htop⟩
      · rintro ⟨h, htop⟩
        obtain ⟨t, hcall, hgo⟩ := (expands_cons_cons_iff (rest_of_symbol_on_top htop)).mp h
        exact ⟨t, hcall, hgo, htop⟩
    · rw [List.length_cons, List.replicate_succ, List.cons_append, parses_cons_iff,
        expands_cons_cons_iff rfl]
      simp only [(ih _ w').2]
      constructor
      · rintro ⟨t, hcall, rfl, hgo⟩
        exact ⟨rfl, t, hcall, hgo⟩
      · rintro ⟨rfl, t, hcall, hgo⟩
        exact ⟨t, hcall, rfl, hgo⟩

end Derivation

end GlviCbor
