/-
What a caller of `Parser::consume` may rely on, whatever the actions do.

Here an action is any function of both stacks: it may push further actions, drop
symbols, or empty the context stack altogether, so nothing follows from the shape of
the stack at the start. What holds regardless comes from the end of a call. After a
match the state has settled, and the verdict is on the context stack it settled with
(`consumes_verdict`): `Incomplete` says that it is not empty, and a settled stack that
is not empty has a symbol on top; every other verdict says that it is empty. And from
an empty context stack there is no way back (`trailing_of_empty`).
-/
import GlviCbor.Symbols

set_option autoImplicit false

namespace GlviCbor

open Machine Settle

section Protocol

variable {ι : Type*} {invoke : ι → ParseState ι → ParseState ι}

/-- `ParseResult::is_complete`. -/
def ParseResult.is_complete : ParseResult → Bool
  | .Complete _ => true
  | _ => false

/-- The top of the context stack is there, and is a terminal or a non-terminal. -/
def ParseState.symbol_on_top (s : ParseState ι) : Prop :=
  ∃ context ∈ s.cxtStack.head?, context.is_symbol

/-! ## One call -/

/-- A settled state has a symbol on top unless its context stack is empty. -/
theorem symbol_on_top_of_rest {u : ParseState ι} (hrest : pop_action invoke u = none)
    (hne : u.cxtStack ≠ []) : u.symbol_on_top := by
  obtain ⟨_ | ⟨⟨name, action⟩ | kind | nonTerm, cxtStack⟩, valStack⟩ := u
  · exact absurd rfl hne
  · exact nomatch hrest
  · exact ⟨.TerminalSymbol kind, rfl, rfl⟩
  · exact ⟨.NonTerminalSymbol nonTerm, rfl, rfl⟩

theorem cxtStack_of_incomplete {u : ParseState ι} (h : (verdict u).1 = .Incomplete) :
    u.cxtStack ≠ [] := by
  intro hempty
  unfold verdict at h
  rw [hempty, if_neg (by simp)] at h
  split_ifs at h
  split at h
  · exact nomatch h
  · exact nomatch h

/-- A call that succeeds ends in a settled state, and its result is the verdict on
that. -/
theorem consumes_verdict {s s' : ParseState ι} {w : Token} {r : ParseResult}
    (h : Consumes invoke s w r s') :
    (r = .Incomplete → s'.symbol_on_top) ∧ (r.is_complete → s'.cxtStack = []) := by
  obtain ⟨e, u, hdo, hfin⟩ := consumes_iff.mp h
  rcases e with e | _
  · -- an error is neither
    obtain ⟨rfl, -⟩ := Prod.mk.inj hfin
    refine ⟨?_, ?_⟩
    · intro hr
      exact nomatch hr
    · intro hr
      exact nomatch hr
  · have hverdict : verdict u = (r, s') := hfin
    obtain ⟨t, ht, hreply⟩ := doConsumes_iff.mp hdo
    have hrest : pop_action invoke u = none := by
      rcases hreply with _ | ⟨-, hu⟩
      exact hu.rest
    have hstack : s'.cxtStack = u.cxtStack := by
      rw [← cxtStack_verdict u, hverdict]
    refine ⟨?_, ?_⟩
    · rintro rfl
      have hne := cxtStack_of_incomplete (congrArg Prod.fst hverdict)
      rw [ParseState.symbol_on_top, hstack]
      exact symbol_on_top_of_rest hrest hne
    · intro hr
      rw [hstack]
      apply cxtStack_of_verdict
      rw [hverdict]
      rintro rfl
      exact nomatch hr

/-! ## The empty context stack -/

/-- Nothing leads out of an empty context stack. -/
theorem trailing_of_empty {s t : ParseState ι}
    {steps : List (Step (ParseState ι) Token ParseResult)}
    (hrun : Run (Consumes invoke) s steps t) (hempty : s.cxtStack = []) :
    ∀ st ∈ steps, st.output = .Error .TrailingInput ∧ st.before = s ∧ st.after = s := by
  refine hrun.forall_of_invariant (fun u => u = s) ?_ rfl
  rintro ⟨u, w, r, u'⟩ hstep rfl
  obtain ⟨cxtStack, valStack⟩ := u
  obtain rfl : cxtStack = [] := hempty
  obtain ⟨rfl, rfl⟩ := consumes_empty_iff.mp hstep
  exact ⟨⟨rfl, rfl, rfl⟩, rfl⟩

/-- At most one call of a run is complete: the calls after it find an empty stack. -/
theorem length_filter_is_complete_le {s t : ParseState ι}
    {steps : List (Step (ParseState ι) Token ParseResult)}
    (hrun : Run (Consumes invoke) s steps t) :
    (steps.filter fun st => st.output.is_complete).length ≤ 1 := by
  induction hrun with
  | nil => simp
  | @cons s s' t w r steps hstep hrest ih =>
    by_cases hr : r.is_complete
    · have hnone : (steps.filter fun st => st.output.is_complete) = [] := by
        rw [List.filter_eq_nil_iff]
        intro st hst
        rw [(trailing_of_empty hrest ((consumes_verdict hstep).2 hr) st hst).1]
        exact Bool.false_ne_true
      rw [List.filter_cons, if_pos hr, hnone, List.length_singleton]
    · rw [List.filter_cons, if_neg hr]
      exact ih

/-! ## Whole runs -/

/-- The verdict protocol. If the actions come to an end, every input has a run. In
every run, from any state and with errors anywhere in it: a call that returns
`Incomplete` leaves a terminal or a non-terminal on top of the context stack; at most
one call returns `Complete`; and once a call has left the context stack empty, every
later one returns `TrailingInput` and changes neither stack. -/
theorem verdict_protocol (invoke : ι → ParseState ι → ParseState ι) :
    (Terminates invoke → ∀ s input, ∃ steps t,
      Run (Consumes invoke) s steps t ∧ steps.map Step.input = input) ∧
    ∀ s steps t, Run (Consumes invoke) s steps t →
      (∀ st ∈ steps, st.output = .Incomplete → st.after.symbol_on_top) ∧
      (steps.filter fun st => st.output.is_complete).length ≤ 1 ∧
      ∀ before st after, steps = before ++ st :: after → st.after.cxtStack = [] →
        ∀ st' ∈ after, st'.output = .Error .TrailingInput ∧ st'.before = st.after ∧
          st'.after = st.after := by
  refine ⟨exists_run, ?_⟩
  intro s steps t hrun
  refine ⟨?_, length_filter_is_complete_le hrun, ?_⟩
  · refine hrun.forall_of_invariant (fun _ => True) ?_ trivial
    intro st hstep _
    exact ⟨(consumes_verdict hstep).1, trivial⟩
  · rintro before st after rfl hempty
    exact trailing_of_empty hrun.after hempty

end Protocol

end GlviCbor
