/-
Is a grammar symbol ever skipped?

Where actions only work on the value stack, the symbols on the context stack are
a queue of what is still to be matched. A matching token takes the first one, a
wrong one leaves them all (`consumes_symbols`). A non-terminal is the exception:
the branches of `do_consume` for them are empty, so the context it has popped is
neither matched nor put back, as the branch for a terminal of another kind does.

`complete_iff` follows this through whole runs, errors included: nothing is
skipped, and a `Complete` stands for a stack matched symbol by symbol, if and
only if no call finds a non-terminal as the first symbol.
-/
import GlviCbor.Consume

set_option autoImplicit false

namespace GlviCbor

open Machine Settle

section Symbols

variable {ι : Type*} {invoke : ι → ParseState ι → ParseState ι}

/-- The actions leave the context stack alone. -/
def KeepsContexts (invoke : ι → ParseState ι → ParseState ι) : Prop :=
  ∀ action s, (invoke action s).cxtStack = s.cxtStack

/-- A terminal or a non-terminal. -/
def Context.is_symbol : Context ι → Bool
  | .Action _ _ => false
  | .TerminalSymbol _ => true
  | .NonTerminalSymbol _ => true

/-- The symbols on the context stack, top first. -/
def ParseState.symbols (s : ParseState ι) : List (Context ι) := s.cxtStack.filter Context.is_symbol

/-! ## Actions that keep the context stack -/

theorem symbols_of_settles (hkeep : KeepsContexts invoke) {s t : ParseState ι}
    (h : Settles (pop_action invoke) s t) : t.symbols = s.symbols := by
  refine Settles.invariant (P := fun u => u.symbols = s.symbols) h ?_ rfl
  rintro ⟨_ | ⟨⟨name, action⟩ | _ | _, cxtStack⟩, valStack⟩ b hab ha
  · exact nomatch hab
  · obtain rfl : invoke action ⟨cxtStack, valStack⟩ = b := Option.some.inj hab
    rw [← ha, ParseState.symbols, hkeep]
    rfl
  · exact nomatch hab
  · exact nomatch hab

/-- Every action leaves one context less, so they come to an end. -/
theorem exists_settles (hkeep : KeepsContexts invoke) : Terminates invoke := by
  intro s
  -- the stack shrinks with every action, since none of them pushes a context
  induction h : s.cxtStack generalizing s with
  | nil => exact ⟨s, (settles_of_rest (by rw [pop_action, h])).mpr rfl⟩
  | cons context cxtStack ih =>
    rcases context with ⟨name, action⟩ | _ | _
    · have hstep : pop_action invoke s = some (invoke action { s with cxtStack := cxtStack }) := by
        rw [pop_action, h]
      obtain ⟨t, ht⟩ := ih _ (hkeep action { s with cxtStack := cxtStack })
      exact ⟨t, (settles_of_step hstep).mpr ht⟩
    · exact ⟨s, (settles_of_rest (by rw [pop_action, h])).mpr rfl⟩
    · exact ⟨s, (settles_of_rest (by rw [pop_action, h])).mpr rfl⟩

/-! ## One call -/

/-- The first symbol on the stack is a non-terminal. -/
def MeetsNonTerminal (s : ParseState ι) : Prop :=
  ∃ nonTerm, s.symbols.head? = some (.NonTerminalSymbol nonTerm)

/-- The result is an error. -/
def ParseResult.is_error : ParseResult → Bool
  | .Error _ => true
  | _ => false

/-- If `do_consume` itself fails, the symbols on the stack are those before. -/
def StepLaw (invoke : ι → ParseState ι → ParseState ι)
    (st : Step (ParseState ι) Token ParseResult) : Prop :=
  ∀ e, DoConsumes invoke st.before st.input (.error e) st.after →
    st.after.symbols = st.before.symbols

theorem symbols_verdict (u : ParseState ι) : (verdict u).2.symbols = u.symbols := by
  rw [ParseState.symbols, cxtStack_verdict, ParseState.symbols]

/-- What a call does to the symbols. It takes the first, which is the terminal of
the token; or it fails and takes none; or it drops a non-terminal. -/
theorem consumes_symbols (hkeep : KeepsContexts invoke) {s s' : ParseState ι} {w : Token}
    {r : ParseResult} (h : Consumes invoke s w r s') :
    ((∃ u, DoConsumes invoke s w (.ok ()) u) ∧ s.symbols = .TerminalSymbol w.kind :: s'.symbols ∧
        (r = .Incomplete ∨ s'.symbols = [])) ∨
      (r.is_error ∧ s'.symbols = s.symbols ∧ ¬ MeetsNonTerminal s) ∨
      (∃ e nonTerm, DoConsumes invoke s w (.error e) s' ∧
        s.symbols = .NonTerminalSymbol nonTerm :: s'.symbols) := by
  obtain ⟨e, u, hdo, hfin⟩ := consumes_iff.mp h
  obtain ⟨t, ht, hreply⟩ := doConsumes_iff.mp hdo
  have hsym := symbols_of_settles hkeep ht
  rw [MeetsNonTerminal, ← hsym]
  rcases hreply with ⟨valStack⟩ | @⟨_, cxtStack, valStack, _, rfl, hu⟩ |
    @⟨kind, cxtStack, valStack, hne⟩ | ⟨nonTerm, cxtStack, valStack⟩
  · -- trailing input: there is no symbol at all
    obtain ⟨rfl, rfl⟩ := Prod.mk.inj hfin
    refine .inr (.inl ⟨rfl, rfl, ?_⟩)
    rintro ⟨nonTerm, hhead⟩
    exact nomatch hhead
  · -- a match: the flush and the verdict leave the other symbols alone
    have hrest : s'.symbols = u.symbols := by
      rw [← symbols_verdict u, show verdict u = (r, s') from hfin]
    refine .inl ⟨⟨u, hdo⟩, ?_, ?_⟩
    · rw [hrest, symbols_of_settles hkeep hu]
      rfl
    · by_cases hr : r = .Incomplete
      · exact .inl hr
      · have hempty : u.cxtStack = [] :=
          cxtStack_of_verdict (by rwa [show verdict u = (r, s') from hfin])
        right
        rw [hrest, ParseState.symbols, hempty]
        rfl
  · obtain ⟨rfl, rfl⟩ := Prod.mk.inj hfin
    refine .inr (.inl ⟨rfl, rfl, ?_⟩)
    rintro ⟨nonTerm, hhead⟩
    exact nomatch hhead
  · -- the non-terminal is gone
    obtain ⟨rfl, rfl⟩ := Prod.mk.inj hfin
    exact .inr (.inr ⟨.Internal, nonTerm, hdo, rfl⟩)

/-- The step law holds exactly where the first symbol is no non-terminal. -/
theorem stepLaw_iff (hkeep : KeepsContexts invoke) {st : Step (ParseState ι) Token ParseResult}
    (h : Consumes invoke st.before st.input st.output st.after) :
    StepLaw invoke st ↔ ¬ MeetsNonTerminal st.before := by
  rcases consumes_symbols hkeep h with ⟨⟨u, hdo⟩, hsym, -⟩ | ⟨-, hsym, hno⟩ |
    ⟨e, nonTerm, hdo, hsym⟩
  · refine iff_of_true (fun e he => ?_) ?_
    · -- a call has one outcome, so one that matched has not failed
      exact nomatch (hdo.unique he).1
    · rintro ⟨nonTerm, hhead⟩
      rw [hsym] at hhead
      exact nomatch hhead
  · exact iff_of_true (fun _ _ => hsym) hno
  · refine iff_of_false (fun hlaw => ?_) (not_not.mpr ⟨nonTerm, by rw [hsym]; rfl⟩)
    have heq := hlaw e hdo
    rw [hsym] at heq
    exact List.cons_ne_self _ _ heq.symm

/-! ## Whole runs -/

/-- The tokens a run has taken without an error. -/
def accepted (steps : List (Step (ParseState ι) Token ParseResult)) : List Token :=
  (steps.filter fun st => !st.output.is_error).map Step.input

/-- Whenever a call of the run returns `Complete`, the symbols that were on the
stack at the start are, one by one, the terminals of the tokens taken without an
error up to and including that call. -/
def RunLaw (s : ParseState ι) (steps : List (Step (ParseState ι) Token ParseResult)) : Prop :=
  ∀ before st after value, steps = before ++ st :: after → st.output = .Complete value →
    s.symbols = (accepted (before ++ [st])).map fun w => .TerminalSymbol w.kind

theorem accepted_cons (st : Step (ParseState ι) Token ParseResult)
    (steps : List (Step (ParseState ι) Token ParseResult)) :
    accepted (st :: steps) =
      if st.output.is_error then accepted steps else st.input :: accepted steps := by
  unfold accepted
  by_cases h : st.output.is_error
  · simp [h]
  · simp [h]

/-- A `Complete` is among the accepted steps. -/
theorem accepted_append_ne_nil {before : List (Step (ParseState ι) Token ParseResult)}
    {st : Step (ParseState ι) Token ParseResult} {value : CBORValue}
    (h : st.output = .Complete value) : accepted (before ++ [st]) ≠ [] := by
  unfold accepted
  simp [List.filter_append, h, ParseResult.is_error]

/-- While no non-terminal comes up, the run law holds. -/
theorem runLaw_of_guard (hkeep : KeepsContexts invoke) {s t : ParseState ι}
    {steps : List (Step (ParseState ι) Token ParseResult)}
    (hrun : Run (Consumes invoke) s steps t) (hguard : ∀ st ∈ steps, ¬ MeetsNonTerminal st.before) :
    RunLaw s steps := by
  induction hrun with
  | nil s =>
    intro before st after value hsplit
    exact absurd hsplit (by simp)
  | @cons s s' t w r steps hstep hrest ih =>
    rw [List.forall_mem_cons] at hguard
    have hlaw := ih hguard.2
    rintro (_ | ⟨b, before⟩) st after value hsplit hcomplete
    · -- this call is the `Complete` one
      obtain ⟨rfl, rfl⟩ := List.cons.inj hsplit
      obtain rfl : r = .Complete value := hcomplete
      rcases consumes_symbols hkeep hstep with ⟨-, hsym, hend⟩ | ⟨herr, -, -⟩ |
        ⟨e, nonTerm, -, hsym⟩
      · obtain hempty : s'.symbols = [] := hend.resolve_left (by simp)
        rw [hsym, hempty]
        rfl
      · exact nomatch herr
      · exact absurd ⟨nonTerm, by rw [hsym]; rfl⟩ hguard.1
    · -- a later call is: by then the symbols of `s'` are matched, and `s` has one
      -- more if this call took it, the same ones if it failed
      obtain ⟨rfl, hsteps⟩ := List.cons.inj hsplit
      have hrec := hlaw before st after value hsteps hcomplete
      rw [List.cons_append, accepted_cons]
      rcases consumes_symbols hkeep hstep with ⟨-, hsym, hend⟩ | ⟨herr, hsym, -⟩ |
        ⟨e, nonTerm, -, hsym⟩
      · by_cases herr : r.is_error
        · -- an error of the verdict leaves nothing that could complete later
          obtain hempty : s'.symbols = [] := hend.resolve_left (by rintro rfl; exact nomatch herr)
          rw [hempty] at hrec
          exact absurd (List.map_eq_nil_iff.mp hrec.symm) (accepted_append_ne_nil hcomplete)
        · rw [if_neg herr, List.map_cons, ← hrec]
          exact hsym
      · rw [if_pos herr, ← hrec]
        exact hsym.symm
      · exact absurd ⟨nonTerm, by rw [hsym]; rfl⟩ hguard.1

/-- Nothing is skipped where no non-terminal comes up, and only there. Every
input has a run; and in a run no failing `do_consume` takes a symbol off the
stack, and every `Complete` stands for a stack that was matched symbol by symbol,
if and only if no call of the run finds a non-terminal as the first symbol. -/
theorem complete_iff (hkeep : KeepsContexts invoke) (s : ParseState ι) :
    (∀ input, ∃ steps t, Run (Consumes invoke) s steps t ∧ steps.map Step.input = input) ∧
    ∀ steps t, Run (Consumes invoke) s steps t →
      (((∀ st ∈ steps, StepLaw invoke st) ∧ RunLaw s steps) ↔
        ∀ st ∈ steps, ¬ MeetsNonTerminal st.before) := by
  refine ⟨exists_run (exists_settles hkeep) s, fun steps t hrun => ?_⟩
  have hsteps : (∀ st ∈ steps, StepLaw invoke st) ↔ ∀ st ∈ steps, ¬ MeetsNonTerminal st.before :=
    hrun.forall_iff (fun _ => True) (fun st hst _ => stepLaw_iff hkeep hst)
      (fun _ _ _ _ => trivial) trivial
  rw [hsteps]
  exact and_iff_left_of_imp (runLaw_of_guard hkeep hrun)

end Symbols

/-- An action that empties the value stack. -/
def clearing (_action : Unit) (s : ParseState Unit) : ParseState Unit := { s with valStack := [] }

/-- A number where a number is expected, below an action. -/
theorem complete_iff_uint :
    ∃ steps : List (Step (ParseState Unit) Token ParseResult),
      steps.map Step.input = [.Uint 5] ∧
      steps.map Step.output = [.Complete (.uint ⟨⟨5⟩⟩)] ∧
      (∀ st ∈ steps, StepLaw clearing st) ∧
      RunLaw ⟨[.Action "clear" (), .TerminalSymbol .Uint], [.bstr []]⟩ steps := by
  have hcall : Consumes clearing ⟨[.Action "clear" (), .TerminalSymbol .Uint], [.bstr []]⟩ (.Uint 5)
      (.Complete (.uint ⟨⟨5⟩⟩)) ⟨[], []⟩ := ⟨3, rfl⟩
  refine ⟨[⟨⟨[.Action "clear" (), .TerminalSymbol .Uint], [.bstr []]⟩, .Uint 5,
    .Complete (.uint ⟨⟨5⟩⟩), ⟨[], []⟩⟩], rfl, rfl, ?_⟩
  have hkeep : KeepsContexts clearing := fun _ _ => rfl
  refine ((complete_iff hkeep _).2 _ _ (.cons hcall (.nil _))).mpr ?_
  rintro st hst ⟨nonTerm, hhead⟩
  obtain rfl := List.mem_singleton.mp hst
  exact nomatch hhead

/-- A stack with a non-terminal over a terminal, and the same number twice. The
first call fails and drops the non-terminal, the second is `Complete`. -/
theorem complete_after_skip :
    ¬ ∀ (s t : ParseState Unit) (steps : List (Step (ParseState Unit) Token ParseResult)),
      Run (Consumes clearing) s steps t →
      (∀ st ∈ steps, StepLaw clearing st) ∧ RunLaw s steps := by
  intro h
  have hdrop : Consumes clearing ⟨[.NonTerminalSymbol .Value, .TerminalSymbol .Uint], []⟩ (.Uint 5)
      (.Error .Internal) ⟨[.TerminalSymbol .Uint], []⟩ := ⟨1, rfl⟩
  have hmatch : Consumes clearing ⟨[.TerminalSymbol .Uint], []⟩ (.Uint 5)
      (.Complete (.uint ⟨⟨5⟩⟩)) ⟨[], []⟩ := ⟨2, rfl⟩
  have hlaw := (h _ _ _ (.cons hdrop (.cons hmatch (.nil _)))).2
  have hsym := hlaw [⟨_, _, _, _⟩] _ [] _ rfl rfl
  exact absurd (congrArg List.length hsym) (by decide)

end GlviCbor
