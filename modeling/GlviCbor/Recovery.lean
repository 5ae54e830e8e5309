/-
Inputs with errors in them.

A caller may go on after an error, so a run of `Parser::consume` is not over with the
first wrong token. Where the actions leave the context stack alone, what becomes of an
input is greedy matching (`Greedy`): the first symbol on the stack takes the first
token it can, a terminal one of its kind and a non-terminal any (it is dropped, see
`consumes_symbols`), and every other token is passed over. `symbols_left` says what is
on the stack after any input, and that the greedy choice misses nothing;
`reads_chosen` says what the values are: those of the reading, made with the tokens
that were chosen.
-/
import GlviCbor.Lib.Greedy
import GlviCbor.ContextStack
import GlviCbor.Protocol

set_option autoImplicit false

namespace GlviCbor

open Machine Settle Greedy

section Symbols

variable {ι : Type*} {invoke : ι → ParseState ι → ParseState ι}

/-- A terminal of this kind matches the token. -/
def Kind.takes (kind : Kind) (w : Token) : Bool := kind = w.kind

/-- The token takes the symbol off the stack. -/
def Context.takes : Context ι → Token → Bool
  | .Action _ _, _ => false
  | .TerminalSymbol kind, w => kind.takes w
  | .NonTerminalSymbol _, _ => true

/-! ## The symbols that are left -/

/-- One call is one step of greedy matching. -/
theorem symbols_of_consumes (hkeep : KeepsContexts invoke) {s s' : ParseState ι} {w : Token}
    {r : ParseResult} (h : Consumes invoke s w r s') :
    s'.symbols = waiting Context.takes s.symbols [w] := by
  obtain ⟨e, u, hdo, hfin⟩ := consumes_iff.mp h
  obtain ⟨t, ht, hreply⟩ := doConsumes_iff.mp hdo
  rw [← symbols_of_settles hkeep ht]
  rcases hreply with ⟨valStack⟩ | @⟨_, cxtStack, valStack, _, rfl, hu⟩ |
    @⟨kind, cxtStack, valStack, hne⟩ | ⟨nonTerm, cxtStack, valStack⟩
  · obtain ⟨-, rfl⟩ := Prod.mk.inj hfin
    exact (waiting_nil_left _ _).symm
  · have hrest : s'.symbols = u.symbols := by
      rw [← symbols_verdict u, show verdict u = (r, s') from hfin]
    have htakes : Context.takes (.TerminalSymbol w.kind : Context ι) w := decide_eq_true rfl
    rw [hrest, symbols_of_settles hkeep hu]
    exact ((waiting_of_fits htakes _ _).trans (waiting_nil_right _ _)).symm
  · -- the terminal is put back
    obtain ⟨-, rfl⟩ := Prod.mk.inj hfin
    have htakes : ¬ Context.takes (.TerminalSymbol kind : Context ι) w := by
      intro hkind
      exact hne (of_decide_eq_true hkind)
    exact ((waiting_of_not_fits htakes _ _).trans (waiting_nil_right _ _)).symm
  · -- the non-terminal is not
    obtain ⟨-, rfl⟩ := Prod.mk.inj hfin
    have htakes : Context.takes (.NonTerminalSymbol nonTerm : Context ι) w := rfl
    exact ((waiting_of_fits htakes _ _).trans (waiting_nil_right _ _)).symm

theorem symbols_of_run (hkeep : KeepsContexts invoke) {s t : ParseState ι}
    {steps : List (Step (ParseState ι) Token ParseResult)}
    (hrun : Run (Consumes invoke) s steps t) :
    t.symbols = waiting Context.takes s.symbols (steps.map Step.input) := by
  induction hrun with
  | nil s => exact (waiting_nil_right _ _).symm
  | cons hstep _ ih =>
    rw [ih, symbols_of_consumes hkeep hstep, List.map_cons]
    exact (waiting_cons _ _ _).symm

/-- What any input leaves of the symbols, errors included, where the actions leave the
context stack alone. A prefix of the symbols is off the stack after the run if and only
if it embeds in the input, in order and with whatever in between: a token of its kind
for each terminal, any token for each non-terminal. So all symbols are gone if and only
if they embed. -/
theorem symbols_left (hkeep : KeepsContexts invoke) {s t : ParseState ι}
    {steps : List (Step (ParseState ι) Token ParseResult)}
    (hrun : Run (Consumes invoke) s steps t) :
    (∃ gone, s.symbols = gone ++ t.symbols ∧ ∀ symbols, symbols <+: s.symbols →
      (List.SublistForall₂ (fun c w => Context.takes c w) symbols (steps.map Step.input) ↔
        symbols <+: gone)) ∧
    (t.symbols = [] ↔
      List.SublistForall₂ (fun c w => Context.takes c w) s.symbols (steps.map Step.input)) := by
  rw [symbols_of_run hkeep hrun]
  exact ⟨embeds_iff _ _ _, waiting_eq_nil_iff _ _ _⟩

end Symbols

/-- A non-terminal takes the break, the terminal the second number; the text in
between is refused, and the last symbol waits. -/
theorem symbols_left_gap :
    ∃ gone : List (Context Unit),
      [.NonTerminalSymbol .Value, .TerminalSymbol .Uint, .TerminalSymbol .Tstr] =
        gone ++ [.TerminalSymbol .Tstr] ∧
      ∀ symbols, symbols <+: [.NonTerminalSymbol .Value, .TerminalSymbol .Uint,
          .TerminalSymbol .Tstr] →
        (List.SublistForall₂ (fun c w => Context.takes c w) symbols [.Break, .Nint 0, .Uint 1] ↔
          symbols <+: gone) := by
  have hdrop : Consumes clearing ⟨[.NonTerminalSymbol .Value, .TerminalSymbol .Uint,
      .TerminalSymbol .Tstr], []⟩ .Break (.Error .Internal)
      ⟨[.TerminalSymbol .Uint, .TerminalSymbol .Tstr], []⟩ := ⟨1, rfl⟩
  have hrefuse : Consumes clearing ⟨[.TerminalSymbol .Uint, .TerminalSymbol .Tstr], []⟩ (.Nint 0)
      (.Error (.UnexpectedT [.Uint] (.Nint 0)))
      ⟨[.TerminalSymbol .Uint, .TerminalSymbol .Tstr], []⟩ := ⟨1, rfl⟩
  have hmatch : Consumes clearing ⟨[.TerminalSymbol .Uint, .TerminalSymbol .Tstr], []⟩ (.Uint 1)
      .Incomplete ⟨[.TerminalSymbol .Tstr], [.uint ⟨⟨1⟩⟩]⟩ := ⟨3, rfl⟩
  have hkeep : KeepsContexts clearing := fun _ _ => rfl
  exact (symbols_left hkeep (.cons hdrop (.cons hrefuse (.cons hmatch (.nil _))))).1

/-! ## The values -/

section Values

variable {ι : Type*} (f : ι → ValueStack → ValueStack)

/-- The tokens of the input that the terminals of the stack take. -/
def chosen (cxtStack : ContextStack ι) (input : List Token) : List Token :=
  taken Kind.takes (terminals cxtStack) input

theorem chosen_match {cxtStack : ContextStack ι} {w : Token} {kinds : List Kind}
    (h : terminals cxtStack = w.kind :: kinds) (input : List Token) :
    chosen cxtStack (w :: input) = w :: taken Kind.takes kinds input := by
  have htakes : w.kind.takes w := decide_eq_true rfl
  rw [chosen, h]
  exact taken_of_fits htakes kinds input

theorem chosen_mismatch {cxtStack : ContextStack ι} {w : Token} {kind : Kind}
    {kinds : List Kind} (h : terminals cxtStack = kind :: kinds) (hne : w.kind ≠ kind)
    (input : List Token) : chosen cxtStack (w :: input) = chosen cxtStack input := by
  have htakes : ¬ kind.takes w := by
    intro hkind
    exact hne (of_decide_eq_true hkind).symm
  rw [chosen, chosen, h]
  exact taken_of_not_fits htakes kinds input

/-- The outcome of a run: the state is that of the reading after the verdict, and a
call was complete if the verdict is. -/
def Outcome (u : ParseState ι) (steps : List (Step (ParseState ι) Token ParseResult))
    (t : ParseState ι) : Prop :=
  t = (verdict u).2 ∧
    ∀ value, (∃ st ∈ steps, st.output = .Complete value) ↔ (verdict u).1 = .Complete value

/-- The run from the state a call has left. -/
theorem Outcome.cons {u t s s' : ParseState ι} {w : Token} {r : ParseResult}
    {steps : List (Step (ParseState ι) Token ParseResult)} (h : Outcome u steps t)
    (hr : ∀ value, r ≠ .Complete value) : Outcome u (⟨s, w, r, s'⟩ :: steps) t := by
  refine ⟨h.1, fun value => ?_⟩
  rw [← h.2 value, List.exists_mem_cons_iff]
  exact or_iff_right (hr value)

/-- Nothing happens any more with an empty context stack. -/
theorem run_of_empty {invoke : ι → ParseState ι → ParseState ι} {s t : ParseState ι}
    {steps : List (Step (ParseState ι) Token ParseResult)}
    (hrun : Run (Consumes invoke) s steps t) (hempty : s.cxtStack = []) : t = s := by
  induction hrun with
  | nil => rfl
  | @cons s s' t w r steps hstep _ ih =>
    obtain ⟨cxtStack, valStack⟩ := s
    obtain rfl : cxtStack = [] := hempty
    obtain ⟨-, rfl⟩ := consumes_empty_iff.mp hstep
    exact ih rfl

/-- By induction over the calls; a run without calls needs a state that has settled. -/
theorem outcome_of_run {cxtStack : ContextStack ι} (hlin : Linear cxtStack)
    (hne : terminals cxtStack ≠ []) {valStack : ValueStack} {t : ParseState ι}
    {steps : List (Step (ParseState ι) Token ParseResult)}
    (hrun : Run (Consumes (value_action f)) ⟨cxtStack, valStack⟩ steps t)
    (hsettled : steps = [] → read f cxtStack [] valStack = ⟨cxtStack, valStack⟩) :
    Outcome (read f cxtStack (chosen cxtStack (steps.map Step.input)) valStack) steps t := by
  induction steps generalizing cxtStack valStack with
  | nil =>
    rcases hrun with _ | _
    have hverdict : verdict (⟨cxtStack, valStack⟩ : ParseState ι) = (.Incomplete, _) :=
      verdict_incomplete hne
    rw [List.map_nil, chosen, taken_nil_right, hsettled rfl, Outcome, hverdict]
    simp
  | cons st steps ih =>
    rcases hrun with _ | @⟨_, s', _, w, r, _, hstep, hrest⟩
    obtain ⟨kind, kinds, hkinds⟩ := List.exists_cons_of_ne_nil hne
    rw [List.map_cons]
    by_cases hkind : w.kind = kind
    · subst hkind
      obtain ⟨hcall, hlin', hterm, hend, hgo⟩ := consumes_match f hlin hkinds valStack
      obtain ⟨rfl, rfl⟩ := hstep.unique hcall
      rw [chosen_match hkinds]
      rcases kinds with _ | ⟨kind', kinds⟩
      · -- the last terminal: the verdict is given here, and the rest is trailing input
        rw [taken_nil_left]
        have hlast := verdict_final (hend rfl)
        refine ⟨run_of_empty hrest hlast.cxtStack_eq, fun value => ?_⟩
        rw [List.exists_mem_cons_iff]
        apply or_iff_left
        rintro ⟨st, hst, hcomplete⟩
        rw [(trailing_of_empty hrest hlast.cxtStack_eq st hst).1] at hcomplete
        cases hcomplete
      · have hmore : terminals (read f cxtStack [w] valStack).cxtStack ≠ [] := by
          rw [hterm]
          simp
        rw [verdict_incomplete hmore] at hrest ⊢
        have hrec := ih hlin' hmore hrest (fun _ => read_stop f cxtStack [w] valStack)
        rw [chosen, hterm, hgo] at hrec
        exact hrec.cons (by simp)
    · have hcall := consumes_mismatch f hlin hkinds hkind valStack
      obtain ⟨rfl, rfl⟩ := hstep.unique hcall
      obtain ⟨hlin', hterm, -⟩ := terminals_read_nil f hlin valStack
      rw [chosen_mismatch hkinds hkind]
      have hrec := ih hlin' (by rwa [hterm]) hrest (fun _ => read_stop f cxtStack [] valStack)
      rw [chosen, hterm, read_read] at hrec
      exact hrec.cons (by simp)

/-- An input with errors in it is read as what is left of it without them. For every
stack of terminals and actions with at least one terminal, every value stack and every
run of at least one call, wherever its errors are: the stacks at the end are those of
the reading that has the chosen tokens only, after the verdict on it, and a call of the
run has returned `Complete` with a value if and only if that verdict is. -/
theorem reads_chosen {cxtStack : ContextStack ι} (hlin : Linear cxtStack)
    (hne : terminals cxtStack ≠ []) {valStack : ValueStack} {t : ParseState ι}
    {steps : List (Step (ParseState ι) Token ParseResult)}
    (hrun : Run (Consumes (value_action f)) ⟨cxtStack, valStack⟩ steps t) (hsteps : steps ≠ []) :
    Outcome (read f cxtStack (chosen cxtStack (steps.map Step.input)) valStack) steps t := by
  apply outcome_of_run f hlin hne hrun
  intro hnil
  exact absurd hnil hsteps

end Values

/-- A run with two errors in it: a break, and a second number where a text is due. -/
def pair_steps : List (Step (ParseState Unit) Token ParseResult) :=
  [⟨⟨[.TerminalSymbol .Uint, .TerminalSymbol .Tstr, .Action "pair" ()], []⟩, .Break,
      .Error (.UnexpectedT [.Uint] .Break),
      ⟨[.TerminalSymbol .Uint, .TerminalSymbol .Tstr, .Action "pair" ()], []⟩⟩,
    ⟨⟨[.TerminalSymbol .Uint, .TerminalSymbol .Tstr, .Action "pair" ()], []⟩, .Uint 1, .Incomplete,
      ⟨[.TerminalSymbol .Tstr, .Action "pair" ()], [.uint ⟨⟨1⟩⟩]⟩⟩,
    ⟨⟨[.TerminalSymbol .Tstr, .Action "pair" ()], [.uint ⟨⟨1⟩⟩]⟩, .Uint 2,
      .Error (.UnexpectedT [.Tstr] (.Uint 2)),
      ⟨[.TerminalSymbol .Tstr, .Action "pair" ()], [.uint ⟨⟨1⟩⟩]⟩⟩,
    ⟨⟨[.TerminalSymbol .Tstr, .Action "pair" ()], [.uint ⟨⟨1⟩⟩]⟩, .Tstr [0x61],
      .Complete (.array [.uint ⟨⟨1⟩⟩, .tstr [0x61]]), ⟨[], []⟩⟩]

theorem pair_run :
    Run (Consumes (value_action pairing))
      ⟨[.TerminalSymbol .Uint, .TerminalSymbol .Tstr, .Action "pair" ()], []⟩ pair_steps ⟨[], []⟩ :=
  .cons ⟨1, rfl⟩ (.cons ⟨2, rfl⟩ (.cons ⟨1, rfl⟩ (.cons ⟨3, rfl⟩ (.nil _))))

/-- The pair is made of the other two tokens. -/
theorem reads_chosen_pair :
    Outcome ⟨[], [.array [.uint ⟨⟨1⟩⟩, .tstr [0x61]]]⟩ pair_steps ⟨[], []⟩ := by
  have hlin : Linear [.TerminalSymbol .Uint, .TerminalSymbol .Tstr, .Action "pair" ()] := by
    simp [Linear]
  exact reads_chosen pairing hlin (by decide) pair_run (by simp [pair_steps])

end GlviCbor
