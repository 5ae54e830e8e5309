/-
The language of a parser.

With the right-hand sides of a grammar for its actions the driver is meant to be a
predictive parser. `grammar` is that grammar, over the kinds of tokens: the actions are
its nonterminals, with one rule each. A non-terminal symbol of the source is one
without a rule, as there is no branch for it. `completes_language` says what the driver
makes of the language, and that there is at most one word in it: an action is run
before the next token is looked at, so nothing could choose among two rules.
-/
import GlviCbor.Lib.Leftmost
import GlviCbor.Derivation
import GlviCbor.LeftRecursion

set_option autoImplicit false

namespace GlviCbor

open Machine Settle Leftmost

section Grammar

variable {ι : Type} [Fintype ι] [DecidableEq ι] (program : ι → ContextStack ι)
  (f : ι → ValueStack → ValueStack)

/-- A context as a symbol of the grammar. -/
def Context.symbol : Context ι → Symbol Kind (ι ⊕ NonTerm)
  | .Action _ action => .nonterminal (.inl action)
  | .TerminalSymbol kind => .terminal kind
  | .NonTerminalSymbol nonTerm => .nonterminal (.inr nonTerm)

/-- The one rule of an action. -/
def rule (action : ι) : ContextFreeRule Kind (ι ⊕ NonTerm) :=
  ⟨.inl action, (program action).map Context.symbol⟩

/-- The rules of all actions. -/
def productions : Finset (ContextFreeRule Kind (ι ⊕ NonTerm)) := Finset.univ.image (rule program)

/-- The grammar with these rules. -/
def grammar (start : ι) : ContextFreeGrammar Kind where
  NT := ι ⊕ NonTerm
  initial := .inl start
  rules := productions program

variable {program f}

theorem mem_productions_iff {r : ContextFreeRule Kind (ι ⊕ NonTerm)} :
    r ∈ productions program ↔ ∃ action, rule program action = r := by
  simp [productions]

theorem mem_language_grammar_iff {start : ι} {word : List Kind} :
    word ∈ (grammar program start).language ↔
      Yields (productions program) [.nonterminal (.inl start)] word :=
  mem_language_iff_yields word

/-! ## Readings of the context stack and of the grammar -/

/-- What the driver reads, leaving no context, the grammar yields. -/
theorem yields_of_expands {s u : ParseState ι} {ts : List Token}
    (h : Expands (grammar_action program f) s ts u) (hempty : u.cxtStack = []) :
    Yields (productions program) (s.cxtStack.map Context.symbol) (ts.map Token.kind) := by
  induction h with
  | stop s =>
    rw [hempty]
    exact .nil
  | @action name action cxtStack valStack ts u _ ih =>
    have hrest := ih hempty
    rw [grammar_action, List.map_append] at hrest
    exact .nonterminal (mem_productions_iff.mpr ⟨action, rfl⟩) hrest
  | @terminal kind cxtStack valStack w ts u hkind _ ih =>
    subst hkind
    exact .terminal (ih hempty)

/-- And what the grammar yields, the driver reads, whatever the values. -/
theorem expands_of_yields {string : List (Symbol Kind (ι ⊕ NonTerm))}
    {word : List Kind} (h : Yields (productions program) string word)
    {cxtStack : ContextStack ι} (hstack : cxtStack.map Context.symbol = string)
    {ts : List Token} (hts : ts.map Token.kind = word) (valStack : ValueStack) :
    ∃ valStack', Expands (grammar_action program f) ⟨cxtStack, valStack⟩ ts ⟨[], valStack'⟩ := by
  induction h generalizing cxtStack ts valStack with
  | nil =>
    obtain rfl := List.map_eq_nil_iff.mp hstack
    obtain rfl := List.map_eq_nil_iff.mp hts
    exact ⟨valStack, .stop _⟩
  | @terminal kind string word _ ih =>
    obtain ⟨context, cxtStack, rfl, hcontext, hrest⟩ := List.map_eq_cons_iff.mp hstack
    obtain ⟨w, ts, rfl, hw, hwords⟩ := List.map_eq_cons_iff.mp hts
    obtain ⟨valStack', hgo⟩ := ih hrest hwords (push_value w valStack)
    rcases context with _ | kind' | _
    · cases hcontext
    · obtain rfl := Symbol.terminal.inj hcontext
      exact ⟨valStack', .terminal hw.symm hgo⟩
    · cases hcontext
  | @nonterminal r string word hr _ ih =>
    obtain ⟨action, rfl⟩ := mem_productions_iff.mp hr
    obtain ⟨context, cxtStack, rfl, hcontext, hrest⟩ := List.map_eq_cons_iff.mp hstack
    rcases context with ⟨name, action'⟩ | _ | _
    · obtain rfl : action' = action := Sum.inl.inj (Symbol.nonterminal.inj hcontext)
      have hpushed : (program action' ++ cxtStack).map Context.symbol
          = (rule program action').output ++ string := by
        rw [List.map_append, hrest]
        rfl
      obtain ⟨valStack', hgo⟩ := ih hpushed hts (f action' valStack)
      exact ⟨valStack', .action hgo⟩
    · cases hcontext
    · cases Symbol.nonterminal.inj hcontext

/-! ## The language -/

/-- The driver and the grammar of its actions. For all right-hand sides, all functions
on the values and any values at the start: the kinds of an input that is completed are
a word of the grammar; an input whose kinds are a word is taken without an error up to
its last token, which has the verdict on the values; and all words of the grammar are
one. -/
theorem completes_language (program : ι → ContextStack ι) (f : ι → ValueStack → ValueStack)
    (start : ι) (name : String) (valStack : ValueStack) (w : Token) (ts : List Token) :
    (∀ value u, Parses (grammar_action program f) ⟨[.Action name start], valStack⟩ (w :: ts)
        (List.replicate ts.length .Incomplete ++ [.Complete value]) u →
      (w :: ts).map Token.kind ∈ (grammar program start).language) ∧
    ((w :: ts).map Token.kind ∈ (grammar program start).language →
      ∃ values last s', Expands (grammar_action program f) ⟨[.Action name start], valStack⟩
          (w :: ts) ⟨[], values⟩ ∧ Verdict values last s' ∧
        Parses (grammar_action program f) ⟨[.Action name start], valStack⟩ (w :: ts)
          (List.replicate ts.length .Incomplete ++ [last]) s') ∧
    (∀ word ∈ (grammar program start).language, ∀ word' ∈ (grammar program start).language,
      word = word') := by
  refine ⟨?_, ?_, ?_⟩
  · intro value u hparse
    obtain ⟨-, hexpands⟩ := ((parses_iff_expands _ _ w ts).2 value u).mp hparse
    exact mem_language_grammar_iff.mpr (yields_of_expands hexpands rfl)
  · intro hword
    have hstack : [Context.Action name start].map Context.symbol =
        [.nonterminal (.inl start)] := rfl
    obtain ⟨values, hexpands⟩ :=
      expands_of_yields (mem_language_grammar_iff.mp hword) hstack rfl valStack
    obtain ⟨last, s', hverdict, hparse⟩ := parses_of_expands hexpands
    exact ⟨values, last, s', hexpands, hverdict, hparse⟩
  · intro word hword word' hword'
    apply Yields.unique ?_ (mem_language_grammar_iff.mp hword)
      (mem_language_grammar_iff.mp hword')
    intro r hr r' hr' hinput
    obtain ⟨action, rfl⟩ := mem_productions_iff.mp hr
    obtain ⟨action', rfl⟩ := mem_productions_iff.mp hr'
    rw [Sum.inl.inj hinput]

/-- One action with a number and a negative number after it. -/
theorem completes_language_pair :
    ∃ last s', Parses
      (grammar_action (fun _ : Unit => [.TerminalSymbol .Uint, .TerminalSymbol .Nint])
        fun _ valStack => valStack)
      ⟨[.Action "pair" ()], []⟩ [.Uint 1, .Nint 0] [.Incomplete, last] s' := by
  have hword : [Kind.Uint, Kind.Nint] ∈ (grammar
      (fun _ : Unit => [.TerminalSymbol .Uint, .TerminalSymbol .Nint]) ()).language := by
    rw [mem_language_grammar_iff]
    have hrule : rule (fun _ : Unit => [.TerminalSymbol .Uint, .TerminalSymbol .Nint]) () ∈
        productions (fun _ : Unit => [.TerminalSymbol .Uint, .TerminalSymbol .Nint]) :=
      mem_productions_iff.mpr ⟨(), rfl⟩
    exact .nonterminal hrule (.terminal (.terminal .nil))
  obtain ⟨-, last, s', -, -, hparse⟩ :=
    (completes_language (fun _ : Unit => [.TerminalSymbol .Uint, .TerminalSymbol .Nint])
      (fun _ valStack => valStack) () "pair" [] (.Uint 1) [.Nint 0]).2.1 hword
  exact ⟨last, s', hparse⟩

end Grammar

end GlviCbor
