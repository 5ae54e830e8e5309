/-
What a context stack of terminals and actions makes of its input.

Read top-down, such a stack is a small program: an action transforms the values,
a terminal takes the next token and pushes its value. `read` is that reading, in
one pass over the stack and with all tokens at hand. `Parser::consume` gets the
tokens one by one, runs the actions behind a terminal right after the match
(`do_flush`) and those before the first terminal when the first token is there
(`do_consume`). `consume_stack` says that the outcome is that of the reading, for
every input: matching, wrong at some token, or too long.

The proof is by induction over the tokens. The strengthening it needs is that a
call leaves the reading of the rest where the reading of the whole would be at
that point (`read_read`), with no action on top.
-/
import GlviCbor.Symbols

set_option autoImplicit false

namespace GlviCbor

open Machine Settle

section ContextStack

variable {ι : Type*} (f : ι → ValueStack → ValueStack)

/-- Actions that are functions on the value stack. -/
def value_action (action : ι) (s : ParseState ι) : ParseState ι :=
  { s with valStack := f action s.valStack }

/-- The kinds of the terminals on the stack, top first. -/
def terminals : ContextStack ι → List Kind
  | [] => []
  | .TerminalSymbol kind :: cxtStack => kind :: terminals cxtStack
  | _ :: cxtStack => terminals cxtStack

/-- There are only terminals and actions on the stack. -/
def Linear (cxtStack : ContextStack ι) : Prop :=
  ∀ nonTerm, Context.NonTerminalSymbol nonTerm ∉ cxtStack

/-- Reads the stack top-down: applies each action, and at each terminal pushes
the value of the next token. Stops at the first terminal there is no token for. -/
def read : ContextStack ι → List Token → ValueStack → ParseState ι
  | .Action _ action :: cxtStack, ts, valStack => read cxtStack ts (f action valStack)
  | .TerminalSymbol _ :: cxtStack, t :: ts, valStack => read cxtStack ts (push_value t valStack)
  | cxtStack, _, valStack => ⟨cxtStack, valStack⟩

/-- The last call of a matched stack: the one value, or an error that tells
whether there is none or more than one. -/
inductive Verdict : ValueStack → ParseResult → ParseState ι → Prop
  | complete (value : CBORValue) : Verdict [value] (.Complete value) ⟨[], []⟩
  | invalid : Verdict [] (.Error .Invalid) ⟨[], []⟩
  | internal {valStack : ValueStack} : 1 < valStack.length →
      Verdict valStack (.Error .Internal) ⟨[], valStack⟩

/-! ## Reading -/

theorem Linear.tail {context : Context ι} {cxtStack : ContextStack ι}
    (h : Linear (context :: cxtStack)) : Linear cxtStack :=
  fun nonTerm hmem => h nonTerm (List.mem_cons_of_mem _ hmem)

/-- With no token the reading runs the actions on top. -/
theorem settles_read (cxtStack : ContextStack ι) (valStack : ValueStack) :
    Settles (pop_action (value_action f)) ⟨cxtStack, valStack⟩ (read f cxtStack [] valStack) := by
  induction cxtStack generalizing valStack with
  | nil => exact (settles_of_rest rfl).mpr rfl
  | cons context cxtStack ih =>
    rcases context with ⟨name, action⟩ | kind | nonTerm
    · have hstep : pop_action (value_action f) ⟨.Action name action :: cxtStack, valStack⟩
          = some ⟨cxtStack, f action valStack⟩ := rfl
      exact (settles_of_step hstep).mpr (ih (f action valStack))
    · exact (settles_of_rest rfl).mpr rfl
    · exact (settles_of_rest rfl).mpr rfl

/-- Reading can be interrupted. -/
theorem read_read (cxtStack : ContextStack ι) (ts : List Token) (valStack : ValueStack) :
    read f (read f cxtStack [] valStack).cxtStack ts (read f cxtStack [] valStack).valStack =
      read f cxtStack ts valStack := by
  induction cxtStack generalizing valStack with
  | nil => rfl
  | cons context cxtStack ih =>
    rcases context with ⟨name, action⟩ | kind | nonTerm
    · exact ih (f action valStack)
    -- at a symbol the first reading has stopped where it started
    · rfl
    · rfl

/-- Running the actions on top takes no terminal. -/
theorem terminals_read_nil {cxtStack : ContextStack ι} (hlin : Linear cxtStack)
    (valStack : ValueStack) :
    Linear (read f cxtStack [] valStack).cxtStack ∧
      terminals (read f cxtStack [] valStack).cxtStack = terminals cxtStack ∧
      (terminals cxtStack = [] → (read f cxtStack [] valStack).cxtStack = []) := by
  induction cxtStack generalizing valStack with
  | nil => exact ⟨hlin, rfl, fun _ => rfl⟩
  | cons context cxtStack ih =>
    rcases context with ⟨name, action⟩ | kind | nonTerm
    · exact ih hlin.tail (f action valStack)
    · exact ⟨hlin, rfl, fun h => nomatch h⟩
    · exact absurd (List.mem_cons_self ..) (hlin nonTerm)

/-- The reading stops at the first terminal, and a token goes on from there. -/
theorem read_of_terminals_cons {cxtStack : ContextStack ι} {kind : Kind} {kinds : List Kind}
    (hlin : Linear cxtStack) (h : terminals cxtStack = kind :: kinds) (valStack : ValueStack) :
    ∃ rest values, read f cxtStack [] valStack = ⟨.TerminalSymbol kind :: rest, values⟩ ∧
      terminals rest = kinds ∧ Linear rest ∧
      ∀ t ts, read f cxtStack (t :: ts) valStack = read f rest ts (push_value t values) := by
  induction cxtStack generalizing valStack with
  | nil => exact nomatch h
  | cons context cxtStack ih =>
    rcases context with ⟨name, action⟩ | kind' | nonTerm
    · exact ih hlin.tail h (f action valStack)
    · obtain ⟨rfl, hrest⟩ := List.cons.inj h
      exact ⟨cxtStack, valStack, rfl, hrest, hlin.tail, fun _ _ => rfl⟩
    · exact absurd (List.mem_cons_self ..) (hlin nonTerm)

/-! ## One call -/

/-- A token of the first terminal's kind: the reading goes on up to the next
terminal, and the verdict is on the state there. -/
theorem consumes_match {cxtStack : ContextStack ι} {w : Token} {kinds : List Kind}
    (hlin : Linear cxtStack) (h : terminals cxtStack = w.kind :: kinds) (valStack : ValueStack) :
    Consumes (value_action f) ⟨cxtStack, valStack⟩ w (verdict (read f cxtStack [w] valStack)).1
        (verdict (read f cxtStack [w] valStack)).2 ∧
      Linear (read f cxtStack [w] valStack).cxtStack ∧
      terminals (read f cxtStack [w] valStack).cxtStack = kinds ∧
      (kinds = [] → (read f cxtStack [w] valStack).cxtStack = []) ∧
      ∀ ts, read f (read f cxtStack [w] valStack).cxtStack ts
        (read f cxtStack [w] valStack).valStack = read f cxtStack (w :: ts) valStack := by
  obtain ⟨rest, values, hread, hrest, hlin', hgo⟩ := read_of_terminals_cons f hlin h valStack
  obtain ⟨hlin'', hterm, hnil⟩ := terminals_read_nil f hlin' (push_value w values)
  rw [hgo w []]
  refine ⟨?_, hlin'', hterm.trans hrest, fun hk => hnil (hrest.trans hk), fun ts => ?_⟩
  · have hsettles := settles_read f cxtStack valStack
    rw [hread] at hsettles
    exact consumes_iff.mpr ⟨.ok (), _, doConsumes_iff.mpr
      ⟨_, hsettles, .accept rfl (settles_read f rest (push_value w values))⟩, rfl⟩
  · rw [read_read, hgo]

/-- A token of another kind: it is refused, and the actions before the terminal
have run. -/
theorem consumes_mismatch {cxtStack : ContextStack ι} {w : Token} {kind : Kind}
    {kinds : List Kind} (hlin : Linear cxtStack) (h : terminals cxtStack = kind :: kinds)
    (hne : w.kind ≠ kind) (valStack : ValueStack) :
    Consumes (value_action f) ⟨cxtStack, valStack⟩ w (.Error (.UnexpectedT [kind] w))
      (read f cxtStack [] valStack) := by
  obtain ⟨rest, values, hread, -, -, -⟩ := read_of_terminals_cons f hlin h valStack
  have hsettles := settles_read f cxtStack valStack
  rw [hread] at hsettles ⊢
  exact consumes_iff.mpr ⟨.error (.UnexpectedT [kind] w), _, doConsumes_iff.mpr
    ⟨_, hsettles, .unexpected rest values hne.symm⟩, rfl⟩

theorem verdict_incomplete {u : ParseState ι} (h : terminals u.cxtStack ≠ []) :
    verdict u = (.Incomplete, u) := by
  have hpos : u.cxtStack.length > 0 := by
    refine List.length_pos_iff.mpr ?_
    rintro hnil
    exact h (by rw [hnil]; rfl)
  rw [verdict, if_pos hpos]

theorem verdict_final {u : ParseState ι} (h : u.cxtStack = []) :
    Verdict u.valStack (verdict u).1 (verdict u).2 := by
  obtain ⟨cxtStack, _ | ⟨value, _ | ⟨value', valStack⟩⟩⟩ := u <;> obtain rfl := h
  · exact .invalid
  · exact .complete value
  · exact .internal (by simp)

theorem Verdict.cxtStack_eq {valStack : ValueStack} {r : ParseResult} {s : ParseState ι}
    (h : Verdict valStack r s) : s.cxtStack = [] := by
  rcases h <;> rfl

/-! ## Whole inputs -/

/-- As long as terminals are left, every matching token is answered `Incomplete`. -/
theorem parses_incomplete {cxtStack : ContextStack ι} {w : Token} {ts : List Token}
    {kind : Kind} {kinds : List Kind} (hlin : Linear cxtStack)
    (h : terminals cxtStack = (w :: ts).map Token.kind ++ kind :: kinds) (valStack : ValueStack) :
    Parses (value_action f) ⟨cxtStack, valStack⟩ (w :: ts)
      (List.replicate (ts.length + 1) .Incomplete) (read f cxtStack (w :: ts) valStack) ∧
    Linear (read f cxtStack (w :: ts) valStack).cxtStack ∧
    terminals (read f cxtStack (w :: ts) valStack).cxtStack = kind :: kinds := by
  induction ts generalizing w cxtStack valStack with
  | nil =>
    obtain ⟨hcall, hlin', hterm, -, -⟩ := consumes_match f hlin h valStack
    rw [verdict_incomplete (by rw [hterm]; simp)] at hcall
    exact ⟨(Responds.nil _).cons hcall, hlin', hterm⟩
  | cons w' ts ih =>
    obtain ⟨hcall, hlin', hterm, -, hgo⟩ := consumes_match f hlin h valStack
    rw [verdict_incomplete (by rw [hterm]; simp)] at hcall
    -- the rest is read from where `w` has left off, which is reading it all
    have hrec := ih hlin' hterm (read f cxtStack [w] valStack).valStack
    rw [hgo] at hrec
    exact ⟨hrec.1.cons hcall, hrec.2⟩

/-- A token for every terminal: all are answered `Incomplete` but the last, which
has the verdict on what the reading leaves. -/
theorem parses_complete {cxtStack : ContextStack ι} {w : Token} {ts : List Token}
    (hlin : Linear cxtStack) (h : terminals cxtStack = (w :: ts).map Token.kind)
    (valStack : ValueStack) :
    ∃ last s', Verdict (read f cxtStack (w :: ts) valStack).valStack last s' ∧
      Parses (value_action f) ⟨cxtStack, valStack⟩ (w :: ts)
        (List.replicate ts.length .Incomplete ++ [last]) s' := by
  induction ts generalizing w cxtStack valStack with
  | nil =>
    obtain ⟨hcall, -, -, hend, -⟩ := consumes_match f hlin h valStack
    exact ⟨_, _, verdict_final (hend rfl), (Responds.nil _).cons hcall⟩
  | cons w' ts ih =>
    obtain ⟨hcall, hlin', hterm, -, hgo⟩ := consumes_match f hlin h valStack
    rw [verdict_incomplete (by rw [hterm]; simp)] at hcall
    obtain ⟨last, s', hverdict, hrest⟩ := ih hlin' hterm (read f cxtStack [w] valStack).valStack
    rw [hgo] at hverdict
    exact ⟨last, s', hverdict, hrest.cons hcall⟩

/-- Where a reading stops there is no action on top. -/
theorem read_stop (cxtStack : ContextStack ι) (ts : List Token) (valStack : ValueStack) :
    read f (read f cxtStack ts valStack).cxtStack [] (read f cxtStack ts valStack).valStack =
      read f cxtStack ts valStack := by
  induction cxtStack generalizing ts valStack with
  | nil => rfl
  | cons context cxtStack ih =>
    rcases context with ⟨name, action⟩ | kind | nonTerm
    · exact ih ts (f action valStack)
    · rcases ts with _ | ⟨t, ts⟩
      · rfl
      · exact ih ts (push_value t valStack)
    · rfl

/-- The parser driver is the reading of its context stack. For every stack of
terminals and actions with at least one terminal, every value stack and every
input: a token for each terminal gives `Incomplete` up to the last one and then
the verdict on the values the reading leaves, and every further token is trailing
input; a first token of the wrong kind is `UnexpectedT` with the kind that was
expected, and leaves the reading where it is; an input that is too short is
`Incomplete` throughout. -/
theorem consume_stack {cxtStack : ContextStack ι} (hlin : Linear cxtStack)
    (hne : terminals cxtStack ≠ []) (valStack : ValueStack) :
    (∀ ts extra, ts.map Token.kind = terminals cxtStack →
      ∃ last s', Verdict (read f cxtStack ts valStack).valStack last s' ∧
        Parses (value_action f) ⟨cxtStack, valStack⟩ (ts ++ extra)
          (List.replicate (ts.length - 1) .Incomplete ++ last ::
            List.replicate extra.length (.Error .TrailingInput)) s') ∧
    (∀ ts w kind kinds, terminals cxtStack = ts.map Token.kind ++ kind :: kinds →
      w.kind ≠ kind →
        Linear (read f cxtStack ts valStack).cxtStack ∧
        terminals (read f cxtStack ts valStack).cxtStack = kind :: kinds ∧
        Parses (value_action f) ⟨cxtStack, valStack⟩ (ts ++ [w])
          (List.replicate ts.length .Incomplete ++ [.Error (.UnexpectedT [kind] w)])
          (read f cxtStack ts valStack)) ∧
    (∀ ts kind kinds, terminals cxtStack = ts.map Token.kind ++ kind :: kinds → ts ≠ [] →
      Parses (value_action f) ⟨cxtStack, valStack⟩ ts (List.replicate ts.length .Incomplete)
        (read f cxtStack ts valStack)) := by
  refine ⟨?_, ?_, ?_⟩
  · intro ts extra h
    obtain ⟨w, ts, rfl⟩ : ∃ w ts', ts = w :: ts' := by
      rcases ts with _ | ⟨w, ts⟩
      · exact absurd h.symm hne
      · exact ⟨w, ts, rfl⟩
    obtain ⟨last, s', hverdict, hparse⟩ := parses_complete f hlin h.symm valStack
    have htrail : Parses (value_action f) s' extra
        (List.replicate extra.length (.Error .TrailingInput)) s' := by
      obtain ⟨cxtStack', valStack'⟩ := s'
      obtain rfl : cxtStack' = [] := hverdict.cxtStack_eq
      exact parses_empty valStack' extra
    refine ⟨last, s', hverdict, ?_⟩
    have happend := hparse.append htrail
    rwa [List.append_assoc, List.singleton_append] at happend
  · intro ts w kind kinds h hkind
    -- a wrong first token meets the stack as it was given, with actions on top;
    -- a later one meets a stopped reading
    rcases ts with _ | ⟨w', ts⟩
    · obtain ⟨hlin', hterm, -⟩ := terminals_read_nil f hlin valStack
      exact ⟨hlin', hterm.trans h,
        (Responds.nil _).cons (consumes_mismatch f hlin h hkind valStack)⟩
    · obtain ⟨hparse, hlin', hterm⟩ := parses_incomplete f hlin h valStack
      have hcall := consumes_mismatch f hlin' hterm hkind
        (read f cxtStack (w' :: ts) valStack).valStack
      rw [read_stop] at hcall
      exact ⟨hlin', hterm, hparse.append ((Responds.nil _).cons hcall)⟩
  · intro ts kind kinds h hts
    rcases ts with _ | ⟨w, ts⟩
    · exact absurd rfl hts
    · exact (parses_incomplete f hlin h valStack).1

end ContextStack

/-- An action that makes an array of the two topmost values. -/
def pairing (_action : Unit) : ValueStack → ValueStack
  | y :: x :: valStack => .array [x, y] :: valStack
  | valStack => valStack

/-- A number and a text, made into an array by the action behind them. -/
theorem consume_stack_pair :
    Parses (value_action pairing)
      ⟨[.TerminalSymbol .Uint, .TerminalSymbol .Tstr, .Action "pair" ()], []⟩
      [.Uint 1, .Tstr [0x61], .Break]
      [.Incomplete, .Complete (.array [.uint ⟨⟨1⟩⟩, .tstr [0x61]]), .Error .TrailingInput]
      ⟨[], []⟩ := by
  have hlin : Linear [.TerminalSymbol .Uint, .TerminalSymbol .Tstr, .Action "pair" ()] := by
    simp [Linear]
  obtain ⟨last, s', hverdict, hparse⟩ :=
    (consume_stack pairing hlin (by decide) []).1 [.Uint 1, .Tstr [0x61]] [.Break] rfl
  obtain ⟨rfl, rfl⟩ : last = .Complete (.array [.uint ⟨⟨1⟩⟩, .tstr [0x61]]) ∧ s' = ⟨[], []⟩ := by
    rcases hverdict with _ | _ | h
    · exact ⟨rfl, rfl⟩
    · exact absurd h (by decide)
  exact hparse

end GlviCbor
