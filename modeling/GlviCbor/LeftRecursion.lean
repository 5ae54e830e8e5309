/-
When does a call of `Parser::consume` return?

`do_flush` and `do_consume` call themselves again after every action, and an action
may push further ones. Here the actions are those of a predictive parser: each pushes
the contexts of its own right-hand side, and does what it likes with the values. Then
the running of actions is `Expand.expand` on the context stack, a symbol being what
stops it, and `consume_returns_iff` is the theorem on left recursion: the calls return,
all of them, if and only if no action comes up again in front of itself, at once or
through others, behind nothing but actions that vanish.
-/
import GlviCbor.Lib.Expand
import GlviCbor.Consume

set_option autoImplicit false

namespace GlviCbor

open Machine Settle Expand StateTransition

section LeftRecursion

variable {ι : Type*} (program : ι → ContextStack ι) (f : ι → ValueStack → ValueStack)

/-- An action that pushes its right-hand side and computes on the values. -/
def grammar_action (action : ι) (s : ParseState ι) : ParseState ι :=
  ⟨program action ++ s.cxtStack, f action s.valStack⟩

/-- What a context is to the running of actions: a symbol stops it. -/
def Context.entry : Context ι → Option ι
  | .Action _ action => some action
  | .TerminalSymbol _ => none
  | .NonTerminalSymbol _ => none

/-- The context stack as `Expand` sees it. -/
def entries (cxtStack : ContextStack ι) : List (Option ι) := cxtStack.map Context.entry

/-- The right-hand sides as `Expand` sees them. -/
def rules (action : ι) : List (Option ι) := entries (program action)

/-- Running the action on top is one expansion. The values take no part in it. -/
theorem respects_entries :
    Respects (pop_action (grammar_action program f)) (expand (rules program))
      (fun s stack => entries s.cxtStack = stack) := by
  rintro ⟨_ | ⟨⟨name, action⟩ | kind | nonTerm, cxtStack⟩, valStack⟩ stack rfl
  · rfl
  · refine ⟨_, rfl, Relation.TransGen.single ?_⟩
    change some (rules program action ++ entries cxtStack) = some _
    exact congrArg some List.map_append.symm
  · rfl
  · rfl

/-- So the parser comes to rest where its stack of entries does. -/
theorem exists_settles_entries_iff (s : ParseState ι) :
    (∃ t, Settles (pop_action (grammar_action program f)) s t) ↔
      ∃ t, Settles (expand (rules program)) (entries s.cxtStack) t := by
  unfold Settles
  rw [← Part.dom_iff_mem, ← Part.dom_iff_mem]
  exact (tr_eval_dom (respects_entries program f) rfl).symm

/-- A flush returns exactly where no chain of front actions from the stack is
infinite. -/
theorem do_flush_returns_iff (s : ParseState ι) :
    (∃ fuel s', do_flush (grammar_action program f) fuel s = some (.ok (), s')) ↔
      ∀ action, Front (rules program) (entries s.cxtStack) action →
        Acc (LeftOf (rules program)) action := by
  rw [← exists_settles_iff, ← exists_settles_entries_iff program f, exists_comm]
  apply exists_congr
  intro s'
  rw [exists_do_flush_iff]
  exact and_iff_right rfl

theorem terminates_iff :
    Terminates (grammar_action program f) ↔ WellFounded (LeftOf (rules program)) := by
  constructor
  · intro hterm
    refine ⟨fun action => ?_⟩
    -- the stack of this action alone
    have hsettles := (exists_settles_entries_iff program f _).mp (hterm ⟨[.Action "" action], []⟩)
    exact (exists_settles_iff _).mp hsettles action (.here action [])
  · intro hwf s
    rw [exists_settles_entries_iff]
    exact forall_exists_settles_iff.mpr hwf _

/-- A call that returns has come to rest first. -/
theorem Consumes.settles {invoke : ι → ParseState ι → ParseState ι} {s s' : ParseState ι}
    {w : Token} {r : ParseResult} (h : Consumes invoke s w r s') :
    ∃ t, Settles (pop_action invoke) s t := by
  obtain ⟨e, u, hdo, -⟩ := consumes_iff.mp h
  obtain ⟨t, ht, -⟩ := doConsumes_iff.mp hdo
  exact ⟨t, ht⟩

/-- The driver and left recursion. For all right-hand sides and all functions on the
values: a flush returns if and only if no chain of actions, each at the front of the
right-hand side of the one before, goes on for ever from the front of the context
stack; all calls of `consume` return, and all inputs have a run, if and only if there
is no such chain at all. -/
theorem consume_returns_iff :
    (∀ s : ParseState ι,
      (∃ fuel s', do_flush (grammar_action program f) fuel s = some (.ok (), s')) ↔
        ∀ action, Front (rules program) (entries s.cxtStack) action →
          Acc (LeftOf (rules program)) action) ∧
    ((∀ s w, ∃ r s', Consumes (grammar_action program f) s w r s') ↔
      WellFounded (LeftOf (rules program))) ∧
    ((∀ s input, ∃ steps t, Run (Consumes (grammar_action program f)) s steps t ∧
      steps.map Step.input = input) ↔ WellFounded (LeftOf (rules program))) := by
  have hcalls : (∀ s w, ∃ r s', Consumes (grammar_action program f) s w r s') ↔
      WellFounded (LeftOf (rules program)) := by
    rw [← terminates_iff program f]
    constructor
    · intro h s
      obtain ⟨r, s', hcall⟩ := h s .Break
      exact hcall.settles
    · intro hterm s w
      exact exists_consumes hterm s w
  refine ⟨do_flush_returns_iff program f, hcalls, ?_, ?_⟩
  · intro h
    apply hcalls.mp
    intro s w
    -- the first call of a run on this one token
    obtain ⟨_ | ⟨st, steps⟩, t, hrun, hinput⟩ := h s [w]
    · cases hinput
    · obtain ⟨rfl, -⟩ := List.cons.inj hinput
      rcases hrun with _ | ⟨hcall, -⟩
      exact ⟨_, _, hcall⟩
  · intro hwf
    exact exists_run ((terminates_iff program f).mpr hwf)

end LeftRecursion

end GlviCbor
