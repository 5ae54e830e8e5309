/-
Deciding the verdict without the values.

`Parser::consume` gives its last verdict by the number of values that are left. Most
actions need a fixed number of values and leave a fixed number, and whether a token
has a value depends on its kind alone (`isSome_make_value`), so that number is known
from the context stack before there is any token: `depth` computes it, as a stack
checker does for the instructions of a stack machine. `completes_iff_depth` says that
this is enough for whole runs, errors included, on a stack that waits for something: an
input is completed if and only if the checker allows one value and the kinds the stack
waits for come up in the input.
-/
import GlviCbor.Recovery

set_option autoImplicit false

namespace GlviCbor

open Machine Greedy

/-- `make_value` has a value for the tokens of this kind. -/
def Kind.has_value : Kind → Bool
  | .Array | .Map | .Tag | .Break => false
  | _ => true

theorem isSome_make_value (t : Token) : (make_value t).isSome = t.kind.has_value := by
  rcases t <;> rfl

section Depth

variable {ι : Type*} (pops pushes : ι → ℕ) (f : ι → ValueStack → ValueStack)

/-- With `pops` values or more there, an action takes that many and leaves `pushes`. -/
def HasArity : Prop :=
  ∀ action valStack, pops action ≤ valStack.length →
    (f action valStack).length + pops action = valStack.length + pushes action

/-- The number of values after the whole stack, from the number before it. There is
none if an action finds too few, or there is a non-terminal. -/
def depth : ContextStack ι → ℕ → Option ℕ
  | [], n => some n
  | .Action _ action :: cxtStack, n =>
    if pops action ≤ n then depth cxtStack (n - pops action + pushes action) else none
  | .TerminalSymbol kind :: cxtStack, n => depth cxtStack (n + kind.has_value.toNat)
  | .NonTerminalSymbol _ :: _, _ => none

theorem length_push_value (t : Token) (valStack : ValueStack) :
    (push_value t valStack).length = valStack.length + t.kind.has_value.toNat := by
  rw [← isSome_make_value, push_value]
  rcases make_value t with _ | value <;> rfl

variable {pops pushes f}

theorem linear_of_depth {cxtStack : ContextStack ι} {n m : ℕ}
    (h : depth pops pushes cxtStack n = some m) : Linear cxtStack := by
  induction cxtStack generalizing n with
  | nil => rintro _ ⟨⟩
  | cons context cxtStack ih =>
    intro nonTerm hmem
    rcases context with ⟨name, action⟩ | kind | nonTerm'
    · unfold depth at h
      split_ifs at h
      rcases List.mem_cons.mp hmem with heq | hmem
      · cases heq
      · exact ih h nonTerm hmem
    · rcases List.mem_cons.mp hmem with heq | hmem
      · cases heq
      · exact ih h nonTerm hmem
    · cases h

/-- The checker is right about a reading that has a token for every terminal, whatever
the tokens hold. -/
theorem length_read (harity : HasArity pops pushes f) {cxtStack : ContextStack ι} {n m : ℕ}
    (h : depth pops pushes cxtStack n = some m) {valStack : ValueStack} (hn : valStack.length = n)
    {ts : List Token} (hts : ts.map Token.kind = terminals cxtStack) :
    (read f cxtStack ts valStack).cxtStack = [] ∧
      (read f cxtStack ts valStack).valStack.length = m := by
  induction cxtStack generalizing n valStack ts with
  | nil =>
    obtain rfl : n = m := Option.some.inj h
    obtain rfl := List.map_eq_nil_iff.mp hts
    exact ⟨rfl, hn⟩
  | cons context cxtStack ih =>
    rcases context with ⟨name, action⟩ | kind | nonTerm
    · unfold depth at h
      split_ifs at h with hpops
      have hlength := harity action valStack (by omega)
      exact ih h (by omega) hts
    · obtain ⟨t, ts, rfl, rfl, hrest⟩ := List.map_eq_cons_iff.mp hts
      apply ih h ?_ hrest
      rw [length_push_value, hn]
    · cases h

/-! ## Whole runs -/

/-- The chosen tokens have the kinds of the terminals that are through. -/
theorem chosen_append_waiting (kinds : List Kind) (input : List Token) :
    (taken Kind.takes kinds input).map Token.kind ++ waiting Kind.takes kinds input = kinds := by
  induction input generalizing kinds with
  | nil => simp
  | cons w input ih =>
    rcases kinds with _ | ⟨kind, kinds⟩
    · simp
    · by_cases h : kind.takes w
      · have hkind : kind = w.kind := of_decide_eq_true h
        rw [taken_of_fits h, waiting_of_fits h, List.map_cons, List.cons_append, ih, hkind]
      · rw [taken_of_not_fits h, waiting_of_not_fits h, ih]

/-- With terminals left over, the reading stops before the end. -/
theorem cxtStack_read_ne_nil {cxtStack : ContextStack ι} {ts : List Token} {kind : Kind}
    {kinds : List Kind} (h : terminals cxtStack = ts.map Token.kind ++ kind :: kinds)
    (valStack : ValueStack) : (read f cxtStack ts valStack).cxtStack ≠ [] := by
  induction cxtStack generalizing ts valStack with
  | nil => rcases ts with _ | ⟨t, ts⟩ <;> cases h
  | cons context cxtStack ih =>
    rcases context with ⟨name, action⟩ | kind' | nonTerm
    · exact ih h (f action valStack)
    · rcases ts with _ | ⟨t, ts⟩
      · exact List.cons_ne_nil _ _
      · obtain ⟨-, hrest⟩ := List.cons.inj h
        exact ih hrest (push_value t valStack)
    · exact List.cons_ne_nil _ _

theorem verdict_complete_iff {u : ParseState ι} :
    (∃ value, (verdict u).1 = .Complete value) ↔ u.cxtStack = [] ∧ u.valStack.length = 1 := by
  obtain ⟨_ | ⟨context, cxtStack⟩, _ | ⟨value, _ | ⟨value', valStack⟩⟩⟩ := u <;>
    simp [verdict, ValueStack.pop]

/-- What the checker decides. Let the actions have fixed arities, let the stack have at
least one terminal, and let the checker come to `m` values for it, from those that are
there. Then, for every run, wherever its errors are and whatever its tokens hold: some
call of it returns `Complete` if and only if `m` is one and the kinds of the terminals
come up in the input, in this order. -/
theorem completes_iff_depth (harity : HasArity pops pushes f) {cxtStack : ContextStack ι}
    {valStack : ValueStack} {m : ℕ}
    (hdepth : depth pops pushes cxtStack valStack.length = some m)
    (hne : terminals cxtStack ≠ []) {t : ParseState ι}
    {steps : List (Step (ParseState ι) Token ParseResult)}
    (hrun : Run (Consumes (value_action f)) ⟨cxtStack, valStack⟩ steps t) :
    (∃ st ∈ steps, st.output.is_complete) ↔
      m = 1 ∧ List.SublistForall₂ (fun kind w => Kind.takes kind w) (terminals cxtStack)
        (steps.map Step.input) := by
  rcases steps with _ | ⟨st, steps⟩
  · -- no call, and a terminal that waits
    refine iff_of_false (by simp) ?_
    rintro ⟨-, hembeds⟩
    rw [← waiting_eq_nil_iff, List.map_nil, waiting_nil_right] at hembeds
    exact hne hembeds
  · have houtcome := (outcome_of_run f (linear_of_depth hdepth) hne hrun (by rintro ⟨⟩)).2
    have hcomplete : (∃ st' ∈ st :: steps, st'.output.is_complete) ↔
        ∃ value, ∃ st' ∈ st :: steps, st'.output = .Complete value := by
      constructor
      · rintro ⟨st', hmem, hst⟩
        rcases hr : st'.output with _ | value | e <;> rw [hr] at hst
        · cases hst
        · exact ⟨value, st', hmem, hr⟩
        · cases hst
      · rintro ⟨value, st', hmem, hr⟩
        exact ⟨st', hmem, by rw [hr]; rfl⟩
    rw [hcomplete, exists_congr houtcome, verdict_complete_iff, ← waiting_eq_nil_iff]
    have hsplit := chosen_append_waiting (terminals cxtStack) ((st :: steps).map Step.input)
    rcases hwaiting : waiting Kind.takes (terminals cxtStack) ((st :: steps).map Step.input) with
      _ | ⟨kind, kinds⟩
    · -- every terminal has its token
      rw [hwaiting, List.append_nil] at hsplit
      obtain ⟨hempty, hlength⟩ := length_read harity hdepth rfl hsplit
      constructor
      · rintro ⟨-, hone⟩
        exact ⟨hlength.symm.trans hone, rfl⟩
      · rintro ⟨hone, -⟩
        exact ⟨hempty, hlength.trans hone⟩
    · rw [hwaiting] at hsplit
      refine iff_of_false ?_ (by rintro ⟨-, ⟨⟩⟩)
      rintro ⟨hempty, -⟩
      exact cxtStack_read_ne_nil hsplit.symm valStack hempty

end Depth

/-- A number and a text, made into one value: the errors in between do no harm. -/
theorem completes_iff_depth_pair :
    (∃ st ∈ pair_steps, st.output.is_complete) ↔
      1 = 1 ∧ List.SublistForall₂ (fun kind w => Kind.takes kind w) [.Uint, .Tstr]
        (pair_steps.map Step.input) := by
  have harity : HasArity (fun _ => 2) (fun _ => 1) pairing := by
    intro action valStack hpops
    rcases valStack with _ | ⟨y, _ | ⟨x, valStack⟩⟩
    · exact absurd hpops (by simp)
    · exact absurd hpops (by simp)
    · rfl
  exact completes_iff_depth harity (m := 1) rfl (by decide) pair_run

end GlviCbor
