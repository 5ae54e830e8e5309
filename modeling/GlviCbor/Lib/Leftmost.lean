/-
**Leftmost readings** of a context-free grammar.

Mathlib's derivations rewrite any nonterminal of a string. A top-down parser works off
a string from the left: it drops a terminal together with the next letter of the word,
and replaces a nonterminal by the output of a rule. `Yields` is that reading, and
`yields_iff_derives` says that it reaches every word the derivations reach. Where no
nonterminal has two rules, there is one word at most (`Yields.unique`).
-/
import Mathlib.Computability.ContextFreeGrammar

set_option autoImplicit false

namespace Leftmost

open ContextFreeGrammar

section Leftmost

variable {T N : Type*} (rules : Finset (ContextFreeRule T N))

/-- The string can be worked off from the left, leaving the word. -/
inductive Yields : List (Symbol T N) → List T → Prop
  | nil : Yields [] []
  | terminal {t : T} {string : List (Symbol T N)} {word : List T} :
      Yields string word → Yields (.terminal t :: string) (t :: word)
  | nonterminal {r : ContextFreeRule T N} {string : List (Symbol T N)} {word : List T} :
      r ∈ rules → Yields (r.output ++ string) word →
      Yields (.nonterminal r.input :: string) word

variable {rules} {g : ContextFreeGrammar T}

/-! ## Leftmost is enough -/

theorem Yields.derives {string : List (Symbol T g.NT)} {word : List T}
    (h : Yields g.rules string word) : g.Derives string (word.map .terminal) := by
  induction h with
  | nil => exact Derives.refl []
  | @terminal t string word _ ih => exact ih.append_left [.terminal t]
  | @nonterminal r string word hr _ ih =>
    exact Produces.trans_derives ⟨r, hr, .head string⟩ ih

/-- A rule applied anywhere can be applied when its place comes to the front. -/
theorem Yields.of_rewrites {r : ContextFreeRule T N} (hr : r ∈ rules)
    {before after : List (Symbol T N)} {word : List T} (h : Yields rules after word)
    (hrewrites : r.Rewrites before after) : Yields rules before word := by
  induction h generalizing before with
  | nil =>
    generalize hnil : ([] : List (Symbol T N)) = after at hrewrites
    rcases hrewrites with string | ⟨x, hrewrites⟩
    · refine .nonterminal hr ?_
      rw [← hnil]
      exact .nil
    · cases hnil
  | @terminal t string word hrest ih =>
    generalize hcons : Symbol.terminal t :: string = after at hrewrites
    rcases hrewrites with string' | ⟨x, hrewrites⟩
    · refine .nonterminal hr ?_
      rw [← hcons]
      exact .terminal hrest
    · obtain ⟨rfl, rfl⟩ := List.cons.inj hcons
      exact .terminal (ih hrewrites)
  | @nonterminal r' string word hr' hrest ih =>
    generalize hcons : Symbol.nonterminal r'.input :: string = after at hrewrites
    rcases hrewrites with string' | ⟨x, hrewrites⟩
    · refine .nonterminal hr ?_
      rw [← hcons]
      exact .nonterminal hr' hrest
    · -- the front is another nonterminal, and its output goes in between
      obtain ⟨rfl, rfl⟩ := List.cons.inj hcons
      exact .nonterminal hr' (ih (hrewrites.append_left r'.output))

theorem yields_word (word : List T) : Yields rules (word.map .terminal) word := by
  induction word with
  | nil => exact .nil
  | cons t word ih => exact .terminal ih

theorem yields_iff_derives {string : List (Symbol T g.NT)} {word : List T} :
    Yields g.rules string word ↔ g.Derives string (word.map .terminal) := by
  constructor
  · exact Yields.derives
  · intro h
    induction h using Relation.ReflTransGen.head_induction_on with
    | refl => exact yields_word word
    | head hproduces _ ih =>
      obtain ⟨r, hr, hrewrites⟩ := hproduces
      exact ih.of_rewrites hr hrewrites

/-- The language of a grammar, read from the left. -/
theorem mem_language_iff_yields (word : List T) :
    word ∈ g.language ↔ Yields g.rules [.nonterminal g.initial] word := by
  rw [mem_language_iff, yields_iff_derives]

/-! ## One rule for each nonterminal -/

/-- Without a choice among rules there is one word. -/
theorem Yields.unique
    (hone : ∀ r ∈ rules, ∀ r' ∈ rules, r.input = r'.input → r = r')
    {string : List (Symbol T N)} {word word' : List T} (h : Yields rules string word)
    (h' : Yields rules string word') : word = word' := by
  induction h generalizing word' with
  | nil =>
    rcases h'
    rfl
  | terminal _ ih =>
    rcases h' with _ | hrest'
    rw [ih hrest']
  | @nonterminal r string word hr _ ih =>
    generalize hcons : Symbol.nonterminal r.input :: string = string' at h'
    rcases h' with _ | _ | @⟨r', string', _, hr', hrest'⟩
    · cases hcons
    · cases hcons
    · obtain ⟨hinput, rfl⟩ := List.cons.inj hcons
      obtain rfl := hone r hr r' hr' (Symbol.nonterminal.inj hinput)
      exact ih hrest'

end Leftmost

end Leftmost
