/-
The **incremental machine** layer: consumers that read their input one symbol
at a time.

Nothing here is about a particular program. A machine is a step function
`σ → ι → Option (Outcome σ ρ)`: reading one symbol either asks for more input
from a new state, stops with an answer, or crashes (`none`). What the file
offers is the eight facts every such consumer is verified with:

* `feedChunks_eq_feed` -- cutting the input into chunks changes nothing;
* `Decodes.feed_eq` -- a machine whose step law matches a family of batch
  decoders, one for each state, computes those decoders;
* `Run.forall_iff` -- along a run, a property of every step is equivalent to a
  guard on every step as soon as it is so for one step under an invariant the
  guard preserves;
* `Run.forall_of_invariant`, `Run.foldl_invariant`, `Run.length_le_of_variant` -- what
  one step keeps of the state, of a summary of the steps before it, or takes from a
  measure, a run keeps or takes;
* `Responds.of_map_eq` -- what a machine cannot see in its input makes no difference to
  where it ends;
* `trace_eq_iff` -- two step functions take the same steps as long as they agree on the
  steps taken;
* `Responds.of_feed` -- one stopped feed is one segment of the run of the
  machine that starts over after every answer.
-/
import Mathlib.Data.List.Basic

set_option autoImplicit false

namespace Machine

/-! ## Feeding a machine until it stops -/

/-- What reading one symbol does: go on from a state, or stop with an answer. -/
inductive Outcome (σ ρ : Type*) where
  | more (state : σ)
  | stop (answer : ρ)

section Feed

variable {σ ι ρ : Type*}

/-- The answer of an outcome; `none` when more input is needed. -/
def Outcome.answer : Outcome σ ρ → Option ρ
  | .more _ => none
  | .stop r => some r

/-- Reads symbols until the machine stops or the input ends; the second
component is the input it left unread. -/
def feed (step : σ → ι → Option (Outcome σ ρ)) : σ → List ι → Option (Outcome σ ρ × List ι)
  | s, [] => some (.more s, [])
  | s, b :: bs =>
    match step s b with
    | none => none
    | some (.more s') => feed step s' bs
    | some (.stop r) => some (.stop r, bs)

/-- Reads a chunked input, handing the state on from chunk to chunk. -/
def feedChunks (step : σ → ι → Option (Outcome σ ρ)) :
    σ → List (List ι) → Option (Outcome σ ρ × List ι)
  | s, [] => some (.more s, [])
  | s, c :: cs =>
    match feed step s c with
    | none => none
    | some (.more s', _) => feedChunks step s' cs
    | some (.stop r, rest) => some (.stop r, rest ++ cs.flatten)

variable {step : σ → ι → Option (Outcome σ ρ)}

@[simp] theorem feed_nil (s : σ) : feed step s [] = some (.more s, []) := rfl

theorem feed_cons_more {s s' : σ} {b : ι} (bs : List ι) (h : step s b = some (.more s')) :
    feed step s (b :: bs) = feed step s' bs := by
  rw [feed, h]

theorem feed_cons_stop {s : σ} {b : ι} {r : ρ} (bs : List ι) (h : step s b = some (.stop r)) :
    feed step s (b :: bs) = some (.stop r, bs) := by
  rw [feed, h]

theorem feed_cons_none {s : σ} {b : ι} (bs : List ι) (h : step s b = none) :
    feed step s (b :: bs) = none := by
  rw [feed, h]

/-- Reading two inputs one after the other: the second is looked at only when
the first ran out, and is left unread otherwise. -/
theorem feed_append (s : σ) (xs ys : List ι) :
    feed step s (xs ++ ys) =
      match feed step s xs with
      | none => none
      | some (.more s', _) => feed step s' ys
      | some (.stop r, rest) => some (.stop r, rest ++ ys) := by
  induction xs generalizing s with
  | nil => rfl
  | cons b bs ih =>
    -- both sides look at `step s b` first, and only `more` goes on to the rest
    rw [List.cons_append]
    rcases h : step s b with _ | (s' | r)
    · rw [feed_cons_none _ h, feed_cons_none _ h]
    · rw [feed_cons_more _ h, feed_cons_more _ h, ih]
    · rw [feed_cons_stop _ h, feed_cons_stop _ h]

/-- Cutting the input into chunks, empty ones included, changes neither the
outcome nor what is left unread. -/
theorem feedChunks_eq_feed (s : σ) (cs : List (List ι)) :
    feedChunks step s cs = feed step s cs.flatten := by
  induction cs generalizing s with
  | nil => rfl
  | cons c cs ih =>
    rw [List.flatten_cons, feed_append, feedChunks]
    rcases feed step s c with _ | ⟨_ | _, rest⟩
    · rfl
    · exact ih _
    · rfl

end Feed

/-! ## Machines that compute a batch decoder -/

section Decodes

variable {σ ι ρ : Type*}

/-- The step law between a machine and a family `res` of batch decoders, one
for each state that satisfies `Inv`: a symbol moves to a state whose decoder
does the rest, or stops with the decoder's own answer. `none` is the decoder's
"more input needed". -/
structure Decodes (step : σ → ι → Option (Outcome σ ρ)) (Inv : σ → Prop)
    (res : σ → List ι → Option ρ × List ι) : Prop where
  nil : ∀ s, Inv s → res s [] = (none, [])
  cons : ∀ s b, Inv s →
    (∃ s', step s b = some (.more s') ∧ Inv s' ∧ ∀ bs, res s (b :: bs) = res s' bs) ∨
    (∃ r, step s b = some (.stop r) ∧ ∀ bs, res s (b :: bs) = (some r, bs))

/-- A machine under the step law never crashes, keeps its invariant and gives
the answer of the batch decoder, leaving the same input unread. -/
theorem Decodes.feed_eq {step : σ → ι → Option (Outcome σ ρ)} {Inv : σ → Prop}
    {res : σ → List ι → Option ρ × List ι} (H : Decodes step Inv res) (bs : List ι) :
    ∀ s, Inv s → ∃ o, feed step s bs = some (o, (res s bs).2) ∧
      o.answer = (res s bs).1 ∧ ∀ s', o = .more s' → Inv s' := by
  induction bs with
  | nil =>
    intro s hs
    refine ⟨.more s, ?_, ?_, ?_⟩
    · rw [feed_nil, H.nil s hs]
    · rw [H.nil s hs]
      rfl
    · rintro s' ⟨⟩
      exact hs
  | cons b bs ih =>
    intro s hs
    rcases H.cons s b hs with ⟨s', h, hs', hres⟩ | ⟨r, h, hres⟩
    · -- machine and decoder both move to `s'`, so the hypothesis there is the goal
      rw [feed_cons_more bs h, hres bs]
      exact ih s' hs'
    · rw [feed_cons_stop bs h, hres bs]
      exact ⟨.stop r, rfl, rfl, fun _ h' => nomatch h'⟩

/-- Where the decoder has an answer, the machine stops with it. -/
theorem Decodes.feed_of_answer {step : σ → ι → Option (Outcome σ ρ)} {Inv : σ → Prop}
    {res : σ → List ι → Option ρ × List ι} (H : Decodes step Inv res) {s : σ} (hs : Inv s)
    {bs rest : List ι} {r : ρ} (h : res s bs = (some r, rest)) :
    feed step s bs = some (.stop r, rest) := by
  obtain ⟨o, hfeed, hans, -⟩ := H.feed_eq bs s hs
  rw [h] at hfeed hans
  rcases o with s' | r'
  · exact nomatch hans
  · obtain rfl := Option.some.inj hans
    exact hfeed

end Decodes

/-! ## Runs, step by step -/

/-- One step of a run: the state before it, what was read, what came out, and
the state after it. -/
structure Step (σ ι ο : Type*) where
  before : σ
  input : ι
  output : ο
  after : σ

section Run

variable {σ ι ο : Type*}

/-- A run of a step relation, as the list of its steps. -/
inductive Run (R : σ → ι → ο → σ → Prop) : σ → List (Step σ ι ο) → σ → Prop
  | nil (s : σ) : Run R s [] s
  | cons {s s' t : σ} {i : ι} {o : ο} {steps : List (Step σ ι ο)} :
      R s i o s' → Run R s' steps t → Run R s (⟨s, i, o, s'⟩ :: steps) t

/-- The machine answers the inputs `is` by the outputs `os` and ends in `t`. -/
def Responds (R : σ → ι → ο → σ → Prop) (s : σ) (is : List ι) (os : List ο) (t : σ) : Prop :=
  ∃ steps, Run R s steps t ∧ steps.map Step.input = is ∧ steps.map Step.output = os

variable {R : σ → ι → ο → σ → Prop}

/-- The guard rule. If under an invariant one step is good exactly when it is
guarded, and a guarded step keeps the invariant, then a run has only good steps
exactly when it has only guarded ones. The first unguarded step refutes both
sides, so nothing has to be known about the steps after it. -/
theorem Run.forall_iff (Inv : σ → Prop) {good guard : Step σ ι ο → Prop}
    (hgood : ∀ st, R st.before st.input st.output st.after → Inv st.before →
      (good st ↔ guard st))
    (hinv : ∀ st, R st.before st.input st.output st.after → Inv st.before → guard st →
      Inv st.after)
    {s t : σ} {steps : List (Step σ ι ο)} (h : Run R s steps t) (hs : Inv s) :
    (∀ st ∈ steps, good st) ↔ ∀ st ∈ steps, guard st := by
  induction h with
  | nil => simp
  | @cons s s' t i o steps hR _ ih =>
    rw [List.forall_mem_cons, List.forall_mem_cons, hgood ⟨s, i, o, s'⟩ hR hs]
    -- the rest is compared under the guard of this step, which is what carries
    -- the invariant to `s'`
    exact and_congr_right fun hg => ih (hinv ⟨s, i, o, s'⟩ hR hs hg)

/-- The invariant rule. Where every step from a state in `Inv` is good and stays in
it, a run from there has only good steps. -/
theorem Run.forall_of_invariant (Inv : σ → Prop) {good : Step σ ι ο → Prop}
    (hstep : ∀ st, R st.before st.input st.output st.after → Inv st.before →
      good st ∧ Inv st.after)
    {s t : σ} {steps : List (Step σ ι ο)} (h : Run R s steps t) (hs : Inv s) :
    ∀ st ∈ steps, good st := by
  have hiff := h.forall_iff Inv (fun st hR hI => iff_true_intro (hstep st hR hI).1)
    (fun st hR hI _ => (hstep st hR hI).2) hs
  exact hiff.mpr fun _ _ => trivial

/-- What comes after a step of a run is a run from where that step led. -/
theorem Run.after {st : Step σ ι ο} {before after : List (Step σ ι ο)} {s t : σ}
    (h : Run R s (before ++ st :: after) t) : Run R st.after after t := by
  induction before generalizing s with
  | nil =>
    rcases h with _ | ⟨-, hrest⟩
    exact hrest
  | cons st' before ih =>
    rcases h with _ | ⟨-, hrest⟩
    exact ih hrest

/-- The invariant rule with a history variable. `h` is a summary of the steps taken
so far, updated by `note`; what one step keeps of summary and state, a run keeps. -/
theorem Run.foldl_invariant {η : Type*} (note : η → Step σ ι ο → η) (Inv : η → σ → Prop)
    (hstep : ∀ h st, R st.before st.input st.output st.after → Inv h st.before →
      Inv (note h st) st.after)
    {h : η} {s t : σ} {steps : List (Step σ ι ο)} (hrun : Run R s steps t) (hs : Inv h s) :
    Inv (steps.foldl note h) t := by
  induction hrun generalizing h with
  | nil => exact hs
  | @cons s s' t i o steps hR _ ih => exact ih (hstep h ⟨s, i, o, s'⟩ hR hs)

/-- What comes before a point of a run is a run, and so is what comes after. -/
theorem Run.split {xs ys : List (Step σ ι ο)} {s t : σ} (h : Run R s (xs ++ ys) t) :
    ∃ u, Run R s xs u ∧ Run R u ys t := by
  induction xs generalizing s with
  | nil => exact ⟨s, .nil s, h⟩
  | cons st xs ih =>
    rcases h with _ | ⟨hR, hrest⟩
    obtain ⟨u, hxs, hys⟩ := ih hrest
    exact ⟨u, .cons hR hxs, hys⟩

/-- An invariant kept by every guarded step holds at the end of a guarded run. -/
theorem Run.invariant (Inv : σ → Prop) {guard : Step σ ι ο → Prop}
    (hinv : ∀ st, R st.before st.input st.output st.after → Inv st.before → guard st →
      Inv st.after)
    {s t : σ} {steps : List (Step σ ι ο)} (h : Run R s steps t) (hs : Inv s)
    (hguard : ∀ st ∈ steps, guard st) : Inv t := by
  induction h with
  | nil => exact hs
  | @cons s s' t i o steps hR _ ih =>
    rw [List.forall_mem_cons] at hguard
    exact ih (hinv ⟨s, i, o, s'⟩ hR hs hguard.1) hguard.2

/-- The variant rule. Where every step decreases a measure, a run is no longer than the
measure went down. -/
theorem Run.length_le_of_variant (Inv : σ → Prop) (measure : σ → ℕ) {guard : Step σ ι ο → Prop}
    (hstep : ∀ st, R st.before st.input st.output st.after → Inv st.before → guard st →
      Inv st.after ∧ measure st.after < measure st.before)
    {s t : σ} {steps : List (Step σ ι ο)} (h : Run R s steps t) (hs : Inv s)
    (hguard : ∀ st ∈ steps, guard st) : measure t + steps.length ≤ measure s := by
  induction h with
  | nil => simp
  | @cons s s' t i o steps hR _ ih =>
    rw [List.forall_mem_cons] at hguard
    obtain ⟨hs', hlt⟩ := hstep ⟨s, i, o, s'⟩ hR hs hguard.1
    have hrest := ih hs' hguard.2
    rw [List.length_cons]
    dsimp only at hlt
    omega

@[simp] theorem responds_nil {s t : σ} {os : List ο} :
    Responds R s [] os t ↔ os = [] ∧ s = t := by
  constructor
  · rintro ⟨steps, hrun, hin, rfl⟩
    rw [List.map_eq_nil_iff] at hin
    subst hin
    rcases hrun
    exact ⟨rfl, rfl⟩
  · rintro ⟨rfl, rfl⟩
    exact ⟨[], .nil s, rfl, rfl⟩

theorem responds_cons {s t : σ} {i : ι} {is : List ι} {os : List ο} :
    Responds R s (i :: is) os t ↔
      ∃ o s' os', R s i o s' ∧ Responds R s' is os' t ∧ os = o :: os' := by
  constructor
  · rintro ⟨steps, hrun, hin, rfl⟩
    rcases hrun with _ | ⟨hR, hrest⟩
    · simp at hin
    · simp only [List.map_cons, List.cons.injEq] at hin
      obtain ⟨rfl, hin⟩ := hin
      exact ⟨_, _, _, hR, ⟨_, hrest, hin, rfl⟩, rfl⟩
  · rintro ⟨o, s', os', hR, ⟨steps, hrun, rfl, rfl⟩, rfl⟩
    exact ⟨_, .cons hR hrun, rfl, rfl⟩

theorem Responds.nil (s : σ) : Responds R s [] [] s := responds_nil.mpr ⟨rfl, rfl⟩

theorem Responds.cons {s s' t : σ} {i : ι} {o : ο} {is : List ι} {os : List ο}
    (hR : R s i o s') (h : Responds R s' is os t) : Responds R s (i :: is) (o :: os) t :=
  responds_cons.mpr ⟨o, s', os, hR, h, rfl⟩

theorem responds_append {s u : σ} {xs ys : List ι} {os : List ο} :
    Responds R s (xs ++ ys) os u ↔
      ∃ t os₁ os₂, Responds R s xs os₁ t ∧ Responds R t ys os₂ u ∧ os = os₁ ++ os₂ := by
  induction xs generalizing s os with
  | nil => simp
  | cons x xs ih =>
    rw [List.cons_append, responds_cons]
    constructor
    · rintro ⟨o, s', os', hR, hrest, rfl⟩
      obtain ⟨t, os₁, os₂, h₁, h₂, rfl⟩ := ih.mp hrest
      exact ⟨t, o :: os₁, os₂, h₁.cons hR, h₂, rfl⟩
    · rintro ⟨t, os₁, os₂, h₁, h₂, rfl⟩
      obtain ⟨o, s', os', hR, hxs, rfl⟩ := responds_cons.mp h₁
      exact ⟨o, s', os' ++ os₂, hR, ih.mpr ⟨t, os', os₂, hxs, h₂, rfl⟩, rfl⟩

theorem Responds.append {s t u : σ} {xs ys : List ι} {os₁ os₂ : List ο}
    (h₁ : Responds R s xs os₁ t) (h₂ : Responds R t ys os₂ u) :
    Responds R s (xs ++ ys) (os₁ ++ os₂) u :=
  responds_append.mpr ⟨t, os₁, os₂, h₁, h₂, rfl⟩

/-- A machine whose steps are determined answers an input in one way. -/
theorem Responds.unique
    (hfun : ∀ t i o₁ t₁ o₂ t₂, R t i o₁ t₁ → R t i o₂ t₂ → o₁ = o₂ ∧ t₁ = t₂)
    {is : List ι} {t t₁ t₂ : σ} {os₁ os₂ : List ο} (h₁ : Responds R t is os₁ t₁)
    (h₂ : Responds R t is os₂ t₂) : os₁ = os₂ ∧ t₁ = t₂ := by
  induction is generalizing t os₁ os₂ with
  | nil =>
    obtain ⟨rfl, rfl⟩ := responds_nil.mp h₁
    obtain ⟨rfl, rfl⟩ := responds_nil.mp h₂
    exact ⟨rfl, rfl⟩
  | cons i is ih =>
    obtain ⟨o, u, os, hR, hrest, rfl⟩ := responds_cons.mp h₁
    obtain ⟨o', u', os', hR', hrest', rfl⟩ := responds_cons.mp h₂
    obtain ⟨rfl, rfl⟩ := hfun t i o u o' u' hR hR'
    obtain ⟨rfl, rfl⟩ := ih hrest hrest'
    exact ⟨rfl, rfl⟩

/-- The two-run rule. A machine that sees of each symbol no more than `see` lets
through ends in the same state on two inputs that look the same, and its outputs look
the same. -/
theorem Responds.of_map_eq {κ μ : Type*} {see : ι → κ} {view : ο → μ}
    (hstep : ∀ s i i' o t, see i = see i' → R s i o t → ∃ o', R s i' o' t ∧ view o' = view o)
    {is is' : List ι} {s t : σ} {os : List ο} (h : is.map see = is'.map see)
    (hR : Responds R s is os t) :
    ∃ os', Responds R s is' os' t ∧ os'.map view = os.map view := by
  induction is generalizing is' s os with
  | nil =>
    obtain rfl := List.map_eq_nil_iff.mp h.symm
    exact ⟨os, hR, rfl⟩
  | cons i is ih =>
    obtain ⟨i', is', rfl, hi, hrest⟩ := List.map_eq_cons_iff.mp h.symm
    obtain ⟨o, u, os, hfirst, hthen, rfl⟩ := responds_cons.mp hR
    obtain ⟨o', hfirst', ho⟩ := hstep s i i' o u hi.symm hfirst
    obtain ⟨os', hthen', hos⟩ := ih hrest.symm hthen
    exact ⟨o' :: os', hthen'.cons hfirst', by rw [List.map_cons, List.map_cons, ho, hos]⟩

end Run

/-! ## The run of a step function -/

section Trace

variable {σ ι ο : Type*}

/-- The steps a step function takes on an input, up to the first symbol it has
no step for. -/
def trace (step : σ → ι → Option (ο × σ)) : σ → List ι → List (Step σ ι ο)
  | _, [] => []
  | s, i :: is =>
    match step s i with
    -- stuck: what is left of the input is not read
    | none => []
    | some (o, s') => ⟨s, i, o, s'⟩ :: trace step s' is

variable {step : σ → ι → Option (ο × σ)}

theorem trace_cons {s s' : σ} {i : ι} {o : ο} (is : List ι) (h : step s i = some (o, s')) :
    trace step s (i :: is) = ⟨s, i, o, s'⟩ :: trace step s' is := by
  rw [trace, h]

/-- The trace of a step function is a run of its graph. -/
theorem run_trace (step : σ → ι → Option (ο × σ)) (s : σ) (is : List ι) :
    ∃ t, Run (fun s i o s' => step s i = some (o, s')) s (trace step s is) t := by
  induction is generalizing s with
  | nil => exact ⟨s, .nil s⟩
  | cons i is ih =>
    rcases h : step s i with _ | ⟨o, s'⟩
    · -- no step, so the run is over as well
      rw [trace, h]
      exact ⟨s, .nil s⟩
    · rw [trace_cons is h]
      obtain ⟨t, ht⟩ := ih s'
      exact ⟨t, .cons h ht⟩

/-- A step function that never runs out of steps under an invariant it keeps
reads its whole input. -/
theorem length_trace (Inv : σ → Prop)
    (hstep : ∀ s i, Inv s → ∃ o s', step s i = some (o, s') ∧ Inv s') (s : σ) (is : List ι)
    (hs : Inv s) : (trace step s is).length = is.length := by
  induction is generalizing s with
  | nil => rfl
  | cons i is ih =>
    obtain ⟨o, s', h, hs'⟩ := hstep s i hs
    rw [trace_cons is h, List.length_cons, List.length_cons, ih s' hs']

/-- Two step functions have the same trace exactly if they agree at every step of it.
`agree` is a test for that on states in `Inv`, which the first function never gets
stuck in. -/
theorem trace_eq_iff {step' : σ → ι → Option (ο × σ)} (Inv : σ → Prop) (agree : σ → ι → Prop)
    (hstep : ∀ s i, Inv s → ∃ o s', step s i = some (o, s') ∧ Inv s')
    (hagree : ∀ s i, Inv s → (step' s i = step s i ↔ agree s i)) (s : σ) (is : List ι)
    (hs : Inv s) :
    trace step' s is = trace step s is ↔ ∀ st ∈ trace step s is, agree st.before st.input := by
  induction is generalizing s with
  | nil => simp [trace]
  | cons i is ih =>
    obtain ⟨o, s', h, hs'⟩ := hstep s i hs
    rw [trace_cons is h, List.forall_mem_cons, ← ih s' hs', ← hagree s i hs, h]
    rcases h' : step' s i with _ | ⟨o', s''⟩
    · simp [trace, h']
    · rw [trace_cons is h']
      simp only [List.cons.injEq, Step.mk.injEq, Option.some.injEq, Prod.mk.injEq, true_and]
      -- equal heads lead to the same state, where the rest of both traces starts
      constructor
      · rintro ⟨⟨rfl, rfl⟩, hrest⟩
        exact ⟨⟨rfl, rfl⟩, hrest⟩
      · rintro ⟨⟨rfl, rfl⟩, hrest⟩
        exact ⟨⟨rfl, rfl⟩, hrest⟩

end Trace

/-! ## Starting over after every answer -/

/-- One stopped feed that used up its input is one segment of the run of a
machine that starts over: it says `quiet` at every symbol but the last, gives
the answer there, and is back in `t₀`. The states of the fed machine sit in
those of the running one by `emb`. -/
theorem Responds.of_feed {σ τ ι ρ ο : Type*} {step : σ → ι → Option (Outcome σ ρ)}
    {R : τ → ι → ο → τ → Prop} (emb : σ → τ) {quiet o : ο} {t₀ : τ} {r : ρ}
    (hmore : ∀ s b s', step s b = some (.more s') → R (emb s) b quiet (emb s'))
    (hstop : ∀ s b, step s b = some (.stop r) → R (emb s) b o t₀)
    (bs : List ι) (s : σ) (h : feed step s bs = some (.stop r, [])) :
    Responds R (emb s) bs (List.replicate (bs.length - 1) quiet ++ [o]) t₀ := by
  induction bs generalizing s with
  | nil => simp at h
  | cons b bs ih =>
    rcases hb : step s b with _ | (s' | r')
    · simp [feed_cons_none bs hb] at h
    · rw [feed_cons_more bs hb] at h
      -- the feed went on, so there is a symbol left for it to stop at
      have hne : bs ≠ [] := by
        rintro rfl
        simp at h
      have hlen : bs.length = bs.length - 1 + 1 := by
        have := List.length_pos_iff.mpr hne
        omega
      rw [List.length_cons, Nat.add_sub_cancel, hlen, List.replicate_succ, List.cons_append]
      exact (ih s' h).cons (hmore s b s' hb)
    · -- it stops here and has used up the input, so this symbol was the last one
      rw [feed_cons_stop bs hb] at h
      simp only [Option.some.injEq, Prod.mk.injEq, Outcome.stop.injEq] at h
      obtain ⟨rfl, rfl⟩ := h
      exact (Responds.nil t₀).cons (hstop s b hb)

end Machine
