/-
**Streams of items**: an incremental machine that starts over after every
answer, against a batch decoder applied again and again.

Nothing here is about a particular program. `replies` is what a batch decoder
says to a whole input when every item is answered at its last symbol: it is
computed item by item, and knows nothing of states between two symbols.
`Lexes` is the step law of a running machine against such a decoder, and
`Lexes.responds` what it is for: on every input, symbol by symbol, the machine says
what the decoder says.
-/
import GlviCbor.Lib.Machine

set_option autoImplicit false

namespace Machine

/-! ## Batch decoders of one item -/

/-- A decoder of the item in front, from each of several places. An answer comes
with the place to go on from, and takes at least one symbol. -/
structure ItemDecoder (σ ι ρ : Type*) where
  decode : σ → List ι → Option (ρ × σ) × List ι
  shorter : ∀ s bs a rest, decode s bs = (some a, rest) → rest.length < bs.length

section Stream

variable {σ ι ρ : Type*}

/-- What is said at each symbol of an input: the answer of an item at its last
symbol, and nothing at every other one. -/
def ItemDecoder.replies (d : ItemDecoder σ ι ρ) (s : σ) (bs : List ι) : List (Option ρ) :=
  match h : d.decode s bs with
  | (none, _) => List.replicate bs.length none
  | (some (r, s'), rest) =>
    have := d.shorter s bs _ _ h
    List.replicate (bs.length - rest.length - 1) none ++ some r :: d.replies s' rest
termination_by bs.length

variable {d : ItemDecoder σ ι ρ}

theorem ItemDecoder.replies_of_none {s : σ} {bs rest : List ι} (h : d.decode s bs = (none, rest)) :
    d.replies s bs = List.replicate bs.length none := by
  unfold ItemDecoder.replies
  split
  · rfl
  · next heq =>
    rw [h] at heq
    simp at heq

theorem ItemDecoder.replies_of_some {s s' : σ} {bs rest : List ι} {r : ρ}
    (h : d.decode s bs = (some (r, s'), rest)) :
    d.replies s bs =
      List.replicate (bs.length - rest.length - 1) none ++ some r :: d.replies s' rest := by
  rw [ItemDecoder.replies]
  split
  · next heq =>
    rw [h] at heq
    simp at heq
  · next heq =>
    rw [h] at heq
    simp only [Prod.mk.injEq, Option.some.injEq] at heq
    obtain ⟨⟨rfl, rfl⟩, rfl⟩ := heq
    rfl

/-! ## Machines that go on after an answer -/

/-- The step law between a running machine `R` and an item decoder. A symbol hands
over to the decoder of the next place and is answered by nothing, or it ends the item,
and the machine goes on from the place the decoder names. `say` puts an answer into the
words of the machine, and `at_place` tells which of its states stand for a place. -/
structure Lexes {τ ο : Type*} (R : τ → ι → ο → τ → Prop) (d : ItemDecoder σ ι ρ)
    (say : Option ρ → ο) (at_place : τ → σ → Prop) : Prop where
  step : ∀ t s b, at_place t s → ∃ o t' s', R t b (say o) t' ∧ at_place t' s' ∧
    ((o = none ∧ ∀ bs, d.decode s (b :: bs) = d.decode s' bs) ∨
      ∃ r, o = some r ∧ ∀ bs, d.decode s (b :: bs) = (some (r, s'), bs))

section Lexes

variable {τ ο : Type*} {R : τ → ι → ο → τ → Prop} {say : Option ρ → ο} {at_place : τ → σ → Prop}

/-- One item is one segment of the run: nothing up to its last symbol, the answer
there, and the machine at the place the decoder names. -/
theorem Lexes.item (H : Lexes R d say at_place) {s' : σ} {r : ρ} {rest : List ι} (bs : List ι) :
    ∀ t s, at_place t s → d.decode s bs = (some (r, s'), rest) →
      ∃ seg t', bs = seg ++ rest ∧ at_place t' s' ∧
        Responds R t seg (List.replicate (seg.length - 1) (say none) ++ [say (some r)]) t' := by
  induction bs with
  | nil =>
    intro t s _ hdec
    have hlt := d.shorter s [] _ _ hdec
    simp at hlt
  | cons b bs ih =>
    intro t s hts hdec
    obtain ⟨o, t', s₁, hR, hts', ⟨rfl, hmore⟩ | ⟨r₁, rfl, hstop⟩⟩ := H.step t s b hts
    · rw [hmore bs] at hdec
      obtain ⟨seg, u, rfl, hu, hseg⟩ := ih t' s₁ hts' hdec
      refine ⟨b :: seg, u, rfl, hu, ?_⟩
      -- the answer is at the end of `seg`, so that is not empty
      have hne : seg.length ≠ 0 := by
        intro h0
        rw [List.length_eq_zero_iff] at h0
        subst h0
        simp at hseg
      have hlen : (b :: seg).length - 1 = (seg.length - 1) + 1 := by
        rw [List.length_cons]
        omega
      rw [hlen, List.replicate_succ, List.cons_append]
      exact hseg.cons hR
    · rw [hstop bs] at hdec
      simp only [Prod.mk.injEq, Option.some.injEq] at hdec
      obtain ⟨⟨rfl, rfl⟩, rfl⟩ := hdec
      exact ⟨[b], t', rfl, hts', (Responds.nil t').cons hR⟩

/-- An unfinished item is answered by nothing; and if there is any of it, the state at
the end is one that a step without an answer leads to. -/
theorem Lexes.unfinished (H : Lexes R d say at_place) {rest : List ι} (bs : List ι) :
    ∀ t s, at_place t s → d.decode s bs = (none, rest) →
      ∃ t', Responds R t bs (List.replicate bs.length (say none)) t' ∧
        (bs ≠ [] → ∃ t₀ s₀ b, at_place t₀ s₀ ∧ R t₀ b (say none) t') := by
  induction bs with
  | nil =>
    intro t s _ _
    exact ⟨t, .nil t, fun h => absurd rfl h⟩
  | cons b bs ih =>
    intro t s hts hdec
    obtain ⟨o, t', s₁, hR, hts', ⟨rfl, hmore⟩ | ⟨r₁, rfl, hstop⟩⟩ := H.step t s b hts
    · rw [hmore bs] at hdec
      obtain ⟨u, hrest, hlast⟩ := ih t' s₁ hts' hdec
      refine ⟨u, ?_, fun _ => ?_⟩
      · rw [List.length_cons, List.replicate_succ]
        exact hrest.cons hR
      · by_cases hbs : bs = []
        · subst hbs
          obtain ⟨-, rfl⟩ := responds_nil.mp hrest
          exact ⟨t, s, b, hts, hR⟩
        · exact hlast hbs
    · rw [hstop bs] at hdec
      simp at hdec

/-- The machine says the replies of the decoder, on every input. -/
theorem Lexes.responds (H : Lexes R d say at_place) (bs : List ι) :
    ∀ t s, at_place t s → ∃ t', Responds R t bs ((d.replies s bs).map say) t' := by
  induction hn : bs.length using Nat.strongRecOn generalizing bs with
  | ind n ih =>
    intro t s hts
    rcases hdec : d.decode s bs with ⟨_ | ⟨r, s'⟩, rest⟩
    · obtain ⟨t', hquiet, -⟩ := H.unfinished bs t s hts hdec
      rw [ItemDecoder.replies_of_none hdec, List.map_replicate]
      exact ⟨t', hquiet⟩
    · have hlt := d.shorter s bs _ _ hdec
      obtain ⟨seg, t', rfl, hts', hseg⟩ := H.item bs t s hts hdec
      obtain ⟨u, hrest⟩ := ih rest.length (by omega) rest rfl t' s' hts'
      refine ⟨u, ?_⟩
      have hlen : (seg ++ rest).length - rest.length - 1 = seg.length - 1 := by
        rw [List.length_append]
        omega
      rw [ItemDecoder.replies_of_some hdec, hlen, List.map_append, List.map_replicate,
        List.map_cons, List.append_cons]
      exact hseg.append hrest

end Lexes

end Stream

end Machine
