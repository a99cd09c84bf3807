import Mathlib.Data.Finset.Basic
import TreeQuery.Proofs.Placement

/-!
Whether a predicate is declared on a token or floats makes no difference to its place. If some tokens
of a query give up their predicates and these float instead, raised onto their tokens, the same
predicates are placed in another order. Each token then has the same conjuncts and the deferred
predicates are the same, up to their order. If the tokens that give up their predicates are the first
ones, the order does not change either.
-/

set_option autoImplicit false
set_option relaxedAutoImplicit false

namespace TreeQuery

open scoped List

namespace Predicate

private theorem conjuncts_junction (l r : Predicate) :
    (junction .conj l r).conjuncts = l.conjuncts ++ r.conjuncts := by
  simp [conjuncts, operands]

private theorem conjuncts_prepend (p : Predicate) (rest : Option Predicate) :
    (prepend .conj p rest).conjuncts = p.conjuncts ++ (rest.map conjuncts).getD [] := by
  cases rest with
  | none => simp [prepend]
  | some r => simp [prepend, conjuncts_junction]

private theorem conjuncts_gather (p : Predicate) (rest : Option Predicate) :
    (gather .conj p rest).conjuncts =
      p.conjuncts.flatMap (fun q => q.normalize.conjuncts) ++ (rest.map conjuncts).getD [] := by
  -- a predicate that is no conjunction is normalised as a whole
  have hsingle {p : Predicate} {rest : Option Predicate} (hp : p.conjuncts = [p])
      (hgather : gather .conj p rest = prepend .conj p.normalize rest) :
      (gather .conj p rest).conjuncts =
        p.conjuncts.flatMap (fun q => q.normalize.conjuncts) ++ (rest.map conjuncts).getD [] := by
    rw [hgather, conjuncts_prepend, hp, List.flatMap_singleton]
  induction p generalizing rest with
  | junction c l r ihl ihr =>
    cases c with
    | conj =>
      rw [gather, if_pos rfl, ihl, Option.map_some, Option.getD_some, ihr, conjuncts_junction,
        List.flatMap_append, List.append_assoc]
    | disj => exact hsingle rfl rfl
  | negation p ih => exact hsingle rfl rfl
  | presence a => exact hsingle rfl rfl
  | absence a => exact hsingle rfl rfl
  | comparison r x y => exact hsingle rfl rfl

private theorem conjuncts_normalize (p : Predicate) :
    p.normalize.conjuncts = p.conjuncts.flatMap fun q => q.normalize.conjuncts := by
  rw [normalize, conjuncts_gather]
  simp

private theorem conjuncts_nest (p : Predicate) (l : List Predicate) :
    (nest .conj p l).conjuncts = (p :: l).flatMap conjuncts := by
  induction l generalizing p with
  | nil => simp [nest]
  | cons q l ih => rw [nest, conjuncts_junction, ih, ← List.flatMap_cons]

private theorem rel_all?_of_perm {l l' : List Predicate} (h : l ~ l') :
    Option.Rel (fun p p' => p.conjuncts ~ p'.conjuncts)
      ((all? l).map normalize) ((all? l').map normalize) := by
  cases l with
  | nil =>
    rw [h.symm.eq_nil]
    exact .none
  | cons p l =>
    cases l' with
    | nil => exact absurd h.eq_nil (by simp)
    | cons p' l' =>
      apply Option.Rel.some
      rw [conjuncts_normalize, conjuncts_normalize, conjuncts_nest, conjuncts_nest]
      exact (h.flatMap_right _).flatMap_right _

end Predicate

namespace Placement

/-- Two placements that differ in the order of the conjuncts of a token and of the deferred
predicates only. -/
structure Rearranged (pl pl' : Placement) : Prop where
  merged : ∀ i, Option.Rel (fun p p' => p.conjuncts ~ p'.conjuncts)
    (pl.predicate? i) (pl'.predicate? i)
  deferred : pl.deferred ~ pl'.deferred

private theorem rearranged_ofSites {known : List Identifier} {sites sites' : List Site}
    (h : sites ~ sites') : (ofSites known sites).Rearranged (ofSites known sites') where
  merged i := by
    rw [predicate?_ofSites, predicate?_ofSites]
    split
    · exact Predicate.rel_all?_of_perm (h.filterMap _)
    · exact .none
  deferred := h.filterMap _

end Placement

namespace Query

/-- The sites of the predicates of a query in the order in which they are placed, or why they have
none. -/
def outcomes (q : Query) : List (Except CompileError Site) :=
  q.assertions.map (Site.ofAssertion q.identifiers)

/-- The query in which the tokens at the given places of the list declare nothing. What they declared
floats, raised onto them, after the other floating predicates. -/
def float (places : Finset Nat) (q : Query) : Query where
  tokens := q.tokens.zipIdx.map fun e =>
    if e.2 ∈ places then { e.1 with predicate := none } else e.1
  dependencies := q.dependencies
  predicates := q.predicates ++ (q.tokens.zipIdx.filter fun e => e.2 ∈ places).filterMap fun e =>
    e.1.predicate.map (Predicate.raise e.1.identifier)
  constraints := q.constraints

variable {q : Query} {places : Finset Nat}

private theorem identifiers_float (q : Query) (places : Finset Nat) :
    (q.float places).identifiers = q.identifiers := by
  have htokens : (q.float places).tokens.map Token.identifier = q.tokens.map Token.identifier := by
    have hkept (e : Token × Nat) :
        (if e.2 ∈ places then { e.1 with predicate := none } else e.1).identifier =
          e.1.identifier := by
      split <;> rfl
    simp only [float, List.map_map, Function.comp_def, hkept]
    rw [← Function.comp_def, ← List.map_map, List.zipIdx_map_fst]
  rw [identifiers, htokens]
  rfl

def outcome? (known : List Identifier) (t : Token) : Option (Except CompileError Site) :=
  t.predicate.map fun p => Site.ofAssertion known ⟨false, p.raise t.identifier⟩

private theorem outcomes_eq (q : Query) : q.outcomes =
    q.predicates.map (fun p => Site.ofAssertion q.identifiers ⟨true, p⟩) ++
      q.tokens.filterMap (outcome? q.identifiers) := by
  simp only [outcomes, assertions, List.map_append, List.map_map, List.map_filterMap,
    Option.map_map]
  rfl

private theorem ofAssertion_raise_floating (known : List Identifier) (p : Predicate)
    (i : Identifier) :
    Site.ofAssertion known ⟨true, p.raise i⟩ = Site.ofAssertion known ⟨false, p.raise i⟩ := by
  simp only [Site.ofAssertion, p.hasLocal_raise i, Bool.and_false]

private theorem outcomes_float (q : Query) (places : Finset Nat) : (q.float places).outcomes =
    q.predicates.map (fun p => Site.ofAssertion q.identifiers ⟨true, p⟩) ++
      ((q.tokens.zipIdx.filter fun e => e.2 ∈ places) ++
        q.tokens.zipIdx.filter fun e => !decide (e.2 ∈ places)).filterMap
          fun e => outcome? q.identifiers e.1 := by
  have hmoved (e : Token × Nat) : ((e.1.predicate.map (Predicate.raise e.1.identifier)).map
      fun p => Site.ofAssertion q.identifiers ⟨true, p⟩) = outcome? q.identifiers e.1 := by
    simp only [outcome?, Option.map_map, Function.comp_def, ofAssertion_raise_floating]
  have hkept (e : Token × Nat) : outcome? q.identifiers
      (if e.2 ∈ places then { e.1 with predicate := none } else e.1) =
        if (!decide (e.2 ∈ places)) = true then outcome? q.identifiers e.1 else none := by
    by_cases he : e.2 ∈ places
    · simp [he, outcome?]
    · simp [he]
  rw [outcomes_eq, identifiers_float]
  simp only [float, List.map_append, List.map_filterMap, hmoved, List.filterMap_map,
    Function.comp_def, hkept, List.filterMap_append, List.append_assoc]
  rw [← List.filterMap_filter]

private theorem outcomes_eq_zipIdx (q : Query) : q.outcomes =
    q.predicates.map (fun p => Site.ofAssertion q.identifiers ⟨true, p⟩) ++
      q.tokens.zipIdx.filterMap fun e => outcome? q.identifiers e.1 := by
  have htokens : (q.tokens.zipIdx.filterMap fun e => outcome? q.identifiers e.1) =
      q.tokens.filterMap (outcome? q.identifiers) := by
    rw [← Function.comp_def, ← List.filterMap_map, List.zipIdx_map_fst]
  rw [outcomes_eq, htokens]

private theorem outcomes_float_perm (q : Query) (places : Finset Nat) :
    (q.float places).outcomes ~ q.outcomes := by
  rw [outcomes_float, outcomes_eq_zipIdx]
  exact ((List.filter_append_perm _ _).filterMap _).append_left _

private theorem outcomes_float_of_initial (h : ∀ m n, m < n → n ∈ places → m ∈ places) :
    (q.float places).outcomes = q.outcomes := by
  have hfirst : q.tokens.zipIdx.Pairwise fun e e' =>
      decide (e'.2 ∈ places) = true → decide (e.2 ∈ places) = true := by
    refine (Sequence.pairwise_snd_lt_zipIdx q.tokens 0).imp ?_
    intro e e' hlt he'
    exact decide_eq_true (h e.2 e'.2 hlt (of_decide_eq_true he'))
  rw [outcomes_float, outcomes_eq_zipIdx, Sequence.filter_append_filter_not hfirst]

end Query

namespace Placement

variable {q q' : Query}

private theorem ofQuery_eq_outcomes (q : Query) :
    ofQuery q = (q.outcomes.mapM id).map (ofSites q.identifiers) := by
  rw [ofQuery, Query.outcomes, List.mapM_map]
  rfl

private theorem exists_rearranged_of_perm {pl : Placement} (hids : q'.identifiers = q.identifiers)
    (hperm : q.outcomes ~ q'.outcomes) (h : ofQuery q = .ok pl) :
    ∃ pl', ofQuery q' = .ok pl' ∧ pl.Rearranged pl' := by
  rw [ofQuery_eq_outcomes] at h
  obtain ⟨sites, hsites, rfl⟩ := Sequence.map_eq_ok_iff.1 h
  obtain ⟨sites', hsites', hperm'⟩ := Sequence.exists_mapM_eq_ok_of_perm hperm hsites
  refine ⟨ofSites q.identifiers sites', ?_, rearranged_ofSites hperm'⟩
  rw [ofQuery_eq_outcomes, hids, hsites']
  rfl

/-- It does not matter whether what some tokens declare floats instead. The query is refused in both
forms or in neither, and the placements differ in the order only. If these are the first tokens, the
placement or the refusal is the same. -/
theorem ofQuery_float_rearranged (q : Query) (places : Finset Nat) :
    ((∃ pl, ofQuery q = .ok pl) ↔ ∃ pl, ofQuery (q.float places) = .ok pl) ∧
      (∀ pl pl', ofQuery q = .ok pl → ofQuery (q.float places) = .ok pl' → pl.Rearranged pl') ∧
      ((∀ m n, m < n → n ∈ places → m ∈ places) → ofQuery (q.float places) = ofQuery q) := by
  have hids := q.identifiers_float places
  have hperm := q.outcomes_float_perm places
  refine ⟨⟨?_, ?_⟩, ?_, ?_⟩
  · intro ⟨pl, h⟩
    obtain ⟨pl', h', -⟩ := exists_rearranged_of_perm hids hperm.symm h
    exact ⟨pl', h'⟩
  · intro ⟨pl, h⟩
    obtain ⟨pl', h', -⟩ := exists_rearranged_of_perm hids.symm hperm h
    exact ⟨pl', h'⟩
  · intro pl pl' h h'
    obtain ⟨pl'', h'', hrearranged⟩ := exists_rearranged_of_perm hids hperm.symm h
    rw [h'] at h''
    cases h''
    exact hrearranged
  · intro hinitial
    rw [ofQuery_eq_outcomes, ofQuery_eq_outcomes, hids, Query.outcomes_float_of_initial hinitial]

-- The second token declares a condition on the first, which comes first once it floats.
example :
    let q : Query := {
      tokens := [⟨⟨0⟩, some (.presence ⟨none, "lemma"⟩)⟩, ⟨⟨1⟩, some (.presence ⟨some ⟨0⟩, "pos"⟩)⟩]
      dependencies := []
      predicates := []
      constraints := [] }
    ((ofQuery q).toOption.bind (·.predicate? ⟨0⟩)).map Predicate.conjuncts =
        some [.presence ⟨none, "lemma"⟩, .presence ⟨none, "pos"⟩] ∧
      ((ofQuery (q.float {1})).toOption.bind (·.predicate? ⟨0⟩)).map Predicate.conjuncts =
        some [.presence ⟨none, "pos"⟩, .presence ⟨none, "lemma"⟩] := by
  decide +kernel

end Placement

end TreeQuery
