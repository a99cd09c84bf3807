import TreeQuery.Proofs.Arrangement.Gap
import TreeQuery.Proofs.Pattern.Attachment

/-!
Translating a query keeps its meaning. The tokens of a query at given positions satisfy it if and
only if the order in which the positions read the tokens is that of a candidate and the
alternative of this candidate matches at the positions.
-/

set_option autoImplicit false
set_option relaxedAutoImplicit false

namespace TreeQuery

open scoped List

section Reading

variable {order : List Identifier} {position : Identifier → Nat} {cs : List OrderConstraint}

def Query.readBy (q : Query) (position : Identifier → Nat) : List Identifier :=
  q.identifiers.mergeSort fun i j => position i ≤ position j

private theorem Query.readBy_perm (q : Query) (position : Identifier → Nat) :
    q.readBy position ~ q.identifiers :=
  List.mergeSort_perm _ _

private theorem Query.pairwise_readBy {q : Query}
    (hinj : ∀ i ∈ q.identifiers, ∀ j ∈ q.identifiers, position i = position j → i = j) :
    (q.readBy position).Pairwise fun i j => position i < position j := by
  have hsorted : (q.readBy position).Pairwise fun i j => position i ≤ position j := by
    have hmerge : (q.readBy position).Pairwise fun i j => decide (position i ≤ position j) = true :=
      List.pairwise_mergeSort (by simp only [decide_eq_true_eq]; omega)
        (by simp only [Bool.or_eq_true, decide_eq_true_eq]; omega) q.identifiers
    simpa only [decide_eq_true_eq] using hmerge
  have hperm := q.readBy_perm position
  have hnodup := hperm.nodup_iff.2 q.nodup_identifiers
  refine (hsorted.and hnodup).imp_of_mem ?_
  intro i j hi hj ⟨hle, hne⟩
  have hpos : position i ≠ position j := fun he =>
    hne (hinj i (hperm.subset hi) j (hperm.subset hj) he)
  omega

private theorem nodup_of_pairwise_position (h : order.Pairwise fun i j => position i < position j) :
    order.Nodup :=
  h.imp fun hij he => by
    rw [he] at hij
    omega

private theorem idxOf_lt_iff_position_lt (h : order.Pairwise fun i j => position i < position j)
    {i j : Identifier} (hi : i ∈ order) (hj : j ∈ order) :
    order.idxOf i < order.idxOf j ↔ position i < position j := by
  have hforward {i j : Identifier} (hj : j ∈ order) (hlt : order.idxOf i < order.idxOf j) :
      position i < position j :=
    List.pairwise_iff_forall_sublist.1 h
      ((Sequence.idxOf_lt_idxOf_iff (nodup_of_pairwise_position h) hj).1 hlt)
  refine ⟨hforward hj, fun hpos => ?_⟩
  rcases Nat.lt_trichotomy (order.idxOf i) (order.idxOf j) with hlt | heq | hgt
  · exact hlt
  · rw [(List.idxOf_inj hi).1 heq] at hpos
    omega
  · have := hforward hi hgt
    omega

private theorem allHold_of_holds (h : order.Pairwise fun i j => position i < position j)
    (hmem : ∀ k ∈ cs, k.before ∈ order ∧ k.after ∈ order) (hall : ∀ k ∈ cs, k.Holds position) :
    OrderConstraint.AllHold order cs := by
  intro k hk
  obtain ⟨hb, ha⟩ := hmem k hk
  have hlt := idxOf_lt_iff_position_lt h hb ha
  have hholds := hall k hk
  rw [OrderConstraint.Holds] at hholds ⊢
  split
  · rename_i hkind
    rw [hkind] at hholds
    exact hlt.2 hholds
  · rename_i hkind
    rw [hkind] at hholds
    dsimp only at hholds ⊢
    have hidx : order.idxOf k.before < order.idxOf k.after := hlt.2 (by omega)
    by_contra hne
    have hbound : order.idxOf k.before + 1 < order.length := by
      have := List.idxOf_lt_length_of_mem ha
      omega
    have hnext := (nodup_of_pairwise_position h).idxOf_getElem _ hbound
    have hin := List.getElem_mem hbound
    have hafter := (idxOf_lt_iff_position_lt h hb hin).1 (by omega)
    have hbefore := (idxOf_lt_iff_position_lt h hin ha).1 (by omega)
    omega

open OrderConstraint (Adjoins AllHold)
open Pattern (GapsSpan Spans)

/-- If gaps are adjacent exactly where the constraints adjoin, then in an admitted order that runs
by position the gaps are kept if and only if the constraints hold at the positions. -/
theorem gapsSpan_iff_holds (h : order.Pairwise fun i j => position i < position j)
    (hmem : ∀ k ∈ cs, k.before ∈ order ∧ k.after ∈ order) (hall : AllHold order cs)
    {gaps : List Gap}
    (hgaps : List.Forall₂ (fun g e => g = Gap.adjacent ↔ Adjoins cs e.1 e.2) gaps
      (order.zip order.tail)) :
    GapsSpan position gaps (order.zip order.tail) ↔ ∀ k ∈ cs, k.Holds position := by
  have hnodup := nodup_of_pairwise_position h
  have hpair {a b : Identifier} (hab : [a, b] <:+: order) : position a < position b :=
    List.pairwise_iff_forall_sublist.1 h hab.sublist
  have hspan : GapsSpan position gaps (order.zip order.tail) ↔
      ∀ e ∈ order.zip order.tail, Adjoins cs e.1 e.2 → position e.2 = position e.1 + 1 := by
    refine Sequence.forall₂_iff_forall_mem hgaps ?_
    intro g e he hg
    have hlt := hpair (Sequence.mem_zip_tail_iff.1 he)
    cases g with
    | adjacent => exact ⟨fun hnext _ => hnext, fun hnext => hnext (hg.1 rfl)⟩
    | unbounded => exact iff_of_true hlt fun hadj => absurd (hg.2 hadj) (by simp)
  rw [hspan]
  constructor
  · intro hadj k hk
    obtain ⟨hb, ha⟩ := hmem k hk
    have hidx := hall k hk
    rw [OrderConstraint.Holds] at hidx ⊢
    split
    · rename_i hkind
      rw [hkind] at hidx
      exact (idxOf_lt_iff_position_lt h hb ha).1 hidx
    · rename_i hkind
      rw [hkind] at hidx
      have hin := (Sequence.idxOf_eq_idxOf_succ_iff hnodup ha).1 hidx
      refine hadj (k.before, k.after) (Sequence.mem_zip_tail_iff.2 hin) ?_
      rw [Adjoins, ← hkind]
      exact hk
  · intro hholds e _ hadj
    exact hholds _ hadj

end Reading

namespace Query

open Arrangement Pattern

variable {q : Query} {pl : Placement} {ls : List Layout} {m : Interpretation Nat}
  {position : Identifier → Nat}

private theorem matchesAt_candidate_iff (hself : ∀ d ∈ q.dependencies, d.governor ≠ d.dependent)
    (hpl : Placement.ofQuery q = .ok pl) (hls : q.layouts = .ok ls) {c : Candidate}
    (hc : c ∈ (candidates ls).toList)
    (hsorted : c.tokens.Pairwise fun i j => position i < position j) :
    (Alternative.ofCandidate q pl c).MatchesAt m (c.tokens.map position) ↔
      q.SatisfiedAt m position := by
  have hgaps := forall₂_gaps hls hc
  obtain ⟨hperm, hall⟩ := admits_of_mem_candidates hls hc
  have hlength : c.gaps.length = c.tokens.length - 1 := by
    rw [hgaps.length_eq, List.length_zip, List.length_tail]
    omega
  rw [matchesAt_ofCandidate_iff hpl hself hperm hlength,
    gapsSpan_iff_holds hsorted (ends_mem_of_perm hperm) hall hgaps]
  constructor
  · intro ⟨hconstraints, hdependencies, hpredicates⟩
    exact ⟨hconstraints, hdependencies, hpredicates⟩
  · intro ⟨hconstraints, hdependencies, hpredicates⟩
    exact ⟨hconstraints, hdependencies, hpredicates⟩

private theorem exists_candidate_of_satisfiedAt (hls : q.layouts = .ok ls)
    (hinj : ∀ i ∈ q.identifiers, ∀ j ∈ q.identifiers, position i = position j → i = j)
    (h : q.SatisfiedAt m position) :
    ∃ c ∈ (candidates ls).toList, c.tokens = q.readBy position := by
  have hperm := q.readBy_perm position
  have hadmits : q.Admits (q.readBy position) :=
    ⟨hperm, allHold_of_holds (pairwise_readBy hinj) (ends_mem_of_perm hperm) h.constraints⟩
  obtain ⟨comps, hcomps, rfl, -⟩ := decomposes_of_layouts_eq_ok hls
  exact List.mem_map.1 ((mem_tokens_candidates_iff hcomps).2 hadmits)

/-- Tokens at different positions of a sentence satisfy a query if and only if the positions read
them in the order of a candidate whose alternative matches there. -/
theorem satisfiedAt_iff_alternative_matches (q : Query) (pl : Placement) (ls : List Layout)
    (hself : ∀ d ∈ q.dependencies, d.governor ≠ d.dependent)
    (hpl : Placement.ofQuery q = .ok pl) (hls : q.layouts = .ok ls)
    (m : Interpretation Nat) (position : Identifier → Nat)
    (hinj : ∀ i ∈ q.identifiers, ∀ j ∈ q.identifiers, position i = position j → i = j) :
    q.SatisfiedAt m position ↔
      ∃ c ∈ (candidates ls).toList, c.tokens = q.readBy position ∧
        (Alternative.ofCandidate q pl c).MatchesAt m (c.tokens.map position) := by
  have hsorted {c : Candidate} (htokens : c.tokens = q.readBy position) :
      c.tokens.Pairwise fun i j => position i < position j :=
    htokens ▸ pairwise_readBy hinj
  constructor
  · intro h
    obtain ⟨c, hc, htokens⟩ := exists_candidate_of_satisfiedAt hls hinj h
    exact ⟨c, hc, htokens, (matchesAt_candidate_iff hself hpl hls hc (hsorted htokens)).2 h⟩
  · intro ⟨c, hc, htokens, hmatch⟩
    exact (matchesAt_candidate_iff hself hpl hls hc (hsorted htokens)).1 hmatch

/-- Two adjoined tokens, of which the first depends on the second and differs from it. -/
def related : Query where
  tokens := [⟨⟨0⟩, some (.presence ⟨none, "lemma"⟩)⟩]
  dependencies := [⟨⟨0⟩, ⟨1⟩⟩]
  predicates := [.comparison .differ (.attr ⟨some ⟨0⟩, "word"⟩) (.attr ⟨some ⟨1⟩, "word"⟩)]
  constraints := [⟨⟨1⟩, ⟨0⟩, .immediate⟩]

theorem related_alternative_matches :
    ∃ pl ls, Placement.ofQuery related = .ok pl ∧ related.layouts = .ok ls ∧
      ∃ c ∈ (candidates ls).toList, c.tokens = related.readBy (fun i => 8 - i.index) ∧
        (Alternative.ofCandidate related pl c).MatchesAt
          ⟨fun place name => place = 8 ∧ name = "lemma", fun r x y =>
            r = .equal ∧ x = .attr 7 "dephead" ∧ y = .attr 8 "ref" ∨
              r = .differ ∧ x = .attr 8 "word" ∧ y = .attr 7 "word"⟩
          (c.tokens.map fun i => 8 - i.index) := by
  have hplaced : (Placement.ofQuery related).toOption.isSome = true := by decide +kernel
  have hlaid : related.layouts.toOption.isSome = true := by decide +kernel
  cases hpl : Placement.ofQuery related with
  | error e =>
    rw [hpl] at hplaced
    cases hplaced
  | ok pl =>
    cases hls : related.layouts with
    | error e =>
      rw [hls] at hlaid
      cases hlaid
    | ok ls =>
      refine ⟨pl, ls, rfl, rfl, ?_⟩
      refine (satisfiedAt_iff_alternative_matches related pl ls (by decide) hpl hls _
        (fun i => 8 - i.index) (by decide)).1 ⟨by decide, ?_, ?_, ?_⟩
      · simp [related, Dependency.Holds]
      · simp [related, Predicate.Holds, Operand.reading]
      · simp [related, Predicate.Holds]

end Query

end TreeQuery
