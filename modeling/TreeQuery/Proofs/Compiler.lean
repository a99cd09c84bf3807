import TreeQuery.Compiler
import TreeQuery.Proofs.Arrangement.Candidate
import TreeQuery.Proofs.Pattern.Alternation
import TreeQuery.Proofs.Placement.Refusal

/-!
The stages of compiling a query: its predicates are placed, its tokens are laid out, and the
distinct alternatives of the candidates are joined. Each stage has causes of its own to refuse the
query.
-/

set_option autoImplicit false
set_option relaxedAutoImplicit false

namespace TreeQuery

inductive CompileError.RefusesQuery : CompileError → Prop
  | unknownIdentifier (i : Identifier) : RefusesQuery (.unknownIdentifier i)
  | unanchoredPredicate (p : Predicate) : RefusesQuery (.unanchoredPredicate p)
  | inconsistentOrdering (cs : List OrderConstraint) : RefusesQuery (.inconsistentOrdering cs)
  | candidateLimitExceeded (limit : Nat) : RefusesQuery (.candidateLimitExceeded limit)

private theorem Placement.refusesQuery_of_ofQuery {q : Query} {e : CompileError}
    (h : ofQuery q = .error e) : e.RefusesQuery := by
  obtain ⟨before, s, after, -, -, hmisplaced⟩ := ofQuery_eq_error_iff_first.1 h
  cases hmisplaced with
  | ownerless => exact .unanchoredPredicate _
  | bare => exact .unanchoredPredicate _
  | unknown i => exact .unknownIdentifier i

namespace Query

variable {o : Options} {q : Query} {e : CompileError}

def alternatives (q : Query) (pl : Placement) (ls : List Arrangement.Layout) : List String :=
  ((Arrangement.candidates ls).toList.map (Pattern.candidateText q pl)).eraseDups

theorem compile_eq (o : Options) (q : Query) :
    q.compile o = (do
      let pl ← Placement.ofQuery q
      let ls ← q.layouts
      let pattern ← Pattern.Alternation.bounded o.candidateLimit (q.alternatives pl ls)
      return o.confine pattern) := by
  simp only [compile, Pattern.ofCandidates_eq, alternatives]

theorem refusesQuery_of_compile (h : q.compile o = .error e) : e.RefusesQuery := by
  rw [compile_eq] at h
  rcases Sequence.bind_eq_error h with hplaced | ⟨pl, -, h⟩
  · exact Placement.refusesQuery_of_ofQuery hplaced
  rcases Sequence.bind_eq_error h with hlaid | ⟨ls, -, h⟩
  · obtain ⟨cs, rfl⟩ := (not_admits_of_layouts_eq_error hlaid).1
    exact .inconsistentOrdering cs
  rcases Sequence.bind_eq_error h with hbounded | ⟨pattern, -, h⟩
  · obtain ⟨l, -, -, rfl⟩ := Pattern.Alternation.bounded_eq_error_iff.1 hbounded
    exact .candidateLimitExceeded l
  · cases h

end Query

end TreeQuery
