import TreeQuery.Query.Basic
import TreeQuery.Catalog

/-!
What can prevent a query or a plan from being compiled.
-/

set_option autoImplicit false
set_option relaxedAutoImplicit false

namespace TreeQuery

/-- The causes for which a query or a plan is refused. -/
inductive CompileError where
  | duplicateToken (i : Identifier)
  | emptyQuery
  | unknownIdentifier (i : Identifier)
  | unanchoredPredicate (p : Predicate)
  | inconsistentOrdering (constraints : List OrderConstraint)
  | candidateLimitExceeded (limit : Nat)
  | emptyPlan
  | unknownPlanEntry (entry : Handle)
  deriving DecidableEq

def CompileError.message : CompileError → String
  | duplicateToken i => "Multiple tokens share the identifier " ++ i.text
  | emptyQuery => "Query contains no tokens"
  | unknownIdentifier i =>
    "Predicate references identifier " ++ i.text ++ ", which is not part of the query"
  | unanchoredPredicate _ => "Free-floating predicate does not name the token it constrains"
  | inconsistentOrdering cs =>
    "Order constraints contradict each other: " ++ ", ".intercalate (cs.map OrderConstraint.text)
  | candidateLimitExceeded limit =>
    "Query expands to more than " ++ toString limit ++ " alternatives"
  | emptyPlan => "Execution plan contains no query"
  | unknownPlanEntry h => "Execution plan refers to unknown entry " ++ h.text

end TreeQuery
