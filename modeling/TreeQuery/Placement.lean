import TreeQuery.CompileError
import TreeQuery.Predicate

/-!
Placing the predicates of a query. A predicate about one token is lowered onto that token, where
it joins the others in one merged predicate; a predicate about several tokens is deferred until
the order of the tokens is known.
-/

set_option autoImplicit false
set_option relaxedAutoImplicit false

namespace TreeQuery

/-- A predicate of a query and whether it floats or was declared on a token, onto which it has
been raised. -/
structure Assertion where
  floating : Bool
  predicate : Predicate

/-- The predicates of a query: the floating ones, then the declared ones raised onto their
tokens. -/
def Query.assertions (q : Query) : List Assertion :=
  q.predicates.map (fun p => ⟨true, p⟩)
    ++ q.tokens.filterMap fun t => t.predicate.map fun p => ⟨false, p.raise t.identifier⟩

/-- A predicate together with where it goes: on the only token it is about, or across several. -/
inductive Site where
  | onToken (i : Identifier) (p : Predicate)
  | across (p : Predicate)

namespace Site

/-- Finds the place of a predicate among the known tokens. A floating predicate may not have local
attributes, every owner has to be known, and there has to be an owner. -/
def ofAssertion (known : List Identifier) (s : Assertion) : Except CompileError Site :=
  if s.floating && s.predicate.hasLocal then .error (.unanchoredPredicate s.predicate)
  else
    match s.predicate.owners.find? fun i => i ∉ known with
    | some i => .error (.unknownIdentifier i)
    | none =>
      match s.predicate.owners with
      | [] => .error (.unanchoredPredicate s.predicate)
      | [i] => .ok (onToken i (s.predicate.lower i))
      | _ => .ok (across s.predicate.normalize)

def on? (i : Identifier) : Site → Option Predicate
  | onToken j p => if j = i then some p else none
  | across _ => none

def across? : Site → Option Predicate
  | onToken _ _ => none
  | across p => some p

end Site

/-- The predicates of a query in their places: for each token that has one, the conjunction of those
about it alone, with its own attributes local, and those that relate several tokens. -/
structure Placement where
  merged : List (Identifier × Predicate)
  deferred : List Predicate
  deriving DecidableEq

namespace Placement

def ofSites (known : List Identifier) (sites : List Site) : Placement where
  merged := known.filterMap fun i =>
    (Predicate.all? (sites.filterMap (Site.on? i))).map fun p => (i, p.normalize)
  deferred := sites.filterMap Site.across?

/-- Places every predicate of a query, or refuses the first that has no place. -/
def ofQuery (q : Query) : Except CompileError Placement :=
  (q.assertions.mapM (Site.ofAssertion q.identifiers)).map (ofSites q.identifiers)

def predicate? (pl : Placement) (i : Identifier) : Option Predicate := pl.merged.lookup i

end Placement

end TreeQuery
