import TreeQuery.Predicate

/-!
Queries over dependency trees: tokens with conditions, dependencies between tokens, conditions
that stand on their own, and constraints on the order of the tokens in a sentence.
-/

set_option autoImplicit false
set_option relaxedAutoImplicit false

namespace TreeQuery

/-- A declared token and the condition on it, whose local attributes are its own. -/
structure Token where
  identifier : Identifier
  predicate : Option Predicate
  deriving DecidableEq

structure Dependency where
  governor : Identifier
  dependent : Identifier
  deriving DecidableEq

/-- How closely an order constraint binds its two tokens. An immediate one asks the second to follow
directly. -/
inductive OrderKind where
  | general
  | immediate
  deriving DecidableEq

structure OrderConstraint where
  before : Identifier
  after : Identifier
  kind : OrderKind
  deriving DecidableEq

namespace OrderConstraint

/-- The text of a constraint, `#0 << #1` or, if immediate, `#0 <. #1`. -/
def text (c : OrderConstraint) : String :=
  let sign := match c.kind with
    | .general => " << "
    | .immediate => " <. "
  c.before.text ++ sign ++ c.after.text

def isImmediate (c : OrderConstraint) : Bool := c.kind = .immediate

end OrderConstraint

structure Query where
  tokens : List Token
  dependencies : List Dependency
  predicates : List Predicate
  constraints : List OrderConstraint
  deriving DecidableEq

namespace Query

/-- The tokens of a query in the order of their first mention: declared tokens, then the ends of
dependencies, then the ends of order constraints. -/
def identifiers (q : Query) : List Identifier :=
  (q.tokens.map Token.identifier
    ++ q.dependencies.flatMap (fun d => [d.governor, d.dependent])
    ++ q.constraints.flatMap fun c => [c.before, c.after]).eraseDups

def token? (q : Query) (i : Identifier) : Option Token :=
  q.tokens.find? fun t => t.identifier = i

end Query

end TreeQuery
