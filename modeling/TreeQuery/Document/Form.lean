import TreeQuery.Predicate
import TreeQuery.Query.Basic

/-!
The parts of a document. Tokens go by names of the writer's choice, which the query replaces by
handles.
-/

set_option autoImplicit false
set_option relaxedAutoImplicit false

namespace TreeQuery

namespace Document

/-- An attribute of a named token, or of the carrying token if none is named. -/
structure AttributeForm where
  name : String
  owner : Option String
  deriving DecidableEq

inductive OperandForm where
  | attr (a : AttributeForm)
  | value (v : Value)
  deriving DecidableEq

inductive PredicateForm where
  | junction (c : Connective) (operands : List PredicateForm)
  | negation (operand : PredicateForm)
  | presence (a : AttributeForm)
  | absence (a : AttributeForm)
  | comparison (r : Comparator) (left right : OperandForm)

structure TokenForm where
  name : String
  predicate : Option PredicateForm

structure DependencyForm where
  governor : String
  dependent : String
  deriving DecidableEq

structure OrderForm where
  before : String
  after : String
  immediate : Bool
  deriving DecidableEq

end Document

/-- A query as it is written in a document. -/
structure Document where
  tokens : List Document.TokenForm := []
  dependencies : List Document.DependencyForm := []
  predicates : List Document.PredicateForm := []
  order : List Document.OrderForm := []

end TreeQuery
