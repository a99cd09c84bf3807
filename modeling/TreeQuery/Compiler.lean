import TreeQuery.Order.Component
import TreeQuery.Pattern.Alternative

/-!
Compiling queries to patterns.
-/

set_option autoImplicit false
set_option relaxedAutoImplicit false

namespace TreeQuery

/-- What a compilation can be asked to keep to. -/
structure Options where
  candidateLimit : Option Nat := none
  span : Option String := none
  deriving DecidableEq

namespace Options

def confine (o : Options) (pattern : String) : String :=
  match o.span with
  | some span => pattern ++ " within " ++ span
  | none => pattern

end Options

def Query.layouts (q : Query) : Except CompileError (List Arrangement.Layout) := do
  Arrangement.layouts (← Order.components q)

/-- The pattern of a query, with one alternative for each admissible order of its tokens. -/
def Query.compile (o : Options) (q : Query) : Except CompileError String := do
  let pl ← Placement.ofQuery q
  let layouts ← q.layouts
  let pattern ← Pattern.ofCandidates q pl o.candidateLimit (Arrangement.candidates layouts)
  return o.confine pattern

end TreeQuery
