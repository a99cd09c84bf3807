import TreeQuery.CompileError

/-!
Queries under construction. A draft hands out handles and collects the parts of a query; `build`
checks them.
-/

set_option autoImplicit false
set_option relaxedAutoImplicit false

namespace TreeQuery

structure Draft where
  issued : Nat := 0
  parts : Query := ⟨[], [], [], []⟩

namespace Draft

def identifier (d : Draft) : Identifier × Draft :=
  (⟨d.issued⟩, { d with issued := d.issued + 1 })

def declare (d : Draft) (i : Identifier) (p : Option Predicate) : Draft :=
  { d with parts := { d.parts with tokens := d.parts.tokens ++ [⟨i, p⟩] } }

def token (d : Draft) (p : Option Predicate) : Identifier × Draft :=
  (d.identifier.1, d.identifier.2.declare d.identifier.1 p)

def dependency (d : Draft) (governor dependent : Identifier) : Draft :=
  { d with parts :=
      { d.parts with dependencies := d.parts.dependencies ++ [⟨governor, dependent⟩] } }

def predicate (d : Draft) (p : Predicate) : Draft :=
  { d with parts := { d.parts with predicates := d.parts.predicates ++ [p] } }

def order (d : Draft) (before after : Identifier) (kind : OrderKind) : Draft :=
  { d with parts :=
      { d.parts with constraints := d.parts.constraints ++ [⟨before, after, kind⟩] } }

def firstRepeated? (seen : List Identifier) : List Identifier → Option Identifier
  | [] => none
  | i :: rest => if i ∈ seen then some i else firstRepeated? (i :: seen) rest

/-- The finished query. No handle may be declared twice, and some token has to be mentioned. -/
def build (d : Draft) : Except CompileError Query :=
  match firstRepeated? [] (d.parts.tokens.map Token.identifier) with
  | some i => .error (.duplicateToken i)
  | none => if d.parts.identifiers.isEmpty then .error .emptyQuery else .ok d.parts

end Draft

end TreeQuery
