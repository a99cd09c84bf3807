import TreeQuery.Predicate
import TreeQuery.Query.Basic

/-!
What queries mean. An order of the tokens is admitted if every order constraint holds of it, and a
placing of the tokens in a sentence satisfies a query if all constraints, dependencies and
predicates hold there.
-/

set_option autoImplicit false
set_option relaxedAutoImplicit false

namespace TreeQuery

def OrderConstraint.Holds (position : Identifier → Nat) (c : OrderConstraint) : Prop :=
  match c.kind with
  | .general => position c.before < position c.after
  | .immediate => position c.after = position c.before + 1

instance (position : Identifier → Nat) (c : OrderConstraint) : Decidable (c.Holds position) := by
  unfold OrderConstraint.Holds
  cases c.kind <;> infer_instance

def OrderConstraint.AllHold (order : List Identifier) (constraints : List OrderConstraint) :
    Prop :=
  ∀ c ∈ constraints, c.Holds fun i => order.idxOf i

instance (order : List Identifier) (constraints : List OrderConstraint) :
    Decidable (OrderConstraint.AllHold order constraints) :=
  inferInstanceAs (Decidable (∀ c ∈ constraints, c.Holds fun i => order.idxOf i))

/-- Whether a dependency holds between the places of its ends: the head of the dependent is the
governor. -/
def Dependency.Holds {τ : Type} (m : Interpretation τ) (place : Identifier → τ)
    (d : Dependency) : Prop :=
  m.compares .equal (.attr (place d.dependent) "dephead") (.attr (place d.governor) "ref")

namespace Query

/-- Whether a sequence is an order of the tokens of a query in which every constraint holds. -/
def Admits (q : Query) (order : List Identifier) : Prop :=
  order.Perm q.identifiers ∧ OrderConstraint.AllHold order q.constraints

instance (q : Query) (order : List Identifier) : Decidable (q.Admits order) :=
  inferInstanceAs (Decidable (order.Perm q.identifiers ∧
    OrderConstraint.AllHold order q.constraints))

/-- Whether the predicates of a query hold of tokens at the given places. A declared predicate
has its local attributes read at its token; a floating one holds wherever they are read. -/
def PredicatesHold {τ : Type} (m : Interpretation τ) (place : Identifier → τ) (q : Query) :
    Prop :=
  (∀ p ∈ q.predicates, ∀ i, p.Holds m fun o => place (o.getD i)) ∧
    ∀ t ∈ q.tokens, ∀ p ∈ t.predicate, p.Holds m fun o => place (o.getD t.identifier)

/-- Whether tokens at the given positions of a sentence satisfy a query. -/
structure SatisfiedAt (m : Interpretation Nat) (position : Identifier → Nat) (q : Query) :
    Prop where
  constraints : ∀ c ∈ q.constraints, c.Holds position
  dependencies : ∀ d ∈ q.dependencies, d.Holds m position
  predicates : q.PredicatesHold m position

end Query

end TreeQuery
