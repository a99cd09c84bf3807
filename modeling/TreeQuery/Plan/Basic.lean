import TreeQuery.CompileError

/-!
Plans: several queries combined by operations on the sets of their matches. The entries of a plan
refer only to earlier entries, and one of them is the goal.
-/

set_option autoImplicit false
set_option relaxedAutoImplicit false

namespace TreeQuery

inductive SetOperator where
  | intersection
  | union
  | difference
  deriving DecidableEq

def SetOperator.keyword : SetOperator → String
  | intersection => "intersect"
  | union => "union"
  | difference => "diff"

inductive PlanEntry where
  | query (q : Query)
  | operation (op : SetOperator) (left right : Handle)
  deriving DecidableEq

namespace PlanEntry

def query? : PlanEntry → Option Query
  | query q => some q
  | operation _ _ _ => none

def operands : PlanEntry → List Handle
  | query _ => []
  | operation _ l r => [l, r]

end PlanEntry

/-- A plan: entries and the one whose matches are the result. -/
structure Plan where
  entries : Catalog PlanEntry
  goal : Handle
  deriving DecidableEq

namespace Plan

def ofQuery (q : Query) : Plan := ⟨⟨#[.query q]⟩, ⟨0⟩⟩

def queries (p : Plan) : List Query := p.entries.toList.filterMap fun e => e.2.query?

/-- The query of a plan that consists of just that query. -/
def single? (p : Plan) : Option Query :=
  if p.entries.size = 1 then (p.entries.get? p.goal).bind PlanEntry.query? else none

end Plan

structure PlanDraft where
  entries : Catalog PlanEntry := {}
  goal : Option Handle := none

namespace PlanDraft

def add (d : PlanDraft) (e : PlanEntry) : Handle × PlanDraft :=
  ((d.entries.add e).1, { d with entries := (d.entries.add e).2 })

def setGoal (d : PlanDraft) (h : Handle) : PlanDraft := { d with goal := some h }

def queryHandles (d : PlanDraft) : List Handle :=
  (d.entries.toList.filter fun e => e.2.query?.isSome).map Prod.fst

def operationHandles (d : PlanDraft) : List Handle :=
  (d.entries.toList.filter fun e => e.2.query?.isNone).map Prod.fst

/-- The first reference of an entry that does not point to an earlier entry. -/
def dangling? (d : PlanDraft) : Option Handle :=
  d.entries.toList.findSome? fun e => e.2.operands.find? fun h => e.1.index ≤ h.index

/-- The goal of a plan that sets none: its only query, or else its last operation, or else its
first query. -/
def defaultGoal (first : Handle) (others : List Handle) (operations : List Handle) : Handle :=
  if others.isEmpty then first else operations.getLast?.getD first

/-- The finished plan. It has to contain a query, entries may only refer to earlier ones, and the
goal has to be one of them. -/
def build (d : PlanDraft) : Except CompileError Plan :=
  match d.queryHandles with
  | [] => .error .emptyPlan
  | first :: others =>
    match d.dangling? with
    | some h => .error (.unknownPlanEntry h)
    | none =>
      match d.goal with
      | none => .ok ⟨d.entries, defaultGoal first others d.operationHandles⟩
      | some h =>
        if (d.entries.get? h).isNone then .error (.unknownPlanEntry h) else .ok ⟨d.entries, h⟩

end PlanDraft

end TreeQuery
