import TreeQuery.Compiler
import TreeQuery.Plan.Basic

/-!
The statements of a plan. Each entry becomes a statement that gives its matches a name, and a last
statement prints those of the goal. A plan of one query is just the pattern of that query. An entry
denotes a set of matches, an operation that of the entries it names; running statements binds names
to sets of matches one after the other and gives the set that is printed last.
-/

set_option autoImplicit false
set_option relaxedAutoImplicit false

namespace TreeQuery

inductive Statement where
  | search (name pattern : String)
  | combine (name : String) (op : SetOperator) (left right : String)
  | print (name : String)
  deriving DecidableEq

def Statement.text : Statement → String
  | search name pattern => name ++ " = " ++ pattern ++ ";"
  | combine name op l r => name ++ " = " ++ op.keyword ++ " " ++ l ++ " " ++ r ++ ";"
  | print name => "cat " ++ name ++ ";"

namespace Plan

def nameOf (named : Nat) (h : Handle) : Except CompileError String :=
  if h.index < named then .ok (Pattern.entryName h.index) else .error (.unknownPlanEntry h)

/-- The statement of an entry. It may refer to the entries before it. -/
def statementOf (o : Options) (h : Handle) : PlanEntry → Except CompileError Statement
  | .query q => do return .search (Pattern.entryName h.index) (← q.compile o)
  | .operation op l r => do
    return .combine (Pattern.entryName h.index) op (← nameOf h.index l) (← nameOf h.index r)

def statements (o : Options) (p : Plan) : Except CompileError (List Statement) := do
  let named ← p.entries.toList.mapM fun e => statementOf o e.1 e.2
  return named ++ [.print (← nameOf p.entries.size p.goal)]

def compile (o : Options) (p : Plan) : Except CompileError String :=
  match p.single? with
  | some q => q.compile o
  | none => do return "\n".intercalate ((← p.statements o).map Statement.text)

end Plan

abbrev Matches (α : Type) := α → Prop

variable {α : Type}

def SetOperator.apply (op : SetOperator) (a b : Matches α) : Matches α :=
  match op with
  | intersection => fun x => a x ∧ b x
  | union => fun x => a x ∨ b x
  | difference => fun x => a x ∧ ¬ b x

/-- The set that an entry denotes, given those of the entries before it. -/
def PlanEntry.denote (search : Query → Matches α) (earlier : List (Matches α)) :
    PlanEntry → Option (Matches α)
  | query q => some (search q)
  | operation op l r => do
    return op.apply (← earlier[l.index]?) (← earlier[r.index]?)

namespace Plan

def denoteFrom (search : Query → Matches α) (earlier : List (Matches α)) :
    List PlanEntry → Option (List (Matches α))
  | [] => some earlier
  | e :: rest => do denoteFrom search (earlier ++ [← e.denote search earlier]) rest

def denote (search : Query → Matches α) (p : Plan) : Option (Matches α) := do
  (← denoteFrom search [] (p.entries.toList.map Prod.snd))[p.goal.index]?

end Plan

namespace Statement

/-- Names of sets of matches; a name that is bound again has its latest meaning. -/
abbrev Bindings (α : Type) := List (String × Matches α)

/-- Runs statements and gives the set that is printed last, or `printed` if none is. Only bound
names may be used. -/
def run (search : String → Matches α) (bindings : Bindings α) (printed : Option (Matches α)) :
    List Statement → Option (Matches α)
  | [] => printed
  | .search name pattern :: rest => run search ((name, search pattern) :: bindings) printed rest
  | .combine name op l r :: rest => do
    run search ((name, op.apply (← bindings.lookup l) (← bindings.lookup r)) :: bindings)
      printed rest
  | .print name :: rest => do run search bindings (some (← bindings.lookup name)) rest

end Statement

end TreeQuery
