import TreeQuery.CompileError

/-!
The order of the tokens of a query. The tokens are partitioned into connected groups. Each group
forms a component with a strict partial order, the transitive closure of its constraints, which is
held as a table, and with at most one immediate neighbour on either side of a token.
-/

set_option autoImplicit false
set_option relaxedAutoImplicit false

namespace TreeQuery.Order

/-- A relation on the numbers below `rows.size`. Row `a` tells which `b` it relates `a` to. -/
structure Table where
  rows : Array (Array Bool)
  deriving DecidableEq

namespace Table

def size (t : Table) : Nat := t.rows.size

def tabulate (n : Nat) (f : Nat → Nat → Bool) : Table :=
  ⟨Array.ofFn fun a : Fin n => Array.ofFn fun b : Fin n => f a b⟩

def holds (t : Table) (a b : Nat) : Bool := (t.rows.getD a #[]).getD b false

/-- Adds the pairs that are linked by a step into `k` and a step out of `k`. -/
def through (t : Table) (k : Nat) : Table :=
  let row := t.rows.getD k #[]
  ⟨t.rows.map fun r => if r.getD k false then r.zipWith (· || ·) row else r⟩

/-- The pairs that are linked by a chain of one or more steps: every number in turn is allowed as
an intermediate stop. -/
def closure (t : Table) : Table := (List.range t.size).foldl through t

end Table

/-- A partition of tokens: each is listed with the representative of its class. -/
structure Partition where
  classes : List (Identifier × Identifier)

namespace Partition

def discrete (ids : List Identifier) : Partition := ⟨ids.map fun i => (i, i)⟩

def root (p : Partition) (i : Identifier) : Identifier := (p.classes.lookup i).getD i

def union (p : Partition) (i j : Identifier) : Partition :=
  let a := p.root i
  let b := p.root j
  ⟨p.classes.map fun e => (e.1, if e.2 = b then a else e.2)⟩

/-- The classes, each with its tokens in their listed order, by the order of their first tokens. -/
def groups (p : Partition) : List (List Identifier) :=
  (p.classes.map Prod.snd).eraseDups.map fun r =>
    (p.classes.filter fun e => e.2 = r).map Prod.fst

end Partition

/-- The pairs of tokens that belong together: the ends of dependencies and of order constraints. -/
def links (q : Query) : List (Identifier × Identifier) :=
  q.dependencies.map (fun d => (d.governor, d.dependent))
    ++ q.constraints.map fun c => (c.before, c.after)

def partition (q : Query) : Partition :=
  (links q).foldl (fun p e => p.union e.1 e.2) (.discrete q.identifiers)

/-- Connected tokens with their order. Tokens are addressed by their position in `tokens`. -/
structure Component where
  tokens : List Identifier
  constraints : List OrderConstraint
  precedence : Table
  successors : List (Option Nat)
  deriving DecidableEq

def stepTable (tokens : List Identifier) (constraints : List OrderConstraint) : Table :=
  let steps := constraints.map fun c => (tokens.idxOf c.before, tokens.idxOf c.after)
  .tabulate tokens.length fun a b => steps.contains (a, b)

/-- The constraints that lie on a directed cycle: a chain leads from their end to their start. -/
def cyclic (tokens : List Identifier) (chains : Table) (constraints : List OrderConstraint) :
    List OrderConstraint :=
  constraints.filter fun c => chains.holds (tokens.idxOf c.after) (tokens.idxOf c.before)

def divergeAfter (c d : OrderConstraint) : Bool := c.before = d.before && c.after ≠ d.after

def divergeBefore (c d : OrderConstraint) : Bool := c.after = d.after && c.before ≠ d.before

/-- The first constraint of a list that asks for another neighbour than an earlier one, with that
earlier one. Neighbours after a token are compared first. -/
def clash? (seen : List OrderConstraint) :
    List OrderConstraint → Option (OrderConstraint × OrderConstraint)
  | [] => none
  | c :: rest =>
    match (seen.find? (divergeAfter · c)).or (seen.find? (divergeBefore · c)) with
    | some earlier => some (earlier, c)
    | none => clash? (seen ++ [c]) rest

namespace Component

/-- The component of connected tokens and the constraints between them. The constraints may not
run in a circle, and no token may have two immediate neighbours on one side. -/
def build (tokens : List Identifier) (constraints : List OrderConstraint) :
    Except CompileError Component :=
  let chains := (stepTable tokens constraints).closure
  let immediate := constraints.filter OrderConstraint.isImmediate
  match cyclic tokens chains constraints with
  | c :: rest => .error (.inconsistentOrdering (c :: rest))
  | [] =>
    match clash? [] immediate with
    | some (c, d) => .error (.inconsistentOrdering [c, d])
    | none => .ok {
        tokens, constraints
        precedence := chains
        successors := tokens.map fun i =>
          (immediate.find? fun c => c.before = i).map fun c => tokens.idxOf c.after }

def size (c : Component) : Nat := c.tokens.length

def precedes (c : Component) (a b : Nat) : Bool := c.precedence.holds a b

def successor? (c : Component) (a : Nat) : Option Nat := c.successors.getD a none

def hasPredecessor (c : Component) (a : Nat) : Bool := c.successors.contains (some a)

end Component

/-- The components of a query by the order of their first tokens, or the contradiction in the
first component that has one. -/
def components (q : Query) : Except CompileError (List Component) :=
  (partition q).groups.mapM fun tokens =>
    Component.build tokens (q.constraints.filter fun c => c.before ∈ tokens)

end TreeQuery.Order
