/-!
Conditions on the attributes of tokens. An attribute is either local, read at the token that
carries the predicate, or owned by the token it names. Predicates are flattened along one
connective by `operands`, built from lists by `nest`, and moved between tokens by `raise` and
`lower`. In the normal form junctions are flattened and nested to the right, double negations
disappear, and the negation of presence is absence; a junction is flattened before its operands are
normalised. An interpretation says which attributes have a value and which comparisons hold at the
places of a domain, such as the tokens of a query or the positions of a sentence, and so which
predicates hold.
-/

set_option autoImplicit false
set_option relaxedAutoImplicit false

namespace TreeQuery

/-- The handle of a token, numbered from zero in the order in which a query hands them out. -/
structure Identifier where
  index : Nat
  deriving DecidableEq, Hashable

namespace Identifier

def text (i : Identifier) : String := "#" ++ toString i.index

/-- Adds a handle to an ascending list without repetitions, which it stays. -/
def insertAscending (i : Identifier) : List Identifier → List Identifier
  | [] => [i]
  | j :: rest =>
    if i.index < j.index then i :: j :: rest
    else if i = j then j :: rest
    else j :: insertAscending i rest

def ascending : List Identifier → List Identifier
  | [] => []
  | i :: rest => insertAscending i (ascending rest)

end Identifier

/-- A named attribute of the token that owns it, or of the carrying token if it has no owner. -/
structure Attribute where
  owner : Option Identifier
  name : String
  deriving DecidableEq

def Attribute.text (a : Attribute) : String :=
  match a.owner with
  | some i => i.text ++ "." ++ a.name
  | none => a.name

inductive Value where
  | literal (text : String)
  | regex (text : String)
  | regexIgnoringCase (text : String)
  deriving DecidableEq

inductive Operand where
  | attr (a : Attribute)
  | value (v : Value)
  deriving DecidableEq

inductive Comparator where
  | equal
  | differ
  deriving DecidableEq

inductive Connective where
  | conj
  | disj
  deriving DecidableEq

inductive Predicate where
  | junction (c : Connective) (left right : Predicate)
  | negation (operand : Predicate)
  | presence (a : Attribute)
  | absence (a : Attribute)
  | comparison (r : Comparator) (left right : Operand)
  deriving DecidableEq

namespace Operand

def attributes : Operand → List Attribute
  | attr a => [a]
  | value _ => []

def mapAttributes (f : Attribute → Attribute) : Operand → Operand
  | attr a => attr (f a)
  | value v => value v

end Operand

namespace Predicate

/-- The operands of a predicate read as a junction of the connective `c`, from left to right,
however it is nested. A predicate that is no such junction is its own only operand. -/
def operands (c : Connective) : Predicate → List Predicate
  | junction d l r => if d = c then operands c l ++ operands c r else [junction d l r]
  | p => [p]

def conjuncts : Predicate → List Predicate := operands .conj

def disjuncts : Predicate → List Predicate := operands .disj

def nest (c : Connective) : Predicate → List Predicate → Predicate
  | p, [] => p
  | p, q :: rest => junction c p (nest c q rest)

def join? (c : Connective) : List Predicate → Option Predicate
  | [] => none
  | p :: rest => some (nest c p rest)

def all? : List Predicate → Option Predicate := join? .conj

def any? : List Predicate → Option Predicate := join? .disj

def attributes : Predicate → List Attribute
  | junction _ l r => attributes l ++ attributes r
  | negation p => attributes p
  | presence a => [a]
  | absence a => [a]
  | comparison _ l r => l.attributes ++ r.attributes

/-- The tokens that own an attribute of the predicate, ascending and each once. -/
def owners (p : Predicate) : List Identifier :=
  Identifier.ascending (p.attributes.filterMap Attribute.owner)

def hasLocal (p : Predicate) : Bool := p.attributes.any fun a => a.owner.isNone

def mapAttributes (f : Attribute → Attribute) : Predicate → Predicate
  | junction c l r => junction c (mapAttributes f l) (mapAttributes f r)
  | negation p => negation (mapAttributes f p)
  | presence a => presence (f a)
  | absence a => absence (f a)
  | comparison r x y => comparison r (x.mapAttributes f) (y.mapAttributes f)

def raise (i : Identifier) : Predicate → Predicate :=
  mapAttributes fun a => { a with owner := some (a.owner.getD i) }

def lower (i : Identifier) : Predicate → Predicate :=
  mapAttributes fun a => { a with owner := if a.owner = some i then none else a.owner }

/-- The negation of a normalised predicate. -/
def complement : Predicate → Predicate
  | negation p => p
  | presence a => absence a
  | absence a => presence a
  | p => negation p

def prepend (c : Connective) (p : Predicate) : Option Predicate → Predicate
  | none => p
  | some rest => junction c p rest

/-- The normal forms of the operands that a predicate has as a junction of `c`, nested to the
right in front of the rest of that junction. -/
def gather (c : Connective) : Predicate → Option Predicate → Predicate
  | junction d l r, rest =>
    if d = c then gather c l (some (gather c r rest))
    else prepend c (gather d l (some (gather d r none))) rest
  | negation p, rest => prepend c (complement (gather .conj p none)) rest
  | p, rest => prepend c p rest

def normalize (p : Predicate) : Predicate := gather .conj p none

end Predicate

inductive Reading (τ : Type) where
  | attr (place : τ) (name : String)
  | value (v : Value)

/-- Which attributes have a value and which comparisons hold. -/
structure Interpretation (τ : Type) where
  present : τ → String → Prop
  compares : Comparator → Reading τ → Reading τ → Prop

variable {τ : Type}

def Operand.reading (place : Option Identifier → τ) : Operand → Reading τ
  | attr a => .attr (place a.owner) a.name
  | value v => .value v

/-- Whether a predicate holds when its attributes are read at the places of their owners. -/
def Predicate.Holds (m : Interpretation τ) (place : Option Identifier → τ) : Predicate → Prop
  | junction .conj l r => l.Holds m place ∧ r.Holds m place
  | junction .disj l r => l.Holds m place ∨ r.Holds m place
  | negation p => ¬ p.Holds m place
  | presence a => m.present (place a.owner) a.name
  | absence a => ¬ m.present (place a.owner) a.name
  | comparison r x y => m.compares r (x.reading place) (y.reading place)

end TreeQuery
