import Mathlib.Data.Finset.Card
import Mathlib.Data.List.Forall2
import Mathlib.Data.Set.Function
import TreeQuery.Document.Form

/-!
What a document says, apart from how it is translated: the names it mentions from its beginning to
its end, which of its conditions say something, and which query it describes once every name has
been given a handle.
-/

set_option autoImplicit false
set_option relaxedAutoImplicit false

namespace TreeQuery

/-- The junction of a list of predicates in which every junction is the right operand of the one
before it. -/
inductive Predicate.JoinsRight (c : Connective) : List Predicate → Predicate → Prop
  | last (p : Predicate) : JoinsRight c [p] p
  | cons {rest : List Predicate} {q : Predicate} (p : Predicate) :
      JoinsRight c rest q → JoinsRight c (p :: rest) (.junction c p q)

namespace Document

def OperandForm.mentions : OperandForm → List String
  | attr a => a.owner.toList
  | value _ => []

mutual

def PredicateForm.mentions : PredicateForm → List String
  | .junction _ operands => allMentions operands
  | .negation p => p.mentions
  | .presence a => a.owner.toList
  | .absence a => a.owner.toList
  | .comparison _ l r => l.mentions ++ r.mentions

def allMentions : List PredicateForm → List String
  | [] => []
  | p :: rest => p.mentions ++ allMentions rest

end

def TokenForm.mentions (t : TokenForm) : List String :=
  t.name :: (t.predicate.map PredicateForm.mentions).getD []

/-- The names that a document mentions, in the order in which it is read. -/
def mentions (d : Document) : List String :=
  d.tokens.flatMap TokenForm.mentions
    ++ d.dependencies.flatMap (fun e => [e.governor, e.dependent])
    ++ d.order.flatMap (fun e => [e.before, e.after])
    ++ d.predicates.flatMap PredicateForm.mentions

inductive PredicateForm.HasEmptyJunction : PredicateForm → Prop
  | here (c : Connective) : HasEmptyJunction (.junction c [])
  | operand {c : Connective} {operands : List PredicateForm} {p : PredicateForm} :
      p ∈ operands → HasEmptyJunction p → HasEmptyJunction (.junction c operands)
  | negation {p : PredicateForm} : HasEmptyJunction p → HasEmptyJunction (.negation p)

def conditions (d : Document) : List PredicateForm :=
  d.tokens.filterMap TokenForm.predicate ++ d.predicates

section Handles

variable (f : String → Identifier)

def AttributeForm.image (a : AttributeForm) : Attribute := ⟨a.owner.map f, a.name⟩

def OperandForm.image : OperandForm → Operand
  | attr a => .attr (a.image f)
  | value v => .value v

/-- The predicate has the handles of the names of a condition in their places and is otherwise built
as the condition, except that each junction of several operands is nested to the right. -/
inductive PredicateForm.Denotes : PredicateForm → Predicate → Prop
  | junction {c : Connective} {operands : List PredicateForm} {ps : List Predicate}
      {p : Predicate} :
      List.Forall₂ Denotes operands ps → Predicate.JoinsRight c ps p →
      Denotes (.junction c operands) p
  | negation {form : PredicateForm} {p : Predicate} :
      Denotes form p → Denotes (.negation form) (.negation p)
  | presence (a : AttributeForm) : Denotes (.presence a) (.presence (a.image f))
  | absence (a : AttributeForm) : Denotes (.absence a) (.absence (a.image f))
  | comparison (r : Comparator) (x y : OperandForm) :
      Denotes (.comparison r x y) (.comparison r (x.image f) (y.image f))

structure TokenForm.Denotes (form : TokenForm) (t : Token) : Prop where
  identifier_eq : t.identifier = f form.name
  predicate : Option.Rel (PredicateForm.Denotes f) form.predicate t.predicate

def DependencyForm.image (e : DependencyForm) : Dependency := ⟨f e.governor, f e.dependent⟩

def OrderForm.image (e : OrderForm) : OrderConstraint :=
  ⟨f e.before, f e.after, if e.immediate then .immediate else .general⟩

/-- The query that a document describes, part by part and in the same order. -/
structure Denotes (d : Document) (q : Query) : Prop where
  tokens : List.Forall₂ (TokenForm.Denotes f) d.tokens q.tokens
  dependencies : q.dependencies = d.dependencies.map (DependencyForm.image f)
  constraints : q.constraints = d.order.map (OrderForm.image f)
  predicates : List.Forall₂ (PredicateForm.Denotes f) d.predicates q.predicates

/-- Handles are numbered by first mention: the number of a name is the number of different names
mentioned before it is mentioned first. -/
def NumbersByFirstMention (mentions : List String) : Prop :=
  ∀ s name t, mentions = s ++ name :: t → name ∉ s → (f name).index = s.toFinset.card

end Handles

end Document

end TreeQuery
