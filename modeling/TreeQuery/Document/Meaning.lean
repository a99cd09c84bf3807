import TreeQuery.Document.Reading
import TreeQuery.Query.Draft

/-!
The query of a document. It is drafted part by part, and the names of tokens are exchanged for
handles as they are met: tokens, each followed by the names in its condition, then dependencies,
order constraints and floating conditions. A name that is new gets a fresh handle.
-/

set_option autoImplicit false
set_option relaxedAutoImplicit false

namespace TreeQuery

namespace Document

/-- A query under construction and the names met so far. -/
structure Roll where
  draft : Draft := {}
  handles : List (String × Identifier) := []

/-- A step of the translation of a document, which may meet new names and may refuse. -/
abbrev Translation (α : Type) := StateT Roll (Except FrontendError) α

def handle (name : String) : Translation Identifier := do
  let roll ← get
  match roll.handles.lookup name with
  | some i => return i
  | none =>
    let fresh := roll.draft.identifier
    set { draft := fresh.2, handles := (name, fresh.1) :: roll.handles : Roll }
    return fresh.1

def revise (f : Draft → Draft) : Translation Unit :=
  modify fun roll => { roll with draft := f roll.draft }

def AttributeForm.translate (a : AttributeForm) : Translation Attribute := do
  match a.owner with
  | some owner => return ⟨some (← handle owner), a.name⟩
  | none => return ⟨none, a.name⟩

def OperandForm.translate : OperandForm → Translation Operand
  | attr a => return .attr (← a.translate)
  | value v => return .value v

def emptyJunction : Connective → FrontendError
  | .conj => .notSupported "empty conjunction"
  | .disj => .notSupported "empty disjunction"

mutual

/-- The condition that is written. Junctions are nested to the right and need an operand. -/
def PredicateForm.translate : PredicateForm → Translation Predicate
  | .junction c operands => do
    match Predicate.join? c (← translateAll operands) with
    | some p => return p
    | none => throw (emptyJunction c)
  | .negation p => return .negation (← p.translate)
  | .presence a => return .presence (← a.translate)
  | .absence a => return .absence (← a.translate)
  | .comparison r x y => return .comparison r (← x.translate) (← y.translate)

def translateAll : List PredicateForm → Translation (List Predicate)
  | [] => return []
  | p :: rest => return (← p.translate) :: (← translateAll rest)

end

def translate? : Option PredicateForm → Translation (Option Predicate)
  | none => return none
  | some p => return some (← p.translate)

def TokenForm.translate (t : TokenForm) : Translation Unit := do
  let i ← handle t.name
  let p ← translate? t.predicate
  revise (·.declare i p)

/-- Declares tokens, none of which may be among the names declared before. -/
def declareAll (declared : List String) : List TokenForm → Translation Unit
  | [] => return ()
  | t :: rest =>
    if t.name ∈ declared then
      throw (.notSupported ("token '" ++ t.name ++ "' is declared more than once"))
    else do
      t.translate
      declareAll (t.name :: declared) rest

def DependencyForm.translate (e : DependencyForm) : Translation Unit := do
  let governor ← handle e.governor
  let dependent ← handle e.dependent
  revise (·.dependency governor dependent)

def OrderForm.kind (e : OrderForm) : OrderKind := if e.immediate then .immediate else .general

def OrderForm.translate (e : OrderForm) : Translation Unit := do
  let before ← handle e.before
  let after ← handle e.after
  revise (·.order before after e.kind)

def PredicateForm.addFloating (p : PredicateForm) : Translation Unit := do
  let r ← p.translate
  revise (·.predicate r)

def translate (d : Document) : Translation Unit := do
  declareAll [] d.tokens
  d.dependencies.forM DependencyForm.translate
  d.order.forM OrderForm.translate
  d.predicates.forM PredicateForm.addFloating

def query (d : Document) : Except FrontendError Query := do
  let (_, roll) ← d.translate.run {}
  roll.draft.build.mapError fun e => .notSupported e.message

def read (source : String) : Except FrontendError Plan := do
  let d ← (parse source).mapError fun e => .parsingFailed [e.inputError]
  return .ofQuery (← d.query)

def frontend : Frontend := ⟨"json", read⟩

end Document

def Registry.standard : Registry := ⟨[Document.frontend]⟩

end TreeQuery
