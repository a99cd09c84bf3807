import TreeQuery.Document.Record

/-!
Reading documents.
-/

set_option autoImplicit false
set_option relaxedAutoImplicit false

namespace TreeQuery.Document

open Reader

inductive Keyword where
  | junction (c : Connective)
  | negation
  | presence
  | absence
  | comparison (r : Comparator)

namespace Keyword

def spellings : List (String × Keyword) := [
  ("and", junction .conj), ("or", junction .disj), ("not", negation), ("exists", presence),
  ("missing", absence), ("eq", comparison .equal), ("ne", comparison .differ)]

def content : Keyword → String
  | comparison _ => "tuple variant"
  | _ => "newtype variant"

end Keyword

def pairTitle : Comparator → String
  | .equal => "tuple variant PredicateDoc::Eq"
  | .differ => "tuple variant PredicateDoc::Ne"

def attributeShape : Shape := ⟨"AttributeDoc", ["attr", "of"]⟩

def tokenShape : Shape := ⟨"TokenDoc", ["name", "where"]⟩

def dependencyShape : Shape := ⟨"DependencyDoc", ["governor", "dependent"]⟩

def orderShape : Shape := ⟨"OrderDoc", ["before", "after", "immediate"]⟩

def documentShape : Shape := ⟨"Document", ["tokens", "dependencies", "predicates", "order"]⟩

/-- The attribute of two values, if they are a name and a name or nothing. -/
def attributeOf? : AnyValue → AnyValue → Option AttributeForm
  | .string name, .string owner => some ⟨name, some owner⟩
  | .string name, .null => some ⟨name, none⟩
  | _, _ => none

def regexOf (text : String) (ignoreCase : Bool) : OperandForm :=
  .value (if ignoreCase then .regexIgnoringCase text else .regex text)

/-- The operand that a value stands for. The fields of an object may come in any order. -/
def operandOf? : AnyValue → Option OperandForm
  | .object [("attr", .string name)] => some (.attr ⟨name, none⟩)
  | .object [("attr", name), ("of", owner)] => (attributeOf? name owner).map .attr
  | .object [("of", owner), ("attr", name)] => (attributeOf? name owner).map .attr
  | .object [("literal", .string text)] => some (.value (.literal text))
  | .object [("regex", .string text)] => some (regexOf text false)
  | .object [("regex", .string text), ("ignore_case", .boolean b)] => some (regexOf text b)
  | .object [("ignore_case", .boolean b), ("regex", .string text)] => some (regexOf text b)
  | .list [.string text] => some (.value (.literal text))
  | .list [.string text, .boolean b] => some (regexOf text b)
  | .list [name, owner] => (attributeOf? name owner).map .attr
  | _ => none

def operand (depth : Nat) : Reader OperandForm := do
  match operandOf? (← anyValue depth) with
  | some o => pure o
  | none => failLater .noOperand

def operandPair (r : Comparator) (depth : Nat) : Reader (OperandForm × OperandForm) := do
  let short (length : Nat) : Fault := .tooShort length (pairTitle r ++ " with 2 elements")
  match ← element? true (operand depth) with
  | none => failLater (short 0)
  | some left =>
    match ← element? false (operand depth) with
    | none => failLater (short 1)
    | some right => pure (left, right)

def comparison (r : Comparator) (depth : Nat) : Reader PredicateForm := do
  match ← peekPastBlanks? with
  | none => failAhead .endInValue
  | some '[' =>
    let (left, right) ← bracketed (inside? depth (operandPair r)) endList
    return .comparison r left right
  | some _ => wrongKind (pairTitle r)

def attributeForm (depth : Nat) : Reader AttributeForm :=
  record attributeShape
    (inside? depth fun _ => do
      let (name, owner) ← fields attributeShape (fun key (name, owner) => do
        if key = "attr" then return (some (← text), owner)
        else return (name, ← nullable text)) ((none : Option String), (none : Option String))
      return ⟨← required "attr" name, owner⟩)
    (inside? depth fun _ => do
      let name ← item attributeShape 0 text
      return ⟨name, ← item attributeShape 1 (nullable text)⟩)

def keyword : Reader Keyword := settle do
  let name ← string
  match Keyword.spellings.lookup name with
  | some k => pure k
  | none => failLater (.unknownKeyword name (Keyword.spellings.map Prod.fst))

/-- Reads a condition, in which at most `depth` brackets are open at a time. -/
def predicateForm (depth : Nat) : Reader PredicateForm := do
  match ← peekPastBlanks? with
  | none => failAhead .endInValue
  | some '"' => do
    let k ← keyword
    failLater (.wrongKind .bareKeyword k.content)
  | some '\x7b' =>
    match depth with
    | 0 => failAhead .tooDeep
    | depth + 1 => do
      advance
      match ← peekPastBlanks? with
      | none => failAhead .endInObject
      | some '\x7d' => failAhead .expectedValue
      | some '"' => do
        let k ← keyword
        colon
        let p ← match k with
          | .junction c => do
            let operands ← match depth with
              | 0 => listOf none
              | depth + 1 => listOf (some (predicateForm depth))
            pure (PredicateForm.junction c operands)
          | .negation => do pure (.negation (← predicateForm depth))
          | .presence => do pure (.presence (← attributeForm depth))
          | .absence => do pure (.absence (← attributeForm depth))
          | .comparison r => comparison r depth
        match ← peekPastBlanks? with
        | some '\x7d' => do advance; pure p
        | some _ => failHere .expectedValue
        | none => failHere .endInObject
      | some _ => failAhead .keyNotString
  | some _ => failAhead .expectedValue

def tokenForm (depth : Nat) : Reader TokenForm :=
  record tokenShape
    (inside? depth fun depth => do
      let (name, predicate) ← fields tokenShape (fun key (name, predicate) => do
        if key = "name" then return (some (← text), predicate)
        else return (name, ← nullable (predicateForm depth)))
        ((none : Option String), (none : Option PredicateForm))
      return ⟨← required "name" name, predicate⟩)
    (inside? depth fun depth => do
      let name ← item tokenShape 0 text
      return ⟨name, ← item tokenShape 1 (nullable (predicateForm depth))⟩)

def dependencyForm (depth : Nat) : Reader DependencyForm :=
  record dependencyShape
    (inside? depth fun _ => do
      let (governor, dependent) ← fields dependencyShape (fun key (governor, dependent) => do
        if key = "governor" then return (some (← text), dependent)
        else return (governor, some (← text))) ((none : Option String), (none : Option String))
      let governor ← required "governor" governor
      return ⟨governor, ← required "dependent" dependent⟩)
    (inside? depth fun _ => do
      let governor ← item dependencyShape 0 text
      return ⟨governor, ← item dependencyShape 1 text⟩)

def orderForm (depth : Nat) : Reader OrderForm :=
  record orderShape
    (inside? depth fun _ => do
      let (before, after, immediate) ← fields orderShape (fun key (before, after, immediate) => do
        if key = "before" then return (some (← text), after, immediate)
        else if key = "after" then return (before, some (← text), immediate)
        else return (before, after, ← boolean))
        ((none : Option String), (none : Option String), false)
      let before ← required "before" before
      return ⟨before, ← required "after" after, immediate⟩)
    (inside? depth fun _ => do
      let before ← item orderShape 0 text
      let after ← item orderShape 1 text
      return ⟨before, after, ← itemD 2 boolean false⟩)

def document (depth : Nat) : Reader Document :=
  record documentShape
    (inside? depth fun depth =>
      fields documentShape (fun key d => do
        if key = "tokens" then return { d with tokens := ← listOf (inside? depth tokenForm) }
        else if key = "dependencies" then
          return { d with dependencies := ← listOf (inside? depth dependencyForm) }
        else if key = "predicates" then
          return { d with predicates := ← listOf (inside? depth predicateForm) }
        else return { d with order := ← listOf (inside? depth orderForm) }) {})
    (inside? depth fun depth => do
      let tokens ← itemD 0 (listOf (inside? depth tokenForm)) []
      let dependencies ← itemD 1 (listOf (inside? depth dependencyForm)) []
      let predicates ← itemD 2 (listOf (inside? depth predicateForm)) []
      return { tokens, dependencies, predicates
               order := ← itemD 3 (listOf (inside? depth orderForm)) [] })

def maxDepth : Nat := 127

def wholeDocument : Reader Document := do
  let d ← document maxDepth
  match ← peekPastBlanks? with
  | none => pure d
  | some _ => failAhead .trailingCharacters

def parse (source : String) : Except Failure Document :=
  match wholeDocument (.ofString source) with
  | .ok d _ => .ok d
  | .error e _ => .error e

end TreeQuery.Document
