import TreeQuery.Document.Form
import TreeQuery.Document.Value

/-!
Reading the parts of a document. A record is written as an object with named fields, or as a list
of its fields in order.
-/

set_option autoImplicit false
set_option relaxedAutoImplicit false

namespace TreeQuery.Document

/-- What messages call a record, and its fields in order. -/
structure Shape where
  title : String
  fields : List String

def Shape.tooShort (s : Shape) (length : Nat) : Fault :=
  .tooShort length ("struct " ++ s.title ++ " with " ++ toString s.fields.length ++ " elements")

namespace Reader

variable {α β : Type}

/-- The reader of what is inside a bracket, if one more may be opened. -/
def inside? (depth : Nat) (r : Nat → α) : Option α :=
  match depth with
  | 0 => none
  | depth + 1 => some (r depth)

def bracketed (inside : Option (Reader α)) (close : Reader Unit) : Reader α :=
  match inside with
  | none => failAhead .tooDeep
  | some body => do
    advance
    closedBy body close

def listOf (item : Option (Reader α)) : Reader (List α) := do
  match ← peekPastBlanks? with
  | none => failAhead .endInValue
  | some '[' => bracketed (item.map elements) endList
  | some _ => wrongKind "a sequence"

/-- Reads a record. Inside its bracket, `fromMembers` reads it from named fields and `fromItems`
from a list. -/
def record (s : Shape) (fromMembers fromItems : Option (Reader α)) : Reader α := do
  match ← peekPastBlanks? with
  | none => failAhead .endInValue
  | some '\x7b' => bracketed fromMembers endObject
  | some '[' => bracketed fromItems endList
  | some _ => wrongKind ("struct " ++ s.title)

/-- Reads the fields of a record from an object. `read` takes the value of a named field into what
has been read so far. -/
def fields (s : Shape) (read : String → β → Reader β) (start : β) : Reader β := do
  let done ← foldMembers (fun (seen, b) => do
    let key ← string
    if key ∉ s.fields then failLater (.unknownField key s.fields)
    else if key ∈ seen then failLater (.duplicateField key)
    else do
      colon
      return (key :: seen, ← read key b)) (([] : List String), start)
  return done.2

def required (name : String) : Option α → Reader α
  | some a => pure a
  | none => failLater (.missingField name)

/-- Reads the element of a list that stands for the field with the given number, which has to be
there. -/
def item (s : Shape) (number : Nat) (r : Reader α) : Reader α := do
  match ← element? (number = 0) r with
  | some a => pure a
  | none => failLater (s.tooShort number)

def itemD (number : Nat) (r : Reader α) (default : α) : Reader α := do
  return (← element? (number = 0) r).getD default

end Reader

end TreeQuery.Document
