import TreeQuery.Document.Cursor
import TreeQuery.Document.Fault

/-!
Readers: they take a value off the front of a text or fail. A failure keeps the place that was
reached, because a bracket that was opened is closed even after a failure inside it, and a fault
without a place of its own gets the place where that ends.
-/

set_option autoImplicit false
set_option relaxedAutoImplicit false

namespace TreeQuery.Document

abbrev Reader (α : Type) := EStateM Failure Cursor α

namespace Reader

variable {α β : Type}

def failHere (f : Fault) : Reader α := fun c => .error ⟨f, some c.position⟩ c

def failAhead (f : Fault) : Reader α := fun c => .error ⟨f, some c.ahead⟩ c

/-- Fails at a place that is fixed later. -/
def failLater (f : Fault) : Reader α := fun c => .error ⟨f, none⟩ c

/-- Fixes the place of a failure that has none. -/
def settle (r : Reader α) : Reader α := fun c =>
  match r c with
  | .ok a c => .ok a c
  | .error e c => .error { e with position := e.position.or (some c.position) } c

/-- Reads a body and then what closes it. After a failure in the body the end is tried all the
same, but only for the place it leads to. -/
def closedBy (body : Reader α) (close : Reader Unit) : Reader α := settle fun c =>
  match body c with
  | .ok a c =>
    match close c with
    | .ok _ c => .ok a c
    | .error e c => .error e c
  | .error e c =>
    match close c with
    | .ok _ c => .error e c
    | .error _ c => .error e c

def peek? : Reader (Option Char) := fun c => .ok c.peek? c

def advance : Reader Unit := fun c => .ok () c.advance

def peekPastBlanks? : Reader (Option Char) := fun c =>
  .ok c.skipBlanks.peek? c.skipBlanks

def word : List Char → Reader Unit
  | [] => pure ()
  | ch :: rest => do
    match ← peek? with
    | none => failHere .endInValue
    | some found => if found = ch then do advance; word rest else failAhead .expectedWord

def colon : Reader Unit := do
  match ← peekPastBlanks? with
  | some ':' => advance
  | some _ => failAhead .expectedColon
  | none => failAhead .endInObject

/-- Whether another element of a list follows, before which the cursor then stands. -/
def nextElement (first : Bool) : Reader Bool := do
  match ← peekPastBlanks? with
  | none => failAhead .endInList
  | some ']' => pure false
  | some ch =>
    if first then pure true
    else if ch = ',' then do
      advance
      match ← peekPastBlanks? with
      | none => failAhead .endInValue
      | some ']' => failAhead .trailingComma
      | some _ => pure true
    else failAhead .expectedElementEnd

def nextKey (first : Bool) : Reader Bool := do
  match ← peekPastBlanks? with
  | none => failAhead .endInObject
  | some '\x7d' => pure false
  | some ch =>
    if first then if ch = '"' then pure true else failAhead .keyNotString
    else if ch = ',' then do
      advance
      match ← peekPastBlanks? with
      | none => failAhead .endInValue
      | some '\x7d' => failAhead .trailingComma
      | some '"' => pure true
      | some _ => failAhead .keyNotString
    else failAhead .expectedMemberEnd

def endList : Reader Unit := do
  match ← peekPastBlanks? with
  | none => failAhead .endInList
  | some ']' => advance
  | some ',' => do
    advance
    match ← peekPastBlanks? with
    | some ']' => failAhead .trailingComma
    | _ => failAhead .trailingCharacters
  | some _ => failAhead .trailingCharacters

def endObject : Reader Unit := do
  match ← peekPastBlanks? with
  | none => failAhead .endInObject
  | some '\x7d' => advance
  | some ',' => failAhead .trailingComma
  | some _ => failAhead .trailingCharacters

def element? (first : Bool) (item : Reader α) : Reader (Option α) := do
  if ← nextElement first then return some (← item) else return none

def elementsUpTo (item : Reader α) : Nat → Bool → Reader (List α)
  | 0, _ => failAhead .endInList
  | n + 1, first => do
    match ← element? first item with
    | none => return []
    | some a => return a :: (← elementsUpTo item n false)

/-- Reads the elements of a list. Each takes a character of the text at least. -/
def elements (item : Reader α) : Reader (List α) := fun c =>
  elementsUpTo item (c.rest.length + 1) true c

def foldMembersUpTo (member : β → Reader β) : Nat → Bool → β → Reader β
  | 0, _, _ => failAhead .endInObject
  | n + 1, first, b => do
    if ← nextKey first then foldMembersUpTo member n false (← member b) else return b

def foldMembers (member : β → Reader β) (start : β) : Reader β := fun c =>
  foldMembersUpTo member (c.rest.length + 1) true start c

end Reader

end TreeQuery.Document
