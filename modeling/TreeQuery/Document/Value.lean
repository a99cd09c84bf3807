import TreeQuery.Document.Scalar

/-!
Values of any kind.
-/

set_option autoImplicit false
set_option relaxedAutoImplicit false

namespace TreeQuery.Document

/-- A value of any kind. The names in an object may repeat. -/
inductive AnyValue where
  | null
  | boolean (b : Bool)
  | number (n : Number)
  | string (s : String)
  | list (items : List AnyValue)
  | object (members : List (String × AnyValue))

namespace Reader

def member {α : Type} (item : Reader α) (before : List (String × α)) :
    Reader (List (String × α)) := do
  let key ← string
  colon
  return before ++ [(key, ← item)]

/-- Reads a value of any kind, in which at most `depth` brackets are open at a time. -/
def anyValue (depth : Nat) : Reader AnyValue := settle do
  match ← peekPastBlanks? with
  | none => failAhead .endInValue
  | some 'n' => do word "null".toList; pure .null
  | some 't' => do word "true".toList; pure (.boolean true)
  | some 'f' => do word "false".toList; pure (.boolean false)
  | some '"' => return .string (← string)
  | some '[' =>
    match depth with
    | 0 => failAhead .tooDeep
    | depth + 1 => do
      advance
      return .list (← (elements (anyValue depth)).closedBy endList)
  | some '\x7b' =>
    match depth with
    | 0 => failAhead .tooDeep
    | depth + 1 => do
      advance
      return .object (← (foldMembers (member (anyValue depth)) []).closedBy endObject)
  | some ch =>
    if ch = '-' || ch.isDigit then return .number (← number) else failAhead .expectedValue

end Reader

end TreeQuery.Document
