import TreeQuery.Document.Number
import TreeQuery.Frontend.Basic
import TreeQuery.Text.Quoted

/-!
What can be wrong with a document: its text may break the rules of the notation, or a value may
not be of the kind that its place asks for.
-/

set_option autoImplicit false
set_option relaxedAutoImplicit false

namespace TreeQuery.Document

/-- What was found in a place that asks for something else. -/
inductive Found where
  | null
  | boolean (b : Bool)
  | number (n : Number)
  | string (s : String)
  | sequence
  | map
  | bareKeyword

inductive Fault where
  | endInValue
  | endInList
  | endInObject
  | endInString
  | expectedColon
  | expectedElementEnd
  | expectedMemberEnd
  | expectedWord
  | expectedValue
  | keyNotString
  | trailingComma
  | trailingCharacters
  | controlCharacter
  | invalidEscape
  | invalidNumber
  | numberOutOfRange
  | loneSurrogate
  | missingSurrogate
  | tooDeep
  | unknownField (name : String) (fields : List String)
  | unknownKeyword (name : String) (keywords : List String)
  | duplicateField (name : String)
  | missingField (name : String)
  | tooShort (length : Nat) (expected : String)
  | wrongKind (found : Found) (expected : String)
  | noOperand

/-- How floating point numbers are shown: with an exponent if the first digit stands beyond the
sixteenth place before the point or the fifth after it. -/
def floatFormat : Decimal.Format := ⟨-5, 15, "+"⟩

def marked (s : String) : String := "`" ++ s ++ "`"

def Found.text : Found → String
  | null => "null"
  | boolean b => "boolean " ++ marked (if b then "true" else "false")
  | number (.integer n) => "integer " ++ marked (toString n)
  | number (.float x) => "floating point " ++ marked (Decimal.text floatFormat x)
  | string s => "string " ++ Text.quoted s
  | sequence => "sequence"
  | map => "map"
  | bareKeyword => "unit variant"

def oneOf : List String → String
  | [a, b] => marked a ++ " or " ++ marked b
  | names => "one of " ++ ", ".intercalate (names.map marked)

def Fault.message : Fault → String
  | endInValue => "EOF while parsing a value"
  | endInList => "EOF while parsing a list"
  | endInObject => "EOF while parsing an object"
  | endInString => "EOF while parsing a string"
  | expectedColon => "expected " ++ marked ":"
  | expectedElementEnd => "expected " ++ marked "," ++ " or " ++ marked "]"
  | expectedMemberEnd => "expected " ++ marked "," ++ " or " ++ marked "\x7d"
  | expectedWord => "expected ident"
  | expectedValue => "expected value"
  | keyNotString => "key must be a string"
  | trailingComma => "trailing comma"
  | trailingCharacters => "trailing characters"
  | controlCharacter => "control character (\\u0000-\\u001F) found while parsing a string"
  | invalidEscape => "invalid escape"
  | invalidNumber => "invalid number"
  | numberOutOfRange => "number out of range"
  | loneSurrogate => "lone leading surrogate in hex escape"
  | missingSurrogate => "unexpected end of hex escape"
  | tooDeep => "recursion limit exceeded"
  | unknownField name fields => "unknown field " ++ marked name ++ ", expected " ++ oneOf fields
  | unknownKeyword name keywords =>
    "unknown variant " ++ marked name ++ ", expected " ++ oneOf keywords
  | duplicateField name => "duplicate field " ++ marked name
  | missingField name => "missing field " ++ marked name
  | tooShort length expected => "invalid length " ++ toString length ++ ", expected " ++ expected
  | wrongKind found expected => "invalid type: " ++ found.text ++ ", expected " ++ expected
  | noOperand => "data did not match any variant of untagged enum OperandDoc"

/-- A fault and where it was found. A fault in the kind of a value has no place at first. -/
structure Failure where
  fault : Fault
  position : Option Position

def Failure.inputError (f : Failure) : InputError :=
  match f.position with
  | some p => ⟨some p, f.fault.message ++ " at line " ++ toString p.line ++ " column "
      ++ toString p.column⟩
  | none => ⟨none, f.fault.message⟩

end TreeQuery.Document
