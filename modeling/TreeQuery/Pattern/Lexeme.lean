import TreeQuery.Predicate

/-!
The written form of predicates. A predicate is first laid out as a sequence of lexemes, whose
parentheses follow from how strongly each form of predicate binds; the text of the sequence is the
texts of its lexemes one after the other. A pattern matches its strings as regular expressions, so
the special characters of a literal are escaped; quotes inside a string are escaped in any case.
-/

set_option autoImplicit false
set_option relaxedAutoImplicit false

namespace TreeQuery.Pattern

def isSpecial (c : Char) : Bool :=
  c ∈ ['\\', '.', '|', '+', '?', '*', '[', ']', '(', ')', '\x7b', '\x7d', '^', '$']

/-- The regular expression that matches exactly a given text. -/
def escape : List Char → List Char
  | [] => []
  | c :: rest => if isSpecial c then '\\' :: c :: escape rest else c :: escape rest

def escapeQuotes : List Char → List Char
  | [] => []
  | c :: rest => if c = '"' then '\\' :: c :: escapeQuotes rest else c :: escapeQuotes rest

def quoted (text : List Char) : List Char := '"' :: escapeQuotes text ++ ['"']

/-- How strongly a predicate binds when written, or how strongly the place where it is written
asks it to bind. -/
inductive Binding where
  | top
  | junction
  | negation
  | comparison
  | atom
  deriving DecidableEq

def Binding.strength : Binding → Nat
  | top => 0
  | junction => 1
  | negation => 2
  | comparison => 3
  | atom => 4

def Binding.of : Predicate → Binding
  | .junction _ _ _ => junction
  | .negation _ => negation
  | .comparison _ _ _ => comparison
  | .presence _ => atom
  | .absence _ => atom

inductive Lexeme where
  | attr (a : Attribute)
  | comparison (r : Comparator) (left right : Operand)
  | negator
  | connective (c : Connective)
  | opening
  | closing
  deriving DecidableEq

/-- Puts parentheses around a predicate that binds less strongly than its place asks. -/
def parenthesize (place : Binding) (own : Binding) (inner : List Lexeme) : List Lexeme :=
  if own.strength < place.strength then .opening :: inner ++ [.closing] else inner

/-- The place of an operand of a junction. Operands that are junctions of the same connective are
written without parentheses, other junctions with them. -/
def operandPlace (c : Connective) : Predicate → Binding
  | .junction d _ _ => if d = c then .top else .negation
  | _ => .negation

def lexemes (place : Binding) : Predicate → List Lexeme
  | .junction c l r => parenthesize place .junction
      (lexemes (operandPlace c l) l ++ .connective c :: lexemes (operandPlace c r) r)
  | .negation p => parenthesize place .negation (.negator :: lexemes .atom p)
  | .presence a => [.attr a]
  | .absence a => [.negator, .attr a]
  | .comparison s l r => parenthesize place .comparison [.comparison s l r]

abbrev Labels := List (Identifier × String)

/-- The text that refers to a token: its label, or the handle itself if it has no label. -/
def reference (labels : Labels) (i : Identifier) : String := (labels.lookup i).getD i.text

def attributeText (labels : Labels) (a : Attribute) : String :=
  match a.owner with
  | some i => reference labels i ++ "." ++ a.name
  | none => a.name

def valueText : Value → String
  | .literal t => String.ofList (quoted (escape t.toList))
  | .regex t => String.ofList (quoted t.toList)
  | .regexIgnoringCase t => String.ofList (quoted t.toList) ++ "%c"

def operandText (labels : Labels) : Operand → String
  | .attr a => attributeText labels a
  | .value v => valueText v

def comparatorText : Comparator → String
  | .equal => "="
  | .differ => "!="

def Lexeme.text (labels : Labels) : Lexeme → String
  | attr a => attributeText labels a
  | comparison r x y =>
    operandText labels x ++ " " ++ comparatorText r ++ " " ++ operandText labels y
  | negator => "!"
  | connective .conj => " & "
  | connective .disj => " | "
  | opening => "("
  | closing => ")"

def predicateText (labels : Labels) (place : Binding) (p : Predicate) : String :=
  String.join ((lexemes place p).map (Lexeme.text labels))

end TreeQuery.Pattern
