import TreeQuery.Frontend.Basic
import TreeQuery.Plan.Statement

/-!
Diagnostics: why a text could not be turned into a pattern, with advice and the place in the text.
-/

set_option autoImplicit false
set_option relaxedAutoImplicit false

namespace TreeQuery

/-- What went wrong with a text. -/
inductive Cause where
  | compile (e : CompileError)
  | selection (e : SelectionError)
  deriving DecidableEq

namespace Cause

def message : Cause → String
  | compile e => e.message
  | selection e => e.message

def code : Cause → String
  | compile (.duplicateToken _) => "CompileError::DuplicateToken"
  | compile .emptyQuery => "CompileError::EmptyQuery"
  | compile (.unknownIdentifier _) => "CompileError::UnknownIdentifier"
  | compile (.unanchoredPredicate _) => "CompileError::UnanchoredPredicate"
  | compile (.inconsistentOrdering _) => "CompileError::InconsistentOrdering"
  | compile (.candidateLimitExceeded _) => "CompileError::CandidateLimitExceeded"
  | compile .emptyPlan => "CompileError::EmptyPlan"
  | compile (.unknownPlanEntry _) => "CompileError::UnknownPlanEntry"
  | selection (.unknownFrontend _) => "TranslateError::UnknownFrontend"
  | selection (.duplicateFrontend _) => "TranslateError::DuplicateFrontend"
  | selection (.unableToGuess _) => "TranslateError::UnableToGuess"
  | selection (.refused (.parsingFailed _)) => "FrontendError::ParsingFailed"
  | selection (.refused (.notSupported _)) => "FrontendError::NotSupported"

def help? : Cause → Option String
  | compile (.unknownIdentifier _) =>
    some "Declare the token, or connect it through a dependency or an order constraint."
  | compile (.unanchoredPredicate _) =>
    some "Attach the predicate to a token, or qualify its attributes with a token."
  | compile (.inconsistentOrdering _) => some "Remove one of the listed order constraints."
  | compile (.candidateLimitExceeded limit) =>
    some ("Add order constraints to reduce the number of alternatives, or raise the limit above "
      ++ toString limit ++ ".")
  | selection (.unknownFrontend name) =>
    some ("'" ++ name ++ "' is not a registered front-end. Use --list to see all of them.")
  | selection (.unableToGuess []) => some "No front-end accepts the query. Check its syntax."
  | selection (.unableToGuess names) =>
    some ("The query is accepted by " ++ ", ".intercalate names
      ++ ". Name the front-end explicitly.")
  | selection (.refused (.parsingFailed es)) => some ("\n".intercalate (es.map InputError.text))
  | _ => none

def position? : Cause → Option Position
  | selection (.refused (.parsingFailed es)) => es.findSome? InputError.position
  | _ => none

end Cause

/-- The byte offset of a place in a text. Characters are passed until the line and the column are
reached, both counted from one; a column beyond the end of its line runs on into the next
lines. `line` and `column` say how many of each have been passed. -/
def offsetFrom (target : Position) (line column : Nat) : List Char → Nat
  | [] => 0
  | c :: rest =>
    if target.line ≤ line + 1 ∧ target.column ≤ column + 1 then 0
    else if c = '\n' then c.utf8Size + offsetFrom target (line + 1) 0 rest
    else c.utf8Size + offsetFrom target line (column + 1) rest

def offset (source : String) (p : Position) : Nat := offsetFrom p 0 0 source.toList

structure Diagnostic where
  cause : Cause
  source : String
  deriving DecidableEq

/-- The byte offset of the place in the text that a diagnostic points at. -/
def Diagnostic.location? (d : Diagnostic) : Option Nat := d.cause.position?.map (offset d.source)

/-- The pattern of a text, read by the named front-end or, without a name, by the only one that
accepts it. -/
def Registry.compile (r : Registry) (o : Options) (input : String) (name : Option String) :
    Except Diagnostic String := do
  let p ← (r.plan input name).mapError fun e => ⟨.selection e, input⟩
  (p.compile o).mapError fun e => ⟨.compile e, input⟩

end TreeQuery
