import TreeQuery.Plan.Basic

/-!
Front-ends, which read query texts, and the registry that picks one of them for a text.
-/

set_option autoImplicit false
set_option relaxedAutoImplicit false

namespace TreeQuery

/-- A place in a text. Lines count from one; columns count the bytes before the place. -/
structure Position where
  line : Nat
  column : Nat
  deriving DecidableEq

structure InputError where
  position : Option Position
  message : String
  deriving DecidableEq

def InputError.text (e : InputError) : String :=
  match e.position with
  | some p => toString p.line ++ ":" ++ toString p.column ++ ": " ++ e.message
  | none => e.message

inductive FrontendError where
  | parsingFailed (errors : List InputError)
  | notSupported (reason : String)
  deriving DecidableEq

def FrontendError.message : FrontendError → String
  | parsingFailed es => "Parsing failed. Detected " ++ toString es.length ++ " error(s)."
  | notSupported reason => "Query cannot be translated: " ++ reason

inductive SelectionError where
  | unknownFrontend (name : String)
  | duplicateFrontend (name : String)
  | unableToGuess (accepting : List String)
  | refused (e : FrontendError)
  deriving DecidableEq

def SelectionError.message : SelectionError → String
  | unknownFrontend name => "Unknown front-end: " ++ name
  | duplicateFrontend name => "A front-end named " ++ name ++ " is already registered"
  | unableToGuess accepting =>
    "Cannot guess front-end for query: "
      ++ if accepting.isEmpty then "no front-end matches" else "multiple front-ends match"
  | refused e => e.message

structure Frontend where
  name : String
  read : String → Except FrontendError Plan

/-- The known front-ends in the order of their registration. -/
structure Registry where
  frontends : List Frontend

namespace Registry

def empty : Registry := ⟨[]⟩

def names (r : Registry) : List String := r.frontends.map Frontend.name

def get? (r : Registry) (name : String) : Option Frontend :=
  r.frontends.find? fun f => f.name = name

/-- Adds a front-end, unless its name is taken. -/
def register (r : Registry) (f : Frontend) : Except SelectionError Registry :=
  if (r.get? f.name).isSome then .error (.duplicateFrontend f.name)
  else .ok ⟨r.frontends ++ [f]⟩

def accepting (r : Registry) (input : String) : List (String × Plan) :=
  r.frontends.filterMap fun f => (f.read input).toOption.map fun p => (f.name, p)

def refusing (r : Registry) (input : String) : List (String × FrontendError) :=
  r.frontends.filterMap fun f =>
    match f.read input with
    | .ok _ => none
    | .error e => some (f.name, e)

/-- The plan of a text. It is read by the front-end of the given name or, without a name, by the
only one that accepts it. -/
def plan (r : Registry) (input : String) : Option String → Except SelectionError Plan
  | some name =>
    match r.get? name with
    | none => .error (.unknownFrontend name)
    | some f => (f.read input).mapError .refused
  | none =>
    match r.accepting input with
    | [(_, p)] => .ok p
    | others => .error (.unableToGuess (others.map Prod.fst))

end Registry

end TreeQuery
