import TreeQuery.Command.Settings

/-!
The arguments of the command. An option that takes a value holds back until its value is known; it
is settled when the next option or front-end arrives, or at the end.
-/

set_option autoImplicit false
set_option relaxedAutoImplicit false

namespace TreeQuery.Command

structure Arguments where
  queries : List String := []
  files : List String := []
  output : Option String := none
  span : Option String := none
  limit : Option Nat := none
  list : Bool := false
  frontend : Option String := none
  deriving DecidableEq

inductive Usage where
  | displayHelp
  | displayVersion
  | unknownArgument
  | invalidValue
  | valueValidation
  | argumentConflict
  | tooManyValues
  deriving DecidableEq

namespace Usage

def kind : Usage → String
  | displayHelp => "DisplayHelp"
  | displayVersion => "DisplayVersion"
  | unknownArgument => "UnknownArgument"
  | invalidValue => "InvalidValue"
  | valueValidation => "ValueValidation"
  | argumentConflict => "ArgumentConflict"
  | tooManyValues => "TooManyValues"

/-- The exit status: zero if the user asked for a text. -/
def status : Usage → Nat
  | displayHelp => 0
  | displayVersion => 0
  | _ => 2

end Usage

inductive ValueOption where
  | query
  | file
  | output
  | span
  | limit
  deriving DecidableEq

inductive Flag where
  | list
  | help
  | version
  deriving DecidableEq

inductive Switch where
  | valued (o : ValueOption)
  | flag (f : Flag)

def longSwitch? : String → Option Switch
  | "query" => some (.valued .query)
  | "file" => some (.valued .file)
  | "output" => some (.valued .output)
  | "span" => some (.valued .span)
  | "limit" => some (.valued .limit)
  | "list" => some (.flag .list)
  | "help" => some (.flag .help)
  | "version" => some (.flag .version)
  | _ => none

def shortSwitch? : Char → Option Switch
  | 'q' => some (.valued .query)
  | 'f' => some (.valued .file)
  | 'o' => some (.valued .output)
  | 'h' => some (.flag .help)
  | 'V' => some (.flag .version)
  | _ => none

/-- The arguments read so far. An option whose value may still follow is pending. -/
structure Progress where
  arguments : Arguments := {}
  pending : Option (ValueOption × Option String) := none
  optionsEnded : Bool := false

namespace Arguments

/-- Sets the value of an option. Only queries and files may be given more than once, and paths may
not be empty. -/
def set (a : Arguments) (o : ValueOption) (value : String) : Except Usage Arguments :=
  match o with
  | .query => .ok { a with queries := a.queries ++ [value] }
  | .file =>
    if value.isEmpty then .error .invalidValue else .ok { a with files := a.files ++ [value] }
  | .output =>
    if a.output.isSome then .error .argumentConflict
    else if value.isEmpty then .error .invalidValue
    else .ok { a with output := some value }
  | .span =>
    if a.span.isSome then .error .argumentConflict else .ok { a with span := some value }
  | .limit =>
    if a.limit.isSome then .error .argumentConflict
    else
      match parseSize? value with
      | some n => .ok { a with limit := some n }
      | none => .error .valueValidation

end Arguments

namespace Progress

/-- Settles the option that is held back, which by now needs a value. -/
def settle (p : Progress) : Except Usage Progress :=
  match p.pending with
  | none => .ok p
  | some (_, none) => .error .invalidValue
  | some (o, some value) => do
    return { p with arguments := ← p.arguments.set o value, pending := none }

/-- Takes an option with a value, or holds it back if the value is still to come. -/
def takeValued (p : Progress) (o : ValueOption) (value : Option String) :
    Except Usage Progress := do
  let p ← p.settle
  match value with
  | some v => return { p with arguments := ← p.arguments.set o v }
  | none => return { p with pending := some (o, none) }

def takeFlag (p : Progress) (f : Flag) : Except Usage Progress := do
  let p ← p.settle
  match f with
  | .help => .error .displayHelp
  | .version => .error .displayVersion
  | .list =>
    if p.arguments.list then .error .argumentConflict
    else .ok { p with arguments := { p.arguments with list := true } }

def takeLong (p : Progress) (written : List Char) : Except Usage Progress :=
  let name := String.ofList (written.takeWhile fun c => c ≠ '=')
  let value := match written.dropWhile fun c => c ≠ '=' with
    | [] => none
    | _ :: value => some (String.ofList value)
  match longSwitch? name with
  | none => .error .unknownArgument
  | some (.valued o) => p.takeValued o value
  | some (.flag f) => if value.isSome then .error .tooManyValues else p.takeFlag f

/-- Takes short options written together, without the dash. The first that takes a value takes
what is left, after an optional equals sign. -/
def takeShort (p : Progress) : List Char → Except Usage Progress
  | [] => .ok p
  | c :: rest =>
    match shortSwitch? c with
    | none => .error .unknownArgument
    | some (.flag f) => do takeShort (← p.takeFlag f) rest
    | some (.valued o) =>
      match rest with
      | [] => p.takeValued o none
      | '=' :: value => p.takeValued o (some (String.ofList value))
      | value => p.takeValued o (some (String.ofList value))

/-- Takes an argument that is no option: the name of the front-end, of which there is only one. -/
def takePositional (p : Progress) (s : String) : Except Usage Progress :=
  if p.arguments.frontend.isSome then .error .unknownArgument
  else do
    let p ← p.settle
    return { p with arguments := { p.arguments with frontend := some s } }

def take (p : Progress) (s : String) : Except Usage Progress :=
  if p.optionsEnded then p.takePositional s
  else
    match s.toList with
    | ['-', '-'] => .ok { p with optionsEnded := true }
    | '-' :: '-' :: written => p.takeLong written
    | '-' :: c :: rest => p.takeShort (c :: rest)
    | _ =>
      match p.pending with
      | some (o, none) => .ok { p with pending := some (o, some s) }
      | _ => p.takePositional s

end Progress

def Arguments.parse (args : List String) : Except Usage Arguments := do
  let p ← args.foldlM Progress.take {}
  return (← p.settle).arguments

end TreeQuery.Command
