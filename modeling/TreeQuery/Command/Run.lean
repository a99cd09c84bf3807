import TreeQuery.Command.Arguments
import TreeQuery.Command.Journal
import TreeQuery.Command.Message
import TreeQuery.Document.Meaning

/-!
A run of the command, as a function of its surroundings: the environment, the standard input and
the files it can read.
-/

set_option autoImplicit false
set_option relaxedAutoImplicit false

namespace TreeQuery.Command

inductive ReadFailure where
  | notFound
  | refused (reason : String)

def ReadFailure.message (path : String) : ReadFailure → String
  | notFound => "File not found: " ++ path
  | refused reason => "Failed to read " ++ path ++ ": " ++ reason

inductive StandardInput where
  | terminal
  | bytes (content : ByteArray)

/-- What a run finds around it. -/
structure Surroundings where
  environment : String → Option String
  standardInput : StandardInput
  contents : String → Except ReadFailure String
  writeFailure? : String → Option String

inductive Ending where
  | success
  | failure (code : Option String) (message : String)
  | usage (u : Usage)

/-- What a run leaves behind. -/
structure Outcome where
  ending : Ending
  output : String := ""
  written : Option (String × String) := none
  messages : List Message := []

namespace Outcome

def status (o : Outcome) : Nat :=
  match o.ending with
  | .success => 0
  | .failure _ _ => 1
  | .usage u => u.status

def openings (o : Outcome) : List String := o.messages.flatMap Message.openings

def log (o : Outcome) : List String := o.messages.filterMap Message.logLine?

end Outcome

def versionText : String := "cqpt 0.1.0\n"

def helpText : String := "cqpt translates dependency-tree queries into CQP patterns.

Usage: cqpt [OPTIONS] [FRONTEND]

Arguments:
  [FRONTEND]  Front-end the queries are written for. Guessed when omitted

Options:
  -q, --query <QUERY>  Query to translate. May be repeated
  -f, --file <FILE>    Read a query from the file. May be repeated
  -o, --output <FILE>  Write the patterns to the file instead of stdout
      --span <SPAN>    Restrict matches to the structure, such as `s`
      --limit <LIMIT>  Fail a query that expands to more alternatives than this
      --list           List the available front-ends
  -h, --help           Print help
  -V, --version        Print version
"

def listing (r : Registry) : String :=
  "\n".intercalate ("Front-ends:" :: r.names.map fun name => "  " ++ name) ++ "\n"

structure Input where
  origin : String
  content : String

def inputReport (origin : String) (details : List String) : Message :=
  .report ⟨"Error in " ++ origin, details⟩

def diagnosticDetails (d : Diagnostic) : List String :=
  (d.cause.code ++ ": " ++ d.cause.message) :: d.cause.help?.toList

def queryInputs (a : Arguments) : List Input :=
  a.queries.zipIdx.map fun e => ⟨"query #" ++ toString (e.2 + 1), e.1⟩

/-- The files among the arguments that can be read, and reports on the others. -/
def fileInputs (w : Surroundings) (a : Arguments) : List Input × List Message :=
  (a.files.filterMap fun f => (w.contents f).toOption.map fun content => ⟨f, content⟩,
    a.files.filterMap fun f =>
      match w.contents f with
      | .ok _ => none
      | .error e => some (inputReport f [e.message f]))

def standardInputs (w : Surroundings) : Except String (List Input) :=
  match w.standardInput with
  | .terminal => .error "Query is required"
  | .bytes content =>
    match String.fromUTF8? content with
    | none => .error "stream did not contain valid UTF-8"
    | some s => .ok [⟨"<stdin>", s⟩]

/-- The inputs of a run and reports on the files that cannot be read. The standard input is used
if neither queries nor files are given. -/
def inputs (w : Surroundings) (a : Arguments) : Except String (List Input × List Message) :=
  if a.queries.isEmpty && a.files.isEmpty then do return (← standardInputs w, [])
  else
    let (files, reports) := fileInputs w a
    .ok (queryInputs a ++ files, reports)

structure Results where
  patterns : List String := []
  messages : List Message := []

def compiledEvent (i : Input) : Event :=
  ⟨.debug, "cqpt_run::cli", "translated query", [("origin", i.origin)]⟩

def incompleteEvent (failed total : Nat) : Event :=
  ⟨.warn, "cqpt_run::cli", "some queries were not translated",
    [counted "failed" failed, counted "total" total]⟩

def eventMessages (f : Filter) (events : List Event) : List Message :=
  (f.select events).map .event

/-- The messages about the steps of compiling an input. They are only worked out if the filter may
keep some. -/
def inputMessages (f : Filter) (r : Registry) (o : Options) (name : Option String) (i : Input) :
    List Message :=
  if f.directives.any fun d => Level.debug.rank ≤ d.rank then
    eventMessages f (textEvents (f.keeps "cqpt_lang::linearize" .trace) r o i.content name)
  else []

def compileInput (f : Filter) (r : Registry) (o : Options) (name : Option String)
    (done : Results) (i : Input) : Results :=
  let messages := done.messages ++ inputMessages f r o name i
  match r.compile o i.content name with
  | .ok pattern => {
      patterns := done.patterns ++ [pattern]
      messages := messages ++ eventMessages f [compiledEvent i] }
  | .error d => {
      patterns := done.patterns
      messages := messages ++ [inputReport i.origin (diagnosticDetails d)] }

/-- How a run ends after compiling `total` inputs into `compiled` patterns. -/
def finish (f : Filter) (total compiled : Nat) (o : Outcome) : Outcome :=
  if compiled = 0 then { o with ending := .failure none "No query was translated" }
  else if compiled < total then
    { o with
      messages := o.messages ++ eventMessages f [incompleteEvent (total - compiled) total] }
  else o

def compileAll (w : Surroundings) (f : Filter) (r : Registry) (o : Options) (a : Arguments)
    (warnings : List Message) : Outcome :=
  match inputs w a with
  | .error message => { ending := .failure none message, messages := warnings }
  | .ok (found, unreadable) =>
    let done := found.foldl (compileInput f r o a.frontend) {}
    let messages := warnings ++ unreadable ++ done.messages
    let text := String.join (done.patterns.map fun p => p ++ "\n")
    let finished := finish f (found.length + unreadable.length) done.patterns.length
    match a.output with
    | none => finished { ending := .success, output := text, messages }
    | some path =>
      match w.writeFailure? path with
      | some message => { ending := .failure none message, messages }
      | none => finished { ending := .success, written := some (path, text), messages }

/-- A run with arguments that have been read. The front-end has to be known and the span has to be
the name of a structure. -/
def runWith (w : Surroundings) (a : Arguments) : Outcome :=
  let r := Registry.standard
  if a.list then { ending := .success, output := listing r }
  else
    let (settings, complaints) := Settings.ofEnvironment w.environment
    let warnings : List Message := complaints.map fun m => .report ⟨m, []⟩
    let f := ((Filter.parse? settings.logFilter).or
      (Filter.parse? ({} : Settings).logFilter)).getD ⟨[]⟩
    match a.frontend.filter fun name => (r.get? name).isNone with
    | some name =>
      let cause := Cause.selection (.unknownFrontend name)
      { ending := .failure (some cause.code) cause.message, messages := warnings }
    | none =>
      match a.span.filter fun s => !isSpan s with
      | some s =>
        { ending := .failure none ("Invalid --span value '" ++ s ++ "'"), messages := warnings }
      | none =>
        let o : Options := {
          candidateLimit := a.limit.or settings.candidateLimit
          span := a.span.or settings.span }
        compileAll w f r o a warnings

def run (w : Surroundings) (args : List String) : Outcome :=
  match Arguments.parse args with
  | .ok a => runWith w a
  | .error u =>
    let output := match u with
      | .displayHelp => helpText
      | .displayVersion => versionText
      | _ => ""
    { ending := .usage u, output := output }

end TreeQuery.Command
