import TreeQuery.Command.Run

/-!
The command line: gathers the surroundings of a run, and carries out what the run leaves behind.
-/

set_option autoImplicit false
set_option relaxedAutoImplicit false

namespace TreeQuery.Command

def readEnvironment : IO (List (String × String)) := do
  let names := ["CQPT_CANDIDATE_LIMIT", "CQPT_SPAN", "CQPT_LOG", "RUST_LOG"]
  return (← names.mapM fun name => do
    return (← IO.getEnv name).map fun value => (name, value)).filterMap id

def readContents (path : String) : IO (Except ReadFailure String) := do
  try
    match String.fromUTF8? (← IO.FS.readBinFile path) with
    | some s => return .ok s
    | none => return .error (.refused "stream did not contain valid UTF-8")
  catch
    | .noFileOrDirectory _ _ _ => return .error .notFound
    | e => return .error (.refused (toString e))

/-- The standard input, which is read only if neither queries nor files are given. -/
def readStandardInput (a : Arguments) : IO StandardInput := do
  let stdin ← IO.getStdin
  if !(a.queries.isEmpty && a.files.isEmpty) || a.list then return .bytes .empty
  else if ← stdin.isTty then return .terminal
  else return .bytes (← stdin.readBinToEnd)

/-- What a run with the given arguments finds around it. Files can be written as far as is known
beforehand. -/
def readSurroundings (args : List String) : IO Surroundings := do
  let a := (Arguments.parse args).toOption.getD { list := true }
  let environment ← readEnvironment
  let files ← a.files.mapM fun path => do return (path, ← readContents path)
  let standardInput ← readStandardInput a
  return {
    environment := fun name => environment.lookup name
    standardInput
    contents := fun path => (files.lookup path).getD (.error .notFound)
    writeFailure? := fun _ => none }

/-- Writes the file that a run leaves behind. If that fails, the run is the one that knows so. -/
def writeOutput (w : Surroundings) (args : List String) : IO Outcome := do
  let outcome := run w args
  match outcome.written with
  | none => return outcome
  | some (path, text) =>
    try
      IO.FS.writeFile path text
      return outcome
    catch e => return run { w with writeFailure? := fun _ => some (toString e) } args

def printOutcome (o : Outcome) : IO Unit := do
  for m in o.messages do
    match m with
    | .report r =>
      IO.eprintln r.headline
      for detail in r.details do
        for line in Text.lines detail do IO.eprintln ("  " ++ line)
    | .event e => IO.eprintln e.text
  IO.print o.output
  match o.ending with
  | .success => pure ()
  | .failure _ message => IO.eprintln ("Error: " ++ message)
  | .usage u => unless u.status = 0 do IO.eprintln ("error: " ++ u.kind)

end TreeQuery.Command

def main (args : List String) : IO UInt32 := do
  let w ← TreeQuery.Command.readSurroundings args
  let outcome ← TreeQuery.Command.writeOutput w args
  TreeQuery.Command.printOutcome outcome
  return outcome.status.toUInt32
