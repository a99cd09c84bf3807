/-!
Log events and the filters that choose among them.
-/

set_option autoImplicit false
set_option relaxedAutoImplicit false

namespace TreeQuery.Command

inductive Level where
  | error
  | warn
  | info
  | debug
  | trace
  deriving DecidableEq

namespace Level

/-- The levels from the most to the least important count from one. -/
def rank : Level → Nat
  | error => 1
  | warn => 2
  | info => 3
  | debug => 4
  | trace => 5

def text : Level → String
  | error => "ERROR"
  | warn => "WARN"
  | info => "INFO"
  | debug => "DEBUG"
  | trace => "TRACE"

end Level

structure Event where
  level : Level
  target : String
  message : String
  values : List (String × String)
  deriving DecidableEq

def Event.text (e : Event) : String :=
  " ".intercalate ((e.level.text ++ " " ++ e.target ++ ": " ++ e.message)
    :: e.values.map fun v => v.1 ++ "=" ++ v.2)

/-- Asks for the events of the targets that begin with `scope`, up to a rank; zero asks for none. -/
structure Directive where
  scope : String
  rank : Nat

def rankOf? (s : String) : Option Nat :=
  match s.toLower with
  | "off" => some 0
  | "error" => some 1
  | "warn" => some 2
  | "info" => some 3
  | "debug" => some 4
  | "trace" => some 5
  | "0" => some 0
  | "1" => some 1
  | "2" => some 2
  | "3" => some 3
  | "4" => some 4
  | "5" => some 5
  | _ => none

/-- The directive that a text stands for: a level for all targets, a target with a level, or a
target alone, of which all events are asked for. -/
def directiveOf? (s : String) : Option Directive :=
  match rankOf? s with
  | some rank => some ⟨"", rank⟩
  | none =>
    match s.splitOn "=" with
    | [target] => some ⟨target, 5⟩
    | [target, level] => (rankOf? level).map fun rank => ⟨target, rank⟩
    | _ => none

/-- Chooses the events of a log. Of the directives that fit a target, the one with the longest scope
decides. -/
structure Filter where
  directives : List Directive

namespace Filter

/-- The filter that a text stands for, its directives separated by commas. A text without
directives asks for failures only. -/
def parse? (s : String) : Option Filter :=
  match (s.splitOn ",").filter fun d => !d.isEmpty with
  | [] => some ⟨[⟨"", 1⟩]⟩
  | ds => (ds.mapM directiveOf?).map fun directives => ⟨directives⟩

/-- Of two directives, the one with the longer scope; the later one if they are equally long. -/
def closer (best : Option Directive) (d : Directive) : Option Directive :=
  match best with
  | none => some d
  | some b => if d.scope.length < b.scope.length then some b else some d

def decisive? (f : Filter) (target : String) : Option Directive :=
  (f.directives.filter fun d => d.scope.isPrefixOf target).foldl closer none

def keeps (f : Filter) (target : String) (level : Level) : Bool :=
  (f.decisive? target).any fun d => level.rank ≤ d.rank

def select (f : Filter) (events : List Event) : List Event :=
  events.filter fun e => f.keeps e.target e.level

end Filter

end TreeQuery.Command
