import TreeQuery.Command.Event
import TreeQuery.Diagnostic
import TreeQuery.Text.Quoted

/-!
The events of compiling a text, in the order in which they happen. Compilation itself keeps no
log: its events follow from the values it computes.
-/

set_option autoImplicit false
set_option relaxedAutoImplicit false

namespace TreeQuery.Command

def counted (name : String) (n : Nat) : String × String := (name, toString n)

def placedEvent (pl : Placement) : Event :=
  ⟨.debug, "cqpt_lang::placement", "placed predicates",
    [counted "placed" pl.merged.length, counted "deferred" pl.deferred.length]⟩

def orderedEvent (q : Query) (cs : List Order.Component) : Event :=
  ⟨.debug, "cqpt_lang::ordering", "built ordering model",
    [counted "tokens" q.identifiers.length, counted "components" cs.length]⟩

def laidOutEvent (ls : List Arrangement.Layout) : Event :=
  ⟨.debug, "cqpt_lang::linearize", "prepared linearization",
    [counted "components" ls.length, counted "blocks" (ls.flatMap fun l => l.blocks).length]⟩

def candidateEvent (c : Candidate) : Event :=
  ⟨.trace, "cqpt_lang::linearize", "candidate", [("candidate", c.text)]⟩

def collectedEvent (a : Pattern.Alternation) : Event :=
  ⟨.debug, "cqpt_lang::emit", "emitted pattern",
    [counted "alternatives" a.alternatives.length,
      counted "duplicates" (a.examined - a.alternatives.length)]⟩

def statementsEvent (count : Nat) : Event :=
  ⟨.debug, "cqpt_lang::compile", "compiled execution plan", [counted "statements" count]⟩

def refusedEvent (name : String) (e : FrontendError) : Event :=
  ⟨.trace, "cqpt_lang::frontend", "front-end rejected input",
    [("frontend", Text.quoted name), ("error", e.message)]⟩

/-- The events of collecting the alternatives of the candidates. Candidates are only listed if
they are asked for. -/
def collectingEvents (listed : Bool) (o : Options) (q : Query) (pl : Placement)
    (ls : List Arrangement.Layout) : List Event :=
  let candidates := Arrangement.candidates ls
  let a := Pattern.Alternation.collect o.candidateLimit
    (candidates.map (Pattern.candidateText q pl))
  (if listed then (candidates.take a.examined).map candidateEvent else [])
    ++ if a.complete then [collectedEvent a] else []

/-- The events of compiling a query, up to the step that fails. -/
def queryEvents (listed : Bool) (o : Options) (q : Query) : List Event :=
  match Placement.ofQuery q with
  | .error _ => []
  | .ok pl =>
    placedEvent pl :: match Order.components q with
      | .error _ => []
      | .ok cs =>
        orderedEvent q cs :: match Arrangement.layouts cs with
          | .error _ => []
          | .ok ls => laidOutEvent ls :: collectingEvents listed o q pl ls

/-- The events of compiling the entries of a plan, up to the one that fails, and whether none
does. -/
def entriesEvents (listed : Bool) (o : Options) :
    List (Handle × PlanEntry) → List Event × Bool
  | [] => ([], true)
  | (h, e) :: rest =>
    let own := (e.query?.map (queryEvents listed o)).getD []
    match Plan.statementOf o h e with
    | .error _ => (own, false)
    | .ok _ =>
      let (later, complete) := entriesEvents listed o rest
      (own ++ later, complete)

def planEvents (listed : Bool) (o : Options) (p : Plan) : List Event :=
  match p.single? with
  | some q => queryEvents listed o q
  | none =>
    let (events, complete) := entriesEvents listed o p.entries.toList
    events ++ if complete then [statementsEvent (p.entries.size + 1)] else []

/-- The events of compiling a text. Front-ends that refuse it are mentioned if one has to be
guessed. -/
def textEvents (listed : Bool) (r : Registry) (o : Options) (input : String)
    (name : Option String) : List Event :=
  let refused := if name.isSome then []
    else (r.refusing input).map fun e => refusedEvent e.1 e.2
  refused ++ match r.plan input name with
    | .error _ => []
    | .ok p => planEvents listed o p

end TreeQuery.Command
