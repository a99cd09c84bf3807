import TreeQuery.Command.Event

/-!
The messages of a run: reports and log events, which share one channel in the order in which they
are written. Values in a message may contain line ends, so a message can be more lines than one. A
line ends at a line feed, and a carriage return before the end is no part of the line.
-/

set_option autoImplicit false
set_option relaxedAutoImplicit false

namespace TreeQuery.Text

def breakLines : List Char → List (List Char)
  | [] => [[]]
  | c :: rest =>
    if c = '\n' then [] :: breakLines rest
    else
      match breakLines rest with
      | [] => [[c]]
      | line :: later => (c :: line) :: later

def dropReturn (line : List Char) : List Char :=
  if line.getLast? = some '\r' then line.dropLast else line

/-- The lines of a text, at least one. -/
def lines (s : String) : List String :=
  (breakLines s.toList).map fun line => String.ofList (dropReturn line)

theorem breakLines_ne_nil (s : List Char) : breakLines s ≠ [] := by
  cases s with
  | nil => simp [breakLines]
  | cons c rest =>
    rw [breakLines]
    split
    · simp
    · split <;> simp

theorem intercalate_breakLines (s : List Char) : ['\n'].intercalate (breakLines s) = s := by
  induction s with
  | nil => rfl
  | cons c rest ih =>
    obtain ⟨line, later, hb⟩ := List.exists_cons_of_ne_nil (breakLines_ne_nil rest)
    rw [hb] at ih
    rw [breakLines, hb, ← ih]
    split
    · next h => simp [h, List.intercalate, List.intersperse]
    · cases later <;> simp [List.intercalate, List.intersperse]

end TreeQuery.Text

namespace TreeQuery.Command

structure Report where
  headline : String
  details : List String

inductive Message where
  | report (r : Report)
  | event (e : Event)

def opensReport (line : String) : Bool :=
  "Error in ".isPrefixOf line || "Warning: ".isPrefixOf line

namespace Message

/-- The lines of a message that open a report. A line of the log does not, but the lines that
follow it within the same message may. -/
def openings : Message → List String
  | report r => (Text.lines r.headline).filter opensReport
  | event e => (Text.lines e.text).tail.filter opensReport

def logLine? : Message → Option String
  | report _ => none
  | event e => (Text.lines e.text).head?

end Message

end TreeQuery.Command
