import TreeQuery.Arrangement.Candidate
import TreeQuery.Pattern.Lexeme
import TreeQuery.Placement
import Std.Data.HashSet

/-!
The alternatives of a pattern, one for each candidate. A condition that relates several
tokens is carried by the last of them, which refers to the others by label; so is the condition
that one token depends on another. Labels are the words over an alphabet, numbered by length and
then alphabetically: `a, b, …, z, aa, ab, …`. The alternatives are joined in order, without those
that have occurred before; a limit bounds how many there may be.
-/

set_option autoImplicit false
set_option relaxedAutoImplicit false

namespace TreeQuery.Pattern

/-- The word with number `n`, of at most `bound` symbols: its last symbol is the remainder of `n`,
and what precedes it, if anything, is numbered by the quotient less one. -/
def spell {α : Type} (alphabet : List α) : Nat → Nat → List α
  | 0, _ => []
  | bound + 1, n =>
    let last := alphabet[n % alphabet.length]?.toList
    if n < alphabet.length then last
    else spell alphabet bound (n / alphabet.length - 1) ++ last

/-- The word with number `n` over an alphabet. It has at most `n + 1` symbols. -/
def word {α : Type} (alphabet : List α) (n : Nat) : List α := spell alphabet (n + 1) n

def labelAlphabet : List Char := "abcdefghijklmnopqrstuvwxyz".toList

def entryAlphabet : List Char := "ABCDEFGHIJKLMNOPQRSTUVWXYZ".toList

def label (n : Nat) : String := String.ofList (word labelAlphabet n)

def entryName (n : Nat) : String := String.ofList (word entryAlphabet n)

/-- One token of an alternative. Attributes with an owner refer to the token with its label. -/
structure Slot where
  identifier : Identifier
  conjuncts : List Predicate
  deriving DecidableEq

structure Alternative where
  slots : List Slot
  gaps : List Gap
  labels : Labels
  deriving DecidableEq

/-- The last position of each token of a sequence. -/
def positions (tokens : List Identifier) : List (Identifier × Nat) := tokens.zipIdx.reverse

/-- Whether one position comes before another. No position comes before every position. -/
def precedes : Option Nat → Option Nat → Bool
  | none, some _ => true
  | some m, some n => m < n
  | _, none => false

def latest? (place : List (Identifier × Nat)) : List Identifier → Option Identifier
  | [] => none
  | i :: rest => some (rest.foldl (fun best j =>
      if precedes (place.lookup j) (place.lookup best) then best else j) i)

/-- Conditions that a token carries, with its own attributes local, and the other tokens that they
refer to. -/
structure Attachment where
  carrier : Identifier
  conjuncts : List Predicate
  references : List Identifier

/-- The last of its tokens carries a predicate. -/
def Attachment.ofPredicate (place : List (Identifier × Nat)) (p : Predicate) :
    Option Attachment :=
  (latest? place p.owners).map fun i => {
    carrier := i
    conjuncts := (p.lower i).conjuncts
    references := p.owners.filter fun j => j ≠ i }

def nodeAttribute (owner : Option Identifier) : Operand := .attr ⟨owner, "ref"⟩

def headAttribute (owner : Option Identifier) : Operand := .attr ⟨owner, "dephead"⟩

/-- The later end of a dependency carries the condition that the head of the dependent is the
governor. A dependency whose ends have the same place carries none. -/
def Attachment.ofDependency (place : List (Identifier × Nat)) (d : Dependency) :
    Option Attachment :=
  if precedes (place.lookup d.governor) (place.lookup d.dependent) then
    some {
      carrier := d.dependent
      conjuncts := [.comparison .equal (headAttribute none) (nodeAttribute (some d.governor))]
      references := [d.governor] }
  else if precedes (place.lookup d.dependent) (place.lookup d.governor) then
    some {
      carrier := d.governor
      conjuncts := [.comparison .equal (headAttribute (some d.dependent)) (nodeAttribute none)]
      references := [d.dependent] }
  else none

def attachments (q : Query) (pl : Placement) (tokens : List Identifier) : List Attachment :=
  let place := positions tokens
  pl.deferred.filterMap (Attachment.ofPredicate place)
    ++ q.dependencies.filterMap (Attachment.ofDependency place)

/-- The labels of a sequence: the tokens that are referred to are named from left to right. A
token that occurs twice goes by its last label. -/
def labelsOf (referenced : List Identifier) (tokens : List Identifier) : Labels :=
  ((tokens.filter fun i => i ∈ referenced).zipIdx.map fun e => (e.1, label e.2)).reverse

/-- The alternative of a candidate: each token has its merged conditions, once for each time it
occurs, and those attached to it. -/
def Alternative.ofCandidate (q : Query) (pl : Placement) (c : Candidate) : Alternative :=
  let attached := attachments q pl c.tokens
  { slots := c.tokens.map fun i => {
      identifier := i
      conjuncts :=
        (c.tokens.filter fun j => j = i).flatMap (fun j =>
          ((pl.predicate? j).map Predicate.conjuncts).getD [])
        ++ (attached.filter fun a => a.carrier = i).flatMap Attachment.conjuncts }
    gaps := c.gaps
    labels := labelsOf (attached.flatMap Attachment.references) c.tokens }

def Slot.text (labels : Labels) (s : Slot) : String :=
  let head := match labels.lookup s.identifier with
    | some l => l ++ ":"
    | none => ""
  let place := if 1 < s.conjuncts.length then Binding.negation else .top
  head ++ "[" ++ " & ".intercalate (s.conjuncts.map (predicateText labels place)) ++ "]"

/-- The text between two tokens; a gap that is not stated is unbounded. -/
def separator : Option Gap → String
  | some .adjacent => " "
  | some .unbounded => " []* "
  | none => " []* "

def tailText (labels : Labels) : List Gap → List Slot → String
  | _, [] => ""
  | gaps, s :: rest => separator gaps.head? ++ s.text labels ++ tailText labels gaps.tail rest

def Alternative.text (a : Alternative) : String :=
  match a.slots with
  | [] => ""
  | s :: rest => s.text a.labels ++ tailText a.labels a.gaps rest

def candidateText (q : Query) (pl : Placement) (c : Candidate) : String :=
  (Alternative.ofCandidate q pl c).text

/-- The outcome of collecting alternatives. It is complete if all texts were looked at, so that the
limit was kept. -/
structure Alternation where
  alternatives : List String
  examined : Nat
  complete : Bool

namespace Alternation

/-- Collects the distinct texts of an enumeration, given those `kept` so far among the `examined`
ones. It stops at a new text that the limit does not allow. -/
def collectFrom (limit : Option Nat) :
    Enumeration String → Std.HashSet String → Array String → Nat → Alternation
  | .nil, _, kept, examined => ⟨kept.toList, examined, true⟩
  | .cons text rest, seen, kept, examined =>
    if seen.contains text then collectFrom limit (rest ()) seen kept (examined + 1)
    else if limit.any fun l => l ≤ kept.size then ⟨kept.toList, examined + 1, false⟩
    else collectFrom limit (rest ()) (seen.insert text) (kept.push text) (examined + 1)

def collect (limit : Option Nat) (texts : Enumeration String) : Alternation :=
  collectFrom limit texts ∅ #[] 0

def text (limit : Option Nat) (a : Alternation) : Except CompileError String :=
  if a.complete then .ok (" | ".intercalate a.alternatives)
  else .error (.candidateLimitExceeded (limit.getD 0))

end Alternation

def ofCandidates (q : Query) (pl : Placement) (limit : Option Nat)
    (candidates : Enumeration Candidate) : Except CompileError String :=
  (Alternation.collect limit (candidates.map (candidateText q pl))).text limit

end TreeQuery.Pattern
