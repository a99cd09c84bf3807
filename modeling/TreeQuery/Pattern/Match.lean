import TreeQuery.Pattern.Alternative
import TreeQuery.Predicate

/-!
What alternatives mean. An alternative matches a sentence at given positions if the gaps between
its tokens are kept and the conditions of each token hold, where a label stands for the position
of the earlier token that carries it.
-/

set_option autoImplicit false
set_option relaxedAutoImplicit false

namespace TreeQuery.Pattern

/-- The positions of the labelled tokens that have been matched. -/
abbrev Bound := List (String × Nat)

def bound? (labels : Labels) (bound : Bound) (i : Identifier) : Option Nat :=
  (labels.lookup i).bind fun l => bound.lookup l

/-- Whether a gap lies between two positions; a gap that is not stated is unbounded. -/
def Spans (position next : Nat) : Option Gap → Prop
  | some .adjacent => next = position + 1
  | some .unbounded => position < next
  | none => position < next

/-- Whether the conditions of a token hold at a position. Every reference has to be bound. -/
def Slot.MatchesAt (m : Interpretation Nat) (labels : Labels) (bound : Bound) (position : Nat)
    (s : Slot) : Prop :=
  ∀ p ∈ s.conjuncts, (∀ i ∈ p.owners, (bound? labels bound i).isSome) ∧
    p.Holds m fun o => (o.bind (bound? labels bound)).getD position

def bindLabel (labels : Labels) (bound : Bound) (position : Nat) (s : Slot) : Bound :=
  match labels.lookup s.identifier with
  | some l => (l, position) :: bound
  | none => bound

def TailMatches (m : Interpretation Nat) (labels : Labels) :
    Bound → Nat → List Gap → List Slot → List Nat → Prop
  | _, _, _, [], [] => True
  | bound, position, gaps, s :: slots, next :: positions =>
    Spans position next gaps.head? ∧ s.MatchesAt m labels bound next ∧
      TailMatches m labels (bindLabel labels bound next s) next gaps.tail slots positions
  | _, _, _, _, _ => False

def Alternative.MatchesAt (m : Interpretation Nat) (a : Alternative) : List Nat → Prop
  | [] => a.slots = []
  | position :: positions =>
    match a.slots with
    | [] => False
    | s :: slots => s.MatchesAt m a.labels [] position ∧
        TailMatches m a.labels (bindLabel a.labels [] position s) position a.gaps slots positions

end TreeQuery.Pattern
