import TreeQuery.Enumeration
import TreeQuery.Order.Component

/-!
The blocks of a component. Tokens that have to follow each other directly form a block; the order
between tokens carries over to blocks. The admissible orders of the blocks are searched for: blocks
are placed one after the other, the least one that may stand in a place first; where none is left to
be tried, the block before is taken back and a greater one is tried in its place. The search stops at
every order it finds and goes on from there when the next one is asked for.
-/

set_option autoImplicit false
set_option relaxedAutoImplicit false

namespace TreeQuery.Arrangement

open TreeQuery.Order (Component Table)

/-- The token `a` and those that follow it directly, one after the other, at most `n` of them. -/
def chain (c : Component) : Nat → Nat → List Nat
  | 0, a => [a]
  | n + 1, a =>
    a :: match c.successor? a with
      | none => []
      | some b => chain c n b

/-- The maximal chains of a component. Each starts at a token that follows no other directly; the
number of tokens bounds its length. -/
def chains (c : Component) : List (List Nat) :=
  ((List.range c.size).filter fun a => !c.hasPredecessor a).map (chain c c.size)

/-- The relation between chains that some token of the first has to come before some token of the
second. -/
def requirement (c : Component) (cs : List (List Nat)) : Table :=
  let chainAt := cs.toArray
  .tabulate cs.length fun x y =>
    x != y && (chainAt.getD x []).any fun a => (chainAt.getD y []).any fun b => c.precedes a b

/-- The blocks of a component with the order required between them. -/
structure Layout where
  blocks : List (List Identifier)
  required : Table

def Layout.ofComponent (c : Component) : Layout where
  blocks := (chains c).map fun ch => ch.filterMap fun a => c.tokens[a]?
  required := requirement c (chains c)

/-- Whether block `b` may come before all blocks that are still to be placed. -/
def ready (required : Table) (remaining : List Nat) (b : Nat) : Bool :=
  remaining.all fun x => !required.holds x b

def unplaced (size : Nat) (placed : List Nat) : List Nat :=
  (List.range size).filter fun b => b ∉ placed

/-- A search under way. The latest placed block comes first. `cursor` is the least block that has
not been tried in the next place; in an earlier place all blocks up to the one that stands there
have been tried. -/
structure Search where
  required : Table
  size : Nat
  placed : List Nat
  cursor : Nat
  finished : Bool
  fits : placed.length ≤ size

namespace Search

def candidate? (s : Search) : Option Nat :=
  let remaining := unplaced s.size s.placed
  remaining.find? fun b => s.cursor ≤ b && ready s.required remaining b

def place (s : Search) (b : Nat) (room : s.placed.length < s.size) : Search :=
  { s with placed := b :: s.placed, cursor := 0, fits := room }

/-- Takes the latest block back. If there is none, nothing is left to be tried. -/
def retreat (s : Search) : Search :=
  match h : s.placed with
  | [] => { s with finished := true }
  | b :: earlier =>
    { s with
      placed := earlier
      cursor := b + 1
      fits := Nat.le_of_succ_le (by simpa [h] using s.fits) }

/-- A bound on the moves that can be made while the place after `depth` blocks, where the blocks
below `cursor` have been tried, is not left. -/
def weight (size cursor depth : Nat) : Nat :=
  (size - cursor + 1) * Nat.pow (size + 2) (size - depth)

/-- A bound on the moves that can be made after the given blocks have been taken back one by
one. -/
def weightBehind (size : Nat) : List Nat → Nat
  | [] => 0
  | b :: earlier => weight size (b + 1) earlier.length + weightBehind size earlier

def effort (s : Search) : Nat :=
  if s.finished then 0
  else weight s.size s.cursor s.placed.length + weightBehind s.size s.placed

private theorem weight_pos (size cursor depth : Nat) : 0 < weight size cursor depth := by
  have hpow : 0 < Nat.pow (size + 2) (size - depth) := Nat.pow_pos (by omega)
  exact Nat.mul_pos (by omega) hpow

private theorem weight_descend {size cursor b depth : Nat} (hcursor : cursor ≤ b) (hb : b < size)
    (hdepth : depth < size) :
    weight size 0 (depth + 1) + weight size (b + 1) depth < weight size cursor depth := by
  have hpow : Nat.pow (size + 2) (size - depth) =
      (size + 2) * Nat.pow (size + 2) (size - (depth + 1)) := by
    have hsub : size - depth = (size - (depth + 1)) + 1 := by omega
    rw [hsub]
    exact Nat.pow_succ'
  have hpos : 0 < Nat.pow (size + 2) (size - (depth + 1)) := Nat.pow_pos (by omega)
  simp only [weight, hpow, Nat.sub_zero]
  generalize Nat.pow (size + 2) (size - (depth + 1)) = p at hpos
  have htried : size - (b + 1) + 1 + 1 ≤ size - cursor + 1 := by omega
  have hle := Nat.mul_le_mul_right ((size + 2) * p) htried
  have hone : (size + 1) * p < (size + 2) * p := Nat.mul_lt_mul_of_pos_right (by omega) hpos
  rw [Nat.succ_mul] at hle
  omega

private theorem effort_retreat {s : Search} (h : s.finished = false) :
    s.retreat.effort < s.effort := by
  have hpos := weight_pos s.size s.cursor s.placed.length
  unfold retreat
  split
  · simp only [effort, h, ↓reduceIte, Bool.false_eq_true]
    omega
  · rename_i b earlier hplaced
    rw [hplaced] at hpos
    simp only [effort, h, hplaced, weightBehind, ↓reduceIte, Bool.false_eq_true]
    omega

private theorem candidate?_spec {s : Search} {b : Nat} (h : s.candidate? = some b) :
    s.cursor ≤ b ∧ b < s.size := by
  have htest := List.find?_some h
  have hmem := List.mem_of_find?_eq_some h
  simp only [Bool.and_eq_true, decide_eq_true_eq] at htest
  simp only [unplaced, List.mem_filter, List.mem_range] at hmem
  exact ⟨htest.1, hmem.1⟩

private theorem effort_place {s : Search} {b : Nat} (h : s.finished = false)
    (hb : s.candidate? = some b) (room : s.placed.length < s.size) :
    (s.place b room).effort < s.effort := by
  obtain ⟨hcursor, hlt⟩ := candidate?_spec hb
  have hless := weight_descend hcursor hlt room
  simp only [effort, place, h, weightBehind, List.length_cons, Bool.false_eq_true, ↓reduceIte]
  omega

/-- The next order, if any, and the search to go on with. A finished search stays finished. -/
def next (s : Search) : Option (List Nat) × Search :=
  if _done : s.finished = true then (none, s)
  else if room : s.placed.length < s.size then
    match _found : s.candidate? with
    | some b => (s.place b room).next
    | none => s.retreat.next
  else (some s.placed.reverse, s.retreat)
termination_by s.effort
decreasing_by
  · exact effort_place (Bool.eq_false_iff.2 _done) _found room
  · exact effort_retreat (Bool.eq_false_iff.2 _done)

theorem effort_next {s later : Search} {o : List Nat} (h : s.next = (some o, later)) :
    later.effort < s.effort := by
  fun_induction next s with
  | case1 s hdone => simp at h
  | case2 s hdone room b hb ih =>
    exact Nat.lt_trans (ih h) (effort_place (Bool.eq_false_iff.2 hdone) hb room)
  | case3 s hdone room hb ih =>
    exact Nat.lt_trans (ih h) (effort_retreat (Bool.eq_false_iff.2 hdone))
  | case4 s hdone room =>
    obtain ⟨-, rfl⟩ := Prod.mk.inj h
    exact effort_retreat (Bool.eq_false_iff.2 hdone)

def orders (s : Search) : Enumeration (List Nat) :=
  match _drawn : s.next with
  | (none, _) => .nil
  | (some o, later) => .cons o fun _ => later.orders
termination_by s.effort
decreasing_by exact effort_next _drawn

end Search

def Layout.search (l : Layout) : Search where
  required := l.required
  size := l.blocks.length
  placed := []
  cursor := 0
  finished := false
  fits := Nat.zero_le _

def Layout.orders (l : Layout) : Enumeration (List Nat) := l.search.orders

end TreeQuery.Arrangement
