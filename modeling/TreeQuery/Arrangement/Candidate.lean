import TreeQuery.Arrangement.Interleaving
import TreeQuery.Arrangement.Layout
import Std.Data.HashMap

/-!
The token orders that a query admits. A candidate takes one admissible block order per component
and interleaves the components block by block. The candidates are drawn from an odometer: it moves
on to the next interleaving, and once there is none the wheels of the components turn, the last
one first. Their number is counted without drawing them.
-/

set_option autoImplicit false
set_option relaxedAutoImplicit false

namespace TreeQuery

inductive Gap where
  | adjacent
  | unbounded
  deriving DecidableEq

/-- One total order of the tokens of a query, with the gaps between neighbours. -/
structure Candidate where
  tokens : List Identifier
  gaps : List Gap
  deriving DecidableEq

namespace Candidate

def text (c : Candidate) : String := " ".intercalate (c.tokens.map Identifier.text)

def position? (c : Candidate) (i : Identifier) : Option Nat := c.tokens.idxOf? i

/-- The candidate of a sequence of blocks: tokens of one block are adjacent, blocks are not. -/
def ofBlocks (blocks : List (List Identifier)) : Candidate where
  tokens := blocks.flatten
  gaps := (blocks.flatMap fun b => (b.zipIdx.map fun e =>
    if e.2 = 0 then Gap.unbounded else Gap.adjacent)).tail

end Candidate

namespace Arrangement

open scoped List
open TreeQuery.Order (Table)

/-- Takes blocks from the queues of the components in the order that an interleaving gives. -/
def weave : List Nat → List (List (List Identifier)) → List (List Identifier)
  | [], _ => []
  | c :: rest, queues =>
    match queues[c]? with
    | some (block :: later) => block :: weave rest (queues.set c later)
    | _ => weave rest queues

/-- The candidate of a choice of block orders and an interleaving. -/
def assemble (layouts : List Layout) (orders : List (List Nat)) (interleaving : List Nat) :
    Candidate :=
  .ofBlocks (weave interleaving (layouts.zipWith (fun l order =>
    order.map fun b => l.blocks.getD b []) orders))

/-- A component under way: the block order that it shows, and the search for the next one. -/
structure Wheel where
  layout : Layout
  search : Search
  order : List Nat

namespace Wheel

def draw? (l : Layout) (s : Search) : Option Wheel :=
  match s.next with
  | (some order, later) => some ⟨l, later, order⟩
  | (none, _) => none

def first? (l : Layout) : Option Wheel := draw? l l.search

def next? (w : Wheel) : Option Wheel := draw? w.layout w.search

/-- Turns wheels, which are given from the last component to the first. A wheel that has no next
order starts again, and the one before it turns. -/
def turn : List Wheel → Option (List Wheel)
  | [] => none
  | w :: earlier =>
    match w.next? with
    | some moved => some (moved :: earlier)
    | none => do
      let restarted ← first? w.layout
      let turned ← turn earlier
      return restarted :: turned

def turnsLeft : List Wheel → Nat
  | [] => 0
  | w :: earlier => w.search.effort + (w.layout.search.effort + 1) * turnsLeft earlier

theorem draw?_eq_some {l : Layout} {s : Search} {w : Wheel} (h : draw? l s = some w) :
    w.layout = l ∧ s.next = (some w.order, w.search) := by
  unfold draw? at h
  split at h
  · rename_i order later hnext
    obtain rfl := Option.some.inj h
    exact ⟨rfl, hnext⟩
  · cases h

theorem turn_cons_eq_some {w : Wheel} {earlier ws : List Wheel}
    (h : turn (w :: earlier) = some ws) :
    (∃ moved, w.next? = some moved ∧ ws = moved :: earlier) ∨
      ∃ restarted turned, w.next? = none ∧ first? w.layout = some restarted ∧
        turn earlier = some turned ∧ ws = restarted :: turned := by
  rw [turn] at h
  split at h
  · rename_i moved hmoved
    exact .inl ⟨moved, hmoved, (Option.some.inj h).symm⟩
  · rename_i hnone
    obtain ⟨restarted, hfirst, h⟩ := Option.bind_eq_some_iff.1 h
    obtain ⟨turned, hturned, h⟩ := Option.bind_eq_some_iff.1 h
    exact .inr ⟨restarted, turned, hnone, hfirst, hturned, (Option.some.inj h).symm⟩

private theorem map_layout_of_turn {ws turned : List Wheel} (h : turn ws = some turned) :
    turned.map layout = ws.map layout := by
  induction ws generalizing turned with
  | nil => cases h
  | cons w earlier ih =>
    rcases turn_cons_eq_some h with ⟨moved, hmoved, rfl⟩ | ⟨restarted, rest, -, hfirst, hrest, rfl⟩
    · rw [List.map_cons, List.map_cons, (draw?_eq_some hmoved).1]
    · rw [List.map_cons, List.map_cons, (draw?_eq_some hfirst).1, ih hrest]

theorem map_layout_reverse_of_turn {ws turned : List Wheel} (h : turn ws.reverse = some turned) :
    turned.reverse.map layout = ws.map layout := by
  rw [List.map_reverse, map_layout_of_turn h, ← List.map_reverse, List.reverse_reverse]

private theorem turnsLeft_turn {ws turned : List Wheel} (h : turn ws = some turned) :
    turnsLeft turned < turnsLeft ws := by
  induction ws generalizing turned with
  | nil => cases h
  | cons w earlier ih =>
    rcases turn_cons_eq_some h with ⟨moved, hmoved, rfl⟩ | ⟨restarted, rest, -, hfirst, hrest, rfl⟩
    · obtain ⟨hlayout, hnext⟩ := draw?_eq_some hmoved
      have hless := Search.effort_next hnext
      simp only [turnsLeft, hlayout]
      omega
    · obtain ⟨hlayout, hnext⟩ := draw?_eq_some hfirst
      have hless := Search.effort_next hnext
      -- the turn before outweighs the whole search that starts again
      have hbefore : (w.layout.search.effort + 1) * turnsLeft rest +
          (w.layout.search.effort + 1) ≤ (w.layout.search.effort + 1) * turnsLeft earlier := by
        rw [← Nat.mul_succ]
        exact Nat.mul_le_mul_left _ (ih hrest)
      simp only [turnsLeft, hlayout]
      omega

end Wheel

/-- The state from which candidates are drawn. -/
structure Odometer where
  wheels : List Wheel
  interleaving : List Nat
  exhausted : Bool
  owned : interleaving ~ blockOwners (wheels.map fun w => w.layout.blocks.length)

namespace Odometer

/-- Shows the first block order of every component and the first interleaving. It is exhausted from
the start if some component has no block order. -/
def start (layouts : List Layout) : Odometer :=
  match layouts.mapM Wheel.first? with
  | some wheels =>
    { wheels
      interleaving := blockOwners (wheels.map fun w => w.layout.blocks.length)
      exhausted := false
      owned := .refl _ }
  | none => { wheels := [], interleaving := [], exhausted := true, owned := .refl _ }

def candidate (s : Odometer) : Candidate :=
  assemble (s.wheels.map Wheel.layout) (s.wheels.map Wheel.order) s.interleaving

/-- Replaces the interleaving by its successor, or by the first one if there is none. -/
def shift (s : Odometer) : Odometer :=
  { s with
    interleaving := (step s.interleaving).2
    owned := (step_perm s.interleaving).trans s.owned }

def withWheels (s : Odometer) (ws : List Wheel)
    (same : ws.map Wheel.layout = s.wheels.map Wheel.layout) : Odometer :=
  { s with
    wheels := ws
    owned := by
      have hsizes := congrArg (List.map fun l : Layout => l.blocks.length) same
      simp only [List.map_map, Function.comp_def] at hsizes
      rw [hsizes]
      exact s.owned }

/-- Moves on: the interleaving changes fastest, then the last component. When the first component
has no next order either, the odometer is exhausted. -/
def advance (s : Odometer) : Odometer :=
  if (step s.interleaving).1 then s.shift
  else
    match turned : Wheel.turn s.wheels.reverse with
    | some ws => s.shift.withWheels ws.reverse (Wheel.map_layout_reverse_of_turn turned)
    | none => { s.shift with exhausted := true }

/-- The candidate that is shown, if any, and the odometer to go on with. An exhausted odometer stays
as it is. -/
def next (s : Odometer) : Option Candidate × Odometer :=
  if s.exhausted then (none, s) else (some s.candidate, s.advance)

def effort (s : Odometer) : Nat :=
  if s.exhausted then 0
  else Wheel.turnsLeft s.wheels.reverse * room s.interleaving + movesLeft s.interleaving

private theorem effort_advance {s : Odometer} (h : s.exhausted = false) :
    s.advance.effort < s.effort := by
  have hpos := movesLeft_pos s.interleaving
  have hroom := room_perm (step_perm s.interleaving)
  unfold advance
  split
  · rename_i hmoved
    have hless := movesLeft_step hmoved
    simp only [effort, shift, h, hroom, Bool.false_eq_true, ↓reduceIte]
    omega
  · split
    · rename_i ws hturned
      have hle : movesLeft (step s.interleaving).2 ≤ room s.interleaving := by
        rw [← hroom]
        exact Nat.sub_le _ _
      have hturn : Wheel.turnsLeft ws * room s.interleaving + room s.interleaving ≤
          Wheel.turnsLeft s.wheels.reverse * room s.interleaving := by
        rw [← Nat.succ_mul]
        exact Nat.mul_le_mul_right _ (Wheel.turnsLeft_turn hturned)
      simp only [effort, shift, withWheels, h, hroom, List.reverse_reverse, Bool.false_eq_true,
        ↓reduceIte]
      omega
    · simp only [effort, h, Bool.false_eq_true, ↓reduceIte]
      omega

private theorem effort_next {s later : Odometer} {c : Candidate} (h : s.next = (some c, later)) :
    later.effort < s.effort := by
  unfold next at h
  split at h
  · cases h
  · rename_i hgoing
    obtain ⟨-, rfl⟩ := Prod.mk.inj h
    exact effort_advance (Bool.eq_false_iff.2 hgoing)

def draws (s : Odometer) : Enumeration Candidate :=
  match _drawn : s.next with
  | (none, _) => .nil
  | (some c, later) => .cons c fun _ => later.draws
termination_by s.effort
decreasing_by exact effort_next _drawn

end Odometer

def candidates (layouts : List Layout) : Enumeration Candidate := (Odometer.start layouts).draws

/-- The layouts of components. A component whose blocks have no admissible order is
contradictory. -/
def layouts (components : List Order.Component) : Except CompileError (List Layout) :=
  components.mapM fun c =>
    let layout := Layout.ofComponent c
    if layout.orders.isEmpty then .error (.inconsistentOrdering c.constraints) else .ok layout

/-- The largest count that is kept exactly: counts are held in 128 bits and stay at this value
once they would pass it. -/
def ceiling : Nat := Nat.pow 2 128 - 1

def addCapped (m n : Nat) : Nat := min (m + n) ceiling

def mulCapped (m n : Nat) : Nat := min (m * n) ceiling

/-- The number of orders of `n` blocks still to be placed. Numbers found before are looked up by
the set of remaining blocks. -/
def countOrders (required : Table) : Nat → List Nat → StateM (Std.HashMap (List Nat) Nat) Nat
  | 0, _ => pure 1
  | n + 1, remaining => do
    match (← get)[remaining]? with
    | some known => pure known
    | none =>
      let total ← (remaining.filter (ready required remaining)).foldlM (fun sum b => do
        let count ← countOrders required n (remaining.erase b)
        pure (addCapped sum count)) 0
      modify fun known => known.insert remaining total
      pure total

def Layout.orderCount (l : Layout) : Nat :=
  ((countOrders l.required l.blocks.length (List.range l.blocks.length)).run ∅).1

/-- The number of ways to choose `k` of `n` things, at most the ceiling. A product beyond the
ceiling is replaced by it. -/
def choose (n k : Nat) : Nat :=
  (List.range (min k (n - k))).foldl (fun acc i =>
    if acc * (n - i) ≤ ceiling then acc * (n - i) / (i + 1) else ceiling) 1

/-- The number of interleavings of components with the given numbers of blocks, when `placed`
blocks have already been interleaved: each component in turn chooses its places. -/
def countInterleavings (placed : Nat) : List Nat → Nat → Nat
  | [], acc => acc
  | k :: rest, acc => countInterleavings (placed + k) rest (mulCapped acc (choose (placed + k) k))

/-- The number of candidates, at most the greatest number of 64 bits. -/
def count (layouts : List Layout) : Nat :=
  let orders := layouts.foldl (fun acc l => mulCapped acc l.orderCount) 1
  let woven := countInterleavings 0 (layouts.map fun l => l.blocks.length) 1
  min (mulCapped orders woven) (Nat.pow 2 64 - 1)

end Arrangement

end TreeQuery
