import Mathlib.Data.List.Forall2
import TreeQuery.Arrangement.Candidate
import TreeQuery.Proofs.Arrangement.Interleaving
import TreeQuery.Proofs.Arrangement.Search

/-!
What an odometer still has to show. With the orders on its wheels come the interleavings from the
current one on; then come the choices that the wheels can still be turned to, each with all
interleavings. A call shows the first of these selections and leaves the others. What is ahead of a
new odometer is the product of the block orders of all components and their interleavings, so the
candidates are those of the product, in its order.
-/

set_option autoImplicit false
set_option relaxedAutoImplicit false

namespace TreeQuery.Arrangement

open scoped List

/-- The choices of one block order per component; the last component changes fastest. -/
def choices : List Layout → List (List (List Nat))
  | [] => [[]]
  | l :: rest =>
    l.orders.toList.flatMap fun order => (choices rest).map fun orders => order :: orders

/-- What a candidate is assembled from: one order of block numbers per component, and for each place
the component that supplies the next block. -/
structure Selection where
  orders : List (List Nat)
  interleaving : List Nat

namespace Selection

def candidate (ls : List Layout) (s : Selection) : Candidate :=
  assemble ls s.orders s.interleaving

end Selection

def withInterleavings (ls : List Layout) (orders : List (List (List Nat))) : List Selection :=
  orders.flatMap fun os => (interleavings (ls.map fun l => l.blocks.length)).map fun w => ⟨os, w⟩

/-- The product of the block orders of all components and their interleavings. -/
def selections (ls : List Layout) : List Selection := withInterleavings ls (choices ls)

private theorem choices_concat (ls : List Layout) (l : Layout) :
    choices (ls ++ [l]) =
      (choices ls).flatMap fun orders => l.orders.toList.map fun order => orders ++ [order] := by
  induction ls with
  | nil => simp [choices, List.map_eq_flatMap]
  | cons l' ls ih =>
    simp only [List.cons_append, choices, ih, List.map_flatMap, List.flatMap_assoc,
      List.flatMap_map, List.map_map]
    rfl

private theorem choices_eq_nil {ls : List Layout} {l : Layout} (hl : l ∈ ls)
    (hnone : l.orders.toList = []) : choices ls = [] := by
  induction ls with
  | nil => cases hl
  | cons l' ls ih =>
    rw [choices]
    rcases List.mem_cons.1 hl with rfl | hl
    · rw [hnone, List.flatMap_nil]
    · simp [ih hl]

namespace Wheel

def shown (ws : List Wheel) : List (List Nat) := (ws.map order).reverse

/-- The choices that wheels, given from the last component to the first, can still be turned to. -/
def choicesLeft : List Wheel → List (List (List Nat))
  | [] => []
  | w :: earlier =>
    (w.search.ahead.map fun o => shown earlier ++ [o]) ++
      (choicesLeft earlier).flatMap fun os => w.layout.orders.toList.map fun o => os ++ [o]

private theorem draw?_eq_none {l : Layout} {s : Search} (h : draw? l s = none) : s.ahead = [] := by
  unfold draw? at h
  split at h
  · cases h
  · rename_i later hnext
    exact Search.draws_ahead.ahead_of_none hnext

private theorem ahead_of_draw? {l : Layout} {s : Search} {w : Wheel} (h : draw? l s = some w) :
    s.ahead = w.order :: w.search.ahead :=
  Search.draws_ahead.ahead_of_some (draw?_eq_some h).2

private theorem orders_of_first? {l : Layout} {w : Wheel} (h : first? l = some w) :
    l.orders.toList = w.order :: w.search.ahead := by
  rw [Layout.orders, Search.toList_orders, ahead_of_draw? h]

private theorem orders_of_first?_eq_none {l : Layout} (h : first? l = none) :
    l.orders.toList = [] := by
  rw [Layout.orders, Search.toList_orders, draw?_eq_none h]

private theorem choicesLeft_of_turn {ws turned : List Wheel} (h : turn ws = some turned) :
    choicesLeft ws = shown turned :: choicesLeft turned := by
  induction ws generalizing turned with
  | nil => cases h
  | cons w earlier ih =>
    rcases turn_cons_eq_some h with ⟨moved, hmoved, rfl⟩ |
      ⟨restarted, rest, hstuck, hfirst, hrest, rfl⟩
    · simp [choicesLeft, shown, ahead_of_draw? hmoved, (draw?_eq_some hmoved).1]
    · -- the wheel has shown its last order, so what is left begins with a turn of those before it
      simp [choicesLeft, shown, draw?_eq_none hstuck, ih hrest, orders_of_first? hfirst,
        (draw?_eq_some hfirst).1]

private theorem choicesLeft_of_turn_eq_none {ws : List Wheel} (h : turn ws = none) :
    choicesLeft ws = [] := by
  induction ws with
  | nil => rfl
  | cons w earlier ih =>
    rw [turn] at h
    split at h
    · cases h
    · rename_i hstuck
      have hnone : choicesLeft earlier = [] ∨ w.layout.orders.toList = [] := by
        cases hfirst : first? w.layout with
        | none => exact .inr (orders_of_first?_eq_none hfirst)
        | some restarted =>
          cases hturn : turn earlier with
          | none => exact .inl (ih hturn)
          | some turned => simp [hfirst, hturn] at h
      rcases hnone with hnone | hnone <;> simp [choicesLeft, draw?_eq_none hstuck, hnone]

private theorem choices_eq_cons {ls : List Layout} {ws : List Wheel}
    (h : List.Forall₂ (fun l w => first? l = some w) ls ws) :
    choices ls.reverse = shown ws :: choicesLeft ws := by
  induction h with
  | nil => rfl
  | cons hfirst _ ih =>
    rw [List.reverse_cons, choices_concat, ih, orders_of_first? hfirst]
    simp [choicesLeft, shown, (draw?_eq_some hfirst).1, orders_of_first? hfirst]

private theorem mapM_first?_eq_some {ls : List Layout} {ws : List Wheel}
    (h : ls.mapM first? = some ws) :
    List.Forall₂ (fun l w => first? l = some w) ls ws := by
  induction ls generalizing ws with
  | nil =>
    rw [List.mapM_nil] at h
    obtain rfl := Option.some.inj h
    exact .nil
  | cons l ls ih =>
    rw [List.mapM_cons] at h
    obtain ⟨w, hw, h⟩ := Option.bind_eq_some_iff.1 h
    obtain ⟨rest, hrest, h⟩ := Option.bind_eq_some_iff.1 h
    obtain rfl := Option.some.inj h
    exact .cons hw (ih hrest)

private theorem exists_of_mapM_first?_eq_none {ls : List Layout} (h : ls.mapM first? = none) :
    ∃ l ∈ ls, first? l = none := by
  induction ls with
  | nil => cases h
  | cons l ls ih =>
    cases hfirst : first? l with
    | none => exact ⟨l, List.mem_cons_self, hfirst⟩
    | some w =>
      cases hrest : ls.mapM first? with
      | none =>
        obtain ⟨l', hl', hnone⟩ := ih hrest
        exact ⟨l', List.mem_cons_of_mem _ hl', hnone⟩
      | some ws => simp [List.mapM_cons, hfirst, hrest] at h

end Wheel

namespace Odometer

def layouts (s : Odometer) : List Layout := s.wheels.map Wheel.layout

def ahead (s : Odometer) : List Selection :=
  if s.exhausted then []
  else
    ((arrangements s.interleaving).map fun w => ⟨s.wheels.map Wheel.order, w⟩) ++
      withInterleavings s.layouts (Wheel.choicesLeft s.wheels.reverse)

/-- What moving on does: the interleaving moves on, or goes back to the first one while the wheels
turn, or nothing is left. -/
theorem advance_cases (s : Odometer) :
    (∃ later, Arrangement.next? s.interleaving = some later ∧ s.advance.wheels = s.wheels ∧
      s.advance.interleaving = later ∧ s.advance.exhausted = s.exhausted) ∨
    (∃ ws, Arrangement.next? s.interleaving = none ∧ Wheel.turn s.wheels.reverse = some ws ∧
      s.advance.wheels = ws.reverse ∧ s.advance.interleaving = s.interleaving.reverse ∧
      s.advance.exhausted = s.exhausted) ∨
    (Arrangement.next? s.interleaving = none ∧ Wheel.turn s.wheels.reverse = none ∧
      s.advance.wheels = s.wheels ∧ s.advance.exhausted = true) := by
  cases hnext : Arrangement.next? s.interleaving with
  | some later =>
    have hstep := step_of_next?_eq_some hnext
    refine .inl ⟨later, rfl, ?_⟩
    simp only [advance, shift, hstep, ↓reduceIte, and_self]
  | none =>
    have hstep := step_of_next?_eq_none hnext
    refine .inr ?_
    unfold advance
    rw [if_neg (by simp [hstep])]
    split
    · rename_i ws hturned
      exact .inl ⟨ws, rfl, hturned, rfl, congrArg Prod.snd hstep, rfl⟩
    · rename_i hturned
      exact .inr ⟨rfl, hturned, rfl, rfl⟩

private theorem layouts_advance (s : Odometer) : s.advance.layouts = s.layouts := by
  rcases advance_cases s with ⟨_, -, hwheels, -⟩ | ⟨ws, -, hturned, hwheels, -⟩ |
    ⟨-, -, hwheels, -⟩
  · rw [layouts, layouts, hwheels]
  · rw [layouts, layouts, hwheels, Wheel.map_layout_reverse_of_turn hturned]
  · rw [layouts, layouts, hwheels]

private theorem reverse_eq_blockOwners {s : Odometer}
    (h : Arrangement.next? s.interleaving = none) :
    s.interleaving.reverse = blockOwners (s.layouts.map fun l => l.blocks.length) := by
  have hasc : s.interleaving.reverse.Pairwise (· ≤ ·) :=
    List.pairwise_reverse.2 (next?_eq_none_iff.1 h)
  have hperm := (List.reverse_perm _).trans s.owned
  rw [layouts, List.map_map]
  exact hperm.eq_of_pairwise (fun a b _ _ => Nat.le_antisymm) hasc (ascending_blockOwners _)

/-- Moving on leaves what comes after the selection that is shown. -/
theorem ahead_eq_cons {s : Odometer} (h : s.exhausted = false) :
    s.ahead = ⟨s.wheels.map Wheel.order, s.interleaving⟩ :: s.advance.ahead := by
  have hlayouts := layouts_advance s
  rcases advance_cases s with ⟨later, hnext, hwheels, rfl, hgoing⟩ |
    ⟨ws, hnext, hturned, hwheels, hfirst, hgoing⟩ | ⟨hnext, hturned, -, hend⟩
  · simp [ahead, h, hgoing, hlayouts, hwheels, arrangements_of_next?_eq_some hnext]
  · have hshown : ws.reverse.map Wheel.order = Wheel.shown ws := List.map_reverse
    simp [ahead, h, hgoing, hlayouts, hwheels, hfirst, reverse_eq_blockOwners hnext, hshown,
      arrangements_of_next?_eq_none hnext, Wheel.choicesLeft_of_turn hturned, withInterleavings,
      interleavings]
  · simp [ahead, h, hend, arrangements_of_next?_eq_none hnext, withInterleavings,
      Wheel.choicesLeft_of_turn_eq_none hturned]

def candidatesAhead (s : Odometer) : List Candidate := s.ahead.map (Selection.candidate s.layouts)

/-- A call gives the candidate of the first selection that is ahead and leaves the others. -/
theorem draws_candidatesAhead : Sequence.Draws next candidatesAhead := by
  intro s
  unfold next
  split
  · rename_i hdone
    simp [candidatesAhead, ahead, hdone]
  · rename_i hgoing
    rw [candidatesAhead, ahead_eq_cons (Bool.eq_false_iff.2 hgoing), candidatesAhead,
      layouts_advance]
    exact ⟨rfl, rfl⟩

private theorem toList_draws (s : Odometer) : s.draws.toList = s.candidatesAhead := by
  fun_induction draws s with
  | case1 s later h => rw [draws_candidatesAhead.ahead_of_none h, Enumeration.toList_nil]
  | case2 s c later h ih => rw [draws_candidatesAhead.ahead_of_some h, Enumeration.toList_cons, ih]

theorem candidatesAhead_start (ls : List Layout) :
    (start ls).candidatesAhead = (selections ls).map (Selection.candidate ls) := by
  unfold start
  split
  · rename_i ws hfirst
    have hall := Wheel.mapM_first?_eq_some hfirst
    have hsame : List.Forall₂ (· = ·) ls (ws.map Wheel.layout) :=
      List.forall₂_map_right_iff.2 (hall.imp fun l w hw => (Wheel.draw?_eq_some hw).1.symm)
    rw [List.forall₂_eq_eq_eq] at hsame
    have hchoices := Wheel.choices_eq_cons (List.forall₂_reverse_iff.2 hall)
    rw [List.reverse_reverse, Wheel.shown, List.map_reverse, List.reverse_reverse] at hchoices
    rw [selections, hchoices, hsame, candidatesAhead]
    simp [layouts, ahead, withInterleavings, interleavings, List.map_map, Function.comp_def]
  · rename_i hnone
    obtain ⟨l, hl, hfirst⟩ := Wheel.exists_of_mapM_first?_eq_none hnone
    rw [selections, choices_eq_nil hl (Wheel.orders_of_first?_eq_none hfirst)]
    rfl

end Odometer

theorem toList_candidates (ls : List Layout) :
    (candidates ls).toList = (selections ls).map (Selection.candidate ls) := by
  rw [candidates, Odometer.toList_draws, Odometer.candidatesAhead_start]

end TreeQuery.Arrangement
