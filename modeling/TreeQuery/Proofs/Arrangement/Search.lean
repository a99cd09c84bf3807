import TreeQuery.Arrangement.Layout
import TreeQuery.Proofs.Sequence

/-!
What a search still has to find. The orders that are ahead of a search are those below the next
place, from the cursor on, and then those below the earlier places, from the blocks that stand
there on. A call takes the first of them and leaves the others, and what is ahead of a new search
are all orders that can be built by placing ready blocks.
-/

set_option autoImplicit false
set_option relaxedAutoImplicit false

namespace TreeQuery.Arrangement

open TreeQuery.Order (Table)

/-- The orders of `n` blocks still to be placed that respect the requirement: each ready block in
turn comes first, followed by the orders of the others. -/
def ordersOf (required : Table) : Nat → List Nat → Enumeration (List Nat)
  | 0, _ => .cons [] fun _ => .nil
  | n + 1, remaining =>
    (Enumeration.ofList (remaining.filter (ready required remaining))).flatMap fun b =>
      (ordersOf required n (remaining.erase b)).map fun order => b :: order

private theorem unplaced_cons (size b : Nat) (placed : List Nat) :
    unplaced size (b :: placed) = (unplaced size placed).erase b := by
  have hnodup : (unplaced size placed).Nodup := List.nodup_range.filter _
  rw [hnodup.erase_eq_filter, unplaced, unplaced, List.filter_filter]
  apply List.filter_congr
  intro x _
  by_cases hx : x = b <;> simp [hx]

private theorem filter_from_eq_cons {l : List Nat} (hl : l.Pairwise (· < ·)) {p : Nat → Bool}
    {cursor b : Nat} (h : l.find? (fun x => cursor ≤ x && p x) = some b) :
    (l.filter p).filter (fun x => cursor ≤ x) =
      b :: (l.filter p).filter fun x => b + 1 ≤ x := by
  obtain ⟨hb, before, after, rfl, hbefore⟩ := List.find?_eq_some_iff_append.1 h
  rw [List.pairwise_append, List.pairwise_cons] at hl
  obtain ⟨-, ⟨hafter, -⟩, hless⟩ := hl
  simp only [Bool.and_eq_true, decide_eq_true_eq] at hb
  have hskip : (before.filter p).filter (fun x => cursor ≤ x) = [] := by
    rw [List.filter_filter, List.filter_eq_nil_iff]
    intro x hx
    have hfail := hbefore x hx
    rw [Bool.not_eq_true'] at hfail
    exact Bool.eq_false_iff.1 hfail
  have hpassed : (before.filter p).filter (fun x => b + 1 ≤ x) = [] := by
    rw [List.filter_eq_nil_iff]
    intro x hx
    have := hless x (List.mem_of_mem_filter hx) b List.mem_cons_self
    simp only [decide_eq_true_eq]
    omega
  have hsame : (after.filter p).filter (fun x => cursor ≤ x) =
      (after.filter p).filter fun x => b + 1 ≤ x := by
    apply List.filter_congr
    intro x hx
    have := hafter x (List.mem_of_mem_filter hx)
    rw [decide_eq_decide]
    omega
  have hself : ¬ b + 1 ≤ b := by omega
  simp only [List.filter_append, List.filter_cons, hb.2, hskip, hpassed, hsame, hb.1, hself,
    List.nil_append, decide_true, decide_false, ↓reduceIte, Bool.false_eq_true]

namespace Search

section Ahead

variable (required : Table) (size : Nat)

/-- The orders that begin with the placed blocks and go on with one from the cursor on. -/
def branches (placed : List Nat) (cursor : Nat) : List (List Nat) :=
  (((unplaced size placed).filter (ready required (unplaced size placed))).filter
    fun b => cursor ≤ b).flatMap fun b =>
      (ordersOf required (size - (placed.length + 1)) ((unplaced size placed).erase b)).toList.map
        fun o => placed.reverse ++ b :: o

/-- The orders that are left once the placed blocks are taken back one by one. -/
def behind : List Nat → List (List Nat)
  | [] => []
  | b :: earlier => branches required size earlier (b + 1) ++ behind earlier

def below (placed : List Nat) : List (List Nat) :=
  if placed.length < size then branches required size placed 0 else [placed.reverse]

private theorem below_eq (placed : List Nat) :
    below required size placed =
      (ordersOf required (size - placed.length) (unplaced size placed)).toList.map
        fun o => placed.reverse ++ o := by
  unfold below
  split
  · rename_i hroom
    have hsub : size - placed.length = (size - (placed.length + 1)) + 1 := by omega
    rw [hsub, ordersOf, branches]
    simp [List.map_flatMap, Function.comp_def]
  · rename_i hfull
    have hsub : size - placed.length = 0 := by omega
    simp [hsub, ordersOf]

end Ahead

def ahead (s : Search) : List (List Nat) :=
  if s.finished then []
  else
    (if s.placed.length < s.size then branches s.required s.size s.placed s.cursor
      else [s.placed.reverse]) ++ behind s.required s.size s.placed

variable {s : Search}

private theorem ahead_retreat (h : s.finished = false) :
    s.retreat.ahead = behind s.required s.size s.placed := by
  have hfits := s.fits
  unfold retreat
  split
  · rename_i hplaced
    simp [ahead, hplaced, behind]
  · rename_i b earlier hplaced
    rw [hplaced, List.length_cons] at hfits
    have hroom : earlier.length < s.size := by omega
    simp [ahead, h, hplaced, behind, hroom]

private theorem branches_of_candidate?_eq_none (h : s.candidate? = none) :
    branches s.required s.size s.placed s.cursor = [] := by
  have hnone : ((unplaced s.size s.placed).filter
      (ready s.required (unplaced s.size s.placed))).filter (fun b => s.cursor ≤ b) = [] := by
    rw [List.filter_filter, List.filter_eq_nil_iff]
    exact List.find?_eq_none.1 h
  rw [branches, hnone, List.flatMap_nil]

private theorem branches_of_candidate?_eq_some {b : Nat} (h : s.candidate? = some b) :
    branches s.required s.size s.placed s.cursor =
      below s.required s.size (b :: s.placed) ++
        branches s.required s.size s.placed (b + 1) := by
  have hasc : (unplaced s.size s.placed).Pairwise (· < ·) :=
    List.pairwise_lt_range.sublist List.filter_sublist
  have hfirst := filter_from_eq_cons hasc h
  rw [branches]
  rw [hfirst, List.flatMap_cons, below_eq, unplaced_cons]
  simp only [List.length_cons, List.reverse_cons, List.append_assoc, List.singleton_append]
  rfl

private theorem ahead_place {b : Nat} (hs : s.finished = false) (h : s.candidate? = some b)
    (room : s.placed.length < s.size) : (s.place b room).ahead = s.ahead := by
  have hbranch := branches_of_candidate?_eq_some h
  simp only [ahead, hs, room, hbranch, ↓reduceIte, Bool.false_eq_true]
  simp only [place, hs, behind, below, ↓reduceIte, Bool.false_eq_true, List.append_assoc]

theorem draws_ahead : Sequence.Draws next ahead := by
  intro s
  fun_induction next s with
  | case1 s hdone => simp [ahead, hdone]
  | case2 s hdone room b hb ih =>
    rw [ahead_place (Bool.eq_false_iff.2 hdone) hb room] at ih
    exact ih
  | case3 s hdone room hb ih =>
    have hnone := branches_of_candidate?_eq_none hb
    have hgoing := Bool.eq_false_iff.2 hdone
    have hahead : s.retreat.ahead = s.ahead := by
      rw [ahead_retreat hgoing]
      simp [ahead, hgoing, room, hnone]
    rw [hahead] at ih
    exact ih
  | case4 s hdone room =>
    have hgoing := Bool.eq_false_iff.2 hdone
    rw [ahead_retreat hgoing]
    simp [ahead, hgoing, room]

theorem toList_orders (s : Search) : s.orders.toList = s.ahead := by
  fun_induction orders s with
  | case1 s later h => rw [draws_ahead.ahead_of_none h, Enumeration.toList_nil]
  | case2 s o later h ih => rw [draws_ahead.ahead_of_some h, Enumeration.toList_cons, ih]

end Search

theorem ahead_search (l : Layout) :
    l.search.ahead =
      (ordersOf l.required l.blocks.length (List.range l.blocks.length)).toList := by
  have hall : unplaced l.blocks.length [] = List.range l.blocks.length := by simp [unplaced]
  have hbelow := Search.below_eq l.required l.blocks.length []
  rw [hall] at hbelow
  calc
    l.search.ahead = Search.below l.required l.blocks.length [] ++ [] := rfl
    _ = (ordersOf l.required l.blocks.length (List.range l.blocks.length)).toList := by
      rw [hbelow]
      simp

theorem toList_orders_eq (l : Layout) :
    l.orders.toList =
      (ordersOf l.required l.blocks.length (List.range l.blocks.length)).toList := by
  rw [Layout.orders, Search.toList_orders, ahead_search]

end TreeQuery.Arrangement
