import Mathlib.Algebra.GroupWithZero.Nat
import TreeQuery.Arrangement.Candidate
import TreeQuery.Proofs.Arrangement.BlockOrder

/-!
The number of block orders. Counting keeps a table of the numbers that have been found, and every
number in it is that of the orders of its blocks, at most the ceiling. So the count of a layout is
the number of its orders, at most the ceiling.
-/

set_option autoImplicit false
set_option relaxedAutoImplicit false

namespace TreeQuery.Arrangement

open TreeQuery.Order (Table)

abbrev Known := Std.HashMap (List Nat) Nat

def cappedOrders (required : Table) (remaining : List Nat) : Nat :=
  min (ordersOf required remaining.length remaining).toList.length ceiling

/-- Every known number is the number of orders of its blocks. -/
def Correct (required : Table) (known : Known) : Prop :=
  ∀ remaining count, known[remaining]? = some count → count = cappedOrders required remaining

/-- A computation that gives the number `n` and leaves known numbers correct. -/
def Yields (required : Table) (x : StateM Known Nat) (n : Nat) : Prop :=
  ∀ known, Correct required known →
    (x.run known).1 = n ∧ Correct required (x.run known).2

variable {required : Table}

private theorem correct_empty : Correct required ∅ := by
  intro remaining count h
  simp at h

private theorem Correct.insert {known : Known} (h : Correct required known) (remaining : List Nat) :
    Correct required (known.insert remaining (cappedOrders required remaining)) := by
  intro other count hcount
  rw [Std.HashMap.getElem?_insert] at hcount
  split at hcount
  · rename_i heq
    rw [← eq_of_beq heq]
    exact (Option.some.inj hcount).symm
  · exact h other count hcount

private theorem yields_pure (n : Nat) : Yields required (pure n) n :=
  fun _ h => ⟨rfl, h⟩

private theorem Yields.bind {x : StateM Known Nat} {f : Nat → StateM Known Nat} {n k : Nat}
    (hx : Yields required x n) (hf : Yields required (f n) k) :
    Yields required (x >>= f) k := by
  intro known hknown
  obtain ⟨hvalue, hcorrect⟩ := hx known hknown
  have hrun : (x >>= f).run known = (f (x.run known).1).run (x.run known).2 := rfl
  rw [hrun, hvalue]
  exact hf _ hcorrect

private theorem addCapped_min (m n : Nat) :
    addCapped (min m ceiling) (min n ceiling) = min (m + n) ceiling := by
  rw [addCapped]
  omega

private theorem yields_foldlM {f : Nat → StateM Known Nat} {number : Nat → Nat} {bs : List Nat}
    (h : ∀ b ∈ bs, Yields required (f b) (min (number b) ceiling)) (n : Nat) :
    Yields required
      (bs.foldlM (fun sum b => do
        let count ← f b
        pure (addCapped sum count)) (min n ceiling))
      (min (n + (bs.map number).sum) ceiling) := by
  induction bs generalizing n with
  | nil => exact yields_pure _
  | cons b bs ih =>
    have hstep := ih (fun x hx => h x (List.mem_cons_of_mem b hx)) (n + number b)
    rw [List.foldlM_cons, List.map_cons, List.sum_cons, ← Nat.add_assoc]
    refine Yields.bind (n := min (n + number b) ceiling) ?_ hstep
    refine (h b List.mem_cons_self).bind ?_
    rw [addCapped_min]
    exact yields_pure _

private theorem length_ordersOf_succ (n : Nat) (remaining : List Nat) :
    (ordersOf required (n + 1) remaining).toList.length =
      ((remaining.filter (ready required remaining)).map fun b =>
        (ordersOf required n (remaining.erase b)).toList.length).sum := by
  simp only [ordersOf, Enumeration.toList_flatMap, Enumeration.toList_map,
    Enumeration.toList_ofList, List.length_flatMap, List.length_map]

def countReady (required : Table) (n : Nat) (remaining : List Nat) : StateM Known Nat :=
  (remaining.filter (ready required remaining)).foldlM (fun sum b => do
    let count ← countOrders required n (remaining.erase b)
    pure (addCapped sum count)) 0

private theorem run_countOrders_succ (n : Nat) (remaining : List Nat) (known : Known) :
    (countOrders required (n + 1) remaining).run known =
      match known[remaining]? with
      | some count => (count, known)
      | none =>
        let result := (countReady required n remaining).run known
        (result.1, result.2.insert remaining result.1) := by
  have hrun : (countOrders required (n + 1) remaining).run known =
      (match known[remaining]? with
        | some count => (pure count : StateM Known Nat)
        | none => do
          let total ← countReady required n remaining
          modify fun (table : Known) => table.insert remaining total
          pure total).run known := by
    rw [countOrders]
    rfl
  rw [hrun]
  cases known[remaining]? <;> rfl

/-- Counting the orders of blocks still to be placed, in any state with correct known numbers. -/
theorem yields_countOrders {n : Nat} {remaining : List Nat} (hn : remaining.length = n) :
    Yields required (countOrders required n remaining) (cappedOrders required remaining) := by
  induction n generalizing remaining with
  | zero =>
    obtain rfl := List.eq_nil_of_length_eq_zero hn
    exact yields_pure 1
  | succ n ih =>
    have hready : ∀ b ∈ remaining.filter (ready required remaining),
        Yields required (countOrders required n (remaining.erase b))
          (min (ordersOf required n (remaining.erase b)).toList.length ceiling) := by
      intro b hb
      have hlen : (remaining.erase b).length = n := by
        rw [List.length_erase_of_mem (List.mem_filter.1 hb).1, hn]
        rfl
      have hcount := ih hlen
      rwa [cappedOrders, hlen] at hcount
    have hsum : Yields required (countReady required n remaining)
        (cappedOrders required remaining) := by
      have hfold := yields_foldlM hready 0
      rwa [Nat.zero_add, ← length_ordersOf_succ, ← hn] at hfold
    intro known hknown
    rw [run_countOrders_succ]
    cases hlookup : known[remaining]? with
    | some count => exact ⟨hknown remaining count hlookup, hknown⟩
    | none =>
      obtain ⟨hvalue, hcorrect⟩ := hsum known hknown
      dsimp only
      rw [hvalue]
      exact ⟨rfl, hcorrect.insert remaining⟩

theorem orderCount_eq (l : Layout) :
    l.orderCount = min l.orders.toList.length ceiling := by
  have hcount : Yields l.required
      (countOrders l.required l.blocks.length (List.range l.blocks.length)) _ :=
    yields_countOrders List.length_range
  have hvalue := (hcount ∅ correct_empty).1
  rw [cappedOrders, List.length_range] at hvalue
  rw [toList_orders_eq]
  exact hvalue

end TreeQuery.Arrangement
