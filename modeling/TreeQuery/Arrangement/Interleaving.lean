/-!
Arrangements of numbers, which may repeat, in lexicographic order. An interleaving of components
is such an arrangement: it says for each place which component supplies the next block. Moving on
from one arrangement to the next comes to an end, since the number that an arrangement spells
grows with it.
-/

set_option autoImplicit false
set_option relaxedAutoImplicit false

namespace TreeQuery.Arrangement

open scoped List

/-- Exchanges `a` for the first greater number of an ascending list. -/
def exchange? (a : Nat) : List Nat → Option (Nat × List Nat)
  | [] => none
  | x :: rest =>
    if a < x then some (x, a :: rest)
    else (exchange? a rest).map fun e => (e.1, x :: e.2)

/-- The least greater arrangement of the same numbers. The tail moves on if it can; otherwise it
is descending, and the head takes the next greater number of it, followed by the others in
ascending order. -/
def next? : List Nat → Option (List Nat)
  | [] => none
  | a :: rest =>
    match next? rest with
    | some later => some (a :: later)
    | none => (exchange? a rest.reverse).map fun e => e.1 :: e.2

/-- Moves on to the next arrangement and tells whether there was one. The last arrangement, which
is descending, goes back to the first. -/
def step (l : List Nat) : Bool × List Nat :=
  match next? l with
  | some later => (true, later)
  | none => (false, l.reverse)

/-- The first interleaving of components with the given numbers of blocks: all blocks of the first
component, then all of the second, and so on. -/
def blockOwners (sizes : List Nat) : List Nat :=
  sizes.zipIdx.flatMap fun e => List.replicate e.1 e.2

section Same

variable {a x : Nat} {l l' : List Nat}

theorem exchange?_eq_some (h : exchange? a l = some (x, l')) :
    ∃ s t, l = s ++ x :: t ∧ l' = s ++ a :: t ∧ a < x ∧ ∀ y ∈ s, y ≤ a := by
  induction l generalizing x l' with
  | nil => simp [exchange?] at h
  | cons z l ih =>
    rw [exchange?] at h
    split at h
    · rename_i hlt
      obtain ⟨rfl, rfl⟩ := Prod.mk.inj (Option.some.inj h)
      exact ⟨[], l, rfl, rfl, hlt, by simp⟩
    · rename_i hle
      obtain ⟨⟨y, r⟩, hr, he⟩ := Option.map_eq_some_iff.1 h
      obtain ⟨rfl, rfl⟩ := Prod.mk.inj he
      obtain ⟨s, t, rfl, rfl, hlt, hs⟩ := ih hr
      refine ⟨z :: s, t, rfl, rfl, hlt, ?_⟩
      rw [List.forall_mem_cons]
      exact ⟨by omega, hs⟩

theorem exchange?_perm (h : exchange? a l = some (x, l')) : x :: l' ~ a :: l := by
  obtain ⟨s, t, rfl, rfl, -, -⟩ := exchange?_eq_some h
  refine (List.perm_middle.cons x).trans ?_
  exact (List.Perm.swap a x _).trans (List.perm_middle.symm.cons a)

private theorem next?_perm (h : next? l = some l') : l' ~ l := by
  induction l generalizing l' with
  | nil => simp [next?] at h
  | cons a l ih =>
    rw [next?] at h
    cases hl : next? l with
    | some later =>
      rw [hl] at h
      obtain rfl := Option.some.inj h
      exact (ih hl).cons a
    | none =>
      rw [hl] at h
      obtain ⟨⟨x, r⟩, hr, rfl⟩ := Option.map_eq_some_iff.1 h
      exact (exchange?_perm hr).trans ((List.reverse_perm l).cons a)

theorem step_of_next?_eq_some (h : next? l = some l') : step l = (true, l') := by
  rw [step, h]

theorem step_of_next?_eq_none (h : next? l = none) : step l = (false, l.reverse) := by
  rw [step, h]

theorem step_perm (l : List Nat) : (step l).2 ~ l := by
  cases h : next? l with
  | some later =>
    rw [step_of_next?_eq_some h]
    exact next?_perm h
  | none =>
    rw [step_of_next?_eq_none h]
    exact List.reverse_perm l

end Same

def greatest (l : List Nat) : Nat := l.foldr max 0

def numeral (base : Nat) : List Nat → Nat
  | [] => 0
  | a :: rest => a * Nat.pow base rest.length + numeral base rest

def room (l : List Nat) : Nat := Nat.pow (greatest l + 1) l.length

/-- A bound on the moves that are left from an arrangement on. -/
def movesLeft (l : List Nat) : Nat := room l - numeral (greatest l + 1) l

section Growth

variable {l l' : List Nat} {g : Nat}

private theorem greatest_le_iff : greatest l ≤ g ↔ ∀ a ∈ l, a ≤ g := by
  induction l with
  | nil => simp [greatest]
  | cons a l ih =>
    rw [List.forall_mem_cons, ← ih]
    exact Nat.max_le

private theorem le_greatest (l : List Nat) :
    ∀ a ∈ l, a ≤ greatest l := greatest_le_iff.1 (Nat.le_refl _)

private theorem greatest_perm (h : l ~ l') : greatest l = greatest l' := by
  apply Nat.le_antisymm
  · exact greatest_le_iff.2 fun a ha => le_greatest l' a (h.mem_iff.1 ha)
  · exact greatest_le_iff.2 fun a ha => le_greatest l a (h.mem_iff.2 ha)

theorem room_perm (h : l ~ l') : room l = room l' := by
  rw [room, room, greatest_perm h, h.length_eq]

private theorem numeral_lt_pow (h : ∀ a ∈ l, a ≤ g) :
    numeral (g + 1) l < Nat.pow (g + 1) l.length := by
  induction l with
  | nil => exact Nat.one_pos
  | cons a l ih =>
    obtain ⟨ha, hl⟩ := List.forall_mem_cons.1 h
    have hrest := ih hl
    have hpow : Nat.pow (g + 1) (a :: l).length = (g + 1) * Nat.pow (g + 1) l.length :=
      Nat.pow_succ'
    have hfirst : a * Nat.pow (g + 1) l.length + Nat.pow (g + 1) l.length ≤
        (g + 1) * Nat.pow (g + 1) l.length := by
      rw [← Nat.succ_mul]
      exact Nat.mul_le_mul_right _ (Nat.succ_le_succ ha)
    rw [hpow, numeral]
    omega

private theorem numeral_next? (h : next? l = some l') (hl : ∀ a ∈ l, a ≤ g) :
    numeral (g + 1) l < numeral (g + 1) l' := by
  induction l generalizing l' with
  | nil => simp [next?] at h
  | cons a l ih =>
    obtain ⟨-, hrest⟩ := List.forall_mem_cons.1 hl
    rw [next?] at h
    cases hnext : next? l with
    | some later =>
      rw [hnext] at h
      obtain rfl := Option.some.inj h
      rw [numeral, numeral, (next?_perm hnext).length_eq]
      exact Nat.add_lt_add_left (ih hnext hrest) _
    | none =>
      rw [hnext] at h
      obtain ⟨⟨x, r⟩, hr, rfl⟩ := Option.map_eq_some_iff.1 h
      obtain ⟨-, -, -, -, hax, -⟩ := exchange?_eq_some hr
      have hlen : r.length = l.length := by simpa using (exchange?_perm hr).length_eq
      have htail := numeral_lt_pow hrest
      -- the greater head outweighs whatever follows the old one
      have hhead : a * Nat.pow (g + 1) l.length + Nat.pow (g + 1) l.length ≤
          x * Nat.pow (g + 1) l.length := by
        rw [← Nat.succ_mul]
        exact Nat.mul_le_mul_right _ hax
      simp only [numeral, hlen]
      omega

theorem movesLeft_pos (l : List Nat) : 0 < movesLeft l :=
  Nat.sub_pos_of_lt (numeral_lt_pow (le_greatest l))

theorem movesLeft_next? (h : next? l = some l') : movesLeft l' < movesLeft l := by
  have hperm := next?_perm h
  have hgrow := numeral_next? h (le_greatest l)
  have hpos := movesLeft_pos l'
  rw [movesLeft, room_perm hperm, greatest_perm hperm] at hpos ⊢
  rw [movesLeft]
  omega

theorem movesLeft_step (h : (step l).1 = true) : movesLeft (step l).2 < movesLeft l := by
  cases hl : next? l with
  | some later =>
    rw [step_of_next?_eq_some hl]
    exact movesLeft_next? hl
  | none =>
    rw [step_of_next?_eq_none hl] at h
    cases h

end Growth

end TreeQuery.Arrangement
