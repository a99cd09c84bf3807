import Mathlib.Data.List.Lex
import Mathlib.Data.List.Perm.Subperm
import Mathlib.Logic.Function.Iterate
import TreeQuery.Arrangement.Interleaving
import TreeQuery.Proofs.Sequence

/-!
Arrangements of numbers in lexicographic order. Moving on gives the least greater arrangement of
the same numbers, so that from the first arrangement on every arrangement is met exactly once.
-/

set_option autoImplicit false
set_option relaxedAutoImplicit false

namespace TreeQuery.Arrangement

open scoped List

section Move

variable {a x : Nat} {l l' m : List Nat}

private theorem exchange?_eq_none_iff : exchange? a l = none ↔ ∀ x ∈ l, x ≤ a := by
  induction l with
  | nil => simp [exchange?]
  | cons x l ih =>
    rw [exchange?]
    split
    · rename_i hlt
      simp only [reduceCtorEq, List.forall_mem_cons, false_iff, not_and]
      omega
    · rename_i hle
      rw [Option.map_eq_none_iff, ih, List.forall_mem_cons, and_iff_right (by omega)]

private theorem not_lt_of_ascending (h : l.Pairwise (· ≤ ·)) (hm : m ~ l) : ¬ m < l := by
  induction l generalizing m with
  | nil =>
    rw [hm.eq_nil]
    exact lt_irrefl _
  | cons a l ih =>
    cases m with
    | nil => exact absurd hm.symm.eq_nil (by simp)
    | cons b m =>
      rw [List.pairwise_cons] at h
      have hab : a ≤ b := by
        rcases List.mem_cons.1 (hm.subset List.mem_cons_self) with rfl | hb
        · exact le_rfl
        · exact h.1 b hb
      rw [List.cons_lt_cons_iff]
      rintro (hlt | ⟨rfl, hlt⟩)
      · omega
      · exact ih h.2 hm.cons_inv hlt

private theorem not_lt_of_descending (h : l.Pairwise (· ≥ ·)) (hm : m ~ l) : ¬ l < m := by
  induction l generalizing m with
  | nil =>
    rw [hm.eq_nil]
    exact lt_irrefl _
  | cons a l ih =>
    cases m with
    | nil => exact absurd hm.symm.eq_nil (by simp)
    | cons b m =>
      rw [List.pairwise_cons] at h
      have hba : b ≤ a := by
        rcases List.mem_cons.1 (hm.subset List.mem_cons_self) with rfl | hb
        · exact le_rfl
        · exact h.1 b hb
      rw [List.cons_lt_cons_iff]
      rintro (hlt | ⟨rfl, hlt⟩)
      · omega
      · exact ih h.2 hm.cons_inv hlt

theorem next?_eq_none_iff : next? l = none ↔ l.Pairwise (· ≥ ·) := by
  induction l with
  | nil => simp [next?]
  | cons a l ih =>
    rw [next?, List.pairwise_cons]
    cases hl : next? l with
    | some l' =>
      have hnot : ¬ l.Pairwise (· ≥ ·) := by
        rw [← ih, hl]
        simp
      simp [hnot]
    | none =>
      rw [hl] at ih
      simp only [Option.map_eq_none_iff, exchange?_eq_none_iff, List.mem_reverse]
      exact ⟨fun h => ⟨h, ih.1 rfl⟩, And.left⟩

private theorem next?_exchange (hdesc : l.Pairwise (· ≥ ·)) {r : List Nat}
    (h : exchange? a l.reverse = some (x, r)) :
    x :: r ~ a :: l ∧ a < x ∧ ∀ b m, b :: m ~ a :: l → a < b → ¬ b :: m < x :: r := by
  obtain ⟨s, t, hl, rfl, hax, hs⟩ := exchange?_eq_some h
  have hasc : (s ++ x :: t).Pairwise (· ≤ ·) := by
    rw [← hl, List.pairwise_reverse]
    exact hdesc
  have hperm : x :: (s ++ a :: t) ~ a :: l :=
    (exchange?_perm h).trans ((List.reverse_perm l).cons a)
  refine ⟨hperm, hax, ?_⟩
  intro b m hm hab hlt
  have hbl : b ∈ s ++ x :: t := by
    rcases List.mem_cons.1 (hm.subset List.mem_cons_self) with rfl | hb
    · omega
    · rw [← hl]
      exact List.mem_reverse.2 hb
  rw [List.pairwise_append, List.pairwise_cons] at hasc
  obtain ⟨hsasc, ⟨hxt, htasc⟩, hst⟩ := hasc
  have hxb : x ≤ b := by
    rcases List.mem_append.1 hbl with hb | hb
    · have := hs b hb
      omega
    · rcases List.mem_cons.1 hb with rfl | hb
      · exact le_rfl
      · exact hxt b hb
  rcases List.cons_lt_cons_iff.1 hlt with hbx | ⟨rfl, htail⟩
  · omega
  · have hrasc : (s ++ a :: t).Pairwise (· ≤ ·) := by
      rw [List.pairwise_append, List.pairwise_cons]
      refine ⟨hsasc, ⟨fun y hy => ?_, htasc⟩, ?_⟩
      · have := hxt y hy
        omega
      · intro y hy z hz
        rcases List.mem_cons.1 hz with rfl | hz
        · exact hs y hy
        · exact hst y hy z (List.mem_cons_of_mem b hz)
    exact not_lt_of_ascending hrasc (hm.trans hperm.symm).cons_inv htail

/-- Moving on gives the least greater arrangement of the same numbers. -/
theorem next?_eq_some (h : next? l = some l') :
    l' ~ l ∧ l < l' ∧ ∀ m, m ~ l → l < m → ¬ m < l' := by
  induction l generalizing l' with
  | nil => simp [next?] at h
  | cons a l ih =>
    rw [next?] at h
    cases hl : next? l with
    | some later =>
      rw [hl] at h
      obtain rfl := Option.some.inj h
      obtain ⟨hperm, hlt, hleast⟩ := ih hl
      refine ⟨hperm.cons a, List.cons_lt_cons_iff.2 (.inr ⟨rfl, hlt⟩), ?_⟩
      intro m hm hlm hml
      cases m with
      | nil => exact absurd hm.symm.eq_nil (by simp)
      | cons b m =>
        rcases List.cons_lt_cons_iff.1 hlm with hab | ⟨rfl, hlm'⟩
        · rcases List.cons_lt_cons_iff.1 hml with hba | ⟨rfl, -⟩ <;> omega
        · rcases List.cons_lt_cons_iff.1 hml with haa | ⟨-, hml'⟩
          · omega
          · exact hleast m hm.cons_inv hlm' hml'
    | none =>
      rw [hl] at h
      have hdesc := next?_eq_none_iff.1 hl
      obtain ⟨⟨x, r⟩, hr, rfl⟩ := Option.map_eq_some_iff.1 h
      obtain ⟨hperm, hax, hleast⟩ := next?_exchange hdesc hr
      refine ⟨hperm, List.cons_lt_cons_iff.2 (.inl hax), ?_⟩
      intro m hm hlm
      cases m with
      | nil => exact absurd hm.symm.eq_nil (by simp)
      | cons b m =>
        rcases List.cons_lt_cons_iff.1 hlm with hab | ⟨rfl, hlm'⟩
        · exact hleast b m hm hab
        · exact absurd hlm' (not_lt_of_descending hdesc hm.cons_inv)

end Move

section Run

def arrangements (l : List Nat) : List (List Nat) :=
  match _moved : next? l with
  | none => [l]
  | some later => l :: arrangements later
termination_by movesLeft l
decreasing_by exact movesLeft_next? _moved

theorem arrangements_of_next?_eq_none {l : List Nat} (h : next? l = none) :
    arrangements l = [l] := by
  rw [arrangements]
  split
  · rfl
  · rename_i hl
    rw [h] at hl
    cases hl

theorem arrangements_of_next?_eq_some {l later : List Nat} (h : next? l = some later) :
    arrangements l = l :: arrangements later := by
  rw [arrangements]
  split
  · rename_i hl
    rw [h] at hl
    cases hl
  · rename_i hl
    rw [Option.some.inj (h.symm.trans hl)]

private theorem perm_of_mem_arrangements {l m : List Nat} (h : m ∈ arrangements l) :
    m ~ l ∧ (m = l ∨ l < m) := by
  fun_induction arrangements l with
  | case1 l hl =>
    obtain rfl := List.mem_singleton.1 h
    exact ⟨.refl _, .inl rfl⟩
  | case2 l later hl ih =>
    rcases List.mem_cons.1 h with rfl | h
    · exact ⟨.refl _, .inl rfl⟩
    · obtain ⟨hperm, hlt, -⟩ := next?_eq_some hl
      obtain ⟨hm, hge⟩ := ih h
      refine ⟨hm.trans hperm, .inr ?_⟩
      rcases hge with rfl | hgt
      · exact hlt
      · exact hlt.trans hgt

theorem pairwise_lt_arrangements (l : List Nat) : (arrangements l).Pairwise (· < ·) := by
  fun_induction arrangements l with
  | case1 l hl => exact List.pairwise_singleton _ _
  | case2 l later hl ih =>
    refine List.pairwise_cons.2 ⟨?_, ih⟩
    intro m hm
    have hlt := (next?_eq_some hl).2.1
    rcases (perm_of_mem_arrangements hm).2 with rfl | hgt
    · exact hlt
    · exact hlt.trans hgt

private theorem nodup_arrangements (l : List Nat) : (arrangements l).Nodup :=
  (pairwise_lt_arrangements l).imp fun h => ne_of_lt h

private theorem mem_arrangements_of_not_lt {l m : List Nat} (hm : m ~ l) (hge : ¬ m < l) :
    m ∈ arrangements l := by
  fun_induction arrangements l with
  | case1 l hl =>
    have hle := not_lt_of_descending (next?_eq_none_iff.1 hl) hm
    rw [le_antisymm (not_lt.1 hle) (not_lt.1 hge)]
    exact List.mem_cons_self
  | case2 l later hl ih =>
    obtain ⟨hperm, -, hleast⟩ := next?_eq_some hl
    rcases eq_or_lt_of_le (not_lt.1 hge) with rfl | hgt
    · exact List.mem_cons_self
    · exact List.mem_cons_of_mem _ (ih (hm.trans hperm.symm) (hleast m hm hgt))

private theorem mem_arrangements {l m : List Nat} (h : l.Pairwise (· ≤ ·)) :
    m ∈ arrangements l ↔ m ~ l := by
  constructor
  · intro hm
    exact (perm_of_mem_arrangements hm).1
  · intro hm
    exact mem_arrangements_of_not_lt hm (not_lt_of_ascending h hm)

end Run

section Visits

def afterMoves (k : Nat) (l : List Nat) : List Nat := (fun m => (step m).2)^[k] l

private theorem afterMoves_succ {l later : List Nat} (h : next? l = some later) (k : Nat) :
    afterMoves (k + 1) l = afterMoves k later := by
  rw [afterMoves, Function.iterate_succ_apply, step_of_next?_eq_some h]
  rfl

private theorem afterMoves_arrangements (l : List Nat) :
    ∃ last, arrangements l = (List.range (last + 1)).map (afterMoves · l) ∧
      (∀ k < last, (step (afterMoves k l)).1 = true) ∧
      (step (afterMoves last l)).1 = false := by
  fun_induction arrangements l with
  | case1 l hl =>
    refine ⟨0, rfl, by simp, ?_⟩
    exact congrArg Prod.fst (step_of_next?_eq_none hl)
  | case2 l later hl ih =>
    obtain ⟨last, hlist, hmoves, hstop⟩ := ih
    refine ⟨last + 1, ?_, ?_, ?_⟩
    · rw [hlist, List.range_succ_eq_map (n := last + 1), List.map_cons, List.map_map]
      congr 1
      apply List.map_congr_left
      intro k _
      exact (afterMoves_succ hl k).symm
    · intro k hk
      cases k with
      | zero => exact congrArg Prod.fst (step_of_next?_eq_some hl)
      | succ k =>
        rw [afterMoves_succ hl]
        exact hmoves k (by omega)
    · rw [afterMoves_succ hl]
      exact hstop

private theorem step_fst_eq_false_iff (l : List Nat) :
    (step l).1 = false ↔ ∀ m, m ~ l → ¬ l < m := by
  cases hl : next? l with
  | some later =>
    obtain ⟨hperm, hlt, -⟩ := next?_eq_some hl
    rw [step_of_next?_eq_some hl]
    simp only [Bool.true_eq_false, false_iff]
    intro h
    exact h later hperm hlt
  | none =>
    rw [step_of_next?_eq_none hl, eq_self, true_iff]
    intro m hm
    exact not_lt_of_descending (next?_eq_none_iff.1 hl) hm

/-- A move leads to the least greater arrangement of the same numbers. It fails exactly when there
is none, and then leaves the numbers ascending. So the moves from an ascending list lead to every
arrangement exactly once before the first that fails. -/
theorem step_visits_arrangements (l : List Nat) :
    (∀ later, step l = (true, later) →
      later ~ l ∧ l < later ∧ ∀ m, m ~ l → l < m → later ≤ m) ∧
    (∀ first, step l = (false, first) → first ~ l ∧ first.Pairwise (· ≤ ·)) ∧
    ((step l).1 = false ↔ ∀ m, m ~ l → ¬ l < m) ∧
    (l.Pairwise (· ≤ ·) → ∃ last,
      (∀ k < last, (step (afterMoves k l)).1 = true) ∧
      (step (afterMoves last l)).1 = false ∧
      (∀ k ≤ last, afterMoves k l ~ l) ∧
      ∀ m, m ~ l → ∃! k, k ≤ last ∧ afterMoves k l = m) := by
  refine ⟨?_, ?_, step_fst_eq_false_iff l, ?_⟩
  · intro later h
    cases hl : next? l with
    | none => simp [step_of_next?_eq_none hl] at h
    | some later' =>
      rw [step_of_next?_eq_some hl] at h
      obtain ⟨-, rfl⟩ := Prod.mk.inj h
      obtain ⟨hperm, hlt, hleast⟩ := next?_eq_some hl
      exact ⟨hperm, hlt, fun m hm hlm => not_lt.1 (hleast m hm hlm)⟩
  · intro first h
    cases hl : next? l with
    | some later => simp [step_of_next?_eq_some hl] at h
    | none =>
      rw [step_of_next?_eq_none hl] at h
      obtain ⟨-, rfl⟩ := Prod.mk.inj h
      refine ⟨List.reverse_perm l, ?_⟩
      rw [List.pairwise_reverse]
      exact next?_eq_none_iff.1 hl
  · intro hasc
    obtain ⟨last, hlist, hmoves, hstop⟩ := afterMoves_arrangements l
    have hmem (m : List Nat) : m ~ l ↔ ∃ k ≤ last, afterMoves k l = m := by
      rw [← mem_arrangements hasc, hlist, List.mem_map]
      simp only [List.mem_range, Nat.lt_succ_iff]
    have hnodup := nodup_arrangements l
    rw [hlist] at hnodup
    refine ⟨last, hmoves, hstop, fun k hk => (hmem _).2 ⟨k, hk, rfl⟩, ?_⟩
    intro m hm
    obtain ⟨k, hk, rfl⟩ := (hmem m).1 hm
    refine ⟨k, ⟨hk, rfl⟩, ?_⟩
    intro j ⟨hj, heq⟩
    exact List.inj_on_of_nodup_map hnodup (List.mem_range.2 (by omega))
      (List.mem_range.2 (by omega)) heq

end Visits

section Owners

theorem ascending_blockOwners (sizes : List Nat) : (blockOwners sizes).Pairwise (· ≤ ·) := by
  rw [blockOwners, List.pairwise_flatMap]
  constructor
  · intro e _
    exact List.pairwise_replicate.2 (.inr le_rfl)
  · refine (Sequence.pairwise_snd_lt_zipIdx sizes 0).imp ?_
    intro e e' hlt x hx y hy
    rw [List.eq_of_mem_replicate hx, List.eq_of_mem_replicate hy]
    omega

def interleavings (sizes : List Nat) : List (List Nat) := arrangements (blockOwners sizes)

theorem mem_interleavings {sizes w : List Nat} :
    w ∈ interleavings sizes ↔ w ~ blockOwners sizes :=
  mem_arrangements (ascending_blockOwners sizes)

theorem nodup_interleavings (sizes : List Nat) : (interleavings sizes).Nodup :=
  nodup_arrangements _

end Owners

end TreeQuery.Arrangement
