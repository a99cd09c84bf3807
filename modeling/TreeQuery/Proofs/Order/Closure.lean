import Mathlib.Logic.Relation
import Mathlib.Tactic.ByContra
import TreeQuery.Order.Component

/-!
The closure of a table is the transitive closure of the relation it holds. Each pass through an
intermediate stop keeps the table square, loses no pair and makes the relation transitive at that
stop, so that after all passes it is transitive.
-/

set_option autoImplicit false
set_option relaxedAutoImplicit false

namespace TreeQuery.Order.Table

/-- Every row of the table has an entry for each of `n` numbers, and so has the table. -/
private structure Square (t : Table) (n : Nat) : Prop where
  height : t.rows.size = n
  width : ∀ r ∈ t.rows, r.size = n

private theorem square_tabulate (n : Nat) (f : Nat → Nat → Bool) : Square (tabulate n f) n := by
  refine ⟨by simp [tabulate], ?_⟩
  intro r hr
  simp only [tabulate, Array.mem_ofFn] at hr
  obtain ⟨a, rfl⟩ := hr
  simp

theorem holds_tabulate (n : Nat) (f : Nat → Nat → Bool) (a b : Nat) :
    (tabulate n f).holds a b = true ↔ a < n ∧ b < n ∧ f a b = true := by
  by_cases ha : a < n <;> by_cases hb : b < n <;>
    simp [tabulate, holds, Array.getD, ha, hb]

private theorem Square.width_getD {t : Table} {n : Nat} (ht : Square t n) {a : Nat} (ha : a < n) :
    (t.rows.getD a #[]).size = n := by
  have hs : a < t.rows.size := ht.height ▸ ha
  have hr : t.rows.getD a #[] = t.rows[a] := by simp [Array.getD, hs]
  rw [hr]
  exact ht.width _ (Array.getElem_mem hs)

private theorem Square.lt_of_holds {t : Table} {n a b : Nat} (ht : Square t n)
    (h : t.holds a b = true) : a < n ∧ b < n := by
  have ha : a < n := by
    by_contra hge
    have hs : ¬ a < t.rows.size := by rw [ht.height]; exact hge
    simp [holds, Array.getD, hs] at h
  refine ⟨ha, ?_⟩
  by_contra hge
  have hs : ¬ b < (t.rows.getD a #[]).size := by rw [ht.width_getD ha]; exact hge
  rw [holds, Array.getD, dif_neg hs] at h
  exact Bool.false_ne_true h

private theorem square_through {t : Table} {n : Nat} (ht : Square t n) {k : Nat} (hk : k < n) :
    Square (t.through k) n := by
  refine ⟨by simp [through, ht.height], ?_⟩
  intro r hr
  simp only [through, Array.mem_map] at hr
  obtain ⟨r', hr', rfl⟩ := hr
  split
  · rw [Array.size_zipWith, ht.width r' hr', ht.width_getD hk, Nat.min_self]
  · exact ht.width r' hr'

private theorem getD_zipWith_or {r s : Array Bool} (h : r.size = s.size) (b : Nat) :
    (r.zipWith (· || ·) s).getD b false = (r.getD b false || s.getD b false) := by
  by_cases hb : b < s.size <;> simp [Array.getD, h, hb]

private theorem holds_through {t : Table} {n : Nat} (ht : Square t n) {k : Nat} (hk : k < n)
    (a b : Nat) :
    (t.through k).holds a b = true ↔
      t.holds a b = true ∨ t.holds a k = true ∧ t.holds k b = true := by
  by_cases ha : a < n
  · have hs : a < t.rows.size := ht.height ▸ ha
    have hrow : (t.through k).rows.getD a #[] =
        if t.holds a k then (t.rows.getD a #[]).zipWith (· || ·) (t.rows.getD k #[])
        else t.rows.getD a #[] := by
      simp [through, holds, Array.getElem?_eq_getElem hs]
    have hsize : (t.rows.getD a #[]).size = (t.rows.getD k #[]).size := by
      rw [ht.width_getD ha, ht.width_getD hk]
    rw [holds, hrow]
    by_cases hak : t.holds a k = true
    · rw [if_pos hak, getD_zipWith_or hsize, Bool.or_eq_true]
      exact or_congr_right (iff_and_self.2 fun _ => hak)
    · rw [if_neg hak]
      exact (or_iff_left (not_and_of_not_left _ hak)).symm
  · have hno (t' : Table) (h' : Square t' n) (c : Nat) : ¬ t'.holds a c = true :=
      fun hc => ha (h'.lt_of_holds hc).1
    simp [hno t ht, hno _ (square_through ht hk)]

private theorem square_passes {t : Table} {n : Nat} (ht : Square t n) (m : Nat) (hm : m ≤ n) :
    Square ((List.range m).foldl through t) n := by
  induction m with
  | zero => exact ht
  | succ m ih =>
    rw [List.range_succ, List.foldl_append]
    exact square_through (ih (by omega)) (by omega)

private theorem holds_passes_succ {t : Table} {n : Nat} (ht : Square t n) {m : Nat} (hm : m < n)
    (a b : Nat) :
    ((List.range (m + 1)).foldl through t).holds a b = true ↔
      ((List.range m).foldl through t).holds a b = true ∨
        ((List.range m).foldl through t).holds a m = true ∧
          ((List.range m).foldl through t).holds m b = true := by
  rw [List.range_succ, List.foldl_append]
  exact holds_through (square_passes ht m (by omega)) hm a b

private theorem passes_sound {t : Table} {n : Nat} (ht : Square t n) (m : Nat) (hm : m ≤ n)
    {a b : Nat} (h : ((List.range m).foldl through t).holds a b = true) :
    Relation.TransGen (fun x y => t.holds x y = true) a b := by
  induction m generalizing a b with
  | zero => exact .single h
  | succ m ih =>
    rcases (holds_passes_succ ht (by omega) a b).1 h with hab | ⟨ham, hmb⟩
    · exact ih (by omega) hab
    · exact (ih (by omega) ham).trans (ih (by omega) hmb)

private theorem passes_of_holds {t : Table} {n : Nat} (ht : Square t n) (m : Nat) (hm : m ≤ n)
    {a b : Nat} (h : t.holds a b = true) :
    ((List.range m).foldl through t).holds a b = true := by
  induction m with
  | zero => exact h
  | succ m ih => exact (holds_passes_succ ht (by omega) a b).2 (.inl (ih (by omega)))

/-- After the passes below `m` the relation is transitive at every stop below `m`. -/
private theorem passes_trans {t : Table} {n : Nat} (ht : Square t n) (m : Nat) (hm : m ≤ n)
    {a b k : Nat} (hk : k < m) (hak : ((List.range m).foldl through t).holds a k = true)
    (hkb : ((List.range m).foldl through t).holds k b = true) :
    ((List.range m).foldl through t).holds a b = true := by
  induction m generalizing a b k with
  | zero => omega
  | succ m ih =>
    have hmn : m ≤ n := by omega
    rw [holds_passes_succ ht (by omega)] at hak hkb ⊢
    rcases Nat.lt_or_eq_of_le (Nat.lt_succ_iff.1 hk) with hlt | rfl
    · rcases hak with hak | ⟨ham, hmk⟩
      · rcases hkb with hkb | ⟨hkm, hmb⟩
        · exact .inl (ih hmn hlt hak hkb)
        · exact .inr ⟨ih hmn hlt hak hkm, hmb⟩
      · rcases hkb with hkb | ⟨_, hmb⟩
        · exact .inr ⟨ham, ih hmn hlt hmk hkb⟩
        · exact .inr ⟨ham, hmb⟩
    · exact .inr ⟨hak.elim id And.left, hkb.elim id And.right⟩

/-- The closure of a tabulated relation relates exactly the numbers that a chain of one or more
steps leads from one to the other. -/
theorem holds_closure_tabulate (n : Nat) (f : Nat → Nat → Bool) (a b : Nat) :
    (tabulate n f).closure.holds a b = true ↔
      Relation.TransGen (fun x y => x < n ∧ y < n ∧ f x y = true) a b := by
  have ht := square_tabulate n f
  have hsize : (tabulate n f).size = n := ht.height
  have hstep : (fun x y => (tabulate n f).holds x y = true) =
      fun x y => x < n ∧ y < n ∧ f x y = true := by
    funext x y
    exact propext (holds_tabulate n f x y)
  rw [closure, hsize, ← hstep]
  constructor
  · exact passes_sound ht n (Nat.le_refl n)
  · intro h
    induction h with
    | single hab => exact passes_of_holds ht n (Nat.le_refl n) hab
    | tail _ hbc ih =>
      have hlast := passes_of_holds ht n (Nat.le_refl n) hbc
      have hmid := ((square_passes ht n (Nat.le_refl n)).lt_of_holds hlast).1
      exact passes_trans ht n (Nat.le_refl n) hmid ih hlast

end TreeQuery.Order.Table
