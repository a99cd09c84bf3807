import Mathlib.Data.Nat.Choose.Basic
import TreeQuery.Proofs.Arrangement.Candidate
import TreeQuery.Proofs.Arrangement.Multinomial
import TreeQuery.Proofs.Arrangement.OrderCount

/-!
The number of candidates. Counts are exact until they pass the ceiling, and whenever one has been
cut off, the exact number has passed the limit that is reported as well. So the count is the number
of candidates, at most the limit.
-/

set_option autoImplicit false
set_option relaxedAutoImplicit false

namespace TreeQuery.Arrangement

def limit : Nat := 2 ^ 64 - 1

/-- Two numbers are equal or both reach the limit. -/
def Agree (m n : Nat) : Prop := m = n ∨ limit ≤ m ∧ limit ≤ n

private theorem limit_pos : 0 < limit := by decide

private theorem limit_le_ceiling : limit ≤ ceiling := by decide

private theorem limit_mul_limit_le_ceiling : limit * limit ≤ ceiling := by decide

section Agree

variable {m m' n n' : Nat}

private theorem Agree.min_eq (h : Agree m n) : min m limit = min n limit := by
  rcases h with rfl | ⟨hm, hn⟩
  · rfl
  · omega

private theorem agree_min_ceiling (n : Nat) : Agree (min n ceiling) n := by
  have hle := limit_le_ceiling
  by_cases hn : n ≤ ceiling
  · exact .inl (Nat.min_eq_left hn)
  · exact .inr ⟨by omega, by omega⟩

private theorem Agree.trans {k : Nat} (h : Agree m n) (h' : Agree n k) : Agree m k := by
  rcases h with rfl | ⟨hm, hn⟩
  · exact h'
  · rcases h' with rfl | ⟨-, hk⟩
    · exact .inr ⟨hm, hn⟩
    · exact .inr ⟨hm, hk⟩

private theorem Agree.mul (h : Agree m n) (h' : Agree m' n') : Agree (m * m') (n * n') := by
  have hpos := limit_pos
  have hzero : m' = 0 ↔ n' = 0 := by
    rcases h' with rfl | ⟨hm, hn⟩
    · rfl
    · omega
  have hzero' : m = 0 ↔ n = 0 := by
    rcases h with rfl | ⟨hm, hn⟩
    · rfl
    · omega
  rcases Nat.eq_zero_or_pos m' with hm | hm
  · rw [hm, hzero.1 hm]
    exact .inl rfl
  · rcases Nat.eq_zero_or_pos m with hm₀ | hm₀
    · rw [hm₀, hzero'.1 hm₀, Nat.zero_mul, Nat.zero_mul]
      exact .inl rfl
    · have hn : 0 < n' := by omega
      have hn₀ : 0 < n := by omega
      rcases h with rfl | ⟨hml, hnl⟩
      · rcases h' with rfl | ⟨hml', hnl'⟩
        · exact .inl rfl
        · exact .inr ⟨hml'.trans (Nat.le_mul_of_pos_left m' hm₀),
            hnl'.trans (Nat.le_mul_of_pos_left n' hn₀)⟩
      · exact .inr ⟨hml.trans (Nat.le_mul_of_pos_right m hm),
          hnl.trans (Nat.le_mul_of_pos_right n hn)⟩

private theorem Agree.mulCapped (h : Agree m n) (h' : Agree m' n') :
    Agree (mulCapped m m') (n * n') :=
  (agree_min_ceiling (m * m')).trans (h.mul h')

end Agree

section Choose

def chooseStep (n acc i : Nat) : Nat :=
  if acc * (n - i) ≤ ceiling then acc * (n - i) / (i + 1) else ceiling

/-- A number of choices that is exact, or was cut off when the exact one had passed the limit. -/
def Chosen (n i acc : Nat) : Prop :=
  acc = n.choose i ∨ acc = ceiling ∧ limit < n.choose i

private theorem Chosen.agree {n i acc : Nat} (h : Chosen n i acc) : Agree acc (n.choose i) := by
  rcases h with rfl | ⟨rfl, hlt⟩
  · exact .inl rfl
  · exact .inr ⟨limit_le_ceiling, hlt.le⟩

private theorem le_choose {n r : Nat} (hpos : 1 ≤ r) (hr : 2 * r ≤ n) : n ≤ n.choose r := by
  induction r, hpos using Nat.le_induction with
  | base => rw [Nat.choose_one_right]
  | succ r _ ih => exact (ih (by omega)).trans (Nat.choose_le_succ_of_lt_half_left (by omega))

private theorem Chosen.step {n i acc : Nat} (hi : 2 * (i + 1) ≤ n) (h : Chosen n i acc) :
    Chosen n (i + 1) (chooseStep n acc i) := by
  have hsucc := Nat.choose_succ_right_eq n i
  have hmono : n.choose i ≤ n.choose (i + 1) := Nat.choose_le_succ_of_lt_half_left (by omega)
  rw [chooseStep]
  rcases h with rfl | ⟨rfl, hlt⟩
  · split
    · left
      rw [← hsucc, Nat.mul_div_cancel _ (Nat.succ_pos i)]
    · rename_i hbeyond
      right
      refine ⟨rfl, ?_⟩
      -- The choices are at least as many as the divisor, so half of the bits are left.
      by_contra hle
      have hdivisor : i + 1 ≤ n.choose (i + 1) := by
        have hn := le_choose (Nat.le_add_left 1 i) hi
        omega
      have hproduct : n.choose (i + 1) * (i + 1) ≤ limit * limit :=
        Nat.mul_le_mul (by omega) (by omega)
      have hceiling := limit_mul_limit_le_ceiling
      omega
  · have hbeyond : ¬ ceiling * (n - i) ≤ ceiling := by
      have hpos : 0 < ceiling := by decide
      have hfactor : ceiling * 2 ≤ ceiling * (n - i) := Nat.mul_le_mul_left _ (by omega)
      omega
    rw [if_neg hbeyond]
    exact .inr ⟨rfl, hlt.trans_le hmono⟩

private theorem chosen_foldl {n r : Nat} (hr : 2 * r ≤ n) :
    Chosen n r ((List.range r).foldl (chooseStep n) 1) := by
  induction r with
  | zero => exact .inl (Nat.choose_zero_right n).symm
  | succ r ih =>
    rw [List.range_succ, List.foldl_append]
    exact (ih (by omega)).step hr

private theorem agree_choose {n k : Nat} (hk : k ≤ n) : Agree (choose n k) (n.choose k) := by
  have hchosen := (chosen_foldl (n := n) (r := min k (n - k)) (by omega)).agree
  have hsymm : n.choose (min k (n - k)) = n.choose k := by
    rcases Nat.le_total k (n - k) with hle | hle
    · rw [Nat.min_eq_left hle]
    · rw [Nat.min_eq_right hle, Nat.choose_symm hk]
  rw [hsymm] at hchosen
  exact hchosen

private theorem agree_countInterleavings (placed : Nat) (sizes : List Nat) {acc n : Nat}
    (h : Agree acc n) :
    Agree (countInterleavings placed sizes acc) (n * placings placed sizes) := by
  induction sizes generalizing placed acc n with
  | nil => simpa [countInterleavings, placings] using h
  | cons k sizes ih =>
    rw [countInterleavings, placings, ← Nat.mul_assoc]
    exact ih _ (h.mulCapped (agree_choose (Nat.le_add_left k placed)))

end Choose

private theorem agree_orders (ls : List Layout) {acc n : Nat} (h : Agree acc n) :
    Agree (ls.foldl (fun acc l => mulCapped acc l.orderCount) acc)
      (n * (ls.map fun l => l.orders.toList.length).prod) := by
  induction ls generalizing acc n with
  | nil => simpa using h
  | cons l ls ih =>
    rw [List.foldl_cons, List.map_cons, List.prod_cons, ← Nat.mul_assoc]
    refine ih (h.mulCapped ?_)
    rw [orderCount_eq]
    exact agree_min_ceiling _

/-- The count is the number of candidates, at most the greatest number of 64 bits. -/
theorem count_eq_min_length_candidates (ls : List Layout) :
    count ls = min (candidates ls).toList.length (2 ^ 64 - 1) := by
  have hone : Agree 1 1 := .inl rfl
  have horders := agree_orders ls hone
  have hwoven := agree_countInterleavings 0 (ls.map fun l => l.blocks.length) hone
  rw [Nat.one_mul] at horders hwoven
  rw [length_candidates, length_interleavings]
  exact (horders.mulCapped hwoven).min_eq

end TreeQuery.Arrangement
