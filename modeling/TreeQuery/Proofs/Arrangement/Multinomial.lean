import Mathlib.Algebra.GroupWithZero.Nat
import Mathlib.Data.Nat.Choose.Basic
import TreeQuery.Proofs.Arrangement.Weave

/-!
The number of interleavings. The blocks of one more component can be put into an interleaving of
the others wherever they like, so the number grows by a binomial coefficient with each component.
-/

set_option autoImplicit false
set_option relaxedAutoImplicit false

namespace TreeQuery.Arrangement

open scoped List

section Insertions

def insertions (c : Nat) : List Nat → Nat → List (List Nat)
  | u, 0 => [u]
  | [], k + 1 => [List.replicate (k + 1) c]
  | x :: u, k + 1 =>
    (insertions c (x :: u) k).map (c :: ·) ++ (insertions c u (k + 1)).map (x :: ·)
termination_by u k => u.length + k

variable {c : Nat}

private theorem length_insertions (c : Nat) (u : List Nat) (k : Nat) :
    (insertions c u k).length = (u.length + k).choose k := by
  induction u, k using insertions.induct with
  | case1 u => simp [insertions]
  | case2 k => simp [insertions]
  | case3 x u k ih₁ ih₂ =>
    have hsecond : u.length + (k + 1) = u.length + 1 + k := by omega
    rw [insertions, List.length_append, List.length_map, List.length_map, ih₁, ih₂, hsecond]
    exact (Nat.choose_succ_succ (u.length + 1 + k) k).symm

private theorem filter_ne_eq_self {w : List Nat} (h : c ∉ w) : w.filter (· ≠ c) = w := by
  rw [List.filter_eq_self]
  intro x hx
  rw [decide_eq_true_eq]
  intro hxc
  exact h (hxc ▸ hx)

private theorem cons_mem_insertions_iff {x y : Nat} {u w : List Nat} {k : Nat} :
    y :: w ∈ insertions c (x :: u) (k + 1) ↔
      y = c ∧ w ∈ insertions c (x :: u) k ∨ y = x ∧ w ∈ insertions c u (k + 1) := by
  rw [insertions, List.mem_append, List.mem_map, List.mem_map]
  constructor
  · intro h
    rcases h with ⟨v, hv, he⟩ | ⟨v, hv, he⟩
    · obtain ⟨hy, rfl⟩ := List.cons.inj he
      exact .inl ⟨hy.symm, hv⟩
    · obtain ⟨hy, rfl⟩ := List.cons.inj he
      exact .inr ⟨hy.symm, hv⟩
  · intro h
    rcases h with ⟨rfl, hw⟩ | ⟨rfl, hw⟩
    · exact .inl ⟨w, hw, rfl⟩
    · exact .inr ⟨w, hw, rfl⟩

private theorem mem_insertions {u : List Nat} {k : Nat} (hc : c ∉ u) {w : List Nat} :
    w ∈ insertions c u k ↔ w.filter (· ≠ c) = u ∧ w.count c = k := by
  induction u, k using insertions.induct generalizing w with
  | case1 u =>
    rw [insertions, List.mem_singleton, List.count_eq_zero]
    constructor
    · intro hw
      subst hw
      exact ⟨filter_ne_eq_self hc, hc⟩
    · intro ⟨hfilter, hw⟩
      rw [← hfilter, filter_ne_eq_self hw]
  | case2 k =>
    rw [insertions, List.mem_singleton]
    constructor
    · intro hw
      subst hw
      simp
    · intro ⟨hfilter, hcount⟩
      have hall : ∀ x ∈ w, x = c := by simpa using hfilter
      have hw := List.eq_replicate_of_mem hall
      rw [hw, List.count_replicate_self] at hcount
      rw [hw, hcount]
  | case3 x u k ih₁ ih₂ =>
    have hcu : c ∉ u := fun hmem => hc (List.mem_cons_of_mem x hmem)
    have hxc : x ≠ c := fun he => hc (he ▸ List.mem_cons_self)
    cases w with
    | nil => simp [insertions]
    | cons y w =>
      rw [cons_mem_insertions_iff, ih₁ hc, ih₂ hcu]
      by_cases hy : y = c
      · subst hy
        rw [List.filter_cons_of_neg (by simp), List.count_cons_self, Nat.add_right_cancel_iff]
        simp [hxc.symm]
      · rw [List.filter_cons_of_pos (by simpa using hy), List.count_cons_of_ne hy,
          List.cons.injEq, and_assoc]
        simp [hy]

private theorem nodup_insertions {u : List Nat} {k : Nat} (hc : c ∉ u) :
    (insertions c u k).Nodup := by
  induction u, k using insertions.induct with
  | case1 u => simp [insertions]
  | case2 k => simp [insertions]
  | case3 x u k ih₁ ih₂ =>
    have hcu : c ∉ u := fun hmem => hc (List.mem_cons_of_mem x hmem)
    have hxc : x ≠ c := fun he => hc (he ▸ List.mem_cons_self)
    rw [insertions, List.nodup_append]
    refine ⟨(ih₁ hc).map (List.cons_injective), (ih₂ hcu).map (List.cons_injective), ?_⟩
    intro v hv w hw hvw
    obtain ⟨v', -, rfl⟩ := List.mem_map.1 hv
    obtain ⟨w', -, rfl⟩ := List.mem_map.1 hw
    exact hxc (List.cons.inj hvw).1.symm

private theorem perm_append_replicate_iff {l w : List Nat} {k : Nat} (hc : c ∉ l) :
    w ~ l ++ List.replicate k c ↔ w.filter (· ≠ c) ~ l ∧ w.count c = k := by
  constructor
  · intro h
    have hfilter := h.filter (· ≠ c)
    have hcount := h.count_eq c
    rw [List.filter_append, filter_ne_eq_self hc] at hfilter
    rw [List.count_append, List.count_eq_zero.2 hc, List.count_replicate_self] at hcount
    exact ⟨by simpa using hfilter, by omega⟩
  · intro ⟨hfilter, hcount⟩
    rw [List.perm_iff_count]
    intro a
    rw [List.count_append, List.count_replicate]
    by_cases ha : a = c
    · subst ha
      rw [List.count_eq_zero.2 hc, hcount]
      simp
    · have hca : ¬ c = a := fun he => ha he.symm
      rw [← hfilter.count_eq a, List.count_filter (by simpa using ha)]
      simp [hca]

end Insertions

section Woven

private theorem blockOwners_concat (sizes : List Nat) (k : Nat) :
    blockOwners (sizes ++ [k]) = blockOwners sizes ++ List.replicate k sizes.length := by
  simp [blockOwners, List.zipIdx_append]

private theorem length_not_mem_blockOwners (sizes : List Nat) :
    sizes.length ∉ blockOwners sizes := by
  rw [← List.count_eq_zero, blockOwners, count_blockOwners_aux]
  simp

private theorem length_blockOwners (sizes : List Nat) : (blockOwners sizes).length = sizes.sum := by
  induction sizes using List.reverseRecOn with
  | nil => rfl
  | append_singleton sizes k ih => rw [blockOwners_concat, List.length_append, ih]; simp

private theorem length_interleavings_concat (sizes : List Nat) (k : Nat) :
    (interleavings (sizes ++ [k])).length =
      (interleavings sizes).length * (sizes.sum + k).choose k := by
  have hfresh {w : List Nat} (hw : w ∈ interleavings sizes) : sizes.length ∉ w := by
    rw [(mem_interleavings.1 hw).mem_iff]
    exact length_not_mem_blockOwners sizes
  have hperm : (interleavings (sizes ++ [k])) ~
      (interleavings sizes).flatMap fun w => insertions sizes.length w k := by
    rw [List.perm_ext_iff_of_nodup (nodup_interleavings _)]
    · intro w
      rw [mem_interleavings, blockOwners_concat,
        perm_append_replicate_iff (length_not_mem_blockOwners sizes), List.mem_flatMap]
      constructor
      · intro ⟨hfilter, hcount⟩
        have hmem := mem_interleavings.2 hfilter
        exact ⟨_, hmem, (mem_insertions (hfresh hmem)).2 ⟨rfl, hcount⟩⟩
      · intro ⟨v, hv, hw⟩
        obtain ⟨rfl, hcount⟩ := (mem_insertions (hfresh hv)).1 hw
        exact ⟨mem_interleavings.1 hv, hcount⟩
    · rw [List.nodup_flatMap]
      refine ⟨fun w hw => nodup_insertions (hfresh hw), ?_⟩
      refine (nodup_interleavings sizes).imp_of_mem ?_
      intro v w hv hw hne x hxv hxw
      exact hne (((mem_insertions (hfresh hv)).1 hxv).1.symm.trans
        ((mem_insertions (hfresh hw)).1 hxw).1)
  have hlength : ∀ w ∈ interleavings sizes,
      (insertions sizes.length w k).length = (sizes.sum + k).choose k := by
    intro w hw
    rw [length_insertions, (mem_interleavings.1 hw).length_eq, length_blockOwners]
  rw [hperm.length_eq, List.length_flatMap, List.map_congr_left hlength, List.map_const',
    List.sum_replicate_nat]

/-- The number of ways in which components choose their places one after the other, when `placed`
blocks have been placed before. -/
def placings (placed : Nat) : List Nat → Nat
  | [] => 1
  | k :: rest => (placed + k).choose k * placings (placed + k) rest

private theorem placings_concat (placed : Nat) (sizes : List Nat) (k : Nat) :
    placings placed (sizes ++ [k]) =
      placings placed sizes * (placed + sizes.sum + k).choose k := by
  induction sizes generalizing placed with
  | nil => simp [placings]
  | cons n sizes ih =>
    rw [List.cons_append, placings, ih, placings, List.sum_cons, Nat.mul_assoc,
      Nat.add_assoc placed n]

theorem length_interleavings (sizes : List Nat) :
    (interleavings sizes).length = placings 0 sizes := by
  induction sizes using List.reverseRecOn with
  | nil =>
    rw [interleavings, arrangements_of_next?_eq_none rfl]
    rfl
  | append_singleton sizes k ih =>
    rw [length_interleavings_concat, placings_concat, ih, Nat.zero_add]

end Woven

end TreeQuery.Arrangement
