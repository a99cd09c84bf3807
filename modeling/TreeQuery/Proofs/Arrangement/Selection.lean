import TreeQuery.Proofs.Arrangement.Candidate

/-!
The order of the candidates. Each is assembled from a selection: one block order per component, and
an interleaving. The selections come in lexicographic order, from the least to the greatest and
without gaps, and no two of them give the same token order.
-/

set_option autoImplicit false
set_option relaxedAutoImplicit false

namespace TreeQuery.Arrangement

open scoped List

variable {ls : List Layout}

namespace Selection

/-- The block orders of the components one after the other, and then the interleaving. -/
def tuple (s : Selection) : List (List Nat) := s.orders ++ [s.interleaving]

/-- Each block order arranges the blocks of its component as required, and the interleaving takes
all blocks of each component. -/
structure Fits (s : Selection) (ls : List Layout) : Prop where
  orders : List.Forall₂ (fun l o => o ~ List.range l.blocks.length ∧ Respects l.required o)
    ls s.orders
  interleaving : ∀ n, s.interleaving.count n = (ls[n]?.map fun l => l.blocks.length).getD 0

end Selection

private theorem mem_selections {s : Selection} : s ∈ selections ls ↔ s.Fits ls := by
  have hmem : s ∈ selections ls ↔ s.orders ∈ choices ls ∧
      s.interleaving ∈ interleavings (ls.map fun l => l.blocks.length) := by
    simp only [selections, withInterleavings, List.mem_flatMap, List.mem_map]
    constructor
    · rintro ⟨orders, horders, w, hw, rfl⟩
      exact ⟨horders, hw⟩
    · rintro ⟨horders, hw⟩
      exact ⟨s.orders, horders, s.interleaving, hw, rfl⟩
  simp only [hmem, mem_choices, mem_orders, mem_interleavings, perm_blockOwners_iff_count,
    List.getElem?_map]
  constructor
  · rintro ⟨horders, hcount⟩
    exact ⟨horders, hcount⟩
  · rintro ⟨horders, hcount⟩
    exact ⟨horders, hcount⟩

private theorem append_lt_append_of_lt {l l' : List (List Nat)} (hlen : l.length = l'.length)
    (h : l < l') (m m' : List (List Nat)) : l ++ m < l' ++ m' := by
  induction l generalizing l' with
  | nil =>
    rw [List.length_eq_zero_iff.1 hlen.symm] at h
    exact absurd h (lt_irrefl _)
  | cons a l ih =>
    cases l' with
    | nil => simp at hlen
    | cons b l' =>
      rw [List.cons_append, List.cons_append, List.cons_lt_cons_iff]
      rcases List.cons_lt_cons_iff.1 h with hab | ⟨hab, htail⟩
      · exact .inl hab
      · exact .inr ⟨hab, ih (Nat.succ.inj hlen) htail⟩

private theorem pairwise_lt_selections (ls : List Layout) :
    (selections ls).Pairwise fun s t => s.tuple < t.tuple := by
  rw [selections, withInterleavings, List.pairwise_flatMap]
  constructor
  · intro orders _
    rw [List.pairwise_map]
    refine (pairwise_lt_arrangements _).imp ?_
    intro w w' hlt
    exact List.append_left_lt (List.cons_lt_cons_iff.2 (.inl hlt))
  · refine (pairwise_lt_choices ls).imp_of_mem ?_
    intro orders orders' horders horders' hlt s hs t ht
    obtain ⟨w, -, rfl⟩ := List.mem_map.1 hs
    obtain ⟨w', -, rfl⟩ := List.mem_map.1 ht
    -- both choices have an order for each component, so they differ before the interleavings begin
    have hlen : orders.length = orders'.length :=
      (mem_choices.1 horders).length_eq.symm.trans (mem_choices.1 horders').length_eq
    exact append_lt_append_of_lt hlen hlt _ _

private theorem exists_least_selection (h : (candidates ls).toList ≠ []) :
    ∃ least, (selections ls).head? = some least ∧
      ∀ s : Selection, s.Fits ls → least.tuple ≤ s.tuple := by
  have hlt := pairwise_lt_selections ls
  have hne : selections ls ≠ [] := by
    rw [toList_candidates] at h
    exact fun hnil => h (by rw [hnil, List.map_nil])
  obtain ⟨least, rest, heq⟩ := List.exists_cons_of_ne_nil hne
  refine ⟨least, by rw [heq, List.head?_cons], ?_⟩
  intro s hs
  rw [← mem_selections, heq] at hs
  rw [heq, List.pairwise_cons] at hlt
  rcases List.mem_cons.1 hs with rfl | hs
  · exact le_rfl
  · exact (hlt.1 s hs).le

end TreeQuery.Arrangement

namespace TreeQuery.Query

open Arrangement

/-- Call after call of the odometer gives the candidates of the selections of a query in
lexicographic order, and then nothing more: they begin with the least selection, leave none out, and
differ in their token orders. -/
theorem candidates_follow_selections (q : Query) (ls : List Layout) (h : q.layouts = .ok ls) :
    ∃ ss : List Selection,
      (∀ n, ((fun s => s.next.2)^[n] (Odometer.start ls)).next.1 =
        ss[n]?.map (Selection.candidate ls)) ∧
      (candidates ls).toList = ss.map (Selection.candidate ls) ∧
      (ss.Pairwise fun s t => s.tuple < t.tuple) ∧
      (∃ least, ss.head? = some least ∧ ∀ s : Selection, s.Fits ls → least.tuple ≤ s.tuple) ∧
      (∀ s, s ∈ ss ↔ s.Fits ls) ∧
      ∀ s t : Selection, s.Fits ls → t.Fits ls →
        (s.candidate ls).tokens = (t.candidate ls).tokens → s = t := by
  refine ⟨selections ls, ?_, toList_candidates ls, pairwise_lt_selections ls,
    exists_least_selection (candidates_ne_nil_of_layouts_eq_ok h), fun s => mem_selections, ?_⟩
  · intro n
    rw [Odometer.draws_candidatesAhead.iterate, Odometer.candidatesAhead_start, List.getElem?_map]
  obtain ⟨comps, hcomps, rfl, -⟩ := decomposes_of_layouts_eq_ok h
  have hpres := presents_blocksOf hcomps
  have hnodup := nodup_tokens_candidates hpres.nodup hpres.nonempty
  rw [toList_candidates, List.map_map] at hnodup
  intro s t hs ht heq
  exact List.inj_on_of_nodup_map hnodup (mem_selections.2 hs) (mem_selections.2 ht) heq

/-- A free token and two pairs of tokens that each may come in either order. -/
def loose : Query where
  tokens := [⟨⟨2⟩, none⟩]
  dependencies := [⟨⟨0⟩, ⟨1⟩⟩, ⟨⟨3⟩, ⟨4⟩⟩]
  predicates := []
  constraints := []

theorem loose_follow_selections :
    ∃ ls, loose.layouts = .ok ls ∧ (candidates ls).toList.length = 120 ∧
      ∃ ss : List Selection,
        (∀ n, ((fun s => s.next.2)^[n] (Odometer.start ls)).next.1 =
          ss[n]?.map (Selection.candidate ls)) ∧
        (candidates ls).toList = ss.map (Selection.candidate ls) ∧
        (ss.Pairwise fun s t => s.tuple < t.tuple) ∧
        (∃ least, ss.head? = some least ∧
          ∀ s : Selection, s.Fits ls → least.tuple ≤ s.tuple) ∧
        (∀ s, s ∈ ss ↔ s.Fits ls) ∧
        ∀ s t : Selection, s.Fits ls → t.Fits ls →
          (s.candidate ls).tokens = (t.candidate ls).tokens → s = t := by
  have hcount :
      loose.layouts.toOption.map (fun ls => (candidates ls).toList.length) = some 120 := by
    decide +kernel
  obtain ⟨ls, hls, hlength⟩ := Option.map_eq_some_iff.1 hcount
  rw [Sequence.toOption_eq_some_iff] at hls
  exact ⟨ls, hls, hlength, candidates_follow_selections loose ls hls⟩

end TreeQuery.Query
