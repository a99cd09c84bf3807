import Mathlib.Data.List.Lex
import Mathlib.Data.List.Perm.Lattice
import TreeQuery.Proofs.Arrangement.Layout
import TreeQuery.Proofs.Arrangement.Search

/-!
The orders of the blocks of a layout. They are the arrangements of the block numbers that respect
the requirement, each listed once and in lexicographic order. For the layout of a component they
are the orders of its blocks in which no block leads to one before it.
-/

set_option autoImplicit false
set_option relaxedAutoImplicit false

namespace TreeQuery.Arrangement

open scoped List
open TreeQuery.Order (Component Table)

/-- No number of the list is required before itself or before an earlier one. -/
def Respects (required : Table) (o : List Nat) : Prop :=
  (∀ x ∈ o, required.holds x x = false) ∧ o.Pairwise fun x y => required.holds y x = false

private theorem ready_iff {required : Table} {remaining : List Nat} {b : Nat} :
    ready required remaining b = true ↔ ∀ x ∈ remaining, required.holds x b = false := by
  simp [ready]

/-- Every block comes after the blocks that are required before it. -/
def KeepsRequirement (l : Layout) (o : List Nat) : Prop :=
  ∀ x < l.blocks.length, ∀ y < l.blocks.length, l.required.holds x y = true →
    o.idxOf x < o.idxOf y

theorem keepsRequirement_iff {l : Layout} {o : List Nat} (ho : o ~ List.range l.blocks.length) :
    KeepsRequirement l o ↔ Respects l.required o := by
  have hmem (x : Nat) : x ∈ o ↔ x < l.blocks.length := by rw [ho.mem_iff, List.mem_range]
  have hpositions := Sequence.forall_idxOf_lt_iff (r := fun x y => l.required.holds x y = true)
    (ho.nodup_iff.2 List.nodup_range)
  simpa only [KeepsRequirement, Respects, hmem, Bool.not_eq_true] using hpositions

private theorem respects_cons {required : Table} {b : Nat} {o : List Nat} :
    Respects required (b :: o) ↔
      (∀ x ∈ b :: o, required.holds x b = false) ∧ Respects required o := by
  simp only [Respects, List.forall_mem_cons, List.pairwise_cons]
  tauto

private theorem mem_ordersOf {required : Table} {n : Nat} {remaining : List Nat}
    (hn : remaining.length = n) {o : List Nat} :
    o ∈ (ordersOf required n remaining).toList ↔ o ~ remaining ∧ Respects required o := by
  induction n generalizing remaining o with
  | zero =>
    obtain rfl := List.eq_nil_of_length_eq_zero hn
    simp only [ordersOf, Enumeration.toList_cons, Enumeration.toList_nil, List.mem_singleton,
      List.perm_nil]
    constructor
    · rintro rfl
      exact ⟨rfl, by simp [Respects]⟩
    · exact And.left
  | succ n ih =>
    have hlen {b : Nat} (hb : b ∈ remaining) : (remaining.erase b).length = n := by
      rw [List.length_erase_of_mem hb]
      omega
    simp only [ordersOf, Enumeration.toList_flatMap, Enumeration.toList_ofList,
      Enumeration.toList_map, List.mem_flatMap, List.mem_filter, List.mem_map]
    constructor
    · rintro ⟨b, ⟨hb, hready⟩, o', ho', rfl⟩
      obtain ⟨hperm, hresp⟩ := (ih (hlen hb)).1 ho'
      have hall : b :: o' ~ remaining := (hperm.cons b).trans (List.perm_cons_erase hb).symm
      refine ⟨hall, respects_cons.2 ⟨?_, hresp⟩⟩
      intro x hx
      exact ready_iff.1 hready x (hall.subset hx)
    · rintro ⟨hperm, hresp⟩
      cases o with
      | nil =>
        rw [hperm.symm.eq_nil] at hn
        simp at hn
      | cons b o' =>
        obtain ⟨hfirst, hrest⟩ := respects_cons.1 hresp
        obtain ⟨hb, ho'⟩ := List.cons_perm_iff_perm_erase.1 hperm
        refine ⟨b, ⟨hb, ready_iff.2 ?_⟩, o', (ih (hlen hb)).2 ⟨ho', hrest⟩, rfl⟩
        intro x hx
        exact hfirst x (hperm.symm.subset hx)

private theorem pairwise_lt_ordersOf {required : Table} (n : Nat) {remaining : List Nat}
    (h : remaining.Pairwise (· < ·)) :
    (ordersOf required n remaining).toList.Pairwise (· < ·) := by
  induction n generalizing remaining with
  | zero => simp [ordersOf]
  | succ n ih =>
    simp only [ordersOf, Enumeration.toList_flatMap, Enumeration.toList_ofList,
      Enumeration.toList_map, List.pairwise_flatMap, List.pairwise_map, List.mem_map]
    constructor
    · intro b _
      refine (ih (h.sublist List.erase_sublist)).imp ?_
      intro o o' hlt
      exact List.cons_lt_cons_iff.2 (.inr ⟨rfl, hlt⟩)
    · refine (h.sublist List.filter_sublist).imp ?_
      rintro b b' hlt x ⟨o, -, rfl⟩ y ⟨o', -, rfl⟩
      exact List.cons_lt_cons_iff.2 (.inl hlt)

theorem mem_orders {l : Layout} {o : List Nat} :
    o ∈ l.orders.toList ↔ o ~ List.range l.blocks.length ∧ Respects l.required o := by
  rw [toList_orders_eq]
  exact mem_ordersOf List.length_range

theorem pairwise_lt_orders (l : Layout) : l.orders.toList.Pairwise (· < ·) := by
  rw [toList_orders_eq]
  exact pairwise_lt_ordersOf _ List.pairwise_lt_range

/-- Whatever is required between the blocks of a layout, call after call of its search gives the
orders of the block numbers in which what is required to come first does, in lexicographic order,
and then nothing more. -/
theorem search_draws_orders (l : Layout) :
    ∃ os : List (List Nat),
      (∀ n, ((fun s => s.next.2)^[n] l.search).next.1 = os[n]?) ∧
      (∀ o, o ∈ os ↔ o ~ List.range l.blocks.length ∧ KeepsRequirement l o) ∧
      os.Pairwise (· < ·) ∧ (l.blocks = [] → os = [[]]) := by
  refine ⟨l.search.ahead, fun n => Search.draws_ahead.iterate n l.search, ?_, ?_, ?_⟩
  · intro o
    rw [ahead_search, mem_ordersOf List.length_range]
    apply and_congr_right
    intro ho
    rw [keepsRequirement_iff ho]
  · rw [ahead_search]
    exact pairwise_lt_ordersOf _ List.pairwise_lt_range
  · intro hnone
    rw [ahead_search, hnone]
    rfl

def Layout.sequence (l : Layout) (o : List Nat) : List (List Identifier) :=
  o.map fun b => l.blocks.getD b []

private theorem sequence_range (l : Layout) :
    l.sequence (List.range l.blocks.length) = l.blocks := by
  apply List.ext_getElem
  · simp [Layout.sequence]
  · intro n h₁ h₂
    simp [Layout.sequence, List.getD_eq_getElem?_getD, h₂]

theorem sequence_perm {l : Layout} {o : List Nat} (h : o ~ List.range l.blocks.length) :
    l.sequence o ~ l.blocks := by
  conv_rhs => rw [← sequence_range l]
  exact h.map _

theorem eq_of_sequence_eq {l : Layout} (hl : l.blocks.Nodup) {o o' : List Nat}
    (ho : ∀ x ∈ o, x < l.blocks.length) (ho' : ∀ x ∈ o', x < l.blocks.length)
    (h : l.sequence o = l.sequence o') : o = o' := by
  have hback (o : List Nat) (ho : ∀ x ∈ o, x < l.blocks.length) :
      (l.sequence o).map (fun b => l.blocks.idxOf b) = o := by
    rw [Layout.sequence, List.map_map]
    conv_rhs => rw [← List.map_id o]
    apply List.map_congr_left
    intro x hx
    simp [List.getD_eq_getElem?_getD, ho x hx, hl.idxOf_getElem]
  rw [← hback o ho, ← hback o' ho', h]

theorem exists_sequence_eq {l : Layout} (hl : l.blocks.Nodup) {bs : List (List Identifier)}
    (h : bs ~ l.blocks) : ∃ o, o ~ List.range l.blocks.length ∧ l.sequence o = bs := by
  refine ⟨bs.map fun b => l.blocks.idxOf b, ?_, ?_⟩
  · have hrange : l.blocks.map (fun b => l.blocks.idxOf b) = List.range l.blocks.length := by
      apply List.ext_getElem
      · simp
      · intro n h₁ h₂
        simp [hl.idxOf_getElem]
    rw [← hrange]
    exact h.map _
  · rw [Layout.sequence, List.map_map]
    conv_rhs => rw [← List.map_id bs]
    apply List.map_congr_left
    intro b hb
    have hlt := List.idxOf_lt_length_of_mem (h.subset hb)
    simp [List.getD_eq_getElem?_getD, hlt]

theorem nodup_of_nodup_flatten {α : Type} {bs : List (List α)} (h : bs.flatten.Nodup)
    (hne : ∀ x ∈ bs, x ≠ []) : bs.Nodup := by
  refine (List.nodup_flatten.1 h).2.imp_of_mem ?_
  rintro x y hx - hdis rfl
  obtain ⟨a, ha⟩ := List.exists_mem_of_ne_nil x (hne x hx)
  exact hdis ha ha

section Component

variable {c : Component}

theorem respects_iff_pairwise (hc : c.Faithful) {o : List Nat}
    (ho : o ~ List.range (Layout.ofComponent c).blocks.length) :
    Respects (Layout.ofComponent c).required o ↔
      ((Layout.ofComponent c).sequence o).Pairwise fun x y => ¬ Leads c.constraints y x := by
  have hlt : ∀ x ∈ o, x < (Layout.ofComponent c).blocks.length := fun x hx =>
    List.mem_range.1 (ho.subset hx)
  have hself : ∀ x ∈ o, (Layout.ofComponent c).required.holds x x = false := by
    intro x _
    rw [← Bool.not_eq_true, holds_required_iff hc]
    exact fun h => h.1 rfl
  have hpair {x y : Nat} (hx : x ∈ o) (hy : y ∈ o) (hne : x ≠ y) :
      (Layout.ofComponent c).required.holds y x = false ↔
        ¬ Leads c.constraints ((Layout.ofComponent c).blocks.getD y [])
          ((Layout.ofComponent c).blocks.getD x []) := by
    rw [← Bool.not_eq_true, holds_required_iff hc]
    simp [hne.symm, List.getD_eq_getElem?_getD, hlt x hx, hlt y hy]
  have hnodup : o.Nodup := ho.nodup_iff.2 List.nodup_range
  rw [Respects, and_iff_right hself, Layout.sequence, List.pairwise_map]
  constructor
  · intro h
    exact (h.and hnodup).imp_of_mem fun hx hy hxy => (hpair hx hy hxy.2).1 hxy.1
  · intro h
    exact (h.and hnodup).imp_of_mem fun hx hy hxy => (hpair hx hy hxy.2).2 hxy.1

theorem exists_mem_orders_iff (hc : c.Faithful) {bs : List (List Identifier)} :
    (∃ o ∈ (Layout.ofComponent c).orders.toList, (Layout.ofComponent c).sequence o = bs) ↔
      bs ~ (Layout.ofComponent c).blocks ∧ bs.Pairwise fun x y => ¬ Leads c.constraints y x := by
  have hpres := presents_ofComponent hc
  constructor
  · rintro ⟨o, ho, rfl⟩
    obtain ⟨hperm, hresp⟩ := mem_orders.1 ho
    exact ⟨sequence_perm hperm, (respects_iff_pairwise hc hperm).1 hresp⟩
  · rintro ⟨hperm, hpair⟩
    obtain ⟨o, ho, rfl⟩ :=
      exists_sequence_eq (nodup_of_nodup_flatten hpres.nodup hpres.nonempty) hperm
    exact ⟨o, mem_orders.2 ⟨ho, (respects_iff_pairwise hc ho).2 hpair⟩, rfl⟩

end Component

end TreeQuery.Arrangement
