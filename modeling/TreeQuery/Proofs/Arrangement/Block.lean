import Mathlib.Data.List.Chain
import Mathlib.Data.List.Nodup
import Mathlib.Data.List.Perm.Basic
import TreeQuery.Proofs.Order.Component

/-!
Orders of tokens as orders of blocks. Blocks present a list of constraints if they hold exactly the
pairs that have to be adjoined as neighbours. The constraints then hold of an order of the tokens
if and only if it runs through the blocks one after the other, in an order of the blocks in which
no block leads to one before it, and this order of the blocks is the only one it comes from.
-/

set_option autoImplicit false
set_option relaxedAutoImplicit false

namespace TreeQuery.Arrangement

open scoped List
open OrderConstraint (Step Chain Adjoins AllHold)
open TreeQuery.Order (Closed)

/-- A chain of constraints leads from some token of the block `x` to some token of `y`. -/
def Leads (cs : List OrderConstraint) (x y : List Identifier) : Prop :=
  ∃ a ∈ x, ∃ b ∈ y, Chain cs a b

/-- The blocks hold the tokens of the constraints, none twice and none in an empty block, with the
pairs that have to be adjoined as neighbours; no chain of constraints is circular. -/
structure Presents (blocks : List (List Identifier)) (cs : List OrderConstraint) : Prop where
  nodup : blocks.flatten.Nodup
  nonempty : ∀ x ∈ blocks, x ≠ []
  closed : Closed blocks.flatten cs
  adjoins_iff : ∀ a b, Adjoins cs a b ↔ ∃ x ∈ blocks, [a, b] <:+: x
  acyclic : ∀ a, ¬ Chain cs a a

section Runs

variable {α : Type} {blocks : List (List α)} {order x l : List α} {a p q : α}

theorem eq_of_mem_blocks (h : blocks.flatten.Nodup) {x y : List α} (hx : x ∈ blocks)
    (hy : y ∈ blocks) (hax : a ∈ x) (hay : a ∈ y) : x = y := by
  induction blocks with
  | nil => simp at hx
  | cons z blocks ih =>
    rw [List.flatten_cons, List.nodup_append] at h
    have hapart {u v : List α} (hu : u = z) (hv : v ∈ blocks) (hau : a ∈ u) : a ∉ v := by
      intro hav
      exact h.2.2 a (hu ▸ hau) a (List.mem_flatten.2 ⟨v, hv, hav⟩) rfl
    rcases List.mem_cons.1 hx with hxz | hx' <;> rcases List.mem_cons.1 hy with hyz | hy'
    · rw [hxz, hyz]
    · exact absurd hay (hapart hxz hy' hax)
    · exact absurd hax (hapart hyz hx' hay)
    · exact ih h.2.1 hx' hy'

private theorem infix_of_infix_append (h : [p, q] <:+: x ++ l) (hp : p ∉ x) : [p, q] <:+: l := by
  induction x with
  | nil => exact h
  | cons y x ih =>
    rw [List.cons_append, List.infix_cons_iff, List.cons_prefix_cons] at h
    rw [List.mem_cons, not_or] at hp
    rcases h with ⟨hpy, -⟩ | h
    · exact absurd hpy hp.1
    · exact ih h hp.2

private theorem prefix_of_pairs (hx : (a :: x).Nodup) (hl : (a :: l).Nodup)
    (h : ∀ p q, [p, q] <:+: a :: x → [p, q] <:+: a :: l) : a :: x <+: a :: l := by
  induction x generalizing a l with
  | nil => simp
  | cons b x ih =>
    have hab := h a b ⟨[], x, rfl⟩
    rw [List.infix_cons_iff, List.cons_prefix_cons] at hab
    rw [List.nodup_cons] at hl hx
    have hbl : [b] <+: l := by
      rcases hab with ⟨-, hbl⟩ | hin
      · exact hbl
      · exact absurd (hin.subset (by simp)) hl.1
    obtain ⟨l', rfl⟩ := hbl
    rw [List.cons_prefix_cons]
    refine ⟨rfl, ih hx.2 hl.2 ?_⟩
    intro p q hpq
    have hpx : p ∈ b :: x := hpq.subset (by simp)
    have hpa : p ∉ [a] := by
      rw [List.mem_singleton]
      rintro rfl
      exact hx.1 hpx
    exact infix_of_infix_append (h p q (List.infix_cons hpq)) hpa

private theorem block_eq_cons (hx : x.Nodup) (hl : (a :: l).Nodup) (hax : a ∈ x)
    (h : ∀ p q, [p, q] <:+: x → [p, q] <:+: a :: l) : ∃ x', x = a :: x' := by
  obtain ⟨s, t, rfl⟩ := List.append_of_mem hax
  rcases List.eq_nil_or_concat s with rfl | ⟨s', b, rfl⟩
  · exact ⟨t, rfl⟩
  · rw [List.concat_eq_append] at hx h
    have hba : [b, a] <:+: s' ++ [b] ++ a :: t := ⟨s', t, by simp⟩
    have hin := h b a hba
    rw [List.infix_cons_iff, List.cons_prefix_cons] at hin
    rw [List.nodup_cons] at hl
    rcases hin with ⟨rfl, hp⟩ | hin
    · exact absurd (hp.subset (by simp)) hl.1
    · exact absurd (hin.subset (by simp)) hl.1

/-- An order that keeps the neighbours of every block runs through the blocks one by one. -/
theorem exists_perm_flatten_eq [DecidableEq α] (hnodup : blocks.flatten.Nodup)
    (hne : ∀ x ∈ blocks, x ≠ []) (hperm : order ~ blocks.flatten)
    (h : ∀ x ∈ blocks, ∀ p q, [p, q] <:+: x → [p, q] <:+: order) :
    ∃ bs, bs ~ blocks ∧ bs.flatten = order := by
  induction hn : blocks.length generalizing blocks order with
  | zero =>
    obtain rfl := List.eq_nil_of_length_eq_zero hn
    exact ⟨[], .nil, hperm.symm.nil_eq⟩
  | succ n ih =>
    cases order with
    | nil =>
      obtain ⟨x, hx⟩ := List.exists_mem_of_length_pos (by omega : 0 < blocks.length)
      obtain ⟨a, ha⟩ := List.exists_mem_of_ne_nil x (hne x hx)
      have : a ∈ blocks.flatten := List.mem_flatten.2 ⟨x, hx, ha⟩
      rw [hperm.symm.eq_nil] at this
      exact absurd this List.not_mem_nil
    | cons a rest =>
      obtain ⟨x, hx, hax⟩ := List.mem_flatten.1 (hperm.subset List.mem_cons_self)
      have hxn : x.Nodup := (List.nodup_flatten.1 hnodup).1 x hx
      have hon : (a :: rest).Nodup := hperm.nodup_iff.2 hnodup
      obtain ⟨x', rfl⟩ := block_eq_cons hxn hon hax (h x hx)
      obtain ⟨rest', hrest⟩ := prefix_of_pairs hxn hon (h _ hx)
      have hblocks : blocks ~ (a :: x') :: blocks.erase (a :: x') := List.perm_cons_erase hx
      have hflat : blocks.flatten ~ (a :: x') ++ (blocks.erase (a :: x')).flatten :=
        hblocks.flatten
      have hnodup' := hflat.nodup_iff.1 hnodup
      rw [List.nodup_append] at hnodup'
      rw [← hrest] at hperm h ⊢
      have hperm' : rest' ~ (blocks.erase (a :: x')).flatten :=
        (List.perm_append_left_iff (a :: x')).1 (hperm.trans hflat)
      obtain ⟨bs, hbs, hbf⟩ := ih hnodup'.2.1
        (fun y hy => hne y (List.mem_of_mem_erase hy)) hperm'
        (by
          intro y hy p q hpq
          refine infix_of_infix_append (h y (List.mem_of_mem_erase hy) p q hpq) fun hpx => ?_
          have hpy : p ∈ y := hpq.subset (by simp)
          exact hnodup'.2.2 p hpx p (List.mem_flatten.2 ⟨y, hy, hpy⟩) rfl)
        (by rw [List.length_erase_of_mem hx]; omega)
      exact ⟨(a :: x') :: bs, (hbs.cons _).trans hblocks.symm, by simp [hbf]⟩

theorem eq_of_flatten_eq {bs bs' : List (List α)} (hnodup : bs.flatten.Nodup)
    (hne : ∀ x ∈ bs, x ≠ []) (hperm : bs' ~ bs) (h : bs'.flatten = bs.flatten) : bs' = bs := by
  induction bs generalizing bs' with
  | nil => exact hperm.eq_nil
  | cons x bs ih =>
    cases bs' with
    | nil => exact absurd hperm.symm.eq_nil (by simp)
    | cons y bs' =>
      have hy : y ∈ x :: bs := hperm.subset List.mem_cons_self
      obtain ⟨a, x', rfl⟩ := List.exists_cons_of_ne_nil (hne x List.mem_cons_self)
      obtain ⟨b, y', rfl⟩ := List.exists_cons_of_ne_nil (hne y hy)
      have hab : b = a := by
        simp only [List.flatten_cons, List.cons_append, List.cons.injEq] at h
        exact h.1
      subst hab
      have hxy : b :: y' = b :: x' :=
        eq_of_mem_blocks hnodup hy List.mem_cons_self List.mem_cons_self List.mem_cons_self
      rw [hxy] at hperm h ⊢
      rw [List.flatten_cons, List.nodup_append] at hnodup
      rw [List.flatten_cons, List.flatten_cons, List.append_cancel_left_eq] at h
      rw [ih hnodup.2.1 (fun z hz => hne z (List.mem_cons_of_mem _ hz)) hperm.cons_inv h]

end Runs

namespace Presents

variable {blocks : List (List Identifier)} {cs : List OrderConstraint}

private theorem pairwise_of_mem (h : Presents blocks cs) {x : List Identifier} (hx : x ∈ blocks) :
    x.Pairwise fun a b => ¬ Chain cs b a := by
  have hchain : x.IsChain (Chain cs) := by
    rw [List.isChain_iff_forall_rel_of_append_cons_cons]
    intro a b s t hst
    have hab : [a, b] <:+: x := ⟨s, t, by simp [hst]⟩
    exact .single ((h.adjoins_iff a b).2 ⟨x, hx, hab⟩).step
  have : Trans (Chain cs) (Chain cs) (Chain cs) := ⟨Relation.TransGen.trans⟩
  refine hchain.pairwise.imp ?_
  intro a b hab hba
  exact h.acyclic a (hab.trans hba)

theorem pairwise_flatten_iff (h : Presents blocks cs) {bs : List (List Identifier)}
    (hbs : bs ~ blocks) :
    bs.flatten.Pairwise (fun a b => ¬ Chain cs b a) ↔
      bs.Pairwise fun x y => ¬ Leads cs y x := by
  rw [List.pairwise_flatten]
  constructor
  · intro hpair
    refine hpair.2.imp ?_
    rintro x y hxy ⟨a, ha, b, hb, hab⟩
    exact hxy b hb a ha hab
  · intro hpair
    refine ⟨fun x hx => h.pairwise_of_mem (hbs.mem_iff.1 hx), hpair.imp ?_⟩
    intro x y hxy a ha b hb hba
    exact hxy ⟨b, hb, a, ha, hba⟩

/-- The constraints hold of exactly the orders that run through the blocks so that no block leads
to one before it. -/
theorem allHold_iff (h : Presents blocks cs) {order : List Identifier}
    (hperm : order ~ blocks.flatten) :
    AllHold order cs ↔
      ∃ bs, bs ~ blocks ∧ bs.Pairwise (fun x y => ¬ Leads cs y x) ∧ bs.flatten = order := by
  have hon : order.Nodup := hperm.nodup_iff.2 h.nodup
  have hmem : ∀ c ∈ cs, c.before ∈ order ∧ c.after ∈ order := fun c hc =>
    ⟨hperm.mem_iff.2 (h.closed c hc).1, hperm.mem_iff.2 (h.closed c hc).2⟩
  rw [OrderConstraint.allHold_iff hon fun c hc => (hmem c hc).2,
    OrderConstraint.steps_sublist_iff_pairwise hon hmem h.acyclic]
  constructor
  · rintro ⟨hadj, hpair⟩
    obtain ⟨bs, hbs, rfl⟩ := exists_perm_flatten_eq h.nodup h.nonempty hperm
      fun x hx p q hpq => hadj p q ((h.adjoins_iff p q).2 ⟨x, hx, hpq⟩)
    exact ⟨bs, hbs, (h.pairwise_flatten_iff hbs).1 hpair, rfl⟩
  · rintro ⟨bs, hbs, hpair, rfl⟩
    refine ⟨?_, (h.pairwise_flatten_iff hbs).2 hpair⟩
    intro a b hab
    obtain ⟨x, hx, hin⟩ := (h.adjoins_iff a b).1 hab
    exact hin.trans (List.infix_of_mem_flatten (hbs.mem_iff.2 hx))

end Presents

end TreeQuery.Arrangement
