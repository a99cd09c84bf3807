import Mathlib.Logic.Relation
import TreeQuery.Proofs.Sequence
import TreeQuery.Query.Satisfaction

/-!
Chains of order constraints. An order of tokens in which a list of constraints holds puts the ends
of every chain in their order, so that no chain can lead back to its start. If none does, the
general constraints hold exactly of the orders in which no later token leads to an earlier one.
-/

set_option autoImplicit false
set_option relaxedAutoImplicit false

namespace TreeQuery.OrderConstraint

open scoped List

def Step (cs : List OrderConstraint) (a b : Identifier) : Prop :=
  ∃ c ∈ cs, c.before = a ∧ c.after = b

/-- One or more constraints lead from `a` to `b`. -/
def Chain (cs : List OrderConstraint) : Identifier → Identifier → Prop :=
  Relation.TransGen (Step cs)

def Adjoins (cs : List OrderConstraint) (a b : Identifier) : Prop :=
  ⟨a, b, .immediate⟩ ∈ cs

variable {cs : List OrderConstraint} {order : List Identifier} {a b : Identifier}

theorem Adjoins.step (h : Adjoins cs a b) : Step cs a b :=
  ⟨_, h, rfl, rfl⟩

theorem adjoins_iff :
    Adjoins cs a b ↔ ∃ c ∈ cs, c.isImmediate = true ∧ c.before = a ∧ c.after = b := by
  constructor
  · intro h
    exact ⟨_, h, rfl, rfl, rfl⟩
  · rintro ⟨⟨x, y, k⟩, hc, hk, rfl, rfl⟩
    have hkind : k = .immediate := by simpa [isImmediate] using hk
    subst hkind
    exact hc

theorem Step.mono {cs' : List OrderConstraint} (hsub : cs ⊆ cs') (h : Step cs a b) :
    Step cs' a b := by
  obtain ⟨c, hc, rfl, rfl⟩ := h
  exact ⟨c, hsub hc, rfl, rfl⟩

private theorem Holds.before_lt_after {position : Identifier → Nat} {c : OrderConstraint}
    (h : c.Holds position) : position c.before < position c.after := by
  obtain ⟨x, y, k⟩ := c
  cases k with
  | general => exact h
  | immediate =>
    have heq : position y = position x + 1 := h
    change position x < position y
    omega

private theorem AllHold.lt_of_chain (h : AllHold order cs) (hab : Chain cs a b) :
    order.idxOf a < order.idxOf b := by
  induction hab with
  | single hs =>
    obtain ⟨c, hc, rfl, rfl⟩ := hs
    exact (h c hc).before_lt_after
  | tail _ hs ih =>
    obtain ⟨c, hc, rfl, rfl⟩ := hs
    exact ih.trans (h c hc).before_lt_after

theorem AllHold.acyclic (h : AllHold order cs) (a : Identifier) : ¬ Chain cs a a :=
  fun haa => Nat.lt_irrefl _ (h.lt_of_chain haa)

theorem allHold_iff (hnodup : order.Nodup) (hmem : ∀ c ∈ cs, c.after ∈ order) :
    AllHold order cs ↔
      (∀ a b, Adjoins cs a b → [a, b] <:+: order) ∧ ∀ a b, Step cs a b → [a, b] <+ order := by
  constructor
  · intro h
    constructor
    · intro a b hab
      exact (Sequence.idxOf_eq_idxOf_succ_iff hnodup (hmem _ hab)).1 (h _ hab)
    · rintro a b ⟨c, hc, rfl, rfl⟩
      exact (Sequence.idxOf_lt_idxOf_iff hnodup (hmem c hc)).1 (h c hc).before_lt_after
  · rintro ⟨hadj, hstep⟩ ⟨x, y, k⟩ hc
    cases k with
    | general =>
      exact (Sequence.idxOf_lt_idxOf_iff hnodup (hmem _ hc)).2 (hstep x y ⟨_, hc, rfl, rfl⟩)
    | immediate => exact (Sequence.idxOf_eq_idxOf_succ_iff hnodup (hmem _ hc)).2 (hadj x y hc)

private theorem pair_sublist_of_ne (ha : a ∈ order) (hb : b ∈ order) (hne : a ≠ b) :
    [a, b] <+ order ∨ [b, a] <+ order := by
  induction order with
  | nil => simp at ha
  | cons x order ih =>
    rcases List.mem_cons.1 ha with rfl | ha'
    · have hb' := (List.mem_cons.1 hb).resolve_left hne.symm
      exact .inl (List.cons_sublist_cons.2 (List.singleton_sublist.2 hb'))
    · rcases List.mem_cons.1 hb with rfl | hb'
      · exact .inr (List.cons_sublist_cons.2 (List.singleton_sublist.2 ha'))
      · exact (ih ha' hb').imp (·.cons x) (·.cons x)

/-- Without circular chains, every constrained pair stands in its order if and only if no token
leads to one before it. -/
theorem steps_sublist_iff_pairwise (hnodup : order.Nodup)
    (hmem : ∀ c ∈ cs, c.before ∈ order ∧ c.after ∈ order) (hacyclic : ∀ a, ¬ Chain cs a a) :
    (∀ a b, Step cs a b → [a, b] <+ order) ↔ order.Pairwise fun a b => ¬ Chain cs b a := by
  constructor
  · intro h
    have hlt : ∀ a b, Chain cs a b → order.idxOf a < order.idxOf b := by
      intro a b hab
      induction hab with
      | single hs =>
        obtain ⟨c, hc, rfl, rfl⟩ := id hs
        exact (Sequence.idxOf_lt_idxOf_iff hnodup (hmem c hc).2).2 (h _ _ hs)
      | tail _ hs ih =>
        obtain ⟨c, hc, rfl, rfl⟩ := id hs
        exact ih.trans ((Sequence.idxOf_lt_idxOf_iff hnodup (hmem c hc).2).2 (h _ _ hs))
    rw [List.pairwise_iff_forall_sublist]
    intro a b hab hba
    have hb : b ∈ order := hab.subset (by simp)
    have := (Sequence.idxOf_lt_idxOf_iff hnodup hb).2 hab
    have := hlt b a hba
    omega
  · rintro h a b ⟨c, hc, rfl, rfl⟩
    have hchain : Chain cs c.before c.after := .single ⟨c, hc, rfl, rfl⟩
    have hne : c.before ≠ c.after := by
      intro he
      rw [he] at hchain
      exact hacyclic _ hchain
    rcases pair_sublist_of_ne (hmem c hc).1 (hmem c hc).2 hne with hsub | hsub
    · exact hsub
    · exact absurd hchain (List.pairwise_iff_forall_sublist.1 h hsub)

end TreeQuery.OrderConstraint
