import TreeQuery.Proofs.Order.Component

/-!
The constraints that a component is refused with. They are the constraints on directed cycles or,
if there are none, two immediate constraints that ask for different neighbours. Either way they hold
of no order by themselves: every cycle lies within the constraints that are on cycles.
-/

set_option autoImplicit false
set_option relaxedAutoImplicit false

namespace TreeQuery.OrderConstraint

open scoped List

variable {cs cs' walk cycle : List OrderConstraint} {a b : Identifier}

inductive Walk (cs : List OrderConstraint) :
    Identifier → List OrderConstraint → Identifier → Prop
  | nil (a : Identifier) : Walk cs a [] a
  | cons {c : OrderConstraint} {walk : List OrderConstraint} {b : Identifier} :
      c ∈ cs → Walk cs c.after walk b → Walk cs c.before (c :: walk) b

private theorem Walk.of_subset (h : Walk cs a walk b) (hsub : walk ⊆ cs') : Walk cs' a walk b := by
  induction h with
  | nil a => exact .nil a
  | cons _ _ ih =>
    obtain ⟨hc, hrest⟩ := List.cons_subset.1 hsub
    exact .cons hc (ih hrest)

private theorem Walk.reaches (h : Walk cs a walk b) : Relation.ReflTransGen (Step cs) a b := by
  induction h with
  | nil a => exact .refl
  | cons hc _ ih => exact .head ⟨_, hc, rfl, rfl⟩ ih

private theorem Walk.split {c : OrderConstraint} {s t : List OrderConstraint}
    (h : Walk cs a (s ++ c :: t) b) :
    Walk cs a s c.before ∧ c ∈ cs ∧ Walk cs c.after t b := by
  induction s generalizing a with
  | nil =>
    cases h with
    | cons hc ht => exact ⟨.nil c.before, hc, ht⟩
  | cons k s ih =>
    cases h with
    | cons hk hs =>
      obtain ⟨hs, ht⟩ := ih hs
      exact ⟨.cons hk hs, ht⟩

private theorem exists_simple_walk (h : Relation.ReflTransGen (Step cs) a b) :
    ∃ walk, Walk cs a walk b ∧ (walk.map before ++ [b]).Nodup := by
  induction h using Relation.ReflTransGen.head_induction_on with
  | refl => exact ⟨[], .nil b, List.nodup_singleton b⟩
  | head hstep _ ih =>
    obtain ⟨c, hc, rfl, rfl⟩ := hstep
    obtain ⟨walk, hwalk, hnodup⟩ := ih
    by_cases hpassed : c.before ∈ walk.map before ++ [b]
    · -- the walk comes back to the start of `c`, and the way before that is dropped
      rcases List.mem_append.1 hpassed with hpassed | hend
      · obtain ⟨k, hk, hkc⟩ := List.mem_map.1 hpassed
        obtain ⟨s, t, rfl⟩ := List.append_of_mem hk
        obtain ⟨-, hk, ht⟩ := hwalk.split
        refine ⟨k :: t, hkc ▸ .cons hk ht, hnodup.sublist ?_⟩
        rw [List.map_append, List.append_assoc]
        exact List.sublist_append_right _ _
      · rw [List.mem_singleton.1 hend]
        exact ⟨[], .nil b, List.nodup_singleton b⟩
    · exact ⟨c :: walk, .cons hc hwalk, List.nodup_cons.2 ⟨hpassed, hnodup⟩⟩

/-- A directed cycle: a walk back to its start that passes no token twice. -/
structure IsCycle (cs cycle : List OrderConstraint) : Prop where
  nonempty : cycle ≠ []
  closed : ∃ a, Walk cs a cycle a
  simple : (cycle.map before).Nodup

def OnCycle (cs : List OrderConstraint) (c : OrderConstraint) : Prop :=
  ∃ cycle, IsCycle cs cycle ∧ c ∈ cycle

theorem onCycle_iff {c : OrderConstraint} : OnCycle cs c ↔ c ∈ cs ∧ Chain cs c.after c.before := by
  constructor
  · rintro ⟨cycle, ⟨-, ⟨a, hwalk⟩, -⟩, hc⟩
    obtain ⟨s, t, rfl⟩ := List.append_of_mem hc
    obtain ⟨hs, hmem, ht⟩ := hwalk.split
    refine ⟨hmem, ?_⟩
    rcases Relation.reflTransGen_iff_eq_or_transGen.1 (ht.reaches.trans hs.reaches) with heq | hback
    · exact .single ⟨c, hmem, heq, heq.symm⟩
    · exact hback
  · rintro ⟨hc, hback⟩
    obtain ⟨walk, hwalk, hnodup⟩ := exists_simple_walk hback.to_reflTransGen
    have hsimple : ((c :: walk).map before).Nodup :=
      (List.perm_append_singleton c.before (walk.map before)).nodup_iff.1 hnodup
    exact ⟨c :: walk, ⟨List.cons_ne_nil c walk, ⟨c.before, .cons hc hwalk⟩, hsimple⟩,
      List.mem_cons_self⟩

private theorem IsCycle.not_allHold (h : IsCycle cs cycle) (order : List Identifier) :
    ¬ AllHold order cs := by
  intro hall
  obtain ⟨c, walk, rfl⟩ := List.exists_cons_of_ne_nil h.nonempty
  obtain ⟨hc, hback⟩ := onCycle_iff.1 ⟨_, h, List.mem_cons_self⟩
  exact hall.acyclic _ (hback.tail ⟨c, hc, rfl, rfl⟩)

private theorem IsCycle.of_forall_onCycle (h : IsCycle cs cycle)
    (hsub : ∀ c, OnCycle cs c → c ∈ cs') :
    IsCycle cs' cycle := by
  obtain ⟨a, hwalk⟩ := h.closed
  have hcycle : cycle ⊆ cs' := fun c hc => hsub c ⟨cycle, h, hc⟩
  exact ⟨h.nonempty, ⟨a, hwalk.of_subset hcycle⟩, h.simple⟩

end TreeQuery.OrderConstraint

namespace TreeQuery.Order

open scoped List
open OrderConstraint (AllHold IsCycle OnCycle)

variable {tokens : List Identifier} {cs : List OrderConstraint}

open scoped Classical in
theorem cyclic_eq_filter_onCycle (h : tokens.Nodup) (hcl : Closed tokens cs) :
    cyclic tokens (stepTable tokens cs).closure cs = cs.filter fun c => OnCycle cs c := by
  rw [cyclic]
  apply List.filter_congr
  intro c hc
  have hcyclic := mem_cyclic_iff h hcl (c := c)
  rw [← OrderConstraint.onCycle_iff, cyclic, List.mem_filter] at hcyclic
  rw [Bool.eq_iff_iff, decide_eq_true_iff, ← hcyclic]
  exact (and_iff_right hc).symm

theorem Component.conflict_of_build_eq_error (h : tokens.Nodup) (hcl : Closed tokens cs)
    {e : CompileError} (hb : build tokens cs = .error e) :
    ∃ conflict, e = .inconsistentOrdering conflict ∧ conflict <+ cs ∧
      ∀ order : List Identifier, (∀ c ∈ conflict, c.before ∈ order ∧ c.after ∈ order) →
        ¬ AllHold order conflict := by
  classical
  rcases build_eq_error_iff.1 hb with ⟨k, l, hcyc, rfl⟩ | ⟨-, k, l, hclash, rfl⟩
  · have hfilter := cyclic_eq_filter_onCycle h hcl
    rw [hcyc] at hfilter
    refine ⟨_, rfl, hfilter ▸ List.filter_sublist, fun order _ => ?_⟩
    have hk : k ∈ cs.filter fun c => OnCycle cs c := hfilter ▸ List.mem_cons_self
    obtain ⟨cycle, hcycle, -⟩ : OnCycle cs k := by simpa using (List.mem_filter.1 hk).2
    have hwithin : IsCycle (k :: l) cycle := by
      refine hcycle.of_forall_onCycle fun c hc => ?_
      rw [hfilter]
      exact List.mem_filter.2 ⟨(OrderConstraint.onCycle_iff.1 hc).1, by simpa using hc⟩
    exact hwithin.not_allHold order
  · obtain ⟨hpair, hne⟩ := clash?_eq_some hclash
    rw [List.nil_append] at hpair
    have himmediate : ∀ c ∈ [k, l], c.isImmediate = true := fun c hc =>
      (List.mem_filter.1 (hpair.subset hc)).2
    refine ⟨_, rfl, hpair.trans List.filter_sublist, fun order hmem hall => hne ?_⟩
    exact agrees_of_allHold hall hmem (by simp) (by simp) (himmediate k (by simp))
      (himmediate l (by simp))

end TreeQuery.Order
