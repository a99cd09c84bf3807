import TreeQuery.Proofs.Arrangement.Candidate
import TreeQuery.Proofs.Order.Conflict

/-!
The constraints that a query is refused with. Wherever they come from, they are constraints of the
query in their order, and they contradict each other without the help of others: an order of all
tokens in which the constraints of one component hold would order its blocks.
-/

set_option autoImplicit false
set_option relaxedAutoImplicit false

namespace TreeQuery.Arrangement

open scoped List
open OrderConstraint (AllHold Step)
open TreeQuery.Order (Component Decomposes)

variable {c : Component} {order : List Identifier}

def alone (c : Component) : Query where
  tokens := c.tokens.map fun i => ⟨i, none⟩
  dependencies := []
  predicates := []
  constraints := c.constraints

private theorem identifiers_alone_perm (h : c.Faithful) : (alone c).identifiers ~ c.tokens := by
  rw [List.perm_ext_iff_of_nodup (alone c).nodup_identifiers h.nodup]
  intro i
  simp only [Query.identifiers, alone, List.mem_eraseDups, List.mem_append, List.mem_flatMap,
    List.map_map, Function.comp_def, List.map_id', List.not_mem_nil, false_and, exists_false,
    or_false]
  constructor
  · rintro (hi | ⟨k, hk, hi⟩)
    · exact hi
    · obtain ⟨hb, ha⟩ := h.closed k hk
      rcases List.mem_pair.1 hi with rfl | rfl
      · exact hb
      · exact ha
  · exact .inl

private theorem decomposes_alone (h : c.Faithful) : Decomposes (alone c) [c] := by
  refine ⟨?_, ?_, ?_, ?_⟩
  · simpa using (identifiers_alone_perm h).symm
  · simpa using h
  · simp only [List.mem_singleton, forall_eq]
    refine (List.filter_eq_self.2 ?_).symm
    intro k hk
    simpa using (h.closed k hk).1
  · simp only [List.mem_singleton, forall_eq]
    intro k hk
    exact iff_of_true (h.closed k hk).1 (h.closed k hk).2

private theorem allHold_filter_mem (h : c.Faithful) (hnodup : order.Nodup) (hsub : c.tokens ⊆ order)
    (hall : AllHold order c.constraints) :
    AllHold (order.filter fun i => i ∈ c.tokens) c.constraints := by
  have hends (k : OrderConstraint) (hk : k ∈ c.constraints) :
      k.before ∈ order ∧ k.after ∈ order :=
    ⟨hsub (h.closed k hk).1, hsub (h.closed k hk).2⟩
  have hkept {a b : Identifier} (hab : Step c.constraints a b) :
      [a, b].filter (fun i => i ∈ c.tokens) = [a, b] := by
    obtain ⟨k, hk, rfl, rfl⟩ := hab
    simp [h.closed k hk]
  rw [OrderConstraint.allHold_iff hnodup fun k hk => (hends k hk).2] at hall
  rw [OrderConstraint.allHold_iff (hnodup.filter _) fun k hk =>
    List.mem_filter.2 ⟨(hends k hk).2, by simpa using (h.closed k hk).2⟩]
  constructor
  · intro a b hab
    rw [← hkept hab.step]
    exact (hall.1 a b hab).filter _
  · intro a b hab
    rw [← hkept hab]
    exact (hall.2 a b hab).filter _

private theorem not_allHold_of_orders_eq_nil (h : c.Faithful)
    (hnil : (Layout.ofComponent c).orders.toList = []) (hnodup : order.Nodup)
    (hsub : c.tokens ⊆ order) : ¬ AllHold order c.constraints := by
  intro hall
  have hperm : (order.filter fun i => i ∈ c.tokens) ~ c.tokens := by
    rw [List.perm_ext_iff_of_nodup (hnodup.filter _) h.nodup]
    intro i
    simp only [List.mem_filter, decide_eq_true_eq]
    exact and_iff_right_of_imp fun hi => hsub hi
  have hadmits : (alone c).Admits (order.filter fun i => i ∈ c.tokens) :=
    ⟨hperm.trans (identifiers_alone_perm h).symm, allHold_filter_mem h hnodup hsub hall⟩
  rw [← mem_tokens_candidates_iff (decomposes_alone h)] at hadmits
  obtain ⟨candidate, hcandidate, -⟩ := List.mem_map.1 hadmits
  have hne := candidates_ne_nil_iff.1 (List.ne_nil_of_mem hcandidate)
  exact hne _ (List.mem_map_of_mem List.mem_cons_self) hnil

end TreeQuery.Arrangement

namespace TreeQuery.Order

open scoped List
open OrderConstraint (AllHold IsCycle OnCycle)

variable {q : Query} {group : List Identifier} {e : CompileError}

def constraintsOf (q : Query) (group : List Identifier) : List OrderConstraint :=
  q.constraints.filter fun k => k.before ∈ group

/-- The group is the first whose tokens form no component. -/
def FirstRefused (q : Query) (group : List Identifier) (e : CompileError) : Prop :=
  ∃ s t, (partition q).groups = s ++ group :: t ∧
    (∀ g ∈ s, ∃ c, Component.build g (constraintsOf q g) = .ok c) ∧
    Component.build group (constraintsOf q group) = .error e

private theorem components_eq_error_iff :
    components q = .error e ↔ ∃ group, FirstRefused q group e := by
  rw [components, Sequence.mapM_eq_error_iff, exists_comm]
  rfl

namespace FirstRefused

private theorem group_spec (h : FirstRefused q group e) :
    group.Nodup ∧ Closed group (constraintsOf q group) := by
  obtain ⟨s, t, hgroups, -⟩ := h
  apply Order.group_spec
  rw [hgroups]
  simp

private theorem conflict (h : FirstRefused q group e) :
    ∃ cs, e = .inconsistentOrdering cs ∧ cs <+ q.constraints ∧
      ∀ order, order ~ q.identifiers → ¬ AllHold order cs := by
  obtain ⟨hnodup, hclosed⟩ := h.group_spec
  obtain ⟨s, t, -, -, hbuild⟩ := h
  obtain ⟨cs, he, hsub, hnone⟩ := Component.conflict_of_build_eq_error hnodup hclosed hbuild
  have hsub' : cs <+ q.constraints := hsub.trans List.filter_sublist
  refine ⟨cs, he, hsub', ?_⟩
  intro order hperm
  exact hnone order fun k hk => Query.ends_mem_of_perm hperm k (hsub'.subset hk)

open scoped Classical in
private theorem eq_filter_onCycle (h : FirstRefused q group e) {cycle : List OrderConstraint}
    (hcycle : IsCycle (constraintsOf q group) cycle) :
    e = .inconsistentOrdering
      ((constraintsOf q group).filter fun k => OnCycle (constraintsOf q group) k) := by
  obtain ⟨hnodup, hclosed⟩ := h.group_spec
  obtain ⟨s, t, -, -, hbuild⟩ := h
  have hcyclic := cyclic_eq_filter_onCycle hnodup hclosed
  rcases Component.build_eq_error_iff.1 hbuild with ⟨k, l, hkl, rfl⟩ | ⟨hnil, -⟩
  · rw [← hkl, hcyclic]
  · obtain ⟨k, walk, rfl⟩ := List.exists_cons_of_ne_nil hcycle.nonempty
    have hk : OnCycle (constraintsOf q group) k := ⟨_, hcycle, List.mem_cons_self⟩
    rw [hcyclic, List.filter_eq_nil_iff] at hnil
    exact absurd hk (by simpa using hnil k (OrderConstraint.onCycle_iff.1 hk).1)

end FirstRefused

end TreeQuery.Order

namespace TreeQuery.Query

open scoped List
open Arrangement
open OrderConstraint (AllHold IsCycle OnCycle)
open TreeQuery.Order (Component FirstRefused constraintsOf)

variable {q : Query}

private theorem conflict_of_layouts_eq_error {e : CompileError} (h : q.layouts = .error e) :
    ∃ cs, e = .inconsistentOrdering cs ∧ cs <+ q.constraints ∧
      ∀ order, order ~ q.identifiers → ¬ AllHold order cs := by
  rw [layouts] at h
  cases hcomps : Order.components q with
  | error e' =>
    rw [hcomps] at h
    obtain rfl := Except.error.inj h
    obtain ⟨group, hgroup⟩ := Order.components_eq_error_iff.1 hcomps
    exact hgroup.conflict
  | ok comps =>
    rw [hcomps] at h
    obtain ⟨c, hc, hnil, he⟩ := exists_of_layouts_eq_error h
    have hdec := Order.decomposes_of_components_eq_ok hcomps
    refine ⟨_, he, hdec.constraints_eq c hc ▸ List.filter_sublist, ?_⟩
    intro order hperm
    have htokens : c.tokens ⊆ order := by
      intro i hi
      rw [hperm.mem_iff, hdec.mem_identifiers_iff]
      exact ⟨c, hc, hi⟩
    exact not_allHold_of_orders_eq_nil (hdec.faithful c hc) hnil
      (hperm.nodup_iff.2 q.nodup_identifiers) htokens

open scoped Classical in
/-- The constraints that a query is refused with are some of its own, and no order satisfies them.
If the first group that forms no component has a cycle, they are its constraints on cycles. -/
theorem refused_with_conflict (q : Query) (cs : List OrderConstraint)
    (h : q.layouts = .error (.inconsistentOrdering cs)) :
    cs ≠ [] ∧ cs <+ q.constraints ∧ (∀ order, order ~ q.identifiers → ¬ AllHold order cs) ∧
      ∀ e, Order.components q = .error e →
        (∃ group, FirstRefused q group e) ∧
        ∀ group, FirstRefused q group e → (∃ cycle, IsCycle (constraintsOf q group) cycle) →
          cs = (constraintsOf q group).filter fun k => OnCycle (constraintsOf q group) k := by
  obtain ⟨_, hcs, hsub, hnone⟩ := conflict_of_layouts_eq_error h
  obtain rfl := CompileError.inconsistentOrdering.inj hcs
  refine ⟨?_, hsub, hnone, ?_⟩
  · rintro rfl
    exact hnone q.identifiers (.refl _) fun _ hc => nomatch hc
  · intro e he
    refine ⟨Order.components_eq_error_iff.1 he, fun group hgroup ⟨cycle, hcycle⟩ => ?_⟩
    have hcause := hgroup.eq_filter_onCycle hcycle
    rw [layouts, he] at h
    rw [Except.error.inj h] at hcause
    exact CompileError.inconsistentOrdering.inj hcause

/-- Three tokens in a circle, of which one also comes before a fourth, and two tokens elsewhere. -/
def looped : Query where
  tokens := []
  dependencies := []
  predicates := []
  constraints := [⟨⟨3⟩, ⟨4⟩, .general⟩, ⟨⟨0⟩, ⟨1⟩, .general⟩, ⟨⟨1⟩, ⟨2⟩, .immediate⟩,
    ⟨⟨2⟩, ⟨5⟩, .general⟩, ⟨⟨2⟩, ⟨0⟩, .general⟩]

def circle : List OrderConstraint :=
  [⟨⟨0⟩, ⟨1⟩, .general⟩, ⟨⟨1⟩, ⟨2⟩, .immediate⟩, ⟨⟨2⟩, ⟨0⟩, .general⟩]

open scoped Classical in
theorem looped_refused_with_circle :
    looped.layouts = .error (.inconsistentOrdering circle) ∧
      circle ≠ [] ∧ circle <+ looped.constraints ∧
      (∀ order, order ~ looped.identifiers → ¬ AllHold order circle) ∧
      circle = (constraintsOf looped [⟨0⟩, ⟨1⟩, ⟨2⟩, ⟨5⟩]).filter fun k =>
        OnCycle (constraintsOf looped [⟨0⟩, ⟨1⟩, ⟨2⟩, ⟨5⟩]) k := by
  have hcomps : Order.components looped = .error (.inconsistentOrdering circle) := by
    decide +kernel
  have hlayouts : looped.layouts = .error (.inconsistentOrdering circle) := by
    rw [layouts, hcomps]
    rfl
  have hfirst : FirstRefused looped [⟨0⟩, ⟨1⟩, ⟨2⟩, ⟨5⟩] (.inconsistentOrdering circle) := by
    refine ⟨[[⟨3⟩, ⟨4⟩]], [], by decide +kernel, ?_, by decide +kernel⟩
    have hbuilt :
        (Component.build [⟨3⟩, ⟨4⟩] (constraintsOf looped [⟨3⟩, ⟨4⟩])).toOption.isSome := by
      decide +kernel
    simp only [List.mem_singleton, forall_eq]
    cases hb : Component.build [⟨3⟩, ⟨4⟩] (constraintsOf looped [⟨3⟩, ⟨4⟩]) with
    | ok c => exact ⟨c, rfl⟩
    | error e =>
      rw [hb] at hbuilt
      cases hbuilt
  have hcycle : IsCycle (constraintsOf looped [⟨0⟩, ⟨1⟩, ⟨2⟩, ⟨5⟩]) circle := by
    refine ⟨by decide, ⟨⟨0⟩, ?_⟩, by decide⟩
    exact .cons (c := ⟨⟨0⟩, ⟨1⟩, .general⟩) (by decide) (.cons (c := ⟨⟨1⟩, ⟨2⟩, .immediate⟩)
      (by decide) (.cons (c := ⟨⟨2⟩, ⟨0⟩, .general⟩) (by decide) (.nil ⟨0⟩)))
  obtain ⟨hne, hsub, hnone, hcyclic⟩ := refused_with_conflict looped circle hlayouts
  exact ⟨hlayouts, hne, hsub, hnone, (hcyclic _ hcomps).2 _ hfirst ⟨circle, hcycle⟩⟩

end TreeQuery.Query
