import TreeQuery.Proofs.Order.Component

/-!
The components of a query are its connected groups of tokens: two tokens share a component if and
only if a path of dependencies and order constraints joins them. Tokens and components keep the
order in which the query first mentions the tokens, and constraints keep their own.
-/

set_option autoImplicit false
set_option relaxedAutoImplicit false

namespace TreeQuery.Query

variable {q : Query} {i j : Identifier}

/-- The two tokens are the ends of a dependency or of an order constraint, in either direction. -/
inductive Linked (q : Query) : Identifier → Identifier → Prop
  | governor {d : Dependency} : d ∈ q.dependencies → Linked q d.governor d.dependent
  | dependent {d : Dependency} : d ∈ q.dependencies → Linked q d.dependent d.governor
  | before {c : OrderConstraint} : c ∈ q.constraints → Linked q c.before c.after
  | after {c : OrderConstraint} : c ∈ q.constraints → Linked q c.after c.before

def Connected (q : Query) : Identifier → Identifier → Prop := Relation.ReflTransGen q.Linked

private theorem Linked.symm (h : q.Linked i j) : q.Linked j i := by
  cases h with
  | governor hd => exact .dependent hd
  | dependent hd => exact .governor hd
  | before hc => exact .after hc
  | after hc => exact .before hc

private theorem Connected.symm (h : q.Connected i j) : q.Connected j i := by
  induction h with
  | refl => exact .refl
  | tail _ hlink ih => exact .head hlink.symm ih

private theorem equivalence_connected (q : Query) : Equivalence q.Connected where
  refl _ := .refl
  symm := Connected.symm
  trans := Relation.ReflTransGen.trans

end TreeQuery.Query

namespace TreeQuery.Order

open scoped List

variable {q : Query} {i j : Identifier}

private theorem linked_of_mem_links {e : Identifier × Identifier} (he : e ∈ links q) :
    q.Linked e.1 e.2 := by
  rcases List.mem_append.1 he with he | he
  · obtain ⟨d, hd, rfl⟩ := List.mem_map.1 he
    exact .governor hd
  · obtain ⟨c, hc, rfl⟩ := List.mem_map.1 he
    exact .before hc

private theorem mem_links_of_linked (h : q.Linked i j) : (i, j) ∈ links q ∨ (j, i) ∈ links q := by
  simp only [links, List.mem_append, List.mem_map]
  cases h with
  | governor hd => exact .inl (.inl ⟨_, hd, rfl⟩)
  | dependent hd => exact .inr (.inl ⟨_, hd, rfl⟩)
  | before hc => exact .inl (.inr ⟨_, hc, rfl⟩)
  | after hc => exact .inr (.inr ⟨_, hc, rfl⟩)

private theorem root_eq_of_connected (h : q.Connected i j) :
    (partition q).root i = (partition q).root j := by
  induction h with
  | refl => rfl
  | tail _ hlink ih =>
    rw [ih]
    rcases mem_links_of_linked hlink with he | he
    · exact root_eq_of_mem_links he
    · exact (root_eq_of_mem_links he).symm

private theorem root_eq_iff_connected (hi : i ∈ q.identifiers) (hj : j ∈ q.identifiers) :
    (partition q).root i = (partition q).root j ↔ q.Connected i j := by
  refine ⟨?_, root_eq_of_connected⟩
  have hlists := Partition.lists_discrete q.identifiers
  have hstart : (Partition.discrete q.identifiers).Within q.identifiers q.Connected :=
    Partition.within_discrete q.nodup_identifiers q.equivalence_connected.refl
  have hlinks : ∀ e ∈ links q, e.1 ∈ q.identifiers ∧ e.2 ∈ q.identifiers ∧ q.Connected e.1 e.2 := by
    intro e he
    obtain ⟨hfst, hsnd⟩ := ends_mem_of_mem_links he
    exact ⟨hfst, hsnd, .single (linked_of_mem_links he)⟩
  exact hlists.within_merge q.nodup_identifiers q.equivalence_connected hstart hlinks i hi j hj

/-- The components are the classes of connected tokens, in the order of the query. -/
structure Groups (q : Query) (comps : List Component) : Prop where
  covers : ∀ i, i ∈ q.identifiers ↔ ∃ c ∈ comps, i ∈ c.tokens
  disjoint : comps.Pairwise fun c d => c.tokens.Disjoint d.tokens
  nonempty : ∀ c ∈ comps, c.tokens ≠ []
  connected_iff : ∀ i ∈ q.identifiers, ∀ j ∈ q.identifiers,
    (∃ c ∈ comps, i ∈ c.tokens ∧ j ∈ c.tokens) ↔ q.Connected i j
  tokens_sublist : ∀ c ∈ comps, c.tokens <+ q.identifiers
  first_lt_first : comps.Pairwise fun c d => ∀ i ∈ c.tokens.head?, ∀ j ∈ d.tokens.head?,
    q.identifiers.idxOf i < q.identifiers.idxOf j
  constraints_eq : ∀ c ∈ comps, c.constraints =
    q.constraints.filter fun k => k.before ∈ c.tokens ∧ k.after ∈ c.tokens
  ends_together : ∀ k ∈ q.constraints, ∃ c ∈ comps, k.before ∈ c.tokens ∧ k.after ∈ c.tokens

private theorem mem_group_iff_connected {g : List Identifier} (hg : g ∈ (partition q).groups)
    (hi : i ∈ g) (hj : j ∈ q.identifiers) : j ∈ g ↔ q.Connected i j := by
  obtain ⟨k, -, rfl⟩ := ((lists_partition q).mem_groups q.nodup_identifiers).1 hg
  obtain ⟨hi, hik⟩ := List.mem_filter.1 hi
  rw [decide_eq_true_eq] at hik
  rw [← root_eq_iff_connected hi hj, List.mem_filter, decide_eq_true_eq, hik, and_iff_right hj]
  exact eq_comm

/-- The components of a query partition its tokens by connection, in the order of their first
mention, and each lists the constraints between its tokens in the order of the query. -/
theorem components_group_connected (q : Query) (comps : List Component)
    (h : components q = .ok comps) : Groups q comps := by
  have hdec := decomposes_of_components_eq_ok h
  have htokens := (spec_of_components_eq_ok h).1
  have hgroup {c : Component} (hc : c ∈ comps) := tokens_mem_groups h hc
  have hlists := lists_partition q
  have hids := q.nodup_identifiers
  constructor
  case covers =>
    intro i
    exact hdec.mem_identifiers_iff
  case disjoint =>
    have hnodup := hlists.nodup_flatten_groups hids
    rw [← htokens, List.nodup_flatten, List.pairwise_map] at hnodup
    exact hnodup.2
  case nonempty =>
    intro c hc
    obtain ⟨k, hk, hkc⟩ := (hlists.mem_groups hids).1 (hgroup hc)
    rw [hkc]
    exact List.ne_nil_of_mem (List.mem_filter.2 ⟨hk, by simp⟩)
  case connected_iff =>
    intro i hi j hj
    constructor
    · intro ⟨c, hc, hic, hjc⟩
      exact (mem_group_iff_connected (hgroup hc) hic hj).1 hjc
    · intro hij
      obtain ⟨c, hc, hic⟩ := hdec.mem_identifiers_iff.1 hi
      exact ⟨c, hc, hic, (mem_group_iff_connected (hgroup hc) hic hj).2 hij⟩
  case tokens_sublist =>
    intro c hc
    obtain ⟨k, -, hkc⟩ := (hlists.mem_groups hids).1 (hgroup hc)
    rw [hkc]
    exact List.filter_sublist
  case first_lt_first =>
    have hfirst := hlists.pairwise_first_groups hids
    rw [← htokens, List.pairwise_map] at hfirst
    exact hfirst
  case constraints_eq =>
    intro c hc
    rw [hdec.constraints_eq c hc]
    apply List.filter_congr
    intro k hk
    simp [hdec.before_mem_iff c hc k hk]
  case ends_together =>
    intro k hk
    obtain ⟨c, hc, hb⟩ := hdec.mem_identifiers_iff.1 (Query.before_mem_identifiers hk)
    exact ⟨c, hc, hb, (hdec.before_mem_iff c hc k hk).1 hb⟩

/-- Two groups of three tokens, joined by dependencies and constraints in either direction, that
take turns in the order of mention. -/
def braided : Query where
  tokens := [⟨⟨4⟩, none⟩, ⟨⟨2⟩, none⟩]
  dependencies := [⟨⟨0⟩, ⟨4⟩⟩, ⟨⟨1⟩, ⟨2⟩⟩]
  predicates := []
  constraints := [⟨⟨3⟩, ⟨2⟩, .general⟩, ⟨⟨5⟩, ⟨0⟩, .immediate⟩, ⟨⟨1⟩, ⟨3⟩, .general⟩]

theorem braided_group_connected :
    ∃ comps, components braided = .ok comps ∧
      comps.map Component.tokens = [[⟨4⟩, ⟨0⟩, ⟨5⟩], [⟨2⟩, ⟨1⟩, ⟨3⟩]] ∧ Groups braided comps := by
  have htwo : (components braided).toOption.map (List.map Component.tokens) =
      some [[⟨4⟩, ⟨0⟩, ⟨5⟩], [⟨2⟩, ⟨1⟩, ⟨3⟩]] := by
    decide +kernel
  obtain ⟨comps, hcomps, htokens⟩ := Option.map_eq_some_iff.1 htwo
  rw [Sequence.toOption_eq_some_iff] at hcomps
  exact ⟨comps, hcomps, htokens, components_group_connected braided comps hcomps⟩

end TreeQuery.Order
