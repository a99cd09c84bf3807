import TreeQuery.Order.Component
import TreeQuery.Proofs.Sequence

/-!
The groups of a query. A partition of the tokens lists every token once; merging two classes keeps
tokens together that were together, so that in the end the two ends of every link share a group.
Nothing else comes together: classes stay within every equivalence that relates the linked tokens.
-/

set_option autoImplicit false
set_option relaxedAutoImplicit false

namespace TreeQuery

theorem Query.nodup_identifiers (q : Query) : q.identifiers.Nodup :=
  Sequence.nodup_eraseDups _

theorem Query.before_mem_identifiers {q : Query} {c : OrderConstraint} (hc : c ∈ q.constraints) :
    c.before ∈ q.identifiers := by
  rw [identifiers, List.mem_eraseDups, List.mem_append]
  exact .inr (List.mem_flatMap.2 ⟨c, hc, by simp⟩)

private theorem Query.after_mem_identifiers {q : Query} {c : OrderConstraint}
    (hc : c ∈ q.constraints) :
    c.after ∈ q.identifiers := by
  rw [identifiers, List.mem_eraseDups, List.mem_append]
  exact .inr (List.mem_flatMap.2 ⟨c, hc, by simp⟩)

theorem Query.ends_mem_of_perm {q : Query} {order : List Identifier}
    (h : order.Perm q.identifiers) : ∀ c ∈ q.constraints, c.before ∈ order ∧ c.after ∈ order := by
  intro c hc
  rw [h.mem_iff, h.mem_iff]
  exact ⟨before_mem_identifiers hc, after_mem_identifiers hc⟩

theorem Query.governor_mem_identifiers {q : Query} {d : Dependency} (hd : d ∈ q.dependencies) :
    d.governor ∈ q.identifiers := by
  rw [identifiers, List.mem_eraseDups, List.mem_append, List.mem_append]
  exact .inl (.inr (List.mem_flatMap.2 ⟨d, hd, by simp⟩))

theorem Query.dependent_mem_identifiers {q : Query} {d : Dependency} (hd : d ∈ q.dependencies) :
    d.dependent ∈ q.identifiers := by
  rw [identifiers, List.mem_eraseDups, List.mem_append, List.mem_append]
  exact .inl (.inr (List.mem_flatMap.2 ⟨d, hd, by simp⟩))

namespace Order

namespace Partition

variable {p : Partition} {ids : List Identifier}

def Lists (p : Partition) (ids : List Identifier) : Prop := p.classes.map Prod.fst = ids

theorem lists_discrete (ids : List Identifier) : (discrete ids).Lists ids := by
  simp [Lists, discrete, Function.comp_def]

private theorem Lists.union (h : p.Lists ids) (i j : Identifier) : (p.union i j).Lists ids := by
  rw [Lists, ← h]
  simp [Partition.union, Function.comp_def]

private theorem Lists.root_eq (h : p.Lists ids) (hids : ids.Nodup) {e : Identifier × Identifier}
    (he : e ∈ p.classes) : p.root e.1 = e.2 := by
  have hlook : p.classes.lookup e.1 = some e.2 := Sequence.lookup_of_mem (h ▸ hids) he
  rw [root, hlook, Option.getD_some]

private theorem Lists.classes_eq (h : p.Lists ids) (hids : ids.Nodup) :
    p.classes = ids.map fun i => (i, p.root i) := by
  rw [← h, List.map_map]
  conv_lhs => rw [← List.map_id p.classes]
  apply List.map_congr_left
  intro e he
  simp [h.root_eq hids he]

private theorem Lists.root_union (h : p.Lists ids) (hids : ids.Nodup) (i j : Identifier)
    {k : Identifier}
    (hk : k ∈ ids) :
    (p.union i j).root k = if p.root k = p.root j then p.root i else p.root k := by
  have hclass : (k, p.root k) ∈ p.classes := by
    rw [h.classes_eq hids]
    exact List.mem_map.2 ⟨k, hk, rfl⟩
  have hnew : (k, if p.root k = p.root j then p.root i else p.root k) ∈ (p.union i j).classes :=
    List.mem_map.2 ⟨_, hclass, rfl⟩
  exact (h.union i j).root_eq hids hnew

private theorem Lists.root_union_of_root_eq (h : p.Lists ids) (hids : ids.Nodup) (i j : Identifier)
    {k l : Identifier} (hk : k ∈ ids) (hl : l ∈ ids) (hkl : p.root k = p.root l) :
    (p.union i j).root k = (p.union i j).root l := by
  rw [h.root_union hids i j hk, h.root_union hids i j hl, hkl]

def merge (p : Partition) (links : List (Identifier × Identifier)) : Partition :=
  links.foldl (fun p e => p.union e.1 e.2) p

private theorem Lists.merge (h : p.Lists ids) (links : List (Identifier × Identifier)) :
    (p.merge links).Lists ids := by
  induction links generalizing p with
  | nil => exact h
  | cons e links ih => exact ih (h.union e.1 e.2)

private theorem Lists.root_merge_of_root_eq (h : p.Lists ids) (hids : ids.Nodup)
    (links : List (Identifier × Identifier)) {k l : Identifier} (hk : k ∈ ids) (hl : l ∈ ids)
    (hkl : p.root k = p.root l) : (p.merge links).root k = (p.merge links).root l := by
  induction links generalizing p with
  | nil => exact hkl
  | cons e links ih =>
    exact ih (h.union e.1 e.2) (h.root_union_of_root_eq hids e.1 e.2 hk hl hkl)

private theorem Lists.root_merge_of_mem (h : p.Lists ids) (hids : ids.Nodup)
    {links : List (Identifier × Identifier)} {e : Identifier × Identifier} (he : e ∈ links)
    (h₁ : e.1 ∈ ids) (h₂ : e.2 ∈ ids) : (p.merge links).root e.1 = (p.merge links).root e.2 := by
  induction links generalizing p with
  | nil => simp at he
  | cons e' links ih =>
    rcases List.mem_cons.1 he with rfl | hl
    · apply (h.union e.1 e.2).root_merge_of_root_eq hids links h₁ h₂
      rw [h.root_union hids _ _ h₁, h.root_union hids _ _ h₂, if_pos rfl, ite_id]
    · exact ih (h.union e'.1 e'.2) hl

def Within (p : Partition) (ids : List Identifier) (r : Identifier → Identifier → Prop) : Prop :=
  ∀ k ∈ ids, ∀ l ∈ ids, p.root k = p.root l → r k l

theorem within_discrete (hids : ids.Nodup) {r : Identifier → Identifier → Prop}
    (hr : ∀ k, r k k) : (discrete ids).Within ids r := by
  have hself {k : Identifier} (hk : k ∈ ids) : (discrete ids).root k = k :=
    (lists_discrete ids).root_eq hids (List.mem_map.2 ⟨k, hk, rfl⟩)
  intro k hk l hl hkl
  rw [hself hk, hself hl] at hkl
  exact hkl ▸ hr k

private theorem Lists.within_union (h : p.Lists ids) (hids : ids.Nodup)
    {r : Identifier → Identifier → Prop} (hr : Equivalence r) (hp : p.Within ids r)
    {i j : Identifier} (hi : i ∈ ids) (hj : j ∈ ids) (hij : r i j) :
    (p.union i j).Within ids r := by
  intro k hk l hl hkl
  rw [h.root_union hids i j hk, h.root_union hids i j hl] at hkl
  -- a class that has been relabelled was the class of `j`
  split at hkl
  · rename_i hkj
    have hki : r k i := hr.trans (hp k hk j hj hkj) (hr.symm hij)
    split at hkl
    · rename_i hlj
      exact hr.trans hki (hr.trans hij (hp j hj l hl hlj.symm))
    · exact hr.trans hki (hp i hi l hl hkl)
  · split at hkl
    · rename_i hlj
      exact hr.trans (hp k hk i hi hkl) (hr.trans hij (hp j hj l hl hlj.symm))
    · exact hp k hk l hl hkl

theorem Lists.within_merge (h : p.Lists ids) (hids : ids.Nodup)
    {r : Identifier → Identifier → Prop} (hr : Equivalence r) (hp : p.Within ids r)
    {links : List (Identifier × Identifier)}
    (hlinks : ∀ e ∈ links, e.1 ∈ ids ∧ e.2 ∈ ids ∧ r e.1 e.2) : (p.merge links).Within ids r := by
  induction links generalizing p with
  | nil => exact hp
  | cons e links ih =>
    obtain ⟨⟨hfst, hsnd, he⟩, hrest⟩ := List.forall_mem_cons.1 hlinks
    exact ih (h.union e.1 e.2) (h.within_union hids hr hp hfst hsnd he) hrest

private theorem Lists.groups_eq (h : p.Lists ids) (hids : ids.Nodup) :
    p.groups = (ids.map p.root).eraseDups.map fun r => ids.filter fun i => p.root i = r := by
  rw [groups, h.classes_eq hids]
  simp [List.filter_map, Function.comp_def]

theorem Lists.mem_groups (h : p.Lists ids) (hids : ids.Nodup) {g : List Identifier} :
    g ∈ p.groups ↔ ∃ k ∈ ids, g = ids.filter fun i => p.root i = p.root k := by
  rw [h.groups_eq hids]
  simp only [List.mem_map, List.mem_eraseDups]
  constructor
  · rintro ⟨r, ⟨k, hk, rfl⟩, rfl⟩
    exact ⟨k, hk, rfl⟩
  · rintro ⟨k, hk, rfl⟩
    exact ⟨p.root k, ⟨k, hk, rfl⟩, rfl⟩

theorem Lists.pairwise_first_groups (h : p.Lists ids) (hids : ids.Nodup) :
    p.groups.Pairwise fun g g' =>
      ∀ i ∈ g.head?, ∀ j ∈ g'.head?, ids.idxOf i < ids.idxOf j := by
  -- the first token of a class stands where its representative first comes up
  have hfirst {r i : Identifier} (hi : i ∈ (ids.filter fun k => p.root k = r).head?) :
      (ids.map p.root).idxOf r = ids.idxOf i := by
    rw [List.head?_filter, Option.mem_def] at hi
    rw [Sequence.idxOf_of_find?_eq_some hids hi, List.idxOf, List.findIdx_map]
    congr 1
  rw [h.groups_eq hids, List.pairwise_map]
  refine (Sequence.pairwise_idxOf_eraseDups (ids.map p.root)).imp ?_
  intro r s hrs i hi j hj
  rw [← hfirst hi, ← hfirst hj]
  exact hrs

theorem Lists.nodup_flatten_groups (h : p.Lists ids) (hids : ids.Nodup) :
    p.groups.flatten.Nodup := by
  rw [List.nodup_flatten]
  constructor
  · intro g hg
    obtain ⟨k, -, rfl⟩ := (h.mem_groups hids).1 hg
    exact hids.filter _
  · rw [h.groups_eq hids, List.pairwise_map]
    refine (Sequence.nodup_eraseDups _).imp ?_
    intro r s hrs i hir his
    simp only [List.mem_filter, decide_eq_true_eq] at hir his
    exact hrs (hir.2.symm.trans his.2)

private theorem Lists.flatten_groups_perm (h : p.Lists ids) (hids : ids.Nodup) :
    p.groups.flatten.Perm ids := by
  rw [List.perm_ext_iff_of_nodup (h.nodup_flatten_groups hids) hids]
  intro i
  rw [List.mem_flatten]
  constructor
  · rintro ⟨g, hg, hi⟩
    obtain ⟨k, -, rfl⟩ := (h.mem_groups hids).1 hg
    exact (List.mem_filter.1 hi).1
  · intro hi
    exact ⟨_, (h.mem_groups hids).2 ⟨i, hi, rfl⟩, List.mem_filter.2 ⟨hi, by simp⟩⟩

end Partition

theorem lists_partition (q : Query) : (partition q).Lists q.identifiers :=
  (Partition.lists_discrete q.identifiers).merge (links q)

theorem flatten_groups_perm (q : Query) : (partition q).groups.flatten.Perm q.identifiers :=
  (lists_partition q).flatten_groups_perm q.nodup_identifiers

theorem ends_mem_of_mem_links {q : Query} {e : Identifier × Identifier} (he : e ∈ links q) :
    e.1 ∈ q.identifiers ∧ e.2 ∈ q.identifiers := by
  rcases List.mem_append.1 he with he | he
  · obtain ⟨d, hd, rfl⟩ := List.mem_map.1 he
    exact ⟨Query.governor_mem_identifiers hd, Query.dependent_mem_identifiers hd⟩
  · obtain ⟨c, hc, rfl⟩ := List.mem_map.1 he
    exact ⟨Query.before_mem_identifiers hc, Query.after_mem_identifiers hc⟩

theorem root_eq_of_mem_links {q : Query} {e : Identifier × Identifier} (he : e ∈ links q) :
    (partition q).root e.1 = (partition q).root e.2 := by
  obtain ⟨hfst, hsnd⟩ := ends_mem_of_mem_links he
  exact (Partition.lists_discrete q.identifiers).root_merge_of_mem q.nodup_identifiers he hfst hsnd

theorem before_mem_group_iff {q : Query} {g : List Identifier} (hg : g ∈ (partition q).groups)
    {c : OrderConstraint} (hc : c ∈ q.constraints) : c.before ∈ g ↔ c.after ∈ g := by
  have hlink : (c.before, c.after) ∈ links q := by
    rw [links, List.mem_append]
    exact .inr (List.mem_map.2 ⟨c, hc, rfl⟩)
  obtain ⟨hb, ha⟩ := ends_mem_of_mem_links hlink
  have hroot : (partition q).root c.before = (partition q).root c.after :=
    root_eq_of_mem_links hlink
  obtain ⟨k, -, rfl⟩ := ((lists_partition q).mem_groups q.nodup_identifiers).1 hg
  simp [List.mem_filter, ha, hb, hroot]

end Order

end TreeQuery
