import TreeQuery.Order.Component
import TreeQuery.Proofs.Order.Chain
import TreeQuery.Proofs.Order.Closure
import TreeQuery.Proofs.Order.Partition

/-!
What a component says about the order of its tokens. A component that could be built has the
chains of its constraints as precedence, none of them circular, and the immediate constraints as
successors, at most one on either side of a token. A component that could not be built has
constraints that hold of no order.
-/

set_option autoImplicit false
set_option relaxedAutoImplicit false

namespace TreeQuery.Order

open scoped List
open OrderConstraint (Step Chain Adjoins AllHold)

variable {tokens : List Identifier} {cs : List OrderConstraint}

def Closed (tokens : List Identifier) (cs : List OrderConstraint) : Prop :=
  ∀ c ∈ cs, c.before ∈ tokens ∧ c.after ∈ tokens

theorem getElem?_eq_some_iff_idxOf (h : tokens.Nodup) {a : Nat} {i : Identifier} :
    tokens[a]? = some i ↔ i ∈ tokens ∧ tokens.idxOf i = a := by
  constructor
  · intro ha
    obtain ⟨hlt, rfl⟩ := List.getElem?_eq_some_iff.1 ha
    exact ⟨List.getElem_mem hlt, h.idxOf_getElem a hlt⟩
  · rintro ⟨hi, rfl⟩
    rw [List.getElem?_eq_some_iff]
    exact ⟨List.idxOf_lt_length_of_mem hi, List.getElem_idxOf (List.idxOf_lt_length_of_mem hi)⟩

private theorem holds_closure_stepTable (h : tokens.Nodup) (hcl : Closed tokens cs) {a b : Nat} :
    (stepTable tokens cs).closure.holds a b = true ↔
      ∃ i j, tokens[a]? = some i ∧ tokens[b]? = some j ∧ Chain cs i j := by
  simp only [stepTable]
  rw [Table.holds_closure_tabulate]
  simp only [List.contains_iff_mem, List.mem_map, Prod.mk.injEq]
  constructor
  · intro hab
    induction hab with
    | single hs =>
      obtain ⟨-, -, c, hc, rfl, rfl⟩ := hs
      refine ⟨c.before, c.after, ?_, ?_, .single ⟨c, hc, rfl, rfl⟩⟩
      · exact (getElem?_eq_some_iff_idxOf h).2 ⟨(hcl c hc).1, rfl⟩
      · exact (getElem?_eq_some_iff_idxOf h).2 ⟨(hcl c hc).2, rfl⟩
    | tail _ hs ih =>
      obtain ⟨-, -, c, hc, rfl, rfl⟩ := hs
      obtain ⟨i, j, hi, hj, hij⟩ := ih
      have hbefore := (getElem?_eq_some_iff_idxOf h).2 ⟨(hcl c hc).1, rfl⟩
      obtain rfl : c.before = j := Option.some.inj (hbefore.symm.trans hj)
      refine ⟨i, c.after, hi, ?_, hij.tail ⟨c, hc, rfl, rfl⟩⟩
      exact (getElem?_eq_some_iff_idxOf h).2 ⟨(hcl c hc).2, rfl⟩
  · rintro ⟨i, j, hi, hj, hij⟩
    obtain ⟨-, rfl⟩ := (getElem?_eq_some_iff_idxOf h).1 hi
    obtain ⟨-, rfl⟩ := (getElem?_eq_some_iff_idxOf h).1 hj
    refine Relation.TransGen.lift (fun i => tokens.idxOf i) ?_ _ _ hij
    rintro x y ⟨c, hc, rfl, rfl⟩
    exact ⟨List.idxOf_lt_length_of_mem (hcl c hc).1, List.idxOf_lt_length_of_mem (hcl c hc).2,
      c, hc, rfl, rfl⟩

theorem mem_cyclic_iff (h : tokens.Nodup) (hcl : Closed tokens cs) {c : OrderConstraint} :
    c ∈ cyclic tokens (stepTable tokens cs).closure cs ↔ c ∈ cs ∧ Chain cs c.after c.before := by
  rw [cyclic, List.mem_filter]
  refine and_congr_right fun hc => ?_
  have hb := (getElem?_eq_some_iff_idxOf h).2 ⟨(hcl c hc).1, rfl⟩
  have ha := (getElem?_eq_some_iff_idxOf h).2 ⟨(hcl c hc).2, rfl⟩
  rw [holds_closure_stepTable h hcl]
  constructor
  · rintro ⟨i, j, hi, hj, hij⟩
    obtain rfl := Option.some.inj (ha.symm.trans hi)
    obtain rfl := Option.some.inj (hb.symm.trans hj)
    exact hij
  · intro hab
    exact ⟨_, _, ha, hb, hab⟩

private theorem acyclic_of_cyclic_eq_nil (h : tokens.Nodup) (hcl : Closed tokens cs)
    (hnil : cyclic tokens (stepTable tokens cs).closure cs = []) (a : Identifier) :
    ¬ Chain cs a a := by
  intro haa
  have hfirst : ∃ c ∈ cs, c.before = a ∧ Chain cs c.after a := by
    obtain ⟨b, ⟨c, hc, rfl, rfl⟩, hback⟩ := Relation.TransGen.head'_iff.1 haa
    refine ⟨c, hc, rfl, ?_⟩
    rcases Relation.reflTransGen_iff_eq_or_transGen.1 hback with heq | hback
    · exact heq ▸ haa
    · exact hback
  obtain ⟨c, hc, rfl, hback⟩ := hfirst
  have hmem := (mem_cyclic_iff h hcl).2 ⟨hc, hback⟩
  rw [hnil] at hmem
  exact List.not_mem_nil hmem

def Agrees (c d : OrderConstraint) : Prop :=
  (c.before = d.before → c.after = d.after) ∧ (c.after = d.after → c.before = d.before)

private theorem agrees_iff (c d : OrderConstraint) :
    Agrees c d ↔ divergeAfter c d = false ∧ divergeBefore c d = false := by
  simp [Agrees, divergeAfter, divergeBefore]

private theorem clash?_eq_none_iff (seen l : List OrderConstraint) :
    clash? seen l = none ↔ (∀ c ∈ seen, ∀ d ∈ l, Agrees c d) ∧ l.Pairwise Agrees := by
  induction l generalizing seen with
  | nil => simp [clash?]
  | cons d l ih =>
    have hnone : (seen.find? (divergeAfter · d)).or (seen.find? (divergeBefore · d)) = none ↔
        ∀ c ∈ seen, Agrees c d := by
      simp only [Option.or_eq_none_iff, List.find?_eq_none, Bool.not_eq_true, agrees_iff]
      exact ⟨fun h c hc => ⟨h.1 c hc, h.2 c hc⟩,
        fun h => ⟨fun c hc => (h c hc).1, fun c hc => (h c hc).2⟩⟩
    rw [clash?]
    cases hf : (seen.find? (divergeAfter · d)).or (seen.find? (divergeBefore · d)) with
    | some e =>
      refine ⟨fun h => (Option.some_ne_none _ h).elim, fun h => ?_⟩
      have := hnone.2 fun c hc => h.1 c hc d List.mem_cons_self
      rw [hf] at this
      cases this
    | none =>
      have hd := hnone.1 hf
      simp only
      rw [ih, List.pairwise_cons]
      simp only [List.mem_append, List.mem_cons, List.not_mem_nil, or_false]
      constructor
      · rintro ⟨hseen, hl⟩
        refine ⟨?_, fun e he => hseen d (.inr rfl) e he, hl⟩
        rintro c hc e (rfl | he)
        · exact hd c hc
        · exact hseen c (.inl hc) e he
      · rintro ⟨hseen, hdl, hl⟩
        refine ⟨?_, hl⟩
        rintro c (hc | rfl) e he
        · exact hseen c hc e (.inr he)
        · exact hdl e he

private theorem agrees_of_clash?_eq_none {l : List OrderConstraint} (h : clash? [] l = none) :
    ∀ c ∈ l, ∀ d ∈ l, Agrees c d := by
  have hpair := ((clash?_eq_none_iff [] l).1 h).2
  have hsymm : l.Pairwise (flip Agrees) := by
    refine hpair.imp ?_
    exact fun hxy => ⟨fun he => (hxy.1 he.symm).symm, fun he => (hxy.2 he.symm).symm⟩
  intro c hc d hd
  exact hpair.forall_of_forall_of_flip (fun _ _ => ⟨fun _ => rfl, fun _ => rfl⟩) hsymm hc hd

theorem clash?_eq_some {seen l : List OrderConstraint} {c d : OrderConstraint}
    (h : clash? seen l = some (c, d)) : [c, d] <+ seen ++ l ∧ ¬ Agrees c d := by
  induction l generalizing seen with
  | nil => cases h
  | cons e l ih =>
    rw [clash?] at h
    cases hf : (seen.find? (divergeAfter · e)).or (seen.find? (divergeBefore · e)) with
    | some e' =>
      rw [hf] at h
      obtain ⟨rfl, rfl⟩ := Prod.mk.inj (Option.some.inj h)
      have hfound : e' ∈ seen ∧ (divergeAfter e' e = true ∨ divergeBefore e' e = true) := by
        rcases Option.or_eq_some_iff.1 hf with hs | ⟨-, hs⟩
        · exact ⟨List.mem_of_find?_eq_some hs, .inl (List.find?_some (p := (divergeAfter · e)) hs)⟩
        · exact ⟨List.mem_of_find?_eq_some hs, .inr (List.find?_some (p := (divergeBefore · e)) hs)⟩
      constructor
      · exact (List.singleton_sublist.2 hfound.1).append
          (List.singleton_sublist.2 List.mem_cons_self)
      · rw [agrees_iff]
        rintro ⟨hafter, hbefore⟩
        rcases hfound.2 with ht | ht
        · rw [hafter] at ht
          cases ht
        · rw [hbefore] at ht
          cases ht
    | none =>
      rw [hf] at h
      obtain ⟨hpair, hne⟩ := ih h
      rw [List.append_assoc] at hpair
      exact ⟨hpair, hne⟩

theorem agrees_of_allHold {order : List Identifier} (h : AllHold order cs)
    (hmem : ∀ c ∈ cs, c.before ∈ order ∧ c.after ∈ order) {c d : OrderConstraint} (hc : c ∈ cs)
    (hd : d ∈ cs) (hci : c.isImmediate = true) (hdi : d.isImmediate = true) : Agrees c d := by
  have hplace (e : OrderConstraint) (he : e ∈ cs) (hi : e.isImmediate = true) :
      order.idxOf e.after = order.idxOf e.before + 1 := by
    have hkind : e.kind = .immediate := by simpa [OrderConstraint.isImmediate] using hi
    have hh := h e he
    rw [OrderConstraint.Holds, hkind] at hh
    exact hh
  have hcp := hplace c hc hci
  have hdp := hplace d hd hdi
  constructor
  · intro he
    have : order.idxOf c.after = order.idxOf d.after := by rw [hcp, hdp, he]
    exact (List.idxOf_inj (hmem c hc).2).1 this
  · intro he
    have : order.idxOf c.before = order.idxOf d.before := by rw [he] at hcp; omega
    exact (List.idxOf_inj (hmem c hc).1).1 this

namespace Component

/-- The tables of a component say what its constraints say. -/
structure Faithful (c : Component) : Prop where
  nodup : c.tokens.Nodup
  closed : Closed c.tokens c.constraints
  acyclic : ∀ i, ¬ Chain c.constraints i i
  precedes_iff : ∀ a b, c.precedes a b = true ↔
    ∃ i j, c.tokens[a]? = some i ∧ c.tokens[b]? = some j ∧ Chain c.constraints i j
  successor?_iff : ∀ a b, c.successor? a = some b ↔
    ∃ i j, c.tokens[a]? = some i ∧ c.tokens[b]? = some j ∧ Adjoins c.constraints i j
  unique_before : ∀ i j k, Adjoins c.constraints i k → Adjoins c.constraints j k → i = j

private theorem build_eq_ok_iff {c : Component} :
    build tokens cs = .ok c ↔
      cyclic tokens (stepTable tokens cs).closure cs = [] ∧
      clash? [] (cs.filter OrderConstraint.isImmediate) = none ∧
      c = {
        tokens, constraints := cs
        precedence := (stepTable tokens cs).closure
        successors := tokens.map fun i =>
          ((cs.filter OrderConstraint.isImmediate).find? fun k => k.before = i).map fun k =>
            tokens.idxOf k.after } := by
  rw [build]
  cases hcyc : cyclic tokens (stepTable tokens cs).closure cs with
  | cons k l => simp
  | nil =>
    cases hcl : clash? [] (cs.filter OrderConstraint.isImmediate) with
    | some e => simp
    | none =>
      simp only [Except.ok.injEq, true_and]
      exact eq_comm

theorem build_eq_error_iff {e : CompileError} :
    build tokens cs = .error e ↔
      (∃ k l, cyclic tokens (stepTable tokens cs).closure cs = k :: l ∧
        e = .inconsistentOrdering (k :: l)) ∨
      cyclic tokens (stepTable tokens cs).closure cs = [] ∧
        ∃ k l, clash? [] (cs.filter OrderConstraint.isImmediate) = some (k, l) ∧
          e = .inconsistentOrdering [k, l] := by
  rw [build]
  cases hcyc : cyclic tokens (stepTable tokens cs).closure cs with
  | cons k l =>
    simp only [Except.error.injEq, List.cons.injEq, reduceCtorEq, false_and, or_false]
    constructor
    · intro he
      exact ⟨k, l, ⟨rfl, rfl⟩, he.symm⟩
    · rintro ⟨k', l', ⟨rfl, rfl⟩, rfl⟩
      rfl
  | nil =>
    cases hcl : clash? [] (cs.filter OrderConstraint.isImmediate) with
    | none => simp
    | some p =>
      obtain ⟨k, l⟩ := p
      simp only [Except.error.injEq, reduceCtorEq, false_and, exists_false, false_or,
        true_and, Option.some.injEq, Prod.mk.injEq]
      constructor
      · intro he
        exact ⟨k, l, ⟨rfl, rfl⟩, he.symm⟩
      · rintro ⟨k', l', ⟨rfl, rfl⟩, rfl⟩
        rfl

private theorem find?_before_map_eq_some_iff {l : List OrderConstraint}
    (hagree : ∀ c ∈ l, ∀ d ∈ l, Agrees c d) (i : Identifier) (b : Nat) :
    ((l.find? fun k => k.before = i).map fun k => tokens.idxOf k.after) = some b ↔
      ∃ k ∈ l, k.before = i ∧ tokens.idxOf k.after = b := by
  rw [Option.map_eq_some_iff]
  constructor
  · rintro ⟨k, hk, hb⟩
    exact ⟨k, List.mem_of_find?_eq_some hk, by simpa using List.find?_some hk, hb⟩
  · rintro ⟨k, hk, hi, hb⟩
    cases hf : l.find? fun k => k.before = i with
    | none => simpa [hi] using List.find?_eq_none.1 hf k hk
    | some k' =>
      have hi' : k'.before = i := by simpa using List.find?_some hf
      have hafter := (hagree k' (List.mem_of_find?_eq_some hf) k hk).1 (hi'.trans hi.symm)
      exact ⟨k', rfl, by rw [hafter, hb]⟩

private theorem build_faithful (h : tokens.Nodup) (hcl : Closed tokens cs) {c : Component}
    (hb : build tokens cs = .ok c) : c.tokens = tokens ∧ c.constraints = cs ∧ c.Faithful := by
  obtain ⟨hcyc, hclash, rfl⟩ := build_eq_ok_iff.1 hb
  have hagree := agrees_of_clash?_eq_none hclash
  refine ⟨rfl, rfl, h, hcl, acyclic_of_cyclic_eq_nil h hcl hcyc, ?_, ?_, ?_⟩
  · intro a b
    exact holds_closure_stepTable h hcl
  · intro a b
    simp only [successor?, List.getD_eq_getElem?_getD, List.getElem?_map]
    cases hi : tokens[a]? with
    | none => simp
    | some i =>
      simp only [Option.map_some, Option.getD_some, find?_before_map_eq_some_iff hagree]
      constructor
      · rintro ⟨k, hk, rfl, rfl⟩
        obtain ⟨hk, hki⟩ := List.mem_filter.1 hk
        refine ⟨k.before, k.after, rfl, ?_, OrderConstraint.adjoins_iff.2 ⟨k, hk, hki, rfl, rfl⟩⟩
        exact (getElem?_eq_some_iff_idxOf h).2 ⟨(hcl k hk).2, rfl⟩
      · rintro ⟨i', j, hi', hj, hij⟩
        obtain rfl := Option.some.inj hi'
        exact ⟨_, List.mem_filter.2 ⟨hij, rfl⟩, rfl, ((getElem?_eq_some_iff_idxOf h).1 hj).2⟩
  · intro i j k hik hjk
    exact (hagree _ (List.mem_filter.2 ⟨hik, rfl⟩) _ (List.mem_filter.2 ⟨hjk, rfl⟩)).2 rfl

private theorem not_allHold_of_build_eq_error (h : tokens.Nodup) (hcl : Closed tokens cs)
    {e : CompileError} (hb : build tokens cs = .error e) {order : List Identifier}
    (hmem : ∀ c ∈ cs, c.before ∈ order ∧ c.after ∈ order) : ¬ AllHold order cs := by
  intro hall
  rcases build_eq_error_iff.1 hb with ⟨k, l, hcyc, -⟩ | ⟨-, k, l, hclash, -⟩
  · have hk : k ∈ cyclic tokens (stepTable tokens cs).closure cs := hcyc ▸ List.mem_cons_self
    obtain ⟨hkc, hback⟩ := (mem_cyclic_iff h hcl).1 hk
    exact hall.acyclic _ (hback.tail ⟨k, hkc, rfl, rfl⟩)
  · obtain ⟨hpair, hne⟩ := clash?_eq_some hclash
    obtain ⟨hk, hki⟩ := List.mem_filter.1 (hpair.subset (List.mem_cons_self (a := k)))
    obtain ⟨hl, hli⟩ := List.mem_filter.1 (hpair.subset (a := l) (by simp))
    exact hne (agrees_of_allHold hall hmem hk hl hki hli)

theorem hasPredecessor_iff {c : Component} {b : Nat} :
    c.hasPredecessor b = true ↔ ∃ a, c.successor? a = some b := by
  simp only [hasPredecessor, successor?, List.contains_iff_mem, List.mem_iff_getElem?,
    List.getD_eq_getElem?_getD]
  refine exists_congr fun a => ?_
  cases c.successors[a]? <;> simp

end Component

section Query

variable {q : Query} {comps : List Component}

/-- The components share out the tokens of a query, and each has the constraints between its
tokens. -/
structure Decomposes (q : Query) (comps : List Component) : Prop where
  tokens_perm : (comps.map Component.tokens).flatten.Perm q.identifiers
  faithful : ∀ c ∈ comps, c.Faithful
  constraints_eq : ∀ c ∈ comps, c.constraints = q.constraints.filter fun k => k.before ∈ c.tokens
  before_mem_iff : ∀ c ∈ comps, ∀ k ∈ q.constraints, k.before ∈ c.tokens ↔ k.after ∈ c.tokens

theorem group_spec {g : List Identifier} (hg : g ∈ (partition q).groups) :
    g.Nodup ∧ Closed g (q.constraints.filter fun k => k.before ∈ g) := by
  have hnodup := (flatten_groups_perm q).nodup_iff.2 q.nodup_identifiers
  refine ⟨(List.nodup_flatten.1 hnodup).1 g hg, ?_⟩
  intro k hk
  obtain ⟨hk, hb⟩ := List.mem_filter.1 hk
  rw [decide_eq_true_eq] at hb
  exact ⟨hb, (before_mem_group_iff hg hk).1 hb⟩

theorem spec_of_components_eq_ok (h : components q = .ok comps) :
    comps.map Component.tokens = (partition q).groups ∧
      ∀ c ∈ comps, c.Faithful ∧
        c.constraints = q.constraints.filter fun k => k.before ∈ c.tokens := by
  have hbuild := Sequence.mapM_eq_ok_iff.1 h
  have hspec {g : List Identifier} (hg : g ∈ (partition q).groups) {c : Component}
      (hb : Component.build g (q.constraints.filter fun k => k.before ∈ g) = .ok c) :=
    Component.build_faithful (group_spec hg).1 (group_spec hg).2 hb
  constructor
  · rw [eq_comm, ← List.forall₂_eq_eq_eq, List.forall₂_map_right_iff, List.forall₂_iff_zip]
    refine ⟨hbuild.length_eq, fun {g c} hgc => ?_⟩
    exact (hspec (List.of_mem_zip hgc).1 (List.forall₂_zip hbuild hgc)).1.symm
  · intro c hc
    obtain ⟨g, hg, hb⟩ := Sequence.exists_of_mem_right hbuild hc
    obtain ⟨rfl, hcons, hfaith⟩ := hspec hg hb
    exact ⟨hfaith, hcons⟩

theorem tokens_mem_groups (h : components q = .ok comps) {c : Component} (hc : c ∈ comps) :
    c.tokens ∈ (partition q).groups := by
  rw [← (spec_of_components_eq_ok h).1]
  exact List.mem_map_of_mem hc

theorem decomposes_of_components_eq_ok (h : components q = .ok comps) : Decomposes q comps := by
  obtain ⟨htokens, hspec⟩ := spec_of_components_eq_ok h
  refine ⟨?_, fun c hc => (hspec c hc).1, fun c hc => (hspec c hc).2, ?_⟩
  · rw [htokens]
    exact flatten_groups_perm q
  · intro c hc k hk
    exact before_mem_group_iff (tokens_mem_groups h hc) hk

theorem components_eq_error {e : CompileError} (h : components q = .error e) :
    (∃ cs, e = .inconsistentOrdering cs) ∧ ∀ order, ¬ q.Admits order := by
  obtain ⟨g, hg, hb⟩ := Sequence.exists_error_of_mapM_eq_error h
  obtain ⟨hnodup, hclosed⟩ := group_spec hg
  constructor
  · rcases Component.build_eq_error_iff.1 hb with ⟨k, l, -, he⟩ | ⟨-, k, l, -, he⟩
    · exact ⟨_, he⟩
    · exact ⟨_, he⟩
  · intro order ⟨hperm, hall⟩
    have hmem : ∀ k ∈ q.constraints.filter fun k => k.before ∈ g,
        k.before ∈ order ∧ k.after ∈ order := by
      intro k hk
      exact Query.ends_mem_of_perm hperm k (List.mem_filter.1 hk).1
    refine Component.not_allHold_of_build_eq_error hnodup hclosed hb hmem ?_
    intro k hk
    exact hall k (List.mem_filter.1 hk).1

namespace Decomposes

theorem constraints_subset (h : Decomposes q comps) {c : Component} (hc : c ∈ comps) :
    c.constraints ⊆ q.constraints := by
  rw [h.constraints_eq c hc]
  exact List.filter_sublist.subset

theorem chain_local (h : Decomposes q comps) {c : Component} (hc : c ∈ comps) {a b : Identifier}
    (ha : a ∈ c.tokens) (hab : Chain q.constraints a b) :
    b ∈ c.tokens ∧ Chain c.constraints a b := by
  have hstep {x y : Identifier} (hx : x ∈ c.tokens) (hxy : Step q.constraints x y) :
      y ∈ c.tokens ∧ Step c.constraints x y := by
    obtain ⟨k, hk, rfl, rfl⟩ := hxy
    refine ⟨(h.before_mem_iff c hc k hk).1 hx, k, ?_, rfl, rfl⟩
    rw [h.constraints_eq c hc]
    exact List.mem_filter.2 ⟨hk, by simpa using hx⟩
  induction hab with
  | single hs =>
    obtain ⟨hb, hs⟩ := hstep ha hs
    exact ⟨hb, .single hs⟩
  | tail _ hs ih =>
    obtain ⟨hb, hs⟩ := hstep ih.1 hs
    exact ⟨hb, ih.2.tail hs⟩

private theorem chain_of_component (h : Decomposes q comps) {c : Component} (hc : c ∈ comps)
    {a b : Identifier} (hab : Chain c.constraints a b) : Chain q.constraints a b :=
  Relation.TransGen.mono (fun _ _ hs => hs.mono (h.constraints_subset hc)) _ _ hab

theorem chain_iff (h : Decomposes q comps) {c : Component} (hc : c ∈ comps) {a b : Identifier}
    (ha : a ∈ c.tokens) : Chain q.constraints a b ↔ Chain c.constraints a b :=
  ⟨fun hab => (h.chain_local hc ha hab).2, h.chain_of_component hc⟩

theorem adjoins_iff (h : Decomposes q comps) {c : Component} (hc : c ∈ comps) {a b : Identifier}
    (ha : a ∈ c.tokens) : Adjoins q.constraints a b ↔ Adjoins c.constraints a b := by
  rw [Adjoins, Adjoins, h.constraints_eq c hc, List.mem_filter]
  simp [ha]

theorem adjoins_iff_of_after (h : Decomposes q comps) {c : Component} (hc : c ∈ comps)
    {a b : Identifier} (hb : b ∈ c.tokens) :
    Adjoins q.constraints a b ↔ Adjoins c.constraints a b := by
  constructor
  · intro hab
    have ha : a ∈ c.tokens := (h.before_mem_iff c hc _ hab).2 hb
    exact (h.adjoins_iff hc ha).1 hab
  · intro hab
    exact h.constraints_subset hc hab

theorem mem_identifiers_iff (h : Decomposes q comps) {i : Identifier} :
    i ∈ q.identifiers ↔ ∃ c ∈ comps, i ∈ c.tokens := by
  rw [← h.tokens_perm.mem_iff, List.mem_flatten]
  simp

end Decomposes

end Query

end TreeQuery.Order
