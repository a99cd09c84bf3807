import TreeQuery.Proofs.Arrangement.BlockOrder

/-!
How a component is divided into blocks. Following immediate successors comes to an end, the blocks
hold every token at one place, with the immediate neighbours as neighbours, and an order that runs
through the blocks keeps the precedence of the tokens if and only if it keeps what is required of
the blocks.
-/

set_option autoImplicit false
set_option relaxedAutoImplicit false

namespace TreeQuery.Arrangement

open scoped List
open OrderConstraint (Chain Adjoins)
open TreeQuery.Order (Component)

/-- Going from `a` to its immediate successor, from there to the next one and so on comes to an
end, and passes the tokens of the list. -/
inductive Follows (c : Component) : Nat → List Nat → Prop
  | stop {a : Nat} : c.successor? a = none → Follows c a [a]
  | step {a b : Nat} {l : List Nat} :
      c.successor? a = some b → Follows c b l → Follows c a (a :: l)

def heads (c : Component) : List Nat := (List.range c.size).filter fun a => !c.hasPredecessor a

/-- Every token comes after the tokens that precede it. -/
def KeepsPrecedence (c : Component) (order : List Identifier) : Prop :=
  ∀ a b i j, c.tokens[a]? = some i → c.tokens[b]? = some j → c.precedes a b = true →
    order.idxOf i < order.idxOf j

/-- A layout divides the tokens of a component into blocks and tells the order between these. The
blocks are the walks along immediate successors, and every token has one place in one of them. An
order of the tokens in which the blocks are runs is made of one order of the blocks, and it keeps
the precedence if and only if that order keeps the requirement. -/
structure Layout.Divides (l : Layout) (c : Component) : Prop where
  walks : ∃ ws, List.Forall₂ (Follows c) (heads c) ws ∧ l.blocks = ws.map (tokensAt c)
  tokens : ∀ x ∈ l.blocks, ∀ i ∈ x, i ∈ c.tokens
  place : ∀ i ∈ c.tokens, ∃! p : Nat × Nat, ∃ x, l.blocks[p.1]? = some x ∧ x[p.2]? = some i
  neighbours : ∀ a b i j, c.tokens[a]? = some i → c.tokens[b]? = some j →
    ((∃ x ∈ l.blocks, [i, j] <:+: x) ↔ c.successor? a = some b)
  order : ∀ order, order ~ c.tokens → (∀ x ∈ l.blocks, x <:+: order) →
    ∃ o, o ~ List.range l.blocks.length ∧ (l.sequence o).flatten = order ∧
      (∀ o', o' ~ List.range l.blocks.length → (l.sequence o').flatten = order → o' = o) ∧
      (KeepsPrecedence c order ↔ KeepsRequirement l o)

variable {c : Component}

/-- A chain that is shorter than its bound is a walk that has come to its end. -/
theorem follows_chain {n a : Nat} (hlen : (chain c n a).length ≤ n) :
    Follows c a (chain c n a) := by
  induction n generalizing a with
  | zero => simp [chain] at hlen
  | succ n ih =>
    rw [chain] at hlen ⊢
    cases hs : c.successor? a with
    | none => exact .stop hs
    | some b =>
      simp only [hs, List.length_cons] at hlen
      exact .step hs (ih (by omega))

private theorem forall₂_follows_chains (hc : c.Faithful) :
    List.Forall₂ (Follows c) (heads c) (chains c) := by
  rw [chains, ← heads, List.forall₂_map_right_iff, List.forall₂_same]
  intro a ha
  have hlt : a < c.size := List.mem_range.1 (List.mem_of_mem_filter ha)
  exact follows_chain (length_chain_le hc hlt)

private theorem existsUnique_place {blocks : List (List Identifier)} (hnodup : blocks.flatten.Nodup)
    (hne : ∀ x ∈ blocks, x ≠ []) {i : Identifier} (hi : i ∈ blocks.flatten) :
    ∃! p : Nat × Nat, ∃ x, blocks[p.1]? = some x ∧ x[p.2]? = some i := by
  obtain ⟨x, hx, hix⟩ := List.mem_flatten.1 hi
  obtain ⟨m, hm⟩ := List.mem_iff_getElem?.1 hx
  obtain ⟨k, hk⟩ := List.mem_iff_getElem?.1 hix
  refine ⟨(m, k), ⟨x, hm, hk⟩, ?_⟩
  rintro ⟨m', k'⟩ ⟨y, hm', hk'⟩
  have hy : y ∈ blocks := List.mem_of_getElem? hm'
  obtain rfl : y = x := eq_of_mem_blocks hnodup hy hx (List.mem_of_getElem? hk') hix
  have hblocks := nodup_of_nodup_flatten hnodup hne
  have hyn : y.Nodup := (List.nodup_flatten.1 hnodup).1 y hx
  have hblock : m' = m := by
    apply (List.getElem?_inj (List.getElem?_eq_some_iff.1 hm').1 hblocks).1
    rw [hm, hm']
  have hplace : k' = k := by
    apply (List.getElem?_inj (List.getElem?_eq_some_iff.1 hk').1 hyn).1
    rw [hk, hk']
  rw [hblock, hplace]

private theorem keepsPrecedence_iff (hc : c.Faithful) {order : List Identifier}
    (horder : order ~ c.tokens) :
    KeepsPrecedence c order ↔ order.Pairwise fun i j => ¬ Chain c.constraints j i := by
  have hself : ∀ i ∈ order, ¬ Chain c.constraints i i := fun i _ => hc.acyclic i
  have hpositions := Sequence.forall_idxOf_lt_iff (r := Chain c.constraints)
    (horder.nodup_iff.2 hc.nodup)
  rw [and_iff_right hself] at hpositions
  rw [← hpositions]
  constructor
  · intro hkeeps i hi j hj hij
    obtain ⟨a, ha⟩ := List.mem_iff_getElem?.1 (horder.subset hi)
    obtain ⟨b, hb⟩ := List.mem_iff_getElem?.1 (horder.subset hj)
    exact hkeeps a b i j ha hb ((hc.precedes_iff a b).2 ⟨i, j, ha, hb, hij⟩)
  · intro hlt a b i j ha hb hab
    obtain ⟨i', j', hi', hj', hij⟩ := (hc.precedes_iff a b).1 hab
    obtain rfl := Option.some.inj (ha.symm.trans hi')
    obtain rfl := Option.some.inj (hb.symm.trans hj')
    exact hlt i (horder.mem_iff.2 (List.mem_of_getElem? ha)) j
      (horder.mem_iff.2 (List.mem_of_getElem? hb)) hij

private theorem keepsPrecedence_flatten_iff (hc : c.Faithful) {o : List Nat}
    (ho : o ~ List.range (Layout.ofComponent c).blocks.length) :
    KeepsPrecedence c ((Layout.ofComponent c).sequence o).flatten ↔
      KeepsRequirement (Layout.ofComponent c) o := by
  have hblocks := sequence_perm ho
  have horder : ((Layout.ofComponent c).sequence o).flatten ~ c.tokens :=
    hblocks.flatten.trans (flatten_blocks_perm hc)
  rw [keepsPrecedence_iff hc horder, (presents_ofComponent hc).pairwise_flatten_iff hblocks,
    ← respects_iff_pairwise hc ho, keepsRequirement_iff ho]

private theorem neighbours_iff_successor? (hc : c.Faithful) {a b : Nat} {i j : Identifier}
    (ha : c.tokens[a]? = some i) (hb : c.tokens[b]? = some j) :
    (∃ x ∈ (Layout.ofComponent c).blocks, [i, j] <:+: x) ↔ c.successor? a = some b := by
  rw [← (presents_ofComponent hc).adjoins_iff, hc.successor?_iff]
  constructor
  · intro hij
    exact ⟨i, j, ha, hb, hij⟩
  · intro ⟨i', j', ha', hb', hij⟩
    obtain rfl := Option.some.inj (ha.symm.trans ha')
    obtain rfl := Option.some.inj (hb.symm.trans hb')
    exact hij

private theorem exists_order_of_blocks (hc : c.Faithful) {order : List Identifier}
    (horder : order ~ c.tokens) (hruns : ∀ x ∈ (Layout.ofComponent c).blocks, x <:+: order) :
    ∃ o, o ~ List.range (Layout.ofComponent c).blocks.length ∧
      ((Layout.ofComponent c).sequence o).flatten = order ∧
      ∀ o', o' ~ List.range (Layout.ofComponent c).blocks.length →
        ((Layout.ofComponent c).sequence o').flatten = order → o' = o := by
  have hpres := presents_ofComponent hc
  have hblocks := nodup_of_nodup_flatten hpres.nodup hpres.nonempty
  obtain ⟨bs, hbs, rfl⟩ := exists_perm_flatten_eq hpres.nodup hpres.nonempty
    (horder.trans (flatten_blocks_perm hc).symm) fun x hx p q hpq => hpq.trans (hruns x hx)
  obtain ⟨o, ho, rfl⟩ := exists_sequence_eq hblocks hbs
  refine ⟨o, ho, rfl, ?_⟩
  intro o' ho' heq
  have hnodup : ((Layout.ofComponent c).sequence o).flatten.Nodup :=
    hbs.flatten.nodup_iff.2 hpres.nodup
  have hsame := eq_of_flatten_eq hnodup (fun x hx => hpres.nonempty x (hbs.subset hx))
    ((sequence_perm ho').trans hbs.symm) heq
  exact eq_of_sequence_eq hblocks (fun x hx => List.mem_range.1 (ho'.subset hx))
    (fun x hx => List.mem_range.1 (ho.subset hx)) hsame

end TreeQuery.Arrangement

namespace TreeQuery.Query

open Arrangement
open TreeQuery.Order (Component components)

/-- Every component of a query is divided into blocks by its layout. -/
theorem components_divide_into_blocks (q : Query) (comps : List Component)
    (h : components q = .ok comps) (c : Component) (hc : c ∈ comps) :
    (Layout.ofComponent c).Divides c := by
  have hfaith := (Order.decomposes_of_components_eq_ok h).faithful c hc
  have hpres := presents_ofComponent hfaith
  have hperm := flatten_blocks_perm hfaith
  constructor
  case walks => exact ⟨chains c, forall₂_follows_chains hfaith, rfl⟩
  case tokens =>
    intro x hx i hi
    exact hperm.subset (List.mem_flatten.2 ⟨x, hx, hi⟩)
  case place =>
    intro i hi
    exact existsUnique_place hpres.nodup hpres.nonempty (hperm.mem_iff.2 hi)
  case neighbours =>
    intro a b i j ha hb
    exact neighbours_iff_successor? hfaith ha hb
  case order =>
    intro order horder hruns
    obtain ⟨o, ho, rfl, hunique⟩ := exists_order_of_blocks hfaith horder hruns
    exact ⟨o, ho, rfl, hunique, keepsPrecedence_flatten_iff hfaith ho⟩

/-- A run of three tokens and a run of two, the second of which has to come after the first. -/
def coupled : Query where
  tokens := [⟨⟨4⟩, none⟩]
  dependencies := []
  predicates := []
  constraints := [⟨⟨0⟩, ⟨1⟩, .immediate⟩, ⟨⟨0⟩, ⟨4⟩, .general⟩, ⟨⟨1⟩, ⟨2⟩, .immediate⟩,
    ⟨⟨3⟩, ⟨4⟩, .immediate⟩]

theorem coupled_divides_into_blocks :
    ∃ c, components coupled = .ok [c] ∧
      (Layout.ofComponent c).blocks = [[⟨0⟩, ⟨1⟩, ⟨2⟩], [⟨3⟩, ⟨4⟩]] ∧
      (Layout.ofComponent c).required.holds 0 1 = true ∧ (Layout.ofComponent c).Divides c := by
  have hone : (components coupled).toOption.map (List.map fun c =>
      ((Layout.ofComponent c).blocks, (Layout.ofComponent c).required.holds 0 1)) =
        some [([[⟨0⟩, ⟨1⟩, ⟨2⟩], [⟨3⟩, ⟨4⟩]], true)] := by
    decide +kernel
  obtain ⟨comps, hcomps, hcomp⟩ := Option.map_eq_some_iff.1 hone
  rw [Sequence.toOption_eq_some_iff] at hcomps
  obtain ⟨c, rfl, hc⟩ := List.map_eq_singleton_iff.1 hcomp
  obtain ⟨hblocks, hrequired⟩ := Prod.mk.inj hc
  exact ⟨c, hcomps, hblocks, hrequired,
    components_divide_into_blocks coupled [c] hcomps c List.mem_cons_self⟩

end TreeQuery.Query
