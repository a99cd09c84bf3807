import Mathlib.Algebra.BigOperators.Ring.List
import Mathlib.Algebra.GroupWithZero.Nat
import Mathlib.Data.List.Forall2
import Mathlib.Data.List.Perm.Basic
import TreeQuery.Compiler
import TreeQuery.Proofs.Arrangement.Odometer
import TreeQuery.Proofs.Arrangement.Weave

/-!
The candidates of a query. A choice of block orders and an interleaving weave one sequence of
blocks, and different choices or interleavings weave different token orders. The components of a
query together present all its constraints, so the woven token orders are the admitted ones.
-/

set_option autoImplicit false
set_option relaxedAutoImplicit false

namespace TreeQuery.Arrangement

open scoped List
open OrderConstraint (Chain Adjoins AllHold)
open TreeQuery.Order (Component Closed Decomposes)

section Choices

theorem mem_choices {ls : List Layout} {orders : List (List Nat)} :
    orders ∈ choices ls ↔ List.Forall₂ (fun l o => o ∈ l.orders.toList) ls orders := by
  induction ls generalizing orders with
  | nil => simp [choices]
  | cons l ls ih =>
    rw [List.forall₂_cons_left_iff]
    simp only [choices, List.mem_flatMap, List.mem_map, ih]
    constructor
    · rintro ⟨o, ho, os, hos, rfl⟩
      exact ⟨o, os, ho, hos, rfl⟩
    · rintro ⟨o, os, ho, hos, rfl⟩
      exact ⟨o, ho, os, hos, rfl⟩

theorem pairwise_lt_choices (ls : List Layout) : (choices ls).Pairwise (· < ·) := by
  induction ls with
  | nil => simp [choices]
  | cons l ls ih =>
    simp only [choices, List.pairwise_flatMap, List.pairwise_map, List.mem_map]
    constructor
    · intro o _
      refine ih.imp ?_
      intro os os' hlt
      exact List.cons_lt_cons_iff.2 (.inr ⟨rfl, hlt⟩)
    · refine (pairwise_lt_orders l).imp ?_
      rintro o o' hlt _ ⟨os, -, rfl⟩ _ ⟨os', -, rfl⟩
      exact List.cons_lt_cons_iff.2 (.inl hlt)

private theorem nodup_choices (ls : List Layout) : (choices ls).Nodup :=
  (pairwise_lt_choices ls).imp fun h => ne_of_lt h

def queuesFor (ls : List Layout) (orders : List (List Nat)) : List (List (List Identifier)) :=
  ls.zipWith Layout.sequence orders

theorem queuesFor_perm {ls : List Layout} {orders : List (List Nat)}
    (h : orders ∈ choices ls) :
    List.Forall₂ (· ~ ·) (queuesFor ls orders) (ls.map Layout.blocks) := by
  rw [mem_choices] at h
  induction h with
  | nil => exact .nil
  | cons ho _ ih => exact .cons (sequence_perm (mem_orders.1 ho).1) ih

private theorem eq_of_queuesFor_eq {ls : List Layout} (hls : ∀ l ∈ ls, l.blocks.Nodup)
    {orders orders' : List (List Nat)} (h : orders ∈ choices ls)
    (h' : orders' ∈ choices ls) (heq : queuesFor ls orders = queuesFor ls orders') :
    orders = orders' := by
  rw [mem_choices] at h h'
  induction h generalizing orders' with
  | nil =>
    cases h'
    rfl
  | cons ho _ ih =>
    cases h' with
    | cons ho' hos' =>
      obtain ⟨hhead, htail⟩ := List.cons.inj heq
      have hlt {o : List Nat} {l : Layout} (ho : o ∈ l.orders.toList) :
          ∀ x ∈ o, x < l.blocks.length := fun x hx =>
        List.mem_range.1 ((mem_orders.1 ho).1.subset hx)
      have horder := eq_of_sequence_eq (hls _ List.mem_cons_self) (hlt ho) (hlt ho') hhead
      have hrest := ih (fun l hl => hls l (List.mem_cons_of_mem _ hl)) hos' htail
      rw [horder, hrest]

end Choices

section Woven

variable {ls : List Layout}

private theorem tokens_candidates (ls : List Layout) :
    (candidates ls).toList.map Candidate.tokens =
      (choices ls).flatMap fun orders =>
        (interleavings ((ls.map Layout.blocks).map List.length)).map fun w =>
          (weave w (queuesFor ls orders)).flatten := by
  rw [toList_candidates, selections, withInterleavings]
  simp only [List.map_flatMap, List.map_map]
  rfl

theorem nodup_tokens_candidates (hnodup : (ls.map Layout.blocks).flatten.flatten.Nodup)
    (hne : ∀ x ∈ (ls.map Layout.blocks).flatten, x ≠ []) :
    ((candidates ls).toList.map Candidate.tokens).Nodup := by
  have hblocks := nodup_of_nodup_flatten hnodup hne
  obtain ⟨owner, howns⟩ := exists_owns hblocks
  rw [tokens_candidates]
  refine Sequence.nodup_flatMap_map (nodup_choices ls) (nodup_interleavings _) ?_
  intro orders ho w hw orders' ho' w' hw' heq
  have hq := queuesFor_perm ho
  have hq' := queuesFor_perm ho'
  obtain ⟨hperm, hmap, hfilter⟩ := weave_perm hblocks howns hq (mem_interleavings.1 hw)
  obtain ⟨hperm', hmap', hfilter'⟩ := weave_perm hblocks howns hq' (mem_interleavings.1 hw')
  have hsame : weave w (queuesFor ls orders) = weave w' (queuesFor ls orders') :=
    eq_of_flatten_eq (hperm'.flatten.nodup_iff.2 hnodup)
      (fun x hx => hne x (hperm'.subset hx)) (hperm.trans hperm'.symm) heq
  have hqueues : queuesFor ls orders = queuesFor ls orders' := by
    refine eq_of_queueOf_eq (hq.length_eq.trans hq'.length_eq.symm) ?_
    intro c
    rw [← hfilter c, ← hfilter' c, hsame]
  refine ⟨eq_of_queuesFor_eq ?_ ho ho' hqueues, ?_⟩
  · intro l hl
    exact (List.nodup_flatten.1 hblocks).1 _ (List.mem_map_of_mem hl)
  · rw [← hmap, ← hmap', hsame]

private theorem length_choices (ls : List Layout) :
    (choices ls).length = (ls.map fun l => l.orders.toList.length).prod := by
  induction ls with
  | nil => rfl
  | cons l ls ih =>
    simp only [choices, List.length_flatMap, List.length_map, List.map_const',
      List.sum_replicate_nat, List.map_cons, List.prod_cons, ih]

theorem length_candidates (ls : List Layout) :
    (candidates ls).toList.length = (ls.map fun l => l.orders.toList.length).prod *
      (interleavings (ls.map fun l => l.blocks.length)).length := by
  simp only [toList_candidates, selections, withInterleavings, List.length_flatMap,
    List.length_map, List.map_const', List.sum_replicate_nat, length_choices]

theorem candidates_ne_nil_iff :
    (candidates ls).toList ≠ [] ↔ ∀ l ∈ ls, l.orders.toList ≠ [] := by
  have hwoven : (interleavings (ls.map fun l => l.blocks.length)) ≠ [] :=
    List.ne_nil_of_mem (mem_interleavings.2 (List.Perm.refl _))
  rw [← List.length_pos_iff, length_candidates, Nat.mul_pos_iff_of_pos_right
    (List.length_pos_iff.2 hwoven), Nat.pos_iff_ne_zero, Ne, List.prod_eq_zero_iff]
  simp [List.length_eq_zero_iff]

end Woven

section Components

variable {q : Query} {comps : List Component}

def blocksOf (comps : List Component) : List (List (List Identifier)) :=
  (comps.map Layout.ofComponent).map Layout.blocks

private theorem mem_flatten_blocksOf {x : List Identifier} :
    x ∈ (blocksOf comps).flatten ↔ ∃ c ∈ comps, x ∈ (Layout.ofComponent c).blocks := by
  simp [blocksOf]

private theorem mem_tokens_of_mem_block (h : Decomposes q comps) {c : Component} (hc : c ∈ comps)
    {x : List Identifier} (hx : x ∈ (Layout.ofComponent c).blocks) {i : Identifier} (hi : i ∈ x) :
    i ∈ c.tokens :=
  (flatten_blocks_perm (h.faithful c hc)).subset (List.mem_flatten.2 ⟨x, hx, hi⟩)

private theorem exists_block_of_mem_tokens (h : Decomposes q comps) {c : Component} (hc : c ∈ comps)
    {i : Identifier} (hi : i ∈ c.tokens) : ∃ x ∈ (Layout.ofComponent c).blocks, i ∈ x :=
  List.mem_flatten.1 ((flatten_blocks_perm (h.faithful c hc)).symm.subset hi)

private theorem flatten_blocksOf_perm (h : Decomposes q comps) :
    (blocksOf comps).flatten.flatten ~ q.identifiers := by
  refine List.Perm.trans ?_ h.tokens_perm
  rw [List.flatten_flatten]
  apply List.Perm.flatten_congr
  rw [blocksOf, List.map_map, List.map_map, List.forall₂_map_left_iff, List.forall₂_map_right_iff,
    List.forall₂_same]
  intro c hc
  exact flatten_blocks_perm (h.faithful c hc)

theorem presents_blocksOf (h : Decomposes q comps) :
    Presents (blocksOf comps).flatten q.constraints := by
  have hperm := flatten_blocksOf_perm h
  refine ⟨hperm.nodup_iff.2 q.nodup_identifiers, ?_, Query.ends_mem_of_perm hperm, ?_, ?_⟩
  · intro x hx
    obtain ⟨c, hc, hx⟩ := mem_flatten_blocksOf.1 hx
    exact (presents_ofComponent (h.faithful c hc)).nonempty x hx
  · intro a b
    constructor
    · intro hab
      obtain ⟨c, hc, ha⟩ := h.mem_identifiers_iff.1 (Query.before_mem_identifiers hab)
      have hab' : Adjoins c.constraints a b := (h.adjoins_iff hc ha).1 hab
      obtain ⟨x, hx, hin⟩ := ((presents_ofComponent (h.faithful c hc)).adjoins_iff a b).1 hab'
      exact ⟨x, mem_flatten_blocksOf.2 ⟨c, hc, hx⟩, hin⟩
    · intro ⟨x, hx, hin⟩
      obtain ⟨c, hc, hx⟩ := mem_flatten_blocksOf.1 hx
      exact h.constraints_subset hc
        (((presents_ofComponent (h.faithful c hc)).adjoins_iff a b).2 ⟨x, hx, hin⟩)
  · intro a haa
    obtain ⟨b, ⟨k, hk, hka, -⟩, -⟩ := Relation.TransGen.head'_iff.1 haa
    obtain ⟨c, hc, ha⟩ := h.mem_identifiers_iff.1 (hka ▸ Query.before_mem_identifiers hk)
    exact (h.faithful c hc).acyclic a (h.chain_local hc ha haa).2

private theorem leads_iff (h : Decomposes q comps) {c : Component} (hc : c ∈ comps)
    {x y : List Identifier} (hx : x ∈ (Layout.ofComponent c).blocks) :
    Leads q.constraints x y ↔ Leads c.constraints x y := by
  constructor
  · intro ⟨a, ha, b, hb, hab⟩
    exact ⟨a, ha, b, hb, (h.chain_iff hc (mem_tokens_of_mem_block h hc hx ha)).1 hab⟩
  · intro ⟨a, ha, b, hb, hab⟩
    exact ⟨a, ha, b, hb, (h.chain_iff hc (mem_tokens_of_mem_block h hc hx ha)).2 hab⟩

private theorem exists_of_mem_queueOf_blocksOf {n : Nat} {x : List Identifier}
    (hx : x ∈ queueOf (blocksOf comps) n) :
    ∃ c ∈ comps, queueOf (blocksOf comps) n = (Layout.ofComponent c).blocks := by
  rw [queueOf, blocksOf, List.map_map, List.getElem?_map] at hx ⊢
  cases hc : comps[n]? with
  | none => simp [hc] at hx
  | some c => exact ⟨c, List.mem_of_getElem? hc, rfl⟩

private theorem owner_eq_of_leads (h : Decomposes q comps) {owner : List Identifier → Nat}
    (howns : Owns owner (blocksOf comps)) {x y : List Identifier}
    (hx : x ∈ (blocksOf comps).flatten) (hy : y ∈ (blocksOf comps).flatten)
    (hxy : Leads q.constraints x y) : owner x = owner y := by
  have hxq := (mem_flatten_iff_owner howns).1 hx
  obtain ⟨c, hc, hqueue⟩ := exists_of_mem_queueOf_blocksOf hxq
  have hxc : x ∈ (Layout.ofComponent c).blocks := hqueue ▸ hxq
  obtain ⟨a, ha, b, hb, hab⟩ := hxy
  have hbc := (h.chain_local hc (mem_tokens_of_mem_block h hc hxc ha) hab).1
  obtain ⟨z, hz, hbz⟩ := exists_block_of_mem_tokens h hc hbc
  have hzy : z = y := eq_of_mem_blocks (presents_blocksOf h).nodup
    (mem_flatten_blocksOf.2 ⟨c, hc, hz⟩) hy hbz hb
  have hzq : z ∈ queueOf (blocksOf comps) (owner x) := hqueue ▸ hz
  rw [← hzy, howns _ z hzq]

private theorem exists_mem_orders_iff_leads (h : Decomposes q comps) {c : Component}
    (hc : c ∈ comps)
    {bs : List (List Identifier)} :
    (∃ o ∈ (Layout.ofComponent c).orders.toList, (Layout.ofComponent c).sequence o = bs) ↔
      bs.Pairwise (fun x y => ¬ Leads q.constraints y x) ∧ bs ~ (Layout.ofComponent c).blocks := by
  rw [exists_mem_orders_iff (h.faithful c hc), and_comm]
  refine and_congr_left fun hperm => ?_
  constructor
  · intro hpair
    exact hpair.imp_of_mem fun _ hy hxy hlead => hxy ((leads_iff h hc (hperm.subset hy)).1 hlead)
  · intro hpair
    exact hpair.imp_of_mem fun _ hy hxy hlead => hxy ((leads_iff h hc (hperm.subset hy)).2 hlead)

private theorem exists_choice_iff (h : Decomposes q comps)
    {queues : List (List (List Identifier))} :
    (∃ orders ∈ choices (comps.map Layout.ofComponent),
        queuesFor (comps.map Layout.ofComponent) orders = queues) ↔
      (∀ bs ∈ queues, bs.Pairwise fun x y => ¬ Leads q.constraints y x) ∧
        List.Forall₂ (· ~ ·) queues (blocksOf comps) := by
  rw [blocksOf, List.map_map, List.forall₂_map_right_iff, ← List.forall₂_and_left]
  have hcs : ∀ cs ⊆ comps, ∀ queues : List (List (List Identifier)),
      (∃ orders ∈ choices (cs.map Layout.ofComponent),
          queuesFor (cs.map Layout.ofComponent) orders = queues) ↔
        List.Forall₂ (fun bs c => bs.Pairwise (fun x y => ¬ Leads q.constraints y x) ∧
          bs ~ (Layout.ofComponent c).blocks) queues cs := by
    intro cs hcs
    induction cs with
    | nil =>
      intro queues
      simp [choices, queuesFor, eq_comm]
    | cons c cs ih =>
      intro queues
      have hih := ih fun d hd => hcs (List.mem_cons_of_mem c hd)
      have hc := hcs (List.mem_cons_self (a := c) (l := cs))
      rw [List.forall₂_cons_right_iff]
      constructor
      · rintro ⟨orders, horders, hqueues⟩
        obtain ⟨o, os, ho, hos, rfl⟩ := List.forall₂_cons_left_iff.1 (mem_choices.1 horders)
        exact ⟨_, _, (exists_mem_orders_iff_leads h hc).1 ⟨o, ho, rfl⟩,
          (hih _).1 ⟨os, mem_choices.2 hos, rfl⟩, hqueues.symm⟩
      · rintro ⟨bs, rest, hbs, hrest, hqueues⟩
        obtain ⟨o, ho, rfl⟩ := (exists_mem_orders_iff_leads h hc).2 hbs
        obtain ⟨os, hos, rfl⟩ := (hih _).2 hrest
        exact ⟨o :: os, mem_choices.2 (.cons ho (mem_choices.1 hos)), hqueues.symm⟩
  exact hcs comps (List.Subset.refl comps) queues

private theorem pairwise_not_leads_iff (h : Decomposes q comps) {owner : List Identifier → Nat}
    (howns : Owns owner (blocksOf comps)) {bs : List (List Identifier)}
    (hbs : bs ~ (blocksOf comps).flatten) {queues : List (List (List Identifier))}
    (hqueues : ∀ n, queueOf queues n = bs.filter fun x => owner x = n) :
    bs.Pairwise (fun x y => ¬ Leads q.constraints y x) ↔
      ∀ x ∈ queues, x.Pairwise fun x y => ¬ Leads q.constraints y x := by
  rw [pairwise_iff_filter_owner owner]
  · constructor
    · intro hpair x hx
      obtain ⟨n, hn, rfl⟩ := List.getElem_of_mem hx
      have hqn := hqueues n
      rw [queueOf, List.getElem?_eq_getElem hn, Option.getD_some] at hqn
      exact hqn ▸ hpair n
    · intro hpair n
      rw [← hqueues n, queueOf]
      cases hx : queues[n]? with
      | none => exact .nil
      | some x => exact hpair x (List.mem_of_getElem? hx)
  · intro x hx y hy hne hlead
    exact hne (owner_eq_of_leads h howns (hbs.subset hy) (hbs.subset hx) hlead).symm

/-- The token orders of the candidates are the admitted ones. -/
theorem mem_tokens_candidates_iff (h : Decomposes q comps) {order : List Identifier} :
    order ∈ (candidates (comps.map Layout.ofComponent)).toList.map Candidate.tokens ↔
      q.Admits order := by
  have hpres := presents_blocksOf h
  have hflat := flatten_blocksOf_perm h
  have hnodup := nodup_of_nodup_flatten hpres.nodup hpres.nonempty
  obtain ⟨owner, howns⟩ := exists_owns hnodup
  simp only [tokens_candidates, List.mem_flatMap, List.mem_map, mem_interleavings]
  constructor
  · intro ⟨orders, horders, w, hw, horder⟩
    obtain ⟨hpair, hqueues⟩ := (exists_choice_iff h).1 ⟨orders, horders, rfl⟩
    obtain ⟨hperm, -, hfilter⟩ := weave_perm hnodup howns hqueues hw
    have horder' := hperm.flatten
    rw [horder] at horder'
    refine ⟨horder'.trans hflat, (hpres.allHold_iff horder').2 ⟨_, hperm, ?_, horder⟩⟩
    exact (pairwise_not_leads_iff h howns hperm fun n => (hfilter n).symm).2 hpair
  · intro ⟨hperm, hall⟩
    obtain ⟨bs, hbs, hpair, rfl⟩ := (hpres.allHold_iff (hperm.trans hflat.symm)).1 hall
    obtain ⟨queues, w, hqueues, hw, rfl, hfilter⟩ := exists_weave_eq hnodup howns hbs
    obtain ⟨orders, horders, rfl⟩ := (exists_choice_iff h).2
      ⟨(pairwise_not_leads_iff h howns hbs hfilter).1 hpair, hqueues⟩
    exact ⟨orders, horders, w, hw, rfl⟩

private theorem layouts_eq_ok_iff {ls : List Layout} :
    layouts comps = .ok ls ↔
      ls = comps.map Layout.ofComponent ∧ ∀ l ∈ ls, l.orders.toList ≠ [] := by
  rw [layouts, Sequence.mapM_eq_ok_iff]
  induction comps generalizing ls with
  | nil =>
    rw [List.forall₂_nil_left_iff]
    constructor
    · intro h
      subst h
      simp
    · intro h
      exact h.1
  | cons c comps ih =>
    rw [List.forall₂_cons_left_iff]
    constructor
    · intro ⟨l, rest, hl, hrest, hls⟩
      obtain ⟨rfl, hne⟩ := ih.1 hrest
      dsimp only at hl
      split at hl
      · cases hl
      · rename_i hempty
        obtain rfl := Except.ok.inj hl
        subst hls
        rw [Enumeration.isEmpty_iff] at hempty
        exact ⟨rfl, List.forall_mem_cons.2 ⟨hempty, hne⟩⟩
    · intro ⟨hls, hne⟩
      subst hls
      obtain ⟨hc, hrest⟩ := List.forall_mem_cons.1 hne
      refine ⟨_, _, ?_, ih.2 ⟨rfl, hrest⟩, rfl⟩
      rw [if_neg (by rwa [Enumeration.isEmpty_iff])]

theorem exists_of_layouts_eq_error {e : CompileError} (h : layouts comps = .error e) :
    ∃ c ∈ comps, (Layout.ofComponent c).orders.toList = [] ∧
      e = .inconsistentOrdering c.constraints := by
  obtain ⟨c, hc, herror⟩ := Sequence.exists_error_of_mapM_eq_error h
  refine ⟨c, hc, ?_⟩
  dsimp only at herror
  split at herror
  · rename_i hempty
    exact ⟨(Enumeration.isEmpty_iff _).1 hempty, (Except.error.inj herror).symm⟩
  · cases herror

end Components

end TreeQuery.Arrangement

namespace TreeQuery.Query

open Arrangement
open TreeQuery.Order (Component Decomposes)

variable {q : Query}

theorem decomposes_of_layouts_eq_ok {ls : List Layout} (h : q.layouts = .ok ls) :
    ∃ comps, Decomposes q comps ∧ ls = comps.map Layout.ofComponent ∧
      ∀ l ∈ ls, l.orders.toList ≠ [] := by
  rw [layouts] at h
  cases hcomps : Order.components q with
  | error e =>
    rw [hcomps] at h
    cases h
  | ok comps =>
    rw [hcomps] at h
    exact ⟨comps, Order.decomposes_of_components_eq_ok hcomps, layouts_eq_ok_iff.1 h⟩

theorem not_admits_of_layouts_eq_error {e : CompileError} (h : q.layouts = .error e) :
    (∃ cs, e = .inconsistentOrdering cs) ∧ ∀ order, ¬ q.Admits order := by
  rw [layouts] at h
  cases hcomps : Order.components q with
  | error e' =>
    rw [hcomps] at h
    obtain rfl := Except.error.inj h
    exact Order.components_eq_error hcomps
  | ok comps =>
    rw [hcomps] at h
    obtain ⟨c, hc, hempty, he⟩ := exists_of_layouts_eq_error h
    refine ⟨⟨_, he⟩, ?_⟩
    intro order horder
    rw [← mem_tokens_candidates_iff (Order.decomposes_of_components_eq_ok hcomps)] at horder
    obtain ⟨candidate, hcandidate, -⟩ := List.mem_map.1 horder
    have hne := candidates_ne_nil_iff.1 (List.ne_nil_of_mem hcandidate)
    exact hne _ (List.mem_map_of_mem hc) hempty

/-- Drawing candidates gives every admitted order of the tokens once, and then ends. -/
theorem candidates_draw_admitted_once (q : Query) (ls : List Layout) (h : q.layouts = .ok ls) :
    ((candidates ls).toList.map Candidate.tokens).Nodup ∧
      (∀ order, order ∈ (candidates ls).toList.map Candidate.tokens ↔ q.Admits order) ∧
      ∀ n, ((fun e => e.next.2)^[n] (candidates ls)).next.1 = (candidates ls).toList[n]? := by
  obtain ⟨comps, hcomps, rfl, -⟩ := decomposes_of_layouts_eq_ok h
  have hpres := presents_blocksOf hcomps
  exact ⟨nodup_tokens_candidates hpres.nodup hpres.nonempty,
    fun _ => mem_tokens_candidates_iff hcomps, fun n => Enumeration.draws_toList.iterate n _⟩

/-- A free token, two adjoined ones, and one that comes before the second of these. -/
def specimen : Query where
  tokens := [⟨⟨3⟩, none⟩]
  dependencies := []
  predicates := []
  constraints := [⟨⟨0⟩, ⟨1⟩, .immediate⟩, ⟨⟨2⟩, ⟨1⟩, .general⟩]

theorem specimen_draws_admitted_once :
    ∃ ls, specimen.layouts = .ok ls ∧
      (candidates ls).toList.length = 3 ∧
      ((candidates ls).toList.map Candidate.tokens).Nodup ∧
      (∀ order, order ∈ (candidates ls).toList.map Candidate.tokens ↔ specimen.Admits order) ∧
      ∀ n, ((fun e => e.next.2)^[n] (candidates ls)).next.1 = (candidates ls).toList[n]? := by
  have hthree :
      specimen.layouts.toOption.map (fun ls => (candidates ls).toList.length) = some 3 := by
    decide +kernel
  cases hls : specimen.layouts with
  | error e =>
    rw [hls] at hthree
    cases hthree
  | ok ls =>
    rw [hls] at hthree
    exact ⟨ls, rfl, Option.some.inj hthree, candidates_draw_admitted_once specimen ls hls⟩

theorem candidates_ne_nil_of_layouts_eq_ok {ls : List Layout} (h : q.layouts = .ok ls) :
    (candidates ls).toList ≠ [] := by
  obtain ⟨comps, -, -, hne⟩ := decomposes_of_layouts_eq_ok h
  exact candidates_ne_nil_iff.2 hne

theorem admits_of_mem_candidates {ls : List Layout} (h : q.layouts = .ok ls) {c : Candidate}
    (hc : c ∈ (candidates ls).toList) : q.Admits c.tokens := by
  obtain ⟨comps, hcomps, rfl, -⟩ := decomposes_of_layouts_eq_ok h
  exact (mem_tokens_candidates_iff hcomps).1 (List.mem_map_of_mem hc)

private theorem exists_admits_of_layouts_eq_ok {ls : List Layout} (h : q.layouts = .ok ls) :
    ∃ order, q.Admits order := by
  obtain ⟨c, hc⟩ := List.exists_mem_of_ne_nil _ (candidates_ne_nil_of_layouts_eq_ok h)
  exact ⟨c.tokens, admits_of_mem_candidates h hc⟩

/-- Layouts fail if and only if no order is admitted, and then because the constraints contradict
each other; otherwise there is a candidate. -/
theorem layouts_error_iff_no_admitted (q : Query) :
    ((∃ e, q.layouts = .error e) ↔ ¬ ∃ order, q.Admits order) ∧
      (∀ e, q.layouts = .error e → ∃ cs, e = .inconsistentOrdering cs) ∧
      ∀ ls, q.layouts = .ok ls → ∃ c, (candidates ls).next.1 = some c := by
  refine ⟨⟨?_, ?_⟩, fun e he => (not_admits_of_layouts_eq_error he).1, ?_⟩
  · intro ⟨e, he⟩ ⟨order, horder⟩
    exact (not_admits_of_layouts_eq_error he).2 order horder
  · intro hnone
    cases hls : q.layouts with
    | error e => exact ⟨e, rfl⟩
    | ok ls => exact absurd (exists_admits_of_layouts_eq_ok hls) hnone
  · intro ls hls
    exact Enumeration.exists_next_of_ne_nil (candidates_ne_nil_of_layouts_eq_ok hls)

/-- The third token would have to stand between two adjoined ones. -/
def crowded : Query where
  tokens := []
  dependencies := []
  predicates := []
  constraints := [⟨⟨0⟩, ⟨1⟩, .immediate⟩, ⟨⟨0⟩, ⟨2⟩, .general⟩, ⟨⟨2⟩, ⟨1⟩, .general⟩]

theorem crowded_has_no_admitted :
    ∃ cs, crowded.layouts = .error (.inconsistentOrdering cs) ∧
      ¬ ∃ order, crowded.Admits order := by
  have hnone : crowded.layouts.toOption.isNone = true := by decide +kernel
  obtain ⟨hiff, hcause, -⟩ := layouts_error_iff_no_admitted crowded
  cases hls : crowded.layouts with
  | error e =>
    obtain ⟨cs, rfl⟩ := hcause e hls
    exact ⟨cs, rfl, hiff.1 ⟨_, hls⟩⟩
  | ok ls =>
    rw [hls] at hnone
    cases hnone

end TreeQuery.Query
