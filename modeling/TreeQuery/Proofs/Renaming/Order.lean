import TreeQuery.Compiler
import TreeQuery.Proofs.Arrangement.Odometer
import TreeQuery.Proofs.Renaming.Basic

/-!
The orders of a renamed query. Components address their tokens by position, so a renaming changes
only the lists of tokens and constraints and leaves the relations between positions as they are.
The candidates of the renamed query are those of the query, renamed and in the same order.
-/

set_option autoImplicit false
set_option relaxedAutoImplicit false

namespace TreeQuery

variable (r : Identifier ↪ Identifier)

namespace Order

namespace Partition

def rename (p : Partition) : Partition := ⟨p.classes.map (Prod.map r r)⟩

private theorem discrete_rename (ids : List Identifier) :
    discrete (ids.map r) = (discrete ids).rename r := by
  simp only [discrete, rename, List.map_map]
  rfl

private theorem root_rename (p : Partition) (i : Identifier) :
    (p.rename r).root (r i) = r (p.root i) := by
  have hlookup := Sequence.lookup_map r.injective r p.classes i
  rw [root, rename, hlookup]
  cases hroot : p.classes.lookup i <;> simp [root, hroot]

private theorem union_rename (p : Partition) (i j : Identifier) :
    (p.rename r).union (r i) (r j) = (p.union i j).rename r := by
  have hclass (e : Identifier × Identifier) :
      (if r e.2 = r (p.root j) then r (p.root i) else r e.2) =
        r (if e.2 = p.root j then p.root i else e.2) := by
    by_cases he : e.2 = p.root j
    · simp [he]
    · simp [he]
  simp only [union, root_rename]
  simp only [rename, List.map_map, Partition.mk.injEq]
  apply List.map_congr_left
  intro e _
  exact Prod.ext rfl (hclass e)

private theorem groups_rename (p : Partition) :
    (p.rename r).groups = p.groups.map (List.map r) := by
  have hgroup (i : Identifier) :
      (((p.rename r).classes.filter fun e => e.2 = r i).map Prod.fst) =
        ((p.classes.filter fun e => e.2 = i).map Prod.fst).map r := by
    rw [rename, Sequence.filter_map_eq (q := fun e => e.2 = i) (by simp), List.map_map,
      List.map_map]
    rfl
  have hroots : (p.rename r).classes.map Prod.snd = (p.classes.map Prod.snd).map r := by
    simp only [rename, List.map_map]
    rfl
  rw [groups, groups, hroots, Sequence.eraseDups_map r.injective, List.map_map, List.map_map]
  exact List.map_congr_left fun i _ => hgroup i

end Partition

private theorem links_rename (q : Query) : links (q.rename r) = (links q).map (Prod.map r r) := by
  simp only [links, Query.rename, List.map_append, List.map_map]
  rfl

private theorem partition_rename (q : Query) : partition (q.rename r) = (partition q).rename r := by
  rw [partition, links_rename, q.identifiers_rename, Partition.discrete_rename, List.foldl_map]
  apply List.foldl_hom (Partition.rename r)
  intro p e
  exact p.union_rename r e.1 e.2

private theorem stepTable_rename (tokens : List Identifier) (cs : List OrderConstraint) :
    stepTable (tokens.map r) (cs.map (OrderConstraint.rename r)) = stepTable tokens cs := by
  have hstep (c : OrderConstraint) : ((tokens.map r).idxOf (c.rename r).before,
      (tokens.map r).idxOf (c.rename r).after) = (tokens.idxOf c.before, tokens.idxOf c.after) := by
    simp only [OrderConstraint.rename, Sequence.idxOf_map r.injective]
  simp only [stepTable, List.map_map, List.length_map, Function.comp_def, hstep]

private theorem cyclic_rename (tokens : List Identifier) (chains : Table)
    (cs : List OrderConstraint) :
    cyclic (tokens.map r) chains (cs.map (OrderConstraint.rename r)) =
      (cyclic tokens chains cs).map (OrderConstraint.rename r) := by
  apply Sequence.filter_map_eq
  intro c
  simp only [OrderConstraint.rename, Sequence.idxOf_map r.injective]

private theorem clash?_rename (seen cs : List OrderConstraint) :
    clash? (seen.map (OrderConstraint.rename r)) (cs.map (OrderConstraint.rename r)) =
      (clash? seen cs).map (Prod.map (OrderConstraint.rename r) (OrderConstraint.rename r)) := by
  have hafter (c d : OrderConstraint) :
      divergeAfter (c.rename r) (d.rename r) = divergeAfter c d := by
    simp [divergeAfter, OrderConstraint.rename]
  have hbefore (c d : OrderConstraint) :
      divergeBefore (c.rename r) (d.rename r) = divergeBefore c d := by
    simp [divergeBefore, OrderConstraint.rename]
  induction cs generalizing seen with
  | nil => rfl
  | cons c cs ih =>
    have hearlier : ((seen.map (OrderConstraint.rename r)).find? (divergeAfter · (c.rename r))).or
        ((seen.map (OrderConstraint.rename r)).find? (divergeBefore · (c.rename r))) =
          ((seen.find? (divergeAfter · c)).or (seen.find? (divergeBefore · c))).map
            (OrderConstraint.rename r) := by
      simp only [List.find?_map, Function.comp_def, hafter, hbefore, Option.map_or]
    rw [List.map_cons, clash?, clash?, hearlier]
    cases (seen.find? (divergeAfter · c)).or (seen.find? (divergeBefore · c)) with
    | some d => rfl
    | none =>
      have hseen := ih (seen ++ [c])
      rwa [List.map_append] at hseen

namespace Component

def rename (c : Component) : Component :=
  { c with
    tokens := c.tokens.map r
    constraints := c.constraints.map (OrderConstraint.rename r) }

private theorem build_renamed (tokens : List Identifier) (cs : List OrderConstraint) :
    Outcome.Renamed r (rename r) (build tokens cs)
      (build (tokens.map r) (cs.map (OrderConstraint.rename r))) := by
  have himmediate : (cs.map (OrderConstraint.rename r)).filter OrderConstraint.isImmediate =
      (cs.filter OrderConstraint.isImmediate).map (OrderConstraint.rename r) :=
    Sequence.filter_map_eq (fun _ => rfl) cs
  have hclash := clash?_rename r [] (cs.filter OrderConstraint.isImmediate)
  rw [List.map_nil] at hclash
  simp only [build, stepTable_rename, cyclic_rename, himmediate, hclash]
  cases cyclic tokens (stepTable tokens cs).closure cs with
  | cons c rest => exact .error (.inconsistentOrdering (c :: rest))
  | nil =>
    cases clash? [] (cs.filter OrderConstraint.isImmediate) with
    | some e => exact .error (.inconsistentOrdering [e.1, e.2])
    | none =>
      have hsuccessor (i : Identifier) : (((cs.filter OrderConstraint.isImmediate).map
          (OrderConstraint.rename r)).find? fun c => c.before = r i).map
            (fun c => (tokens.map r).idxOf c.after) =
          ((cs.filter OrderConstraint.isImmediate).find? fun c => c.before = i).map
            fun c => tokens.idxOf c.after := by
        simp only [List.find?_map, Option.map_map, Function.comp_def, OrderConstraint.rename,
          EmbeddingLike.apply_eq_iff_eq, Sequence.idxOf_map r.injective]
      simp only [Option.map_none, List.map_nil, List.map_map, Function.comp_def, hsuccessor]
      exact .ok _

end Component

private theorem components_renamed (q : Query) :
    Outcome.Renamed r (List.map (Component.rename r)) (components q) (components (q.rename r)) := by
  unfold components
  rw [partition_rename, Partition.groups_rename]
  apply Outcome.Renamed.mapM
  intro tokens _
  have hconstraints : ((q.rename r).constraints.filter fun c => c.before ∈ tokens.map r) =
      (q.constraints.filter fun c => c.before ∈ tokens).map (OrderConstraint.rename r) := by
    apply Sequence.filter_map_eq
    intro c
    simp [OrderConstraint.rename]
  rw [hconstraints]
  exact Component.build_renamed r tokens _

end Order

namespace Arrangement

open TreeQuery.Order (Component)

private theorem chain_rename (c : Component) (n a : Nat) :
    chain (c.rename r) n a = chain c n a := by
  induction n generalizing a with
  | zero => rfl
  | succ n ih =>
    have hsuccessor : (c.rename r).successor? a = c.successor? a := rfl
    rw [chain, chain, hsuccessor]
    cases c.successor? a with
    | none => rfl
    | some b => exact congrArg (a :: ·) (ih b)

private theorem chains_rename (c : Component) : chains (c.rename r) = chains c := by
  have hsize : (c.rename r).size = c.size := List.length_map r
  have hpredecessor (a : Nat) : (c.rename r).hasPredecessor a = c.hasPredecessor a := rfl
  simp only [chains, hsize, hpredecessor]
  exact List.map_congr_left fun a _ => chain_rename r c c.size a

namespace Layout

def rename (l : Layout) : Layout := { l with blocks := l.blocks.map (List.map r) }

private theorem ofComponent_rename (c : Component) :
    ofComponent (c.rename r) = (ofComponent c).rename r := by
  simp only [ofComponent, rename, chains_rename, Layout.mk.injEq]
  constructor
  · rw [List.map_map]
    apply List.map_congr_left
    intro ch _
    rw [Function.comp_apply, List.map_filterMap]
    apply List.filterMap_congr
    intro a _
    exact List.getElem?_map
  · rfl

private theorem orders_rename (l : Layout) : (l.rename r).orders = l.orders := by
  simp only [orders, search, rename, List.length_map]

end Layout

private theorem layouts_renamed (comps : List Component) :
    Outcome.Renamed r (List.map (Layout.rename r)) (layouts comps)
      (layouts (comps.map (Component.rename r))) := by
  apply Outcome.Renamed.mapM
  intro c _
  simp only [Layout.ofComponent_rename, Layout.orders_rename]
  split
  · exact .error (.inconsistentOrdering c.constraints)
  · exact .ok (Layout.ofComponent c)

end Arrangement

theorem Query.layouts_renamed (q : Query) :
    Outcome.Renamed r (List.map (Arrangement.Layout.rename r)) q.layouts (q.rename r).layouts := by
  apply (Order.components_renamed r q).bind
  intro comps _
  exact Arrangement.layouts_renamed r comps

def Candidate.rename (c : Candidate) : Candidate := { c with tokens := c.tokens.map r }

private theorem Candidate.ofBlocks_rename (blocks : List (List Identifier)) :
    ofBlocks (blocks.map (List.map r)) = (ofBlocks blocks).rename r := by
  simp only [ofBlocks, rename, Candidate.mk.injEq]
  constructor
  · exact List.map_flatten.symm
  · have hgaps (b : List Identifier) : ((b.map r).zipIdx.map fun e =>
        if e.2 = 0 then Gap.unbounded else Gap.adjacent) =
          b.zipIdx.map fun e => if e.2 = 0 then Gap.unbounded else Gap.adjacent := by
      rw [List.zipIdx_map, List.map_map]
      rfl
    simp only [List.flatMap_map, hgaps]

namespace Arrangement

private theorem weave_rename (interleaving : List Nat) (queues : List (List (List Identifier))) :
    weave interleaving (queues.map (List.map (List.map r))) =
      (weave interleaving queues).map (List.map r) := by
  induction interleaving generalizing queues with
  | nil => rfl
  | cons c rest ih =>
    rw [weave, weave, List.getElem?_map]
    cases queues[c]? with
    | none => exact ih queues
    | some queue =>
      cases queue with
      | nil => exact ih queues
      | cons block later =>
        show block.map r :: weave rest ((queues.map _).set c (later.map (List.map r))) = _
        rw [← List.map_set, ih, List.map_cons]

private theorem assemble_rename (ls : List Layout) (orders : List (List Nat))
    (interleaving : List Nat) :
    assemble (ls.map (Layout.rename r)) orders interleaving =
      (assemble ls orders interleaving).rename r := by
  have hqueue (l : Layout) (order : List Nat) : (order.map fun b => (l.rename r).blocks.getD b []) =
      (order.map fun b => l.blocks.getD b []).map (List.map r) := by
    rw [List.map_map]
    apply List.map_congr_left
    intro b _
    simp only [Layout.rename, Function.comp_apply, List.getD_eq_getElem?_getD, List.getElem?_map]
    cases l.blocks[b]? <;> rfl
  rw [assemble, assemble, ← Candidate.ofBlocks_rename, ← weave_rename, List.zipWith_map_left,
    List.map_zipWith]
  simp only [hqueue]

private theorem choices_rename (ls : List Layout) :
    choices (ls.map (Layout.rename r)) = choices ls := by
  induction ls with
  | nil => rfl
  | cons l ls ih => rw [List.map_cons, choices, choices, Layout.orders_rename, ih]

theorem toList_candidates_rename (ls : List Layout) :
    (candidates (ls.map (Layout.rename r))).toList =
      (candidates ls).toList.map (Candidate.rename r) := by
  have hsizes : (ls.map (Layout.rename r)).map (fun l => l.blocks.length) =
      ls.map fun l => l.blocks.length := by
    simp only [List.map_map, Function.comp_def, Layout.rename, List.length_map]
  simp only [toList_candidates, selections, withInterleavings, choices_rename, hsizes,
    List.map_flatMap, List.map_map]
  congr 1
  funext orders
  exact List.map_congr_left fun interleaving _ => assemble_rename r ls orders interleaving

end Arrangement

end TreeQuery
