import TreeQuery.Proofs.Arrangement.Candidate
import TreeQuery.Proofs.Query.Draft

/-!
The gaps of a candidate. Two neighbouring tokens are adjacent if and only if they are neighbours in
a block, that is, if and only if the query asks the second to follow the first directly.
-/

set_option autoImplicit false
set_option relaxedAutoImplicit false

namespace TreeQuery.Arrangement

open scoped List
open OrderConstraint (Adjoins)

/-- The marks of the tokens of blocks: the gap before the first token of a block is unbounded, and
the others are adjacent to the token before. -/
def marks (blocks : List (List Identifier)) : List Gap :=
  blocks.flatMap fun b => b.zipIdx.map fun e => if e.2 = 0 then Gap.unbounded else Gap.adjacent

private theorem gaps_ofBlocks (blocks : List (List Identifier)) :
    (Candidate.ofBlocks blocks).gaps = (marks blocks).tail := rfl

private theorem marks_cons (a : Identifier) (t : List Identifier)
    (blocks : List (List Identifier)) :
    marks ((a :: t) :: blocks) =
      .unbounded :: (List.replicate t.length .adjacent ++ marks blocks) := by
  have hrest : (t.zipIdx 1).map (fun e => if e.2 = 0 then Gap.unbounded else Gap.adjacent) =
      List.replicate t.length .adjacent := by
    rw [List.eq_replicate_iff]
    refine ⟨by simp, ?_⟩
    intro g hg
    obtain ⟨e, he, rfl⟩ := List.mem_map.1 hg
    have hpos := List.le_snd_of_mem_zipIdx he
    rw [if_neg (by omega)]
  rw [marks, List.flatMap_cons, List.zipIdx_cons, List.map_cons, if_pos rfl, hrest]
  rfl

def Neighbours (blocks : List (List Identifier)) (a b : Identifier) : Prop :=
  ∃ x ∈ blocks, [a, b] <:+: x

private theorem not_neighbours_head {blocks : List (List Identifier)}
    (hnodup : blocks.flatten.Nodup)
    {a : Identifier} {t : List Identifier} (hx : a :: t ∈ blocks) (p : Identifier) :
    ¬ Neighbours blocks p a := by
  intro ⟨y, hy, hin⟩
  have hay : a ∈ y := hin.subset (by simp)
  obtain rfl := eq_of_mem_blocks hnodup hy hx hay List.mem_cons_self
  have ha := (List.nodup_cons.1 ((List.nodup_flatten.1 hnodup).1 _ hy)).1
  rw [List.infix_cons_iff, List.cons_prefix_cons] at hin
  rcases hin with ⟨-, hpre⟩ | hin
  · exact ha (hpre.subset (by simp))
  · exact ha (hin.subset (by simp))

/-- The marks of the tokens after `p`, where `t` is the rest of the block of `p`. -/
private theorem forall₂_marks {all : List (List Identifier)} (hnodup : all.flatten.Nodup)
    (hne : ∀ x ∈ all, x ≠ []) {bs : List (List Identifier)} (hbs : bs ⊆ all) {p : Identifier}
    {s t : List Identifier} (hx : s ++ p :: t ∈ all) :
    List.Forall₂ (fun g e => g = Gap.adjacent ↔ Neighbours all e.1 e.2)
      (List.replicate t.length .adjacent ++ marks bs)
      ((p :: (t ++ bs.flatten)).zip (t ++ bs.flatten)) := by
  induction bs generalizing p s t with
  | nil =>
    induction t generalizing p s with
    | nil => exact .nil
    | cons a t ih =>
      refine .cons ?_ (ih (s := s ++ [p]) (by simpa using hx))
      exact iff_of_true rfl ⟨_, hx, s, t, by simp⟩
  | cons y bs ihbs =>
    induction t generalizing p s with
    | nil =>
      have hy : y ∈ all := hbs List.mem_cons_self
      obtain ⟨a, u, rfl⟩ := List.exists_cons_of_ne_nil (hne y hy)
      rw [marks_cons]
      refine .cons ?_ (ihbs (fun z hz => hbs (List.mem_cons_of_mem _ hz)) (s := []) hy)
      exact iff_of_false (by simp) (not_neighbours_head hnodup hy p)
    | cons a t ih =>
      refine .cons ?_ (ih (s := s ++ [p]) (by simpa using hx))
      exact iff_of_true rfl ⟨_, hx, s, t, by simp⟩

private theorem forall₂_gaps_ofBlocks {blocks : List (List Identifier)}
    (hnodup : blocks.flatten.Nodup)
    (hne : ∀ x ∈ blocks, x ≠ []) :
    List.Forall₂ (fun g e => g = Gap.adjacent ↔ Neighbours blocks e.1 e.2)
      (Candidate.ofBlocks blocks).gaps (blocks.flatten.zip blocks.flatten.tail) := by
  rw [gaps_ofBlocks]
  cases blocks with
  | nil => exact .nil
  | cons y bs =>
    obtain ⟨a, t, rfl⟩ := List.exists_cons_of_ne_nil (hne y List.mem_cons_self)
    rw [marks_cons]
    exact forall₂_marks hnodup hne (List.subset_cons_self _ _) (s := []) List.mem_cons_self

section Woven

variable {ls : List Layout} {c : Candidate}

private theorem exists_ofBlocks_of_mem_candidates
    (hnodup : (ls.map Layout.blocks).flatten.flatten.Nodup)
    (hne : ∀ x ∈ (ls.map Layout.blocks).flatten, x ≠ []) (hc : c ∈ (candidates ls).toList) :
    ∃ bs, bs ~ (ls.map Layout.blocks).flatten ∧ c = Candidate.ofBlocks bs := by
  have hblocks := nodup_of_nodup_flatten hnodup hne
  obtain ⟨owner, howns⟩ := exists_owns hblocks
  rw [toList_candidates] at hc
  simp only [selections, withInterleavings, List.map_flatMap, List.map_map, List.mem_flatMap,
    List.mem_map, mem_interleavings] at hc
  obtain ⟨orders, horders, w, hw, rfl⟩ := hc
  rw [← Function.comp_def, ← List.map_map] at hw
  exact ⟨_, (weave_perm hblocks howns (queuesFor_perm horders) hw).1, rfl⟩

end Woven

end TreeQuery.Arrangement

namespace TreeQuery.Query

open Arrangement
open OrderConstraint (Adjoins)

theorem forall₂_gaps {q : Query} {ls : List Layout} (h : q.layouts = .ok ls) {c : Candidate}
    (hc : c ∈ (candidates ls).toList) :
    List.Forall₂ (fun g e => g = Gap.adjacent ↔ Adjoins q.constraints e.1 e.2)
      c.gaps (c.tokens.zip c.tokens.tail) := by
  obtain ⟨comps, hcomps, rfl, -⟩ := decomposes_of_layouts_eq_ok h
  have hpres := presents_blocksOf hcomps
  obtain ⟨bs, hbs, rfl⟩ := exists_ofBlocks_of_mem_candidates hpres.nodup hpres.nonempty hc
  have hgaps := forall₂_gaps_ofBlocks (hbs.flatten.nodup_iff.2 hpres.nodup)
    fun x hx => hpres.nonempty x (hbs.subset hx)
  refine hgaps.imp ?_
  intro g e hg
  rw [hg, hpres.adjoins_iff, Neighbours]
  exact exists_congr fun x => and_congr_left fun _ => hbs.mem_iff

/-- A candidate has one gap between every two neighbours, and the gap is adjacent if the query asks
the second to follow the first directly, and unbounded otherwise. -/
theorem gap_eq_adjacent_or_unbounded (d : Draft) (q : Query) (hq : d.build = .ok q)
    (ls : List Layout) (h : q.layouts = .ok ls) (c : Candidate) (hc : c ∈ (candidates ls).toList) :
    c.gaps.length + 1 = c.tokens.length ∧
      ∀ i a b, c.tokens[i]? = some a → c.tokens[i + 1]? = some b →
        c.gaps[i]? =
          some (if ⟨a, b, .immediate⟩ ∈ q.constraints then .adjacent else .unbounded) := by
  have hgaps := forall₂_gaps h hc
  have htokens : c.tokens ≠ [] := by
    obtain ⟨-, hne, rfl⟩ := Draft.build_eq_ok_iff.1 hq
    intro hnil
    have hperm := (admits_of_mem_candidates h hc).1
    rw [hnil] at hperm
    exact hne hperm.nil_eq.symm
  constructor
  · have hlength := hgaps.length_eq
    have hpos := List.length_pos_iff.2 htokens
    rw [List.length_zip, List.length_tail] at hlength
    omega
  · intro i a b ha hb
    have hpair : (c.tokens.zip c.tokens.tail)[i]? = some (a, b) := by
      rw [List.getElem?_zip_eq_some, List.getElem?_tail]
      exact ⟨ha, hb⟩
    obtain ⟨hi, hget⟩ := List.getElem?_eq_some_iff.1 hpair
    have hi' : i < c.gaps.length := hgaps.length_eq ▸ hi
    have hgap : c.gaps[i] = .adjacent ↔ Adjoins q.constraints a b := by
      have := hgaps.get hi' hi
      rwa [List.get_eq_getElem, List.get_eq_getElem, hget] at this
    rw [List.getElem?_eq_getElem hi']
    split
    · rename_i hadj
      rw [hgap.2 hadj]
    · rename_i hadj
      cases hg : c.gaps[i] with
      | unbounded => rfl
      | adjacent => exact absurd (hgap.1 hg) hadj

/-- Two pairs of adjoined tokens, the first of which also comes before a fifth token. -/
def paired : Query where
  tokens := []
  dependencies := []
  predicates := []
  constraints := [⟨⟨0⟩, ⟨1⟩, .immediate⟩, ⟨⟨1⟩, ⟨4⟩, .general⟩, ⟨⟨2⟩, ⟨3⟩, .immediate⟩]

theorem paired_gap_eq :
    ∃ ls, (⟨5, paired⟩ : Draft).build = .ok paired ∧ paired.layouts = .ok ls ∧
      ∃ c ∈ (candidates ls).toList,
        c.tokens = [⟨0⟩, ⟨1⟩, ⟨2⟩, ⟨3⟩, ⟨4⟩] ∧
        c.gaps = [.adjacent, .unbounded, .adjacent, .unbounded] ∧
        c.gaps.length + 1 = c.tokens.length ∧
        ∀ i a b, c.tokens[i]? = some a → c.tokens[i + 1]? = some b →
          c.gaps[i]? =
            some (if ⟨a, b, .immediate⟩ ∈ paired.constraints then .adjacent else .unbounded) := by
  have hbuild : (⟨5, paired⟩ : Draft).build = .ok paired := by decide +kernel
  have hsecond : paired.layouts.toOption.bind (fun ls => (candidates ls).toList[1]?) =
      some ⟨[⟨0⟩, ⟨1⟩, ⟨2⟩, ⟨3⟩, ⟨4⟩], [.adjacent, .unbounded, .adjacent, .unbounded]⟩ := by
    decide +kernel
  cases hls : paired.layouts with
  | error e =>
    rw [hls] at hsecond
    cases hsecond
  | ok ls =>
    rw [hls] at hsecond
    have hc := List.mem_of_getElem? hsecond
    exact ⟨ls, hbuild, rfl, _, hc, rfl, rfl,
      gap_eq_adjacent_or_unbounded ⟨5, paired⟩ paired hbuild ls hls _ hc⟩

end TreeQuery.Query
