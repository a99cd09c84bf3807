import Mathlib.Logic.Equiv.Basic
import TreeQuery.Proofs.Compiler
import TreeQuery.Proofs.Pattern.Labelling
import TreeQuery.Proofs.Renaming.Order
import TreeQuery.Proofs.Renaming.Placement

/-!
The pattern of a renamed query. A condition about several tokens goes to the last of them, which
does not depend on the order in which its owners are listed, since no two tokens have the same
place. All references are written with labels, and labels follow the order of the tokens. So no
name of a token decides anything in the pattern or is written in it.
-/

set_option autoImplicit false
set_option relaxedAutoImplicit false

namespace TreeQuery

open scoped List

namespace Pattern

section Attachment

variable (r : Identifier ↪ Identifier) {tokens : List Identifier}

private theorem lookup_positions_rename (tokens : List Identifier) (i : Identifier) :
    (positions (tokens.map r)).lookup (r i) = (positions tokens).lookup i := by
  have hlookup := Sequence.lookup_map r.injective id (positions tokens) i
  rw [Option.map_id] at hlookup
  rw [← id_eq ((positions tokens).lookup i), ← hlookup, positions, positions, List.zipIdx_map,
    List.map_reverse]

private theorem latest?_rename (htokens : tokens.Nodup) {l l' : List Identifier} (hne : l ≠ [])
    (hmem : ∀ i ∈ l, i ∈ tokens) (hl : l' ~ l.map r) :
    latest? (positions (tokens.map r)) l' = (latest? (positions tokens) l).map r := by
  obtain ⟨k, hk, hlatest, hle⟩ := latest?_spec htokens hne hmem
  have hne' : l' ≠ [] := by
    rintro rfl
    simp [hne] at hl
  have hmem' : ∀ i ∈ l', i ∈ tokens.map r := by
    intro i hi
    obtain ⟨j, hj, rfl⟩ := List.mem_map.1 (hl.subset hi)
    exact List.mem_map_of_mem (hmem j hj)
  obtain ⟨_, hk', hlatest', hle'⟩ := latest?_spec (htokens.map r.injective) hne' hmem'
  obtain ⟨j, hj, rfl⟩ := List.mem_map.1 (hl.subset hk')
  -- Both are last, and no other token stands at the same place.
  have hjk := hle j hj
  have hkj := hle' (r k) (hl.symm.subset (List.mem_map_of_mem hk))
  rw [Sequence.idxOf_map r.injective, Sequence.idxOf_map r.injective] at hkj
  have heq : j = k := (List.idxOf_inj (hmem j hj)).1 (Nat.le_antisymm hjk hkj)
  rw [hlatest', hlatest, heq, Option.map_some]

/-- The attachments of a query and of the renamed query. The tokens that they refer to may be
listed in another order. -/
structure Attachment.Renamed (a a' : Attachment) : Prop where
  carrier : a'.carrier = r a.carrier
  conjuncts : a'.conjuncts = a.conjuncts.map (Predicate.rename r)
  references : a'.references ~ a.references.map r

namespace Attachment

private theorem ofPredicate_renamed (htokens : tokens.Nodup) {p : Predicate} (hne : p.owners ≠ [])
    (hmem : ∀ i ∈ p.owners, i ∈ tokens) :
    Option.Rel (Renamed r) (ofPredicate (positions tokens) p)
      (ofPredicate (positions (tokens.map r)) (p.rename r)) := by
  have howners := p.owners_rename r
  obtain ⟨k, -, hk, -⟩ := latest?_spec htokens hne hmem
  have hk' := latest?_rename r htokens hne hmem howners
  rw [hk, Option.map_some] at hk'
  rw [ofPredicate, ofPredicate, hk, hk']
  refine .some ⟨rfl, ?_, ?_⟩
  · show ((p.rename r).lower (r k)).conjuncts = (p.lower k).conjuncts.map (Predicate.rename r)
    rw [Predicate.lower_rename]
    exact Predicate.operands_mapAttributes _ .conj (p.lower k)
  · have hfilter : ((p.owners.map r).filter fun j => j ≠ r k) =
        (p.owners.filter fun j => j ≠ k).map r :=
      Sequence.filter_map_eq (by simp) p.owners
    exact hfilter ▸ howners.filter _

private theorem ofDependency_renamed (d : Dependency) :
    Option.Rel (Renamed r) (ofDependency (positions tokens) d)
      (ofDependency (positions (tokens.map r)) (d.rename r)) := by
  unfold ofDependency Dependency.rename
  simp only [lookup_positions_rename]
  split
  · exact .some ⟨rfl, rfl, .rfl⟩
  · split
    · exact .some ⟨rfl, rfl, .rfl⟩
    · exact .none

variable {r} {l l' : List Attachment}

private theorem conjuncts_of_renamed (h : List.Forall₂ (Renamed r) l l') (i : Identifier) :
    (l'.filter fun a => a.carrier = r i).flatMap conjuncts =
      ((l.filter fun a => a.carrier = i).flatMap conjuncts).map (Predicate.rename r) := by
  induction h with
  | nil => rfl
  | @cons a a' l l' ha _ ih =>
    by_cases hi : a.carrier = i
    · simp [ha.carrier, ha.conjuncts, hi, ih]
    · simp [ha.carrier, hi, ih]

private theorem references_of_renamed (h : List.Forall₂ (Renamed r) l l') :
    l'.flatMap references ~ (l.flatMap references).map r := by
  induction h with
  | nil => exact .rfl
  | cons ha _ ih =>
    rw [List.flatMap_cons, List.flatMap_cons, List.map_append]
    exact ha.references.append ih

end Attachment

end Attachment

section Candidate

variable (r : Identifier ↪ Identifier) {q : Query} {pl : Placement} {tokens : List Identifier}

private theorem attachments_renamed (hpl : Placement.ofQuery q = .ok pl)
    (htokens : tokens ~ q.identifiers) :
    List.Forall₂ (Attachment.Renamed r) (attachments q pl tokens)
      (attachments (q.rename r) (pl.rename r) (tokens.map r)) := by
  have hnodup : tokens.Nodup := htokens.nodup_iff.2 q.nodup_identifiers
  simp only [attachments, Placement.rename, Query.rename, List.filterMap_map]
  apply List.rel_append
  · apply Sequence.forall₂_filterMap
    intro p hp
    obtain ⟨-, hne, hmem⟩ := owners_of_mem_deferred_of_perm hpl htokens hp
    exact Attachment.ofPredicate_renamed r hnodup hne hmem
  · apply Sequence.forall₂_filterMap
    intro d _
    exact Attachment.ofDependency_renamed r d

def Slot.rename (s : Slot) : Slot := ⟨r s.identifier, s.conjuncts.map (Predicate.rename r)⟩

private theorem slotOf_rename (hpl : Placement.ofQuery q = .ok pl)
    (htokens : tokens ~ q.identifiers)
    (i : Identifier) :
    slotOf (q.rename r) (pl.rename r) (tokens.map r) (r i) = (slotOf q pl tokens i).rename r := by
  have hmerged (j : Identifier) :
      (((pl.rename r).predicate? (r j)).map Predicate.conjuncts).getD [] =
        (((pl.predicate? j).map Predicate.conjuncts).getD []).map (Predicate.rename r) := by
    rw [Placement.predicate?_rename]
    cases pl.predicate? j with
    | none => rfl
    | some p => exact Predicate.operands_mapAttributes _ .conj p
  have hattached := Attachment.conjuncts_of_renamed (attachments_renamed r hpl htokens) i
  simp only [slotOf, Slot.rename, hattached, List.map_append, Slot.mk.injEq, true_and]
  congr 1
  rw [Sequence.filter_map_eq (q := fun j => j = i) (by simp), List.flatMap_map, List.map_flatMap]
  simp only [hmerged]

private theorem labelsFor_rename (hpl : Placement.ofQuery q = .ok pl)
    (htokens : tokens ~ q.identifiers) :
    labelsFor (q.rename r) (pl.rename r) (tokens.map r) =
      (labelsFor q pl tokens).map (Prod.map r id) := by
  have hreferences := Attachment.references_of_renamed (attachments_renamed r hpl htokens)
  have hnamed : ((tokens.map r).filter fun i => i ∈
      (attachments (q.rename r) (pl.rename r) (tokens.map r)).flatMap Attachment.references) =
        (tokens.filter fun i =>
          i ∈ (attachments q pl tokens).flatMap Attachment.references).map r := by
    apply Sequence.filter_map_eq
    intro i
    rw [decide_eq_decide, hreferences.mem_iff, List.mem_map_of_injective r.injective]
  rw [labelsFor, labelsFor, labelsOf, labelsOf, hnamed, List.zipIdx_map, List.map_reverse,
    List.map_map, List.map_map]
  rfl

variable {labels : Labels}

private theorem Slot.text_rename {s : Slot}
    (h : ∀ p ∈ s.conjuncts, ∀ i ∈ p.owners, (labels.lookup i).isSome = true) :
    (s.rename r).text (labels.map (Prod.map r id)) = s.text labels := by
  have hlookup (i : Identifier) :
      (labels.map (Prod.map r id)).lookup (r i) = labels.lookup i := by
    rw [Sequence.lookup_map r.injective, Option.map_id, id_eq]
  have hattribute : ∀ p ∈ s.conjuncts, ∀ a ∈ p.attributes,
      attributeText (labels.map (Prod.map r id)) (a.rename r) = attributeText labels a := by
    intro p hp a ha
    cases ho : a.owner with
    | none => simp [attributeText, Attribute.rename, ho]
    | some i =>
      have hi := h p hp i (Predicate.mem_owners.2 ⟨a, ha, ho⟩)
      obtain ⟨l, hl⟩ := Option.isSome_iff_exists.1 hi
      simp [attributeText, Attribute.rename, ho, reference, hlookup, hl]
  have hconditions (place : Binding) :
      (s.conjuncts.map (Predicate.rename r)).map
          (predicateText (labels.map (Prod.map r id)) place) =
        s.conjuncts.map (predicateText labels place) := by
    rw [List.map_map]
    apply List.map_congr_left
    intro p hp
    exact predicateText_mapAttributes place (hattribute p hp)
  simp only [text, rename, hlookup, hconditions, List.length_map]

private theorem tailText_rename {slots : List Slot} (gaps : List Gap)
    (h : ∀ s ∈ slots, ∀ p ∈ s.conjuncts, ∀ i ∈ p.owners, (labels.lookup i).isSome = true) :
    tailText (labels.map (Prod.map r id)) gaps (slots.map (Slot.rename r)) =
      tailText labels gaps slots := by
  induction slots generalizing gaps with
  | nil => rfl
  | cons s slots ih =>
    obtain ⟨hs, hslots⟩ := List.forall_mem_cons.1 h
    rw [List.map_cons, tailText, tailText, Slot.text_rename r hs, ih _ hslots]

private theorem candidateText_rename {c : Candidate} (hpl : Placement.ofQuery q = .ok pl)
    (htokens : c.tokens ~ q.identifiers) :
    candidateText (q.rename r) (pl.rename r) (c.rename r) = candidateText q pl c := by
  have hnodup : c.tokens.Nodup := htokens.nodup_iff.2 q.nodup_identifiers
  have hfits := fun a => fits_of_mem_attachments (a := a) hpl htokens
  have hlabelled : ∀ s ∈ c.tokens.map (slotOf q pl c.tokens), ∀ p ∈ s.conjuncts, ∀ i ∈ p.owners,
      ((labelsFor q pl c.tokens).lookup i).isSome = true := by
    intro s hs p hp i hi
    obtain ⟨k, hk, rfl⟩ := List.mem_map.1 hs
    obtain ⟨earlier, later, hsplit⟩ := List.append_of_mem hk
    exact (refersBack_slotOf hpl hnodup hfits earlier k later hsplit p hp i hi).2
  have hslots : (c.tokens.map r).map (slotOf (q.rename r) (pl.rename r) (c.tokens.map r)) =
      (c.tokens.map (slotOf q pl c.tokens)).map (Slot.rename r) := by
    rw [List.map_map, List.map_map]
    exact List.map_congr_left fun i _ => slotOf_rename r hpl htokens i
  simp only [candidateText, ofCandidate_eq, Candidate.rename, Alternative.text, hslots,
    labelsFor_rename r hpl htokens]
  cases hs : c.tokens.map (slotOf q pl c.tokens) with
  | nil => rfl
  | cons s slots =>
    rw [hs] at hlabelled
    obtain ⟨hfirst, hlater⟩ := List.forall_mem_cons.1 hlabelled
    simp only [List.map_cons, Slot.text_rename r hfirst, tailText_rename r c.gaps hlater]

end Candidate

end Pattern

namespace Query

section Compile

variable (r : Identifier ↪ Identifier)

private theorem alternatives_rename {q : Query} {pl : Placement} {ls : List Arrangement.Layout}
    (hpl : Placement.ofQuery q = .ok pl) (hls : q.layouts = .ok ls) :
    (q.rename r).alternatives (pl.rename r) (ls.map (Arrangement.Layout.rename r)) =
      q.alternatives pl ls := by
  rw [alternatives, alternatives, Arrangement.toList_candidates_rename, List.map_map]
  congr 1
  apply List.map_congr_left
  intro c hc
  obtain ⟨htokens, -⟩ := admits_of_mem_candidates hls hc
  exact Pattern.candidateText_rename r hpl htokens

private theorem compile_renamed (o : Options) (q : Query) :
    Outcome.Renamed r id (q.compile o) ((q.rename r).compile o) := by
  rw [compile_eq, compile_eq]
  apply (Placement.ofQuery_renamed r q).bind
  intro pl hpl
  apply (q.layouts_renamed r).bind
  intro ls hls
  rw [alternatives_rename r hpl hls, Pattern.Alternation.bounded]
  split
  · exact .error (.candidateLimitExceeded _)
  · exact .ok _

/-- Compiling does not depend on what the tokens of a query are called. If they are renamed
throughout, the pattern is the same text, or the query is refused for the same kind of cause: for
the renamed constraints, or for the same limit. -/
theorem compile_rename (q : Query) (o : Options) (r : Identifier ↪ Identifier) :
    (∀ text, (q.rename r).compile o = .ok text ↔ q.compile o = .ok text) ∧
      ∀ e, q.compile o = .error e → ∃ e', (q.rename r).compile o = .error e' ∧ e.Renamed r e' := by
  have houtcome := compile_renamed r o q
  generalize q.compile o = x at houtcome
  generalize (q.rename r).compile o = x' at houtcome
  cases houtcome with
  | ok text =>
    refine ⟨fun _ => Iff.rfl, ?_⟩
    intro e he
    cases he
  | @error e e' h =>
    constructor
    · intro text
      constructor
      · intro htext
        cases htext
      · intro htext
        cases htext
    · intro e he
      cases he
      exact ⟨e', rfl, h⟩

/-- Two tokens, the second mentioned of which comes first and is compared with the other. -/
def reversed : Query where
  tokens := []
  dependencies := [⟨⟨0⟩, ⟨1⟩⟩]
  predicates := [.comparison .differ (.attr ⟨some ⟨0⟩, "lemma"⟩) (.attr ⟨some ⟨1⟩, "lemma"⟩)]
  constraints := [⟨⟨1⟩, ⟨0⟩, .general⟩]

/-- A token and a condition about two others. -/
def stray : Query where
  tokens := [⟨⟨2⟩, none⟩]
  dependencies := []
  predicates := [.comparison .equal (.attr ⟨some ⟨0⟩, "lemma"⟩) (.attr ⟨some ⟨1⟩, "lemma"⟩)]
  constraints := []

theorem compile_rename_swap :
    (reversed.rename (Equiv.swap ⟨0⟩ ⟨1⟩).toEmbedding).compile {} =
        .ok "a:[] []* [lemma != a.lemma & a.dephead = ref]" ∧
      ∃ e, (stray.rename (Equiv.swap ⟨0⟩ ⟨1⟩).toEmbedding).compile {} = .error e ∧
        (CompileError.unknownIdentifier ⟨0⟩).Renamed (Equiv.swap ⟨0⟩ ⟨1⟩).toEmbedding e := by
  have hreversed : reversed.compile {} = .ok "a:[] []* [lemma != a.lemma & a.dephead = ref]" := by
    rw [compile_eq]
    decide +kernel
  have hstray : stray.compile {} = .error (.unknownIdentifier ⟨0⟩) := by
    rw [compile_eq]
    decide +kernel
  exact ⟨((compile_rename reversed {} _).1 _).2 hreversed, (compile_rename stray {} _).2 _ hstray⟩

end Compile

end Query

end TreeQuery
