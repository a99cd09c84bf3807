import TreeQuery.Proofs.Pattern.Attachment
import TreeQuery.Proofs.Pattern.Lexeme

/-!
The labels of an alternative. The tokens that a slot refers to are those of its attachments, which
all come before it. So a token is labelled if and only if a later one refers to it, and every
reference is written with a label.
-/

set_option autoImplicit false
set_option relaxedAutoImplicit false

namespace TreeQuery.Pattern

open scoped List

def Slot.Refers (s : Slot) (i : Identifier) : Prop := ∃ p ∈ s.conjuncts, i ∈ p.owners

/-- The conditions by which the token `carrier` can refer to the token `i`: that `i` is its head,
that it is the head of `i`, or a part of a deferred predicate. -/
inductive RefersThrough (q : Query) (pl : Placement) (carrier i : Identifier) : Predicate → Prop
  | headedBy : ⟨i, carrier⟩ ∈ q.dependencies → RefersThrough q pl carrier i (headedBy i)
  | headOf : ⟨carrier, i⟩ ∈ q.dependencies → RefersThrough q pl carrier i (headOf i)
  | deferred {p r : Predicate} : p ∈ pl.deferred → r ∈ (p.lower carrier).conjuncts →
      i ∈ r.owners → RefersThrough q pl carrier i r

/-- The predicate with the label of its owner written into the name of every owned attribute. -/
def withLabels (label : Identifier → String) (p : Predicate) : Predicate :=
  p.mapAttributes fun a =>
    match a.owner with
    | some i => ⟨none, label i ++ "." ++ a.name⟩
    | none => a

/-- An alternative is well labelled if its labels tell its tokens apart, mark those that later
tokens refer to, and are what its conditions are written with. -/
structure Alternative.WellLabelled (q : Query) (pl : Placement) (a : Alternative) : Prop where
  distinct : (a.slots.filterMap fun s => a.labels.lookup s.identifier).Nodup
  labelled_iff : ∀ earlier s later, a.slots = earlier ++ s :: later →
    ((a.labels.lookup s.identifier).isSome = true ↔ ∃ t ∈ later, t.Refers s.identifier)
  backward : ∀ earlier s later, a.slots = earlier ++ s :: later → ∀ i, s.Refers i →
    ∃ t ∈ earlier, t.identifier = i ∧ (a.labels.lookup i).isSome = true
  through : ∀ s ∈ a.slots, ∀ p ∈ s.conjuncts, ∀ i ∈ p.owners,
    RefersThrough q pl s.identifier i p
  written : ∀ s ∈ a.slots, ∀ p ∈ s.conjuncts, ∃ label : Identifier → String,
    (∀ i ∈ p.owners, a.labels.lookup i = some (label i)) ∧
      ∀ place, predicateText a.labels place p = predicateText [] place (withLabels label p)
  settled : ∀ s ∈ a.slots, ∀ p ∈ s.conjuncts, ∀ others place,
    predicateText (a.labels ++ others) place p = predicateText a.labels place p

section Slots

variable {q : Query} {pl : Placement} {tokens : List Identifier} {a : Attachment}

private theorem mem_references_iff (ha : a ∈ attachments q pl tokens) {i : Identifier} :
    i ∈ a.references ↔ ∃ p ∈ a.conjuncts, i ∈ p.owners := by
  rcases mem_attachments.1 ha with ⟨p, -, hp⟩ | ⟨d, -, hd⟩
  · obtain ⟨-, hconjuncts, hreferences⟩ := Attachment.ofPredicate_eq_some hp
    have hlower : i ∈ a.references ↔ i ∈ (p.lower a.carrier).owners := by
      rw [hreferences, List.mem_filter, decide_eq_true_eq, Predicate.mem_owners_lower]
    rw [hlower, Predicate.mem_owners_iff_conjuncts, hconjuncts]
  · obtain ⟨-, rfl | rfl⟩ := Attachment.ofDependency_eq_some hd
    · simp only [List.mem_singleton, exists_eq_left]
      exact List.mem_singleton.symm
    · simp only [List.mem_singleton, exists_eq_left]
      exact List.mem_singleton.symm

private theorem refersThrough_of_mem_owners (hpl : Placement.ofQuery q = .ok pl) {i j : Identifier}
    {p : Predicate} (hp : p ∈ (slotOf q pl tokens i).conjuncts) (hj : j ∈ p.owners) :
    RefersThrough q pl i j p := by
  obtain ⟨a, ha, rfl, hpa⟩ := exists_attachment_of_mem_owners hpl hp hj
  rcases mem_attachments.1 ha with ⟨r, hr, hra⟩ | ⟨d, hd, hda⟩
  · obtain ⟨-, hconjuncts, -⟩ := Attachment.ofPredicate_eq_some hra
    exact .deferred hr (hconjuncts ▸ hpa) hj
  · obtain ⟨-, rfl | rfl⟩ := Attachment.ofDependency_eq_some hda
    · obtain rfl := List.mem_singleton.1 hpa
      obtain rfl := List.mem_singleton.1 hj
      exact .headedBy hd
    · obtain rfl := List.mem_singleton.1 hpa
      obtain rfl := List.mem_singleton.1 hj
      exact .headOf hd

private theorem isSome_lookup_labelsFor_iff (hpl : Placement.ofQuery q = .ok pl)
    (htokens : tokens ~ q.identifiers) {i : Identifier} :
    ((labelsFor q pl tokens).lookup i).isSome = true ↔
      ∃ k ∈ tokens, tokens.idxOf i < tokens.idxOf k ∧ (slotOf q pl tokens k).Refers i := by
  have hnodup : tokens.Nodup := htokens.nodup_iff.2 q.nodup_identifiers
  rw [labelsFor, isSome_lookup_labelsOf hnodup, List.mem_flatMap]
  constructor
  · rintro ⟨-, a, ha, hi⟩
    have hfits := fits_of_mem_attachments hpl htokens ha
    obtain ⟨p, hp, hip⟩ := (mem_references_iff ha).1 hi
    have hslot : p ∈ (slotOf q pl tokens a.carrier).conjuncts :=
      mem_conjuncts_slotOf.2 (.inr ⟨a, ha, rfl, hp⟩)
    exact ⟨a.carrier, hfits.carrier_mem, (hfits.earlier i hi).2, p, hslot, hip⟩
  · rintro ⟨k, -, -, p, hp, hip⟩
    obtain ⟨a, ha, -, hpa⟩ := exists_attachment_of_mem_owners hpl hp hip
    have hi : i ∈ a.references := (mem_references_iff ha).2 ⟨p, hpa, hip⟩
    exact ⟨((fits_of_mem_attachments hpl htokens ha).earlier i hi).1, a, ha, hi⟩

private theorem exists_split_of_map_eq {α β : Type} {f : α → β} {l : List α} {s t : List β} {b : β}
    (h : l.map f = s ++ b :: t) :
    ∃ s' a t', l = s' ++ a :: t' ∧ s'.map f = s ∧ f a = b ∧ t'.map f = t := by
  obtain ⟨s', rest, hl, hs, hrest⟩ := List.map_eq_append_iff.1 h
  obtain ⟨a, t', rfl, hb, ht⟩ := List.map_eq_cons_iff.1 hrest
  exact ⟨s', a, t', hl, hs, hb, ht⟩

private theorem reference_append_of_isSome {labels : Labels} {i : Identifier}
    (h : (labels.lookup i).isSome = true) (others : Labels) :
    reference (labels ++ others) i = reference labels i := by
  obtain ⟨l, hl⟩ := Option.isSome_iff_exists.1 h
  rw [reference, reference, List.lookup_append, hl, Option.some_or]

private theorem lookup_eq_some_reference {labels : Labels} {i : Identifier}
    (h : (labels.lookup i).isSome = true) : labels.lookup i = some (reference labels i) := by
  obtain ⟨l, hl⟩ := Option.isSome_iff_exists.1 h
  rw [reference, hl, Option.getD_some]

private theorem predicateText_withLabels (labels : Labels) (place : Binding) (p : Predicate) :
    predicateText [] place (withLabels (reference labels) p) = predicateText labels place p := by
  refine predicateText_mapAttributes place fun a _ => ?_
  cases ho : a.owner with
  | none => simp [attributeText, ho]
  | some i => simp [attributeText, ho]

/-- The alternative of an order of the tokens of a query has their slots in that order and is well
labelled. -/
theorem ofCandidate_wellLabelled (q : Query) (pl : Placement) (c : Candidate)
    (hpl : Placement.ofQuery q = .ok pl) (htokens : c.tokens ~ q.identifiers) :
    (Alternative.ofCandidate q pl c).slots.map Slot.identifier = c.tokens ∧
      (Alternative.ofCandidate q pl c).WellLabelled q pl := by
  have hnodup : c.tokens.Nodup := htokens.nodup_iff.2 q.nodup_identifiers
  have hback := refersBack_slotOf hpl hnodup fun a => fits_of_mem_attachments hpl htokens
  rw [ofCandidate_eq]
  -- whatever the conditions of a slot are about has a label
  have hlabelled : ∀ k ∈ c.tokens, ∀ p ∈ (slotOf q pl c.tokens k).conjuncts, ∀ i ∈ p.owners,
      ((labelsFor q pl c.tokens).lookup i).isSome = true := by
    intro k hk p hp i hi
    obtain ⟨before, after, hsplit⟩ := List.append_of_mem hk
    exact (hback before k after hsplit p hp i hi).2
  refine ⟨?_, ?_, ?_, ?_, ?_, ?_, ?_⟩
  · rw [List.map_map]
    exact List.map_id c.tokens
  · rw [List.filterMap_map]
    refine hnodup.filterMap ?_
    intro i j l hi hj
    exact distinct_labelsFor hnodup i j l hi hj
  · intro earlier s later hslots
    obtain ⟨before, i, after, hsplit, rfl, rfl, rfl⟩ := exists_split_of_map_eq hslots
    have hlater (k : Identifier) :
        (k ∈ c.tokens ∧ c.tokens.idxOf i < c.tokens.idxOf k) ↔ k ∈ after := by
      rw [hsplit] at hnodup ⊢
      constructor
      · intro ⟨hk, hlt⟩
        exact (Sequence.idxOf_lt_iff_mem_right hnodup hk).1 hlt
      · intro hk
        have hmem : k ∈ before ++ i :: after := by simp [hk]
        exact ⟨hmem, (Sequence.idxOf_lt_iff_mem_right hnodup hmem).2 hk⟩
    show ((labelsFor q pl c.tokens).lookup i).isSome = true ↔
      ∃ t ∈ after.map (slotOf q pl c.tokens), t.Refers i
    rw [isSome_lookup_labelsFor_iff hpl htokens]
    simp only [← and_assoc, hlater, List.mem_map, exists_exists_and_eq_and]
  · intro earlier s later hslots i ⟨p, hp, hi⟩
    obtain ⟨before, k, after, hsplit, rfl, rfl, rfl⟩ := exists_split_of_map_eq hslots
    obtain ⟨hbefore, hlabel⟩ := hback before k after hsplit p hp i hi
    exact ⟨slotOf q pl c.tokens i, List.mem_map_of_mem hbefore, rfl, hlabel⟩
  · intro s hs p hp i hi
    obtain ⟨k, -, rfl⟩ := List.mem_map.1 hs
    exact refersThrough_of_mem_owners hpl hp hi
  · intro s hs p hp
    obtain ⟨k, hk, rfl⟩ := List.mem_map.1 hs
    refine ⟨reference (labelsFor q pl c.tokens), fun i hi => ?_, fun place => ?_⟩
    · exact lookup_eq_some_reference (hlabelled k hk p hp i hi)
    · exact (predicateText_withLabels _ place p).symm
  · intro s hs p hp others place
    obtain ⟨k, hk, rfl⟩ := List.mem_map.1 hs
    refine predicateText_congr place fun i hi => ?_
    exact reference_append_of_isSome (hlabelled k hk p hp i hi) others

end Slots

/-- Three tokens of which one governs the others and itself, with a condition about the last two
that the first declares. -/
def entangled : Query where
  tokens := [⟨⟨0⟩, some
    (.comparison .differ (.attr ⟨some ⟨1⟩, "lemma"⟩) (.attr ⟨some ⟨2⟩, "lemma"⟩))⟩]
  dependencies := [⟨⟨0⟩, ⟨1⟩⟩, ⟨⟨0⟩, ⟨2⟩⟩, ⟨⟨0⟩, ⟨0⟩⟩]
  predicates := []
  constraints := []

theorem entangled_wellLabelled :
    ∃ pl, Placement.ofQuery entangled = .ok pl ∧
      let a := Alternative.ofCandidate entangled pl ⟨[⟨2⟩, ⟨0⟩, ⟨1⟩], [.unbounded, .adjacent]⟩
      a.text = "a:[] []* b:[a.dephead = ref] [lemma != a.lemma & dephead = b.ref]" ∧
        a.WellLabelled entangled pl := by
  have htext : (Placement.ofQuery entangled).toOption.map (fun pl =>
      candidateText entangled pl ⟨[⟨2⟩, ⟨0⟩, ⟨1⟩], [.unbounded, .adjacent]⟩) =
        some "a:[] []* b:[a.dephead = ref] [lemma != a.lemma & dephead = b.ref]" := by
    decide +kernel
  cases hpl : Placement.ofQuery entangled with
  | error e =>
    rw [hpl] at htext
    cases htext
  | ok pl =>
    rw [hpl] at htext
    have hwell := (ofCandidate_wellLabelled entangled pl
      ⟨[⟨2⟩, ⟨0⟩, ⟨1⟩], [.unbounded, .adjacent]⟩ hpl (by decide)).2
    exact ⟨pl, rfl, Option.some.inj htext, hwell⟩

end TreeQuery.Pattern
