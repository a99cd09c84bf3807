import TreeQuery.Proofs.Order.Partition
import TreeQuery.Proofs.Pattern.Matching
import TreeQuery.Proofs.Pattern.Naming
import TreeQuery.Proofs.Placement

/-!
The conditions of the slots of an alternative. A condition that relates several tokens is attached
to the last of them, refers to the others by their labels, and says there what it says of the
query. All conditions of the slots together are the predicates and dependencies of the query.
-/

set_option autoImplicit false
set_option relaxedAutoImplicit false

namespace TreeQuery.Pattern

open scoped List

section Latest

variable {tokens : List Identifier} {i j : Identifier}

private theorem lookup_positions (h : tokens.Nodup) (i : Identifier) :
    (positions tokens).lookup i = if i ∈ tokens then some (tokens.idxOf i) else none := by
  have hlookup := Sequence.lookup_zipIdx_reverse h id i
  simpa [positions] using hlookup

private theorem precedes_positions (h : tokens.Nodup) (hi : i ∈ tokens) (hj : j ∈ tokens) :
    precedes ((positions tokens).lookup i) ((positions tokens).lookup j) = true ↔
      tokens.idxOf i < tokens.idxOf j := by
  rw [lookup_positions h, lookup_positions h, if_pos hi, if_pos hj, precedes, decide_eq_true_eq]

private theorem foldl_latest (h : tokens.Nodup) {best : Identifier} {rest : List Identifier}
    (hmem : ∀ j ∈ best :: rest, j ∈ tokens) :
    ∃ k ∈ best :: rest, rest.foldl (fun best j =>
        if precedes ((positions tokens).lookup j) ((positions tokens).lookup best) then best
        else j) best = k ∧
      ∀ j ∈ best :: rest, tokens.idxOf j ≤ tokens.idxOf k := by
  induction rest generalizing best with
  | nil => exact ⟨best, List.mem_cons_self, rfl, by simp⟩
  | cons j rest ih =>
    have hbest := hmem best List.mem_cons_self
    have hj := hmem j (by simp)
    have hrest : ∀ i ∈ rest, i ∈ tokens := fun i hi => hmem i (by simp [hi])
    have hpre := precedes_positions h hj hbest
    rw [List.foldl_cons]
    split
    · rename_i hlt
      obtain ⟨k, hk, hfold, hle⟩ := ih (List.forall_mem_cons.2 ⟨hbest, hrest⟩)
      obtain ⟨hle₁, hle₂⟩ := List.forall_mem_cons.1 hle
      have hjk : tokens.idxOf j ≤ tokens.idxOf k := by
        have := hpre.1 hlt
        omega
      refine ⟨k, ?_, hfold, ?_⟩
      · rcases List.mem_cons.1 hk with rfl | hk
        · simp
        · simp [hk]
      · simp only [List.forall_mem_cons]
        exact ⟨hle₁, hjk, hle₂⟩
    · rename_i hge
      obtain ⟨k, hk, hfold, hle⟩ := ih (List.forall_mem_cons.2 ⟨hj, hrest⟩)
      obtain ⟨hle₁, hle₂⟩ := List.forall_mem_cons.1 hle
      have hbestk : tokens.idxOf best ≤ tokens.idxOf k := by
        have := mt hpre.2 hge
        omega
      refine ⟨k, ?_, hfold, ?_⟩
      · exact List.mem_cons_of_mem _ hk
      · simp only [List.forall_mem_cons]
        exact ⟨hbestk, hle₁, hle₂⟩

theorem latest?_spec (h : tokens.Nodup) {l : List Identifier} (hne : l ≠ [])
    (hmem : ∀ j ∈ l, j ∈ tokens) :
    ∃ k ∈ l, latest? (positions tokens) l = some k ∧
      ∀ j ∈ l, tokens.idxOf j ≤ tokens.idxOf k := by
  cases l with
  | nil => exact absurd rfl hne
  | cons best rest =>
    obtain ⟨k, hk, hfold, hle⟩ := foldl_latest h hmem
    exact ⟨k, hk, by rw [latest?, hfold], hle⟩

end Latest

def headedBy (i : Identifier) : Predicate :=
  .comparison .equal (headAttribute none) (nodeAttribute (some i))

def headOf (i : Identifier) : Predicate :=
  .comparison .equal (headAttribute (some i)) (nodeAttribute none)

example : predicateText [(⟨3⟩, "a")] .negation (headedBy ⟨3⟩) = "dephead = a.ref" ∧
    predicateText [(⟨3⟩, "a")] .negation (headOf ⟨3⟩) = "a.dephead = ref" := by
  decide +kernel

namespace Attachment

variable {tokens : List Identifier}

/-- An attachment fits a sequence if its carrier comes after all tokens that it refers to and its
conditions are about these only. -/
structure Fits (tokens : List Identifier) (a : Attachment) : Prop where
  carrier_mem : a.carrier ∈ tokens
  earlier : ∀ r ∈ a.references, r ∈ tokens ∧ tokens.idxOf r < tokens.idxOf a.carrier
  owners_subset : ∀ p ∈ a.conjuncts, p.owners ⊆ a.references

def Holds (m : Interpretation Nat) (position : Identifier → Nat) (a : Attachment) : Prop :=
  ∀ p ∈ a.conjuncts, p.Holds m fun o => position (o.getD a.carrier)

private theorem ofPredicate_spec (h : tokens.Nodup) {p : Predicate} (hlocal : p.hasLocal = false)
    (hne : p.owners ≠ []) (hmem : ∀ i ∈ p.owners, i ∈ tokens) :
    ∃ a, ofPredicate (positions tokens) p = some a ∧ a.Fits tokens ∧ ∀ m position,
      a.Holds m position ↔ ∀ i, p.Holds m fun o => position (o.getD i) := by
  obtain ⟨k, hk, hlatest, hle⟩ := latest?_spec h hne hmem
  refine ⟨_, by rw [ofPredicate, hlatest, Option.map_some], ⟨hmem k hk, ?_, ?_⟩, ?_⟩
  · intro r hr
    obtain ⟨hr, hrk⟩ := List.mem_filter.1 hr
    rw [decide_eq_true_eq] at hrk
    have hidx : tokens.idxOf r ≠ tokens.idxOf k := fun he =>
      hrk ((List.idxOf_inj (hmem r hr)).1 he)
    have hrle := hle r hr
    exact ⟨hmem r hr, by dsimp only; omega⟩
  · intro c hc j hj
    have hlower := Predicate.owners_subset_of_mem_conjuncts hc hj
    obtain ⟨hj, hjk⟩ := Predicate.mem_owners_lower.1 hlower
    exact List.mem_filter.2 ⟨hj, by simpa using hjk⟩
  · intro m position
    rw [Holds, Predicate.holds_conjuncts, Predicate.holds_lower]
    constructor
    · intro hp i
      exact (Predicate.holds_carrier hlocal k i).1 hp
    · intro hp
      exact hp k

private theorem ofDependency_spec (h : tokens.Nodup) {d : Dependency}
    (hne : d.governor ≠ d.dependent)
    (hg : d.governor ∈ tokens) (hd : d.dependent ∈ tokens) :
    ∃ a, ofDependency (positions tokens) d = some a ∧ a.Fits tokens ∧ ∀ m position,
      a.Holds m position ↔ d.Holds m position := by
  have hidx : tokens.idxOf d.governor ≠ tokens.idxOf d.dependent := fun he =>
    hne ((List.idxOf_inj hg).1 he)
  have hgd := precedes_positions h hg hd
  have hdg := precedes_positions h hd hg
  rw [ofDependency]
  split
  · rename_i hlt
    refine ⟨_, rfl, ⟨hd, ?_, ?_⟩, ?_⟩
    · intro r hr
      obtain rfl := List.mem_singleton.1 hr
      exact ⟨hg, hgd.1 hlt⟩
    · intro p hp
      obtain rfl := List.mem_singleton.1 hp
      exact List.Subset.refl [d.governor]
    · intro m position
      exact List.forall_mem_singleton
  · rename_i hge
    have hlt : tokens.idxOf d.dependent < tokens.idxOf d.governor := by
      have := mt hgd.2 hge
      omega
    rw [if_pos (hdg.2 hlt)]
    refine ⟨_, rfl, ⟨hg, ?_, ?_⟩, ?_⟩
    · intro r hr
      obtain rfl := List.mem_singleton.1 hr
      exact ⟨hd, hlt⟩
    · intro p hp
      obtain rfl := List.mem_singleton.1 hp
      exact List.Subset.refl [d.dependent]
    · intro m position
      exact List.forall_mem_singleton

section Inversion

variable {place : List (Identifier × Nat)} {a : Attachment}

theorem ofPredicate_eq_some {p : Predicate} (h : ofPredicate place p = some a) :
    latest? place p.owners = some a.carrier ∧ a.conjuncts = (p.lower a.carrier).conjuncts ∧
      a.references = p.owners.filter fun i => i ≠ a.carrier := by
  obtain ⟨k, hk, rfl⟩ := Option.map_eq_some_iff.1 h
  exact ⟨hk, rfl, rfl⟩

theorem ofDependency_eq_some {d : Dependency} (h : ofDependency place d = some a) :
    d.governor ≠ d.dependent ∧
      (a = ⟨d.dependent, [headedBy d.governor], [d.governor]⟩ ∨
        a = ⟨d.governor, [headOf d.dependent], [d.dependent]⟩) := by
  have hself (o : Option Nat) : precedes o o = false := by
    cases o <;> simp [precedes]
  unfold ofDependency at h
  constructor
  · intro he
    rw [he, hself] at h
    cases h
  · split at h
    · exact .inl (Option.some.inj h).symm
    · split at h
      · exact .inr (Option.some.inj h).symm
      · cases h

end Inversion

end Attachment

section Slots

variable {q : Query} {pl : Placement} {tokens : List Identifier} {m : Interpretation Nat}
  {position : Identifier → Nat}

theorem owners_of_mem_deferred_of_perm (hpl : Placement.ofQuery q = .ok pl)
    (htokens : tokens ~ q.identifiers) {p : Predicate} (hp : p ∈ pl.deferred) :
    p.hasLocal = false ∧ p.owners ≠ [] ∧ ∀ i ∈ p.owners, i ∈ tokens := by
  obtain ⟨hlocal, hlen, hmem⟩ := Placement.owners_of_mem_deferred hpl hp
  refine ⟨hlocal, ?_, fun i hi => htokens.mem_iff.2 (hmem i hi)⟩
  intro hnil
  simp [hnil] at hlen

theorem mem_attachments {a : Attachment} :
    a ∈ attachments q pl tokens ↔
      (∃ p ∈ pl.deferred, Attachment.ofPredicate (positions tokens) p = some a) ∨
        ∃ d ∈ q.dependencies, Attachment.ofDependency (positions tokens) d = some a := by
  simp only [attachments, List.mem_append, List.mem_filterMap]

theorem fits_of_mem_attachments {a : Attachment} (hpl : Placement.ofQuery q = .ok pl)
    (htokens : tokens ~ q.identifiers) (ha : a ∈ attachments q pl tokens) : a.Fits tokens := by
  have hnodup : tokens.Nodup := htokens.nodup_iff.2 q.nodup_identifiers
  rcases mem_attachments.1 ha with ⟨p, hp, hpa⟩ | ⟨d, hd, hda⟩
  · obtain ⟨hlocal, hne, hmem⟩ := owners_of_mem_deferred_of_perm hpl htokens hp
    obtain ⟨b, hb, hfits, -⟩ := Attachment.ofPredicate_spec hnodup hlocal hne hmem
    obtain rfl := Option.some.inj (hpa.symm.trans hb)
    exact hfits
  · obtain ⟨hne, -⟩ := Attachment.ofDependency_eq_some hda
    obtain ⟨b, hb, hfits, -⟩ := Attachment.ofDependency_spec hnodup hne
      (htokens.mem_iff.2 (Query.governor_mem_identifiers hd))
      (htokens.mem_iff.2 (Query.dependent_mem_identifiers hd))
    obtain rfl := Option.some.inj (hda.symm.trans hb)
    exact hfits

private theorem forall_mem_filterMap {α β : Type} {f : α → Option β} {Q : β → Prop}
    {R : α → Prop} {l : List α} (h : ∀ x ∈ l, ∃ b, f x = some b ∧ (Q b ↔ R x)) :
    (∀ b ∈ l.filterMap f, Q b) ↔ ∀ x ∈ l, R x := by
  induction l with
  | nil => simp
  | cons x l ih =>
    obtain ⟨b, hb, hQ⟩ := h x List.mem_cons_self
    have htail := ih fun y hy => h y (List.mem_cons_of_mem x hy)
    rw [List.filterMap_cons_some hb, List.forall_mem_cons, List.forall_mem_cons, hQ, htail]

private theorem attachments_hold_iff (hpl : Placement.ofQuery q = .ok pl)
    (hself : ∀ d ∈ q.dependencies, d.governor ≠ d.dependent) (htokens : tokens ~ q.identifiers) :
    (∀ a ∈ attachments q pl tokens, a.Holds m position) ↔
      (∀ p ∈ pl.deferred, ∀ i, p.Holds m fun o => position (o.getD i)) ∧
        ∀ d ∈ q.dependencies, d.Holds m position := by
  have hnodup : tokens.Nodup := htokens.nodup_iff.2 q.nodup_identifiers
  have hdeferred : (∀ a ∈ pl.deferred.filterMap (Attachment.ofPredicate (positions tokens)),
        a.Holds m position) ↔
      ∀ p ∈ pl.deferred, ∀ i, p.Holds m fun o => position (o.getD i) := by
    apply forall_mem_filterMap
    intro p hp
    obtain ⟨hlocal, hne, hmem⟩ := owners_of_mem_deferred_of_perm hpl htokens hp
    obtain ⟨a, ha, -, hholds⟩ := Attachment.ofPredicate_spec hnodup hlocal hne hmem
    exact ⟨a, ha, hholds m position⟩
  have hdependencies : (∀ a ∈ q.dependencies.filterMap
        (Attachment.ofDependency (positions tokens)), a.Holds m position) ↔
      ∀ d ∈ q.dependencies, d.Holds m position := by
    apply forall_mem_filterMap
    intro d hd
    obtain ⟨a, ha, -, hholds⟩ := Attachment.ofDependency_spec hnodup (hself d hd)
      (htokens.mem_iff.2 (Query.governor_mem_identifiers hd))
      (htokens.mem_iff.2 (Query.dependent_mem_identifiers hd))
    exact ⟨a, ha, hholds m position⟩
  rw [attachments, List.forall_mem_append, hdeferred, hdependencies]

def slotOf (q : Query) (pl : Placement) (tokens : List Identifier) (i : Identifier) : Slot where
  identifier := i
  conjuncts :=
    (tokens.filter fun j => j = i).flatMap (fun j =>
      ((pl.predicate? j).map Predicate.conjuncts).getD [])
    ++ ((attachments q pl tokens).filter fun a => a.carrier = i).flatMap Attachment.conjuncts

def labelsFor (q : Query) (pl : Placement) (tokens : List Identifier) : Labels :=
  labelsOf ((attachments q pl tokens).flatMap Attachment.references) tokens

theorem ofCandidate_eq (q : Query) (pl : Placement) (c : Candidate) :
    Alternative.ofCandidate q pl c =
      ⟨c.tokens.map (slotOf q pl c.tokens), c.gaps, labelsFor q pl c.tokens⟩ := rfl

theorem mem_conjuncts_slotOf {i : Identifier} {p : Predicate} :
    p ∈ (slotOf q pl tokens i).conjuncts ↔
      (i ∈ tokens ∧ ∃ r ∈ pl.predicate? i, p ∈ r.conjuncts) ∨
        ∃ a ∈ attachments q pl tokens, a.carrier = i ∧ p ∈ a.conjuncts := by
  have hmerged (j : Identifier) : p ∈ ((pl.predicate? j).map Predicate.conjuncts).getD [] ↔
      ∃ r ∈ pl.predicate? j, p ∈ r.conjuncts := by
    cases pl.predicate? j <;> simp
  simp only [slotOf, List.mem_append, List.mem_flatMap, List.mem_filter, decide_eq_true_eq,
    hmerged, and_assoc]
  refine or_congr ?_ Iff.rfl
  constructor
  · intro ⟨j, hj, hji, hp⟩
    subst hji
    exact ⟨hj, hp⟩
  · intro ⟨hi, hp⟩
    exact ⟨i, hi, rfl, hp⟩

theorem distinct_labelsFor (htokens : tokens.Nodup) : Distinct (labelsFor q pl tokens) :=
  fun _ _ _ hi hj => eq_of_lookup_labelsOf htokens hi hj

theorem exists_attachment_of_mem_owners (hpl : Placement.ofQuery q = .ok pl) {i j : Identifier}
    {p : Predicate} (hp : p ∈ (slotOf q pl tokens i).conjuncts) (hj : j ∈ p.owners) :
    ∃ a ∈ attachments q pl tokens, a.carrier = i ∧ p ∈ a.conjuncts := by
  rcases mem_conjuncts_slotOf.1 hp with ⟨-, r, hr, hpr⟩ | hattached
  · have hnone := Placement.owners_of_predicate?_eq_some hpl hr
    have hjr := Predicate.owners_subset_of_mem_conjuncts hpr hj
    rw [hnone] at hjr
    cases hjr
  · exact hattached

theorem refersBack_slotOf (hpl : Placement.ofQuery q = .ok pl) (htokens : tokens.Nodup)
    (hfits : ∀ a ∈ attachments q pl tokens, a.Fits tokens) :
    RefersBack (labelsFor q pl tokens) tokens (slotOf q pl tokens) := by
  intro passed i rest hsplit p hp j hj
  obtain ⟨a, ha, hai, hpa⟩ := exists_attachment_of_mem_owners hpl hp hj
  have href := (hfits a ha).owners_subset p hpa hj
  obtain ⟨hjt, hlt⟩ := (hfits a ha).earlier j href
  constructor
  · rw [hai] at hlt
    rw [hsplit] at hlt htokens
    exact (Sequence.idxOf_lt_iff_mem_left htokens).1 hlt
  · exact (isSome_lookup_labelsOf htokens).2 ⟨hjt, List.mem_flatMap.2 ⟨a, ha, href⟩⟩

private theorem forall_slotOf_holds_iff (hfits : ∀ a ∈ attachments q pl tokens, a.Fits tokens) :
    (∀ i ∈ tokens, ∀ p ∈ (slotOf q pl tokens i).conjuncts,
        p.Holds m fun o => position (o.getD i)) ↔
      (∀ i ∈ tokens, ∀ r ∈ pl.predicate? i, r.Holds m fun o => position (o.getD i)) ∧
        ∀ a ∈ attachments q pl tokens, a.Holds m position := by
  constructor
  · intro h
    refine ⟨fun i hi r hr => ?_, fun a ha p hp => ?_⟩
    · rw [← Predicate.holds_conjuncts]
      intro p hp
      exact h i hi p (mem_conjuncts_slotOf.2 (.inl ⟨hi, r, hr, hp⟩))
    · exact h a.carrier (hfits a ha).carrier_mem p (mem_conjuncts_slotOf.2 (.inr ⟨a, ha, rfl, hp⟩))
  · intro ⟨hmerged, hattached⟩ i hi p hp
    rcases mem_conjuncts_slotOf.1 hp with ⟨-, r, hr, hpr⟩ | ⟨a, ha, rfl, hpa⟩
    · exact Predicate.holds_conjuncts.2 (hmerged i hi r hr) p hpr
    · exact hattached a ha p hpa

/-- The alternative of an order of the tokens matches at their positions if and only if its gaps
are kept there and the predicates and dependencies of the query hold. -/
theorem matchesAt_ofCandidate_iff (hpl : Placement.ofQuery q = .ok pl)
    (hself : ∀ d ∈ q.dependencies, d.governor ≠ d.dependent) {c : Candidate}
    (htokens : c.tokens ~ q.identifiers) (hgaps : c.gaps.length = c.tokens.length - 1) :
    (Alternative.ofCandidate q pl c).MatchesAt m (c.tokens.map position) ↔
      GapsSpan position c.gaps (c.tokens.zip c.tokens.tail) ∧
        (∀ d ∈ q.dependencies, d.Holds m position) ∧ q.PredicatesHold m position := by
  have hnodup : c.tokens.Nodup := htokens.nodup_iff.2 q.nodup_identifiers
  have hfits := fun a => fits_of_mem_attachments (a := a) hpl htokens
  have hmerged : (∀ i ∈ c.tokens, ∀ r ∈ pl.predicate? i, r.Holds m fun o => position (o.getD i)) ↔
      ∀ i, ∀ r ∈ pl.predicate? i, r.Holds m fun o => position (o.getD i) := by
    constructor
    · intro h i r hr
      exact h i (htokens.mem_iff.2 (Placement.mem_identifiers_of_predicate?_eq_some hpl hr)) r hr
    · intro h i _ r hr
      exact h i r hr
  rw [ofCandidate_eq, matchesAt_iff (distinct_labelsFor hnodup) (fun _ => rfl)
    (refersBack_slotOf hpl hnodup hfits) hgaps, forall_slotOf_holds_iff hfits, hmerged,
    attachments_hold_iff hpl hself htokens, Placement.predicatesHold_iff_placed hpl]
  refine and_congr_right fun _ => ?_
  exact ⟨fun ⟨ht, hp, hd⟩ => ⟨hd, ht, hp⟩, fun ⟨hd, ht, hp⟩ => ⟨ht, hp, hd⟩⟩

end Slots

end TreeQuery.Pattern
