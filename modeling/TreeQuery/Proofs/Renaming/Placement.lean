import TreeQuery.Placement
import TreeQuery.Proofs.Renaming.Basic

/-!
Placing the predicates of a renamed query. Sites are found from how many owners a predicate has and
whether all of them are known, not from which they are.
-/

set_option autoImplicit false
set_option relaxedAutoImplicit false

namespace TreeQuery

open scoped List

variable (r : Identifier ↪ Identifier)

def Assertion.rename (s : Assertion) : Assertion := ⟨s.floating, s.predicate.rename r⟩

private theorem Query.assertions_rename (q : Query) :
    (q.rename r).assertions = q.assertions.map (Assertion.rename r) := by
  have hdeclared (t : Token) : ((t.rename r).predicate.map fun p =>
      (⟨false, p.raise (t.rename r).identifier⟩ : Assertion)) =
        (t.predicate.map fun p => ⟨false, p.raise t.identifier⟩).map (Assertion.rename r) := by
    cases ht : t.predicate with
    | none => simp [Token.rename, ht]
    | some p => simp [Token.rename, ht, Assertion.rename, Predicate.raise_rename]
  simp only [assertions, rename, List.map_append, List.map_map, List.filterMap_map,
    List.map_filterMap]
  congr 1
  exact List.filterMap_congr fun t _ => hdeclared t

namespace Site

def rename : Site → Site
  | onToken i p => onToken (r i) (p.rename r)
  | across p => across (p.rename r)

private theorem on?_rename (i : Identifier) (s : Site) :
    (s.rename r).on? (r i) = (s.on? i).map (Predicate.rename r) := by
  cases s with
  | onToken j p =>
    by_cases hj : j = i
    · simp [rename, on?, hj]
    · simp [rename, on?, hj]
  | across p => rfl

private theorem across?_rename (s : Site) :
    (s.rename r).across? = s.across?.map (Predicate.rename r) := by
  cases s <;> rfl

private theorem find?_unknown_rename {known : List Identifier} {p : Predicate}
    (h : (p.owners.find? fun i => i ∉ known) = none) :
    ((p.rename r).owners.find? fun i => i ∉ known.map r) = none := by
  rw [List.find?_eq_none] at h ⊢
  intro k hk
  obtain ⟨i, hi, rfl⟩ := (Predicate.mem_owners_rename r).1 hk
  have hknown := h i hi
  simpa using hknown

private theorem exists_find?_unknown_rename {known : List Identifier} {p : Predicate}
    {i : Identifier}
    (h : (p.owners.find? fun i => i ∉ known) = some i) :
    ∃ k, ((p.rename r).owners.find? fun i => i ∉ known.map r) = some (r k) := by
  have hi := List.mem_of_find?_eq_some h
  have hunknown := List.find?_some h
  cases hfind : (p.rename r).owners.find? fun i => i ∉ known.map r with
  | none =>
    have hnone := List.find?_eq_none.1 hfind (r i) ((Predicate.mem_owners_rename r).2 ⟨i, hi, rfl⟩)
    have hknown : i ∈ known := by simpa using hnone
    exact absurd hknown (of_decide_eq_true hunknown)
  | some k =>
    obtain ⟨j, -, rfl⟩ := (Predicate.mem_owners_rename r).1 (List.mem_of_find?_eq_some hfind)
    exact ⟨j, rfl⟩

private theorem ofAssertion_renamed (known : List Identifier) (s : Assertion) :
    Outcome.Renamed r (rename r) (ofAssertion known s)
      (ofAssertion (known.map r) (s.rename r)) := by
  have hlocal : ((s.rename r).floating && (s.rename r).predicate.hasLocal) =
      (s.floating && s.predicate.hasLocal) := by
    rw [Assertion.rename, Predicate.hasLocal_rename]
  unfold ofAssertion
  rw [hlocal]
  split
  · exact .error (.unanchoredPredicate _)
  · cases hfind : s.predicate.owners.find? fun i => i ∉ known with
    | some i =>
      obtain ⟨k, hk⟩ := exists_find?_unknown_rename r hfind
      simp only [Assertion.rename, hk]
      exact .error (.unknownIdentifier i k)
    | none =>
      have howners := s.predicate.owners_rename r
      simp only [Assertion.rename, find?_unknown_rename r hfind]
      -- The predicate goes by the number of its owners, which the renaming keeps.
      cases ho : s.predicate.owners with
      | nil =>
        rw [ho] at howners
        rw [howners.eq_nil]
        exact .error (.unanchoredPredicate _)
      | cons i rest =>
        rw [ho] at howners
        cases rest with
        | nil =>
          rw [howners.eq_singleton]
          show Outcome.Renamed r (rename r) (.ok (onToken i (s.predicate.lower i)))
            (.ok (onToken (r i) ((s.predicate.rename r).lower (r i))))
          rw [Predicate.lower_rename]
          exact .ok (onToken i (s.predicate.lower i))
        | cons j rest =>
          have hlength := howners.length_eq
          rcases howners' : (s.predicate.rename r).owners with _ | ⟨k, _ | ⟨l, rest'⟩⟩
          · simp [howners'] at hlength
          · simp [howners'] at hlength
          · show Outcome.Renamed r (rename r) (.ok (across s.predicate.normalize))
              (.ok (across (s.predicate.rename r).normalize))
            rw [Predicate.rename, Predicate.normalize_mapAttributes]
            exact .ok (across s.predicate.normalize)

end Site

namespace Placement

def rename (pl : Placement) : Placement where
  merged := pl.merged.map (Prod.map r (Predicate.rename r))
  deferred := pl.deferred.map (Predicate.rename r)

theorem predicate?_rename (pl : Placement) (i : Identifier) :
    (pl.rename r).predicate? (r i) = (pl.predicate? i).map (Predicate.rename r) :=
  Sequence.lookup_map r.injective (Predicate.rename r) pl.merged i

private theorem ofSites_rename (known : List Identifier) (sites : List Site) :
    ofSites (known.map r) (sites.map (Site.rename r)) = (ofSites known sites).rename r := by
  have hon (i : Identifier) : (sites.map (Site.rename r)).filterMap (Site.on? (r i)) =
      (sites.filterMap (Site.on? i)).map (Predicate.rename r) := by
    rw [List.filterMap_map, List.map_filterMap]
    exact List.filterMap_congr fun s _ => Site.on?_rename r i s
  have hall (i : Identifier) :
      Predicate.all? ((sites.map (Site.rename r)).filterMap (Site.on? (r i))) =
        (Predicate.all? (sites.filterMap (Site.on? i))).map (Predicate.rename r) := by
    rw [hon]
    exact Predicate.all?_map_mapAttributes _ _
  simp only [ofSites, rename, Placement.mk.injEq]
  constructor
  · rw [List.filterMap_map, List.map_filterMap]
    apply List.filterMap_congr
    intro i _
    rw [Function.comp_apply, hall, Option.map_map, Option.map_map]
    congr 1
    funext p
    exact Prod.ext rfl (Predicate.normalize_mapAttributes _ p)
  · rw [List.filterMap_map, List.map_filterMap]
    exact List.filterMap_congr fun s _ => Site.across?_rename r s

theorem ofQuery_renamed (q : Query) :
    Outcome.Renamed r (rename r) (ofQuery q) (ofQuery (q.rename r)) := by
  unfold ofQuery
  rw [q.assertions_rename, q.identifiers_rename]
  have hsites := Outcome.Renamed.mapM (l := q.assertions) fun s _ =>
    Site.ofAssertion_renamed r q.identifiers s
  exact hsites.map (ofSites_rename r q.identifiers)

end Placement

end TreeQuery
