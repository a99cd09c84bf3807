import TreeQuery.Proofs.Placement

/-!
Which predicates have no place. A floating predicate has to name the token of each of its
attributes, every token that is named has to belong to the query, and there has to be an attribute.
A query is refused for the first of its predicates that fails in this. If none does, the merged
predicates have local attributes only, and a deferred predicate relates two tokens of the query or
more.
-/

set_option autoImplicit false
set_option relaxedAutoImplicit false

namespace TreeQuery

namespace Predicate

/-- What is wrong with a predicate, floating or declared, that has no place among the known tokens.
Of several unknown owners the one with the least handle is named, but a floating predicate is refused
for a local attribute first. -/
inductive Misplaced (known : List Identifier) (floating : Bool) (p : Predicate) :
    CompileError → Prop
  | ownerless (hfloating : floating = true) (hlocal : p.hasLocal = true) :
      Misplaced known floating p (.unanchoredPredicate p)
  | bare (hbare : p.attributes = []) : Misplaced known floating p (.unanchoredPredicate p)
  | unknown (i : Identifier) (howned : floating = true → p.hasLocal = false)
      (howner : i ∈ p.owners) (hunknown : i ∉ known)
      (hleast : ∀ j ∈ p.owners, j ∉ known → i.index ≤ j.index) :
      Misplaced known floating p (.unknownIdentifier i)

variable {known : List Identifier} {floating : Bool} {p : Predicate} {e e' : CompileError}

private theorem exists_owner_not_mem_iff : (∃ i ∈ p.owners, i ∉ known) ↔
    ∃ a ∈ p.attributes, ∃ i, a.owner = some i ∧ i ∉ known := by
  simp only [mem_owners]
  constructor
  · intro ⟨i, ⟨a, ha, hi⟩, hunknown⟩
    exact ⟨a, ha, i, hi, hunknown⟩
  · intro ⟨a, ha, i, hi, hunknown⟩
    exact ⟨i, ⟨a, ha, hi⟩, hunknown⟩

private theorem owners_eq_nil_of_attributes (h : p.attributes = []) : p.owners = [] := by
  rw [owners, h]
  rfl

private theorem attributes_eq_nil_of_owners (hlocal : p.hasLocal = false) (h : p.owners = []) :
    p.attributes = [] := by
  rw [List.eq_nil_iff_forall_not_mem]
  intro a ha
  obtain ⟨i, hi⟩ := Option.ne_none_iff_exists'.1 (hasLocal_eq_false_iff.1 hlocal a ha)
  have howner : i ∈ p.owners := mem_owners.2 ⟨a, ha, hi⟩
  rw [h] at howner
  cases howner

private theorem least_of_find?_owners {i : Identifier}
    (h : (p.owners.find? fun i => i ∉ known) = some i) :
    i ∈ p.owners ∧ i ∉ known ∧ ∀ j ∈ p.owners, j ∉ known → i.index ≤ j.index := by
  have hunknown : i ∉ known := by simpa using List.find?_some h
  refine ⟨List.mem_of_find?_eq_some h, hunknown, ?_⟩
  obtain ⟨-, before, after, howners, hbefore⟩ := List.find?_eq_some_iff_append.1 h
  have hascending := Identifier.pairwise_ascending (p.attributes.filterMap Attribute.owner)
  rw [← owners, howners, List.pairwise_append] at hascending
  intro j hj hjunknown
  rw [howners, List.mem_append, List.mem_cons] at hj
  rcases hj with hj | rfl | hj
  · have hjknown : j ∈ known := by simpa using hbefore j hj
    exact absurd hjknown hjunknown
  · exact Nat.le_refl _
  · exact Nat.le_of_lt ((List.pairwise_cons.1 hascending.2.1).1 j hj)

private theorem exists_misplaced_iff : (∃ e, p.Misplaced known floating e) ↔
    floating = true ∧ p.hasLocal = true ∨ p.attributes = [] ∨ ∃ i ∈ p.owners, i ∉ known := by
  constructor
  · intro ⟨e, h⟩
    cases h with
    | ownerless hfloating hlocal => exact .inl ⟨hfloating, hlocal⟩
    | bare hbare => exact .inr (.inl hbare)
    | unknown i _ howner hunknown => exact .inr (.inr ⟨i, howner, hunknown⟩)
  · intro h
    rcases h with ⟨hfloating, hlocal⟩ | hbare | ⟨i, howner, hunknown⟩
    · exact ⟨_, .ownerless hfloating hlocal⟩
    · exact ⟨_, .bare hbare⟩
    · by_cases howned : floating = true → p.hasLocal = false
      · cases hfind : p.owners.find? fun i => i ∉ known with
        | none =>
          have hknown : i ∈ known := by simpa using List.find?_eq_none.1 hfind i howner
          exact absurd hknown hunknown
        | some j =>
          obtain ⟨hj, hjunknown, hleast⟩ := least_of_find?_owners hfind
          exact ⟨_, .unknown j howned hj hjunknown hleast⟩
      · obtain ⟨hfloating, hlocal⟩ := Classical.not_imp.1 howned
        exact ⟨_, .ownerless hfloating (by simpa using hlocal)⟩

private theorem Misplaced.unique (h : p.Misplaced known floating e)
    (h' : p.Misplaced known floating e') :
    e = e' := by
  cases h with
  | ownerless hfloating hlocal =>
    cases h' with
    | ownerless => rfl
    | bare => rfl
    | unknown i howned =>
      rw [howned hfloating] at hlocal
      cases hlocal
  | bare hbare =>
    cases h' with
    | ownerless => rfl
    | bare => rfl
    | unknown i howned howner =>
      rw [owners_eq_nil_of_attributes hbare] at howner
      cases howner
  | unknown i howned howner hunknown hleast =>
    cases h' with
    | ownerless hfloating hlocal =>
      rw [howned hfloating] at hlocal
      cases hlocal
    | bare hbare =>
      rw [owners_eq_nil_of_attributes hbare] at howner
      cases howner
    | unknown j _ howner' hunknown' hleast' =>
      have hle := hleast j howner' hunknown'
      have hge := hleast' i howner hunknown
      have hindex : i.index = j.index := by omega
      exact congrArg CompileError.unknownIdentifier (congrArg Identifier.mk hindex)

private theorem Misplaced.of_owners {p' : Predicate} (h : p.Misplaced known false e)
    (hbare : p.attributes = [] → p' = p)
    (howners : ∀ i, i ∉ known → (i ∈ p.owners ↔ i ∈ p'.owners)) :
    p'.Misplaced known false e := by
  cases h with
  | ownerless hfloating => cases hfloating
  | bare h =>
    rw [hbare h]
    exact .bare h
  | unknown i _ howner hunknown hleast =>
    refine .unknown i (fun h => by cases h) ((howners i hunknown).1 howner) hunknown ?_
    intro j hj hjknown
    exact hleast j ((howners j hjknown).2 hj) hjknown

private theorem misplaced_raise {i : Identifier} (hi : i ∈ known) :
    (p.raise i).Misplaced known false e ↔ p.Misplaced known false e := by
  have howners (j : Identifier) (hj : j ∉ known) : j ∈ (p.raise i).owners ↔ j ∈ p.owners := by
    have hji : j ≠ i := fun hji => hj (hji ▸ hi)
    rw [mem_owners_raise]
    simp [hji]
  have hbare (h : p.attributes = []) : p.raise i = p := by
    apply mapAttributes_eq_self
    rw [h]
    intro a ha
    cases ha
  constructor
  · intro h
    refine h.of_owners ?_ howners
    intro hraised
    rw [raise, attributes_mapAttributes, List.map_eq_nil_iff] at hraised
    exact (hbare hraised).symm
  · intro h
    exact h.of_owners hbare fun j hj => (howners j hj).symm

end Predicate

namespace Site

variable {known : List Identifier} {s : Assertion} {e : CompileError}

private theorem misplaced_of_ofAssertion (h : ofAssertion known s = .error e)
    (hs : s.floating = false → s.predicate.hasLocal = false) :
    s.predicate.Misplaced known s.floating e := by
  rw [ofAssertion] at h
  split at h
  · rename_i hlocal
    obtain ⟨hfloating, hlocal⟩ := Bool.and_eq_true_iff.1 hlocal
    cases h
    exact .ownerless hfloating hlocal
  · rename_i hlocal
    have howned : s.floating = true → s.predicate.hasLocal = false := by
      intro hfloating
      simpa [hfloating] using hlocal
    split at h
    · rename_i i hfind
      cases h
      obtain ⟨howner, hunknown, hleast⟩ := Predicate.least_of_find?_owners hfind
      exact .unknown i howned howner hunknown hleast
    · split at h
      · rename_i hnil
        cases h
        have hno : s.predicate.hasLocal = false := by
          cases hfloating : s.floating with
          | false => exact hs hfloating
          | true => exact howned hfloating
        exact .bare (Predicate.attributes_eq_nil_of_owners hno hnil)
      · cases h
      · cases h

private theorem not_misplaced_of_ofAssertion {site : Site} (h : ofAssertion known s = .ok site)
    (hs : s.floating = false → s.predicate.hasLocal = false) :
    ¬ s.predicate.Misplaced known s.floating e := by
  obtain ⟨hlocal, hknown, hplace⟩ := ofAssertion_eq_ok h hs
  intro hmisplaced
  cases hmisplaced with
  | ownerless _ hlocal' =>
    rw [hlocal] at hlocal'
    cases hlocal'
  | bare hbare =>
    have hnil := Predicate.owners_eq_nil_of_attributes hbare
    rcases hplace with ⟨i, howners, -⟩ | ⟨hlength, -⟩
    · rw [hnil] at howners
      cases howners
    · rw [hnil] at hlength
      simp at hlength
  | unknown i _ howner hunknown => exact hunknown (hknown i howner)

private theorem ofAssertion_eq_error_iff (hs : s.floating = false → s.predicate.hasLocal = false) :
    ofAssertion known s = .error e ↔ s.predicate.Misplaced known s.floating e := by
  constructor
  · intro h
    exact misplaced_of_ofAssertion h hs
  · intro h
    cases hsite : ofAssertion known s with
    | ok site => exact absurd h (not_misplaced_of_ofAssertion hsite hs)
    | error e' => rw [(misplaced_of_ofAssertion hsite hs).unique h]

end Site

/-- The predicates of a query as they are written, each with the token that declares it, in the order
in which they are placed. A floating predicate is declared by none. -/
def Query.stated (q : Query) : List (Option Identifier × Predicate) :=
  q.predicates.map (fun p => (none, p))
    ++ q.tokens.filterMap fun t => t.predicate.map fun p => (some t.identifier, p)

def Assertion.ofStated : Option Identifier × Predicate → Assertion
  | (none, p) => ⟨true, p⟩
  | (some i, p) => ⟨false, p.raise i⟩

variable {q : Query} {e : CompileError}

private theorem Query.assertions_eq_map_stated (q : Query) :
    q.assertions = q.stated.map Assertion.ofStated := by
  simp only [assertions, stated, List.map_append, List.map_map, List.map_filterMap,
    Option.map_map]
  rfl

private theorem Query.mem_stated {s : Option Identifier × Predicate} :
    s ∈ q.stated ↔ (∃ p ∈ q.predicates, s = (none, p)) ∨
      ∃ t ∈ q.tokens, ∃ p ∈ t.predicate, s = (some t.identifier, p) := by
  simp only [stated, List.mem_append, List.mem_map, List.mem_filterMap, Option.map_eq_some_iff,
    Option.mem_def, @eq_comm _ s]

private theorem Query.mem_identifiers_of_mem_stated {i : Identifier} {p : Predicate}
    (h : (some i, p) ∈ q.stated) : i ∈ q.identifiers := by
  rcases mem_stated.1 h with ⟨r, -, heq⟩ | ⟨t, ht, r, -, heq⟩
  · cases heq
  · cases heq
    simp only [identifiers, List.mem_eraseDups, List.mem_append, List.mem_map]
    exact .inl (.inl ⟨t, ht, rfl⟩)

private theorem Query.none_mem_stated {p : Predicate} :
    (none, p) ∈ q.stated ↔ p ∈ q.predicates := by
  simp [mem_stated]

namespace Placement

private theorem ofAssertion_stated_eq_error_iff {s : Option Identifier × Predicate}
    (hs : s ∈ q.stated) :
    Site.ofAssertion q.identifiers (.ofStated s) = .error e ↔
      s.2.Misplaced q.identifiers s.1.isNone e := by
  obtain ⟨carrier, p⟩ := s
  cases carrier with
  | none => exact Site.ofAssertion_eq_error_iff (s := ⟨true, p⟩) fun h => by cases h
  | some i =>
    have hi := Query.mem_identifiers_of_mem_stated hs
    show _ ↔ p.Misplaced q.identifiers false e
    rw [← Predicate.misplaced_raise hi]
    exact Site.ofAssertion_eq_error_iff (s := ⟨false, p.raise i⟩) fun _ => p.hasLocal_raise i

private theorem ofQuery_eq_error_iff : ofQuery q = .error e ↔
    q.stated.mapM (fun s => Site.ofAssertion q.identifiers (.ofStated s)) = .error e := by
  rw [ofQuery, Sequence.map_eq_error_iff, Query.assertions_eq_map_stated, List.mapM_map]
  rfl

private theorem exists_ofQuery_eq_error_iff : (∃ e, ofQuery q = .error e) ↔
    ∃ s ∈ q.stated, ∃ e, s.2.Misplaced q.identifiers s.1.isNone e := by
  simp only [ofQuery_eq_error_iff, Sequence.exists_mapM_eq_error_iff]
  refine exists_congr fun s => and_congr_right fun hs => exists_congr fun e => ?_
  exact ofAssertion_stated_eq_error_iff hs

/-- A query is refused for the first of its predicates that has no place. -/
theorem ofQuery_eq_error_iff_first : ofQuery q = .error e ↔
    ∃ before s after, q.stated = before ++ s :: after ∧
      (∀ r ∈ before, ∀ e', ¬ r.2.Misplaced q.identifiers r.1.isNone e') ∧
      s.2.Misplaced q.identifiers s.1.isNone e := by
  rw [ofQuery_eq_error_iff, Sequence.mapM_eq_error_iff]
  have hok {r : Option Identifier × Predicate} (hr : r ∈ q.stated) :
      (∃ site, Site.ofAssertion q.identifiers (.ofStated r) = .ok site) ↔
        ∀ e', ¬ r.2.Misplaced q.identifiers r.1.isNone e' := by
    simp only [← ofAssertion_stated_eq_error_iff hr]
    cases Site.ofAssertion q.identifiers (.ofStated r) <;> simp
  refine exists_congr fun before => exists_congr fun s => exists_congr fun after => ?_
  refine and_congr_right fun hsplit => and_congr ?_ ?_
  · refine forall₂_congr fun r hr => hok ?_
    simp [hsplit, hr]
  · apply ofAssertion_stated_eq_error_iff
    simp [hsplit]

section Shape

variable {pl : Placement}

private theorem predicate?_of_mem_merged {known : List Identifier} {sites : List Site}
    {m : Identifier × Predicate} (hm : m ∈ (ofSites known sites).merged) :
    (ofSites known sites).predicate? m.1 = some m.2 := by
  obtain ⟨i, hi, hmap⟩ := List.mem_filterMap.1 hm
  obtain ⟨p, hp, rfl⟩ := Option.map_eq_some_iff.1 hmap
  rw [predicate?_ofSites, if_pos hi, hp]
  rfl

private theorem owner_eq_none_of_mem_merged (h : ofQuery q = .ok pl) {m : Identifier × Predicate}
    (hm : m ∈ pl.merged) {a : Attribute} (ha : a ∈ m.2.attributes) : a.owner = none := by
  obtain ⟨sites, rfl, -⟩ := exists_sites_of_ofQuery h
  have howners := owners_of_predicate?_eq_some h (predicate?_of_mem_merged hm)
  cases howner : a.owner with
  | none => rfl
  | some i =>
    have hi : i ∈ m.2.owners := Predicate.mem_owners.2 ⟨a, ha, howner⟩
    rw [howners] at hi
    cases hi

private theorem exists_owner_of_mem_deferred (h : ofQuery q = .ok pl) {p : Predicate}
    (hp : p ∈ pl.deferred) {a : Attribute} (ha : a ∈ p.attributes) :
    ∃ i ∈ q.identifiers, a.owner = some i := by
  obtain ⟨hlocal, -, hknown⟩ := owners_of_mem_deferred h hp
  obtain ⟨i, hi⟩ := Option.ne_none_iff_exists'.1 (Predicate.hasLocal_eq_false_iff.1 hlocal a ha)
  exact ⟨i, hknown i (Predicate.mem_owners.2 ⟨a, ha, hi⟩), hi⟩

private theorem exists_ne_owner_of_mem_deferred (h : ofQuery q = .ok pl) {p : Predicate}
    (hp : p ∈ pl.deferred) : ∃ a ∈ p.attributes, ∃ b ∈ p.attributes, a.owner ≠ b.owner := by
  obtain ⟨-, hlength, -⟩ := owners_of_mem_deferred h hp
  have hnodup := p.nodup_owners
  match howners : p.owners with
  | [] => simp [howners] at hlength
  | [i] => simp [howners] at hlength
  | i :: j :: rest =>
    have hi : i ∈ p.owners := by simp [howners]
    have hj : j ∈ p.owners := by simp [howners]
    obtain ⟨a, ha, hai⟩ := Predicate.mem_owners.1 hi
    obtain ⟨b, hb, hbj⟩ := Predicate.mem_owners.1 hj
    rw [howners, List.nodup_cons] at hnodup
    have hij : i ≠ j := fun hij => hnodup.1 (hij ▸ List.mem_cons_self)
    refine ⟨a, ha, b, hb, ?_⟩
    rw [hai, hbj]
    exact fun h => hij (Option.some.inj h)

end Shape

/-- Placing fails exactly if a floating predicate has a local attribute, a predicate has no attribute
or a predicate names a token outside the query, and then for the first predicate of which this is
true. After placing, merged predicates have local attributes only, and the attributes of a deferred
predicate belong to two tokens of the query or more. -/
theorem ofQuery_refuses_first_misplaced (q : Query) :
    ((∃ e, ofQuery q = .error e) ↔
        (∃ p ∈ q.predicates, ∃ a ∈ p.attributes, a.owner = none) ∨
        (∃ s ∈ q.stated, s.2.attributes = []) ∨
        ∃ s ∈ q.stated, ∃ a ∈ s.2.attributes, ∃ i, a.owner = some i ∧ i ∉ q.identifiers) ∧
      (∀ e, ofQuery q = .error e ↔ ∃ before s after, q.stated = before ++ s :: after ∧
        (∀ r ∈ before, ∀ e', ¬ r.2.Misplaced q.identifiers r.1.isNone e') ∧
        s.2.Misplaced q.identifiers s.1.isNone e) ∧
      ∀ pl, ofQuery q = .ok pl →
        (∀ m ∈ pl.merged, ∀ a ∈ m.2.attributes, a.owner = none) ∧
        ∀ p ∈ pl.deferred, (∀ a ∈ p.attributes, ∃ i ∈ q.identifiers, a.owner = some i) ∧
          ∃ a ∈ p.attributes, ∃ b ∈ p.attributes, a.owner ≠ b.owner := by
  refine ⟨?_, fun e => ofQuery_eq_error_iff_first, ?_⟩
  · rw [exists_ofQuery_eq_error_iff]
    simp only [Predicate.exists_misplaced_iff, Predicate.hasLocal_iff,
      Predicate.exists_owner_not_mem_iff]
    constructor
    · intro ⟨⟨carrier, p⟩, hs, h⟩
      rcases h with ⟨hfloating, hlocal⟩ | hbare | hunknown
      · obtain rfl := Option.isNone_iff_eq_none.1 hfloating
        exact .inl ⟨p, Query.none_mem_stated.1 hs, hlocal⟩
      · exact .inr (.inl ⟨(carrier, p), hs, hbare⟩)
      · exact .inr (.inr ⟨(carrier, p), hs, hunknown⟩)
    · intro h
      rcases h with ⟨p, hp, hlocal⟩ | ⟨s, hs, hbare⟩ | ⟨s, hs, hunknown⟩
      · exact ⟨(none, p), Query.none_mem_stated.2 hp, .inl ⟨rfl, hlocal⟩⟩
      · exact ⟨s, hs, .inr (.inl hbare)⟩
      · exact ⟨s, hs, .inr (.inr hunknown)⟩
  · intro pl h
    refine ⟨fun m hm a ha => owner_eq_none_of_mem_merged h hm ha, fun p hp => ?_⟩
    exact ⟨fun a ha => exists_owner_of_mem_deferred h hp ha, exists_ne_owner_of_mem_deferred h hp⟩

end Placement

end TreeQuery
