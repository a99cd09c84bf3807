import TreeQuery.Placement
import TreeQuery.Proofs.Predicate.Meaning
import TreeQuery.Proofs.Sequence
import TreeQuery.Query.Satisfaction

/-!
Placing predicates keeps what they say. The predicates of a query hold at given places if and only
if the merged predicate of every token holds with its local attributes read at that token and
every deferred predicate holds.
-/

set_option autoImplicit false
set_option relaxedAutoImplicit false

namespace TreeQuery

variable {τ : Type} {m : Interpretation τ} {place : Identifier → τ} {q : Query}

namespace Query

private theorem mem_assertions {s : Assertion} :
    s ∈ q.assertions ↔ (∃ p ∈ q.predicates, s = ⟨true, p⟩) ∨
      ∃ t ∈ q.tokens, ∃ p ∈ t.predicate, s = ⟨false, p.raise t.identifier⟩ := by
  simp only [assertions, List.mem_append, List.mem_map, List.mem_filterMap,
    Option.map_eq_some_iff, Option.mem_def, @eq_comm _ s]

private theorem hasLocal_of_mem_assertions {s : Assertion} (h : s ∈ q.assertions)
    (hs : s.floating = false) : s.predicate.hasLocal = false := by
  rcases mem_assertions.1 h with ⟨p, -, rfl⟩ | ⟨t, -, p, -, rfl⟩
  · cases hs
  · exact Predicate.hasLocal_raise p t.identifier

private theorem predicatesHold_iff :
    q.PredicatesHold m place ↔
      ∀ s ∈ q.assertions, ∀ i, s.predicate.Holds m fun o => place (o.getD i) := by
  constructor
  · intro ⟨hfloating, hdeclared⟩ s hs i
    rcases mem_assertions.1 hs with ⟨p, hp, rfl⟩ | ⟨t, ht, p, hp, rfl⟩
    · exact hfloating p hp i
    · rw [Predicate.holds_carrier (Predicate.hasLocal_raise p t.identifier) i t.identifier,
        Predicate.holds_raise]
      exact hdeclared t ht p hp
  · intro h
    refine ⟨fun p hp i => h ⟨true, p⟩ (mem_assertions.2 (.inl ⟨p, hp, rfl⟩)) i, ?_⟩
    intro t ht p hp
    rw [← Predicate.holds_raise]
    exact h ⟨false, p.raise t.identifier⟩ (mem_assertions.2 (.inr ⟨t, ht, p, hp, rfl⟩)) _

end Query

namespace Site

def Holds (m : Interpretation τ) (place : Identifier → τ) : Site → Prop
  | onToken i p => p.Holds m fun o => place (o.getD i)
  | across p => ∀ i, p.Holds m fun o => place (o.getD i)

/-- Which attributes the predicate of a site has: those of its token only, all local, or those of
several known tokens and none local. -/
def Settled (known : List Identifier) : Site → Prop
  | onToken i p => i ∈ known ∧ p.owners = []
  | across p => p.hasLocal = false ∧ 2 ≤ p.owners.length ∧ ∀ i ∈ p.owners, i ∈ known

variable {known : List Identifier} {s : Assertion} {site : Site}

theorem ofAssertion_eq_ok (h : ofAssertion known s = .ok site)
    (hs : s.floating = false → s.predicate.hasLocal = false) :
    s.predicate.hasLocal = false ∧ (∀ i ∈ s.predicate.owners, i ∈ known) ∧
      ((∃ i, s.predicate.owners = [i] ∧ site = onToken i (s.predicate.lower i)) ∨
        2 ≤ s.predicate.owners.length ∧ site = across s.predicate.normalize) := by
  rw [ofAssertion] at h
  split at h
  · cases h
  · rename_i hlocal
    have hno : s.predicate.hasLocal = false := by
      cases hf : s.floating with
      | false => exact hs hf
      | true => simpa [hf] using hlocal
    split at h
    · cases h
    · rename_i hfind
      refine ⟨hno, by simpa using List.find?_eq_none.1 hfind, ?_⟩
      split at h
      · cases h
      · rename_i i howners
        exact .inl ⟨i, howners, (Except.ok.inj h).symm⟩
      · rename_i hnil hone
        refine .inr ⟨?_, (Except.ok.inj h).symm⟩
        match howners : s.predicate.owners with
        | [] => exact absurd howners hnil
        | [i] => exact absurd howners (hone i)
        | i :: j :: rest => simp

private theorem settled_of_ofAssertion (h : ofAssertion known s = .ok site)
    (hs : s.floating = false → s.predicate.hasLocal = false) : site.Settled known := by
  obtain ⟨hlocal, hknown, ⟨i, howners, rfl⟩ | ⟨hlen, rfl⟩⟩ := ofAssertion_eq_ok h hs
  · refine ⟨hknown i (by simp [howners]), ?_⟩
    rw [List.eq_nil_iff_forall_not_mem]
    intro j hj
    obtain ⟨hj, hji⟩ := Predicate.mem_owners_lower.1 hj
    rw [howners, List.mem_singleton] at hj
    exact hji hj
  · rw [Settled, Predicate.hasLocal_normalize, Predicate.owners_normalize]
    exact ⟨hlocal, hlen, hknown⟩

private theorem holds_ofAssertion (h : ofAssertion known s = .ok site)
    (hs : s.floating = false → s.predicate.hasLocal = false) :
    site.Holds m place ↔ ∀ i, s.predicate.Holds m fun o => place (o.getD i) := by
  obtain ⟨hlocal, -, ⟨i, -, rfl⟩ | ⟨-, rfl⟩⟩ := ofAssertion_eq_ok h hs
  · rw [Holds, Predicate.holds_lower]
    constructor
    · intro hi j
      exact (Predicate.holds_carrier hlocal i j).1 hi
    · intro hall
      exact hall i
  · exact forall_congr' fun i => Predicate.holds_normalize s.predicate

end Site

namespace Placement

section Sites

variable {known : List Identifier} {sites : List Site}

private theorem lookup_filterMap_key {α β : Type} [DecidableEq α] (f : α → Option β) (l : List α)
    (a : α) : (l.filterMap fun b => (f b).map fun p => (b, p)).lookup a =
      if a ∈ l then f a else none := by
  induction l with
  | nil => rfl
  | cons b l ih =>
    rw [List.filterMap_cons]
    by_cases hab : a = b
    · subst hab
      cases hf : f a with
      | none => simp [ih, hf]
      | some p => simp
    · have hbeq : (a == b) = false := by simpa using hab
      cases hf : f b with
      | none => simp [ih, hab]
      | some p => simp [List.lookup_cons, hbeq, ih, hab]

theorem predicate?_ofSites (i : Identifier) :
    (ofSites known sites).predicate? i =
      if i ∈ known then (Predicate.all? (sites.filterMap (Site.on? i))).map Predicate.normalize
      else none := by
  have hlookup := lookup_filterMap_key
    (fun j => (Predicate.all? (sites.filterMap (Site.on? j))).map Predicate.normalize) known i
  simp only [Option.map_map, Function.comp_def] at hlookup
  exact hlookup

private theorem mem_filterMap_on? {i : Identifier} {p : Predicate} :
    p ∈ sites.filterMap (Site.on? i) ↔ Site.onToken i p ∈ sites := by
  rw [List.mem_filterMap]
  constructor
  · intro ⟨site, hsite, hp⟩
    cases site with
    | onToken j p' =>
      rw [Site.on?] at hp
      split at hp
      · rename_i hji
        obtain rfl := Option.some.inj hp
        exact hji ▸ hsite
      · cases hp
    | across p' => cases hp
  · intro h
    exact ⟨_, h, if_pos rfl⟩

private theorem mem_deferred_ofSites {p : Predicate} :
    p ∈ (ofSites known sites).deferred ↔ Site.across p ∈ sites := by
  rw [ofSites, List.mem_filterMap]
  constructor
  · intro ⟨site, hsite, hp⟩
    cases site with
    | onToken j p' => cases hp
    | across p' =>
      obtain rfl := Option.some.inj hp
      exact hsite
  · intro h
    exact ⟨_, h, rfl⟩

private theorem holds_ofSites (hsettled : ∀ site ∈ sites, site.Settled known) :
    (∀ site ∈ sites, site.Holds m place) ↔
      (∀ i, ∀ p ∈ (ofSites known sites).predicate? i, p.Holds m fun o => place (o.getD i)) ∧
        ∀ p ∈ (ofSites known sites).deferred, ∀ i, p.Holds m fun o => place (o.getD i) := by
  have hmerged (i : Identifier) (hi : i ∈ known) :
      (∀ p ∈ (ofSites known sites).predicate? i, p.Holds m fun o => place (o.getD i)) ↔
        ∀ p, Site.onToken i p ∈ sites → p.Holds m fun o => place (o.getD i) := by
    rw [predicate?_ofSites, if_pos hi]
    simp only [Option.mem_def, Option.map_eq_some_iff, forall_exists_index, and_imp,
      forall_apply_eq_imp_iff₂, Predicate.holds_normalize, ← mem_filterMap_on?]
    exact Predicate.holds_all? _
  constructor
  · intro h
    refine ⟨fun i p hp => ?_, fun p hp => h _ (mem_deferred_ofSites.1 hp)⟩
    by_cases hi : i ∈ known
    · exact (hmerged i hi).2 (fun p hp => h _ hp) p hp
    · rw [predicate?_ofSites, if_neg hi] at hp
      cases hp
  · intro ⟨htokens, hdeferred⟩ site hsite
    cases site with
    | onToken i p => exact (hmerged i (hsettled _ hsite).1).1 (htokens i) p hsite
    | across p => exact hdeferred p (mem_deferred_ofSites.2 hsite)

end Sites

section Query

variable {pl : Placement}

theorem exists_sites_of_ofQuery (h : ofQuery q = .ok pl) :
    ∃ sites, pl = ofSites q.identifiers sites ∧
      List.Forall₂ (fun s site => Site.ofAssertion q.identifiers s = .ok site)
        q.assertions sites := by
  rw [ofQuery] at h
  obtain ⟨sites, hsites, rfl⟩ := Sequence.map_eq_ok_iff.1 h
  exact ⟨sites, rfl, Sequence.mapM_eq_ok_iff.1 hsites⟩

private theorem settled_of_ofQuery {sites : List Site}
    (h : List.Forall₂ (fun s site => Site.ofAssertion q.identifiers s = .ok site)
      q.assertions sites) : ∀ site ∈ sites, site.Settled q.identifiers := by
  intro site hsite
  obtain ⟨s, hs, hok⟩ := Sequence.exists_of_mem_right h hsite
  exact Site.settled_of_ofAssertion hok (Query.hasLocal_of_mem_assertions hs)

theorem predicatesHold_iff_placed (h : ofQuery q = .ok pl) :
    q.PredicatesHold m place ↔
      (∀ i, ∀ p ∈ pl.predicate? i, p.Holds m fun o => place (o.getD i)) ∧
        ∀ p ∈ pl.deferred, ∀ i, p.Holds m fun o => place (o.getD i) := by
  obtain ⟨sites, rfl, hsites⟩ := exists_sites_of_ofQuery h
  rw [← holds_ofSites (settled_of_ofQuery hsites), Query.predicatesHold_iff]
  refine Sequence.forall_mem_iff_of_forall₂ hsites ?_
  intro s hs site hok
  exact (Site.holds_ofAssertion hok (Query.hasLocal_of_mem_assertions hs)).symm

theorem mem_identifiers_of_predicate?_eq_some (h : ofQuery q = .ok pl) {i : Identifier}
    {p : Predicate} (hp : pl.predicate? i = some p) : i ∈ q.identifiers := by
  obtain ⟨sites, rfl, -⟩ := exists_sites_of_ofQuery h
  rw [predicate?_ofSites] at hp
  split at hp
  · assumption
  · cases hp

theorem owners_of_predicate?_eq_some (h : ofQuery q = .ok pl) {i : Identifier} {p : Predicate}
    (hp : pl.predicate? i = some p) : p.owners = [] := by
  obtain ⟨sites, rfl, hsites⟩ := exists_sites_of_ofQuery h
  rw [predicate?_ofSites] at hp
  split at hp
  · obtain ⟨p', hall, rfl⟩ := Option.map_eq_some_iff.1 hp
    rw [Predicate.owners_normalize, List.eq_nil_iff_forall_not_mem]
    intro j hj
    obtain ⟨a, ha, haj⟩ := Predicate.mem_owners.1 hj
    rw [Predicate.attributes_of_all?_eq_some hall, List.mem_flatMap] at ha
    obtain ⟨r, hr, har⟩ := ha
    have hnone := (settled_of_ofQuery hsites _ (mem_filterMap_on?.1 hr)).2
    have hjr : j ∈ r.owners := Predicate.mem_owners.2 ⟨a, har, haj⟩
    rw [hnone] at hjr
    cases hjr
  · cases hp

theorem owners_of_mem_deferred (h : ofQuery q = .ok pl) {p : Predicate} (hp : p ∈ pl.deferred) :
    p.hasLocal = false ∧ 2 ≤ p.owners.length ∧ ∀ i ∈ p.owners, i ∈ q.identifiers := by
  obtain ⟨sites, rfl, hsites⟩ := exists_sites_of_ofQuery h
  exact settled_of_ofQuery hsites _ (mem_deferred_ofSites.1 hp)

private theorem hasLocal_of_mem_predicates (h : ofQuery q = .ok pl) {p : Predicate}
    (hp : p ∈ q.predicates) : p.hasLocal = false := by
  obtain ⟨sites, -, hsites⟩ := exists_sites_of_ofQuery h
  have hs : (⟨true, p⟩ : Assertion) ∈ q.assertions := Query.mem_assertions.2 (.inl ⟨p, hp, rfl⟩)
  obtain ⟨site, -, hok⟩ := Sequence.exists_of_mem_right hsites.flip hs
  exact (Site.ofAssertion_eq_ok hok (Query.hasLocal_of_mem_assertions hs)).1

/-- The floating predicates and those declared on tokens hold if and only if the merged predicates
of all tokens and the deferred ones hold, wherever `elsewhere` the attributes without owner of
floating and deferred predicates would be read. -/
theorem asserted_iff_placed (q : Query) (pl : Placement) (h : ofQuery q = .ok pl) {τ : Type}
    (m : Interpretation τ) (place : Identifier → τ) (elsewhere : τ) :
    ((∀ p ∈ q.predicates, p.Holds m fun o => o.elim elsewhere place) ∧
        ∀ t ∈ q.tokens, ∀ p ∈ t.predicate, p.Holds m fun o => place (o.getD t.identifier)) ↔
      (∀ i, ∀ p ∈ pl.predicate? i, p.Holds m fun o => place (o.getD i)) ∧
        ∀ p ∈ pl.deferred, p.Holds m fun o => o.elim elsewhere place := by
  have hcarrier {p : Predicate} (hp : p.hasLocal = false) :
      (p.Holds m fun o => o.elim elsewhere place) ↔
        ∀ i, p.Holds m fun o => place (o.getD i) := by
    have hread (i : Identifier) : (p.Holds m fun o => o.elim elsewhere place) ↔
        p.Holds m fun o => place (o.getD i) :=
      Predicate.holds_owned hp fun _ => rfl
    exact ⟨fun hholds i => (hread i).1 hholds, fun hall => (hread ⟨0⟩).2 (hall ⟨0⟩)⟩
  have hfloating : (∀ p ∈ q.predicates, p.Holds m fun o => o.elim elsewhere place) ↔
      ∀ p ∈ q.predicates, ∀ i, p.Holds m fun o => place (o.getD i) :=
    forall₂_congr fun p hp => hcarrier (hasLocal_of_mem_predicates h hp)
  have hdeferred : (∀ p ∈ pl.deferred, p.Holds m fun o => o.elim elsewhere place) ↔
      ∀ p ∈ pl.deferred, ∀ i, p.Holds m fun o => place (o.getD i) :=
    forall₂_congr fun p hp => hcarrier (owners_of_mem_deferred h hp).1
  rw [hfloating, hdeferred]
  exact predicatesHold_iff_placed h

/-- Each token has a condition of its own, one of them floating, and the first token declares a
condition about both. -/
def crossing : Query where
  tokens := [
    ⟨⟨0⟩, some (.comparison .equal (.attr ⟨none, "lemma"⟩) (.attr ⟨some ⟨1⟩, "lemma"⟩))⟩,
    ⟨⟨1⟩, some (.negation (.absence ⟨some ⟨1⟩, "feats"⟩))⟩]
  dependencies := []
  predicates := [.presence ⟨some ⟨0⟩, "pos"⟩]
  constraints := []

theorem crossing_placed_holds :
    ∃ pl, ofQuery crossing = .ok pl ∧ pl.merged.length = 2 ∧ pl.deferred.length = 1 ∧
      let m : Interpretation Nat :=
        ⟨fun place name => place = 5 ∧ name = "pos" ∨ place = 7 ∧ name = "feats",
          fun r x y => r = .equal ∧ x = .attr 5 "lemma" ∧ y = .attr 7 "lemma"⟩
      let place : Identifier → Nat := fun i => 5 + 2 * i.index
      (∀ i, ∀ p ∈ pl.predicate? i, p.Holds m fun o => place (o.getD i)) ∧
        ∀ p ∈ pl.deferred, p.Holds m fun o => o.elim 0 place := by
  have hplaced : (ofQuery crossing).toOption.map (fun pl =>
      (pl.merged.length, pl.deferred.length)) = some (2, 1) := by
    decide +kernel
  cases hpl : ofQuery crossing with
  | error e =>
    rw [hpl] at hplaced
    cases hplaced
  | ok pl =>
    rw [hpl] at hplaced
    obtain ⟨hmerged, hdeferred⟩ := Prod.mk.inj (Option.some.inj hplaced)
    refine ⟨pl, rfl, hmerged, hdeferred, ?_⟩
    intro m place
    refine (asserted_iff_placed crossing pl hpl m place 0).1 ⟨?_, ?_⟩
    · simp [crossing, Predicate.Holds, m, place]
    · simp [crossing, Predicate.Holds, Operand.reading, m, place]

end Query

end Placement

end TreeQuery
