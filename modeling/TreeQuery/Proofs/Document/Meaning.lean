import TreeQuery.Proofs.Document.Numbering
import TreeQuery.Proofs.Query.Draft

/-!
The translation of documents. One lemma for each form says when it is accepted, which names it
mentions and what it adds to the query. Main statement: a document has a query if and only if its
token names differ, no junction in it is empty and it is not made of floating conditions only, and
then the query is the document with the names exchanged for handles.
-/

set_option autoImplicit false
set_option relaxedAutoImplicit false

namespace TreeQuery.Document

private theorem AttributeForm.does_translate (a : AttributeForm) :
    Does a.translate True a.owner.toList fun f q r q' => r = a.image f ∧ q' = q := by
  rcases a with ⟨name, _ | owner⟩
  · refine (Does.pure _).mono Iff.rfl rfl ?_
    rintro f q r q' ⟨rfl, rfl⟩
    exact ⟨rfl, rfl⟩
  · refine (Does.handle owner).map.mono Iff.rfl rfl ?_
    rintro f q r q' ⟨i, ⟨rfl, rfl⟩, rfl⟩
    exact ⟨rfl, rfl⟩

private theorem OperandForm.does_translate (x : OperandForm) :
    Does x.translate True x.mentions fun f q r q' => r = x.image f ∧ q' = q := by
  cases x with
  | attr a =>
    refine a.does_translate.map.mono Iff.rfl rfl ?_
    rintro f q r q' ⟨i, ⟨rfl, rfl⟩, rfl⟩
    exact ⟨rfl, rfl⟩
  | value v =>
    refine (Does.pure _).mono Iff.rfl rfl ?_
    rintro f q r q' ⟨rfl, rfl⟩
    exact ⟨rfl, rfl⟩

private theorem joinsRight_nest (c : Connective) (p : Predicate) (ps : List Predicate) :
    Predicate.JoinsRight c (p :: ps) (Predicate.nest c p ps) := by
  induction ps generalizing p with
  | nil => exact .last p
  | cons r ps ih => exact .cons p (ih r)

private theorem not_hasEmptyJunction_junction {c : Connective} {operands : List PredicateForm} :
    ¬ (PredicateForm.junction c operands).HasEmptyJunction ↔
      (∀ p ∈ operands, ¬ p.HasEmptyJunction) ∧ operands ≠ [] := by
  constructor
  · intro h
    refine ⟨fun p hp hempty => h (.operand hp hempty), ?_⟩
    rintro rfl
    exact h (.here c)
  · rintro ⟨hall, hne⟩ (_ | ⟨hp, hempty⟩)
    · exact hne rfl
    · exact hall _ hp hempty

private theorem not_hasEmptyJunction_negation {p : PredicateForm} :
    ¬ (PredicateForm.negation p).HasEmptyJunction ↔ ¬ p.HasEmptyJunction := by
  refine not_congr ⟨?_, .negation⟩
  rintro ⟨⟩
  assumption

private theorem does_join (c : Connective) {operands : List PredicateForm} {ps : List Predicate}
    {f : String → Identifier} (h : List.Forall₂ (PredicateForm.Denotes f) operands ps) :
    Does (match Predicate.join? c ps with
      | some p => pure p
      | none => throw (emptyJunction c) : Translation Predicate) (operands ≠ []) []
      fun _ q p q' => Predicate.JoinsRight c ps p ∧ q' = q := by
  cases h with
  | nil =>
    cases c with
    | conj => exact (Does.throw _).mono (by simp) rfl fun _ _ _ _ h => h
    | disj => exact (Does.throw _).mono (by simp) rfl fun _ _ _ _ h => h
  | cons _ _ =>
    refine (Does.pure _).mono (by simp) rfl ?_
    rintro f q p q' ⟨rfl, rfl⟩
    exact ⟨joinsRight_nest c _ _, rfl⟩

mutual

private theorem PredicateForm.does_translate (p : PredicateForm) :
    Does p.translate (¬ p.HasEmptyJunction) p.mentions fun f q r q' =>
      PredicateForm.Denotes f p r ∧ q' = q := by
  match p with
  | .junction c operands =>
    refine ((does_translateAll operands).bind fun f q ps q' h => does_join c h.1).mono
      not_hasEmptyJunction_junction.symm (List.append_nil _) ?_
    rintro f q r _ ⟨ps, q', ⟨hps, rfl⟩, hjoin, rfl⟩
    exact ⟨.junction hps hjoin, rfl⟩
  | .negation p =>
    refine p.does_translate.map.mono not_hasEmptyJunction_negation.symm rfl ?_
    rintro f q r _ ⟨r', ⟨hr, rfl⟩, rfl⟩
    exact ⟨.negation hr, rfl⟩
  | .presence a =>
    refine a.does_translate.map.mono (by simp only [true_iff]; rintro ⟨⟩) rfl ?_
    rintro f q r _ ⟨r', ⟨rfl, rfl⟩, rfl⟩
    exact ⟨.presence a, rfl⟩
  | .absence a =>
    refine a.does_translate.map.mono (by simp only [true_iff]; rintro ⟨⟩) rfl ?_
    rintro f q r _ ⟨r', ⟨rfl, rfl⟩, rfl⟩
    exact ⟨.absence a, rfl⟩
  | .comparison s x y =>
    refine (x.does_translate.bind fun _ _ _ _ _ => y.does_translate.map).mono
      (by simp only [true_and, true_iff]; rintro ⟨⟩) rfl ?_
    rintro f q r _ ⟨x', _, ⟨rfl, rfl⟩, y', ⟨rfl, rfl⟩, rfl⟩
    exact ⟨.comparison s x y, rfl⟩

theorem does_translateAll (ps : List PredicateForm) :
    Does (translateAll ps) (∀ p ∈ ps, ¬ p.HasEmptyJunction) (allMentions ps) fun f q rs q' =>
      List.Forall₂ (PredicateForm.Denotes f) ps rs ∧ q' = q := by
  match ps with
  | [] =>
    refine (Does.pure _).mono (by simp) rfl ?_
    rintro f q rs _ ⟨rfl, rfl⟩
    exact ⟨.nil, rfl⟩
  | p :: ps =>
    refine (p.does_translate.bind fun _ _ _ _ _ => (does_translateAll ps).map).mono (by simp) rfl ?_
    rintro f q rs _ ⟨r, _, ⟨hr, rfl⟩, rs', ⟨hrs, rfl⟩, rfl⟩
    exact ⟨.cons hr hrs, rfl⟩

end

private theorem does_translate? (o : Option PredicateForm) :
    Does (translate? o) (∀ p ∈ o, ¬ p.HasEmptyJunction) ((o.map PredicateForm.mentions).getD [])
      fun f q r q' => Option.Rel (PredicateForm.Denotes f) o r ∧ q' = q := by
  cases o with
  | none =>
    refine (Does.pure _).mono (by simp) rfl ?_
    rintro f q r _ ⟨rfl, rfl⟩
    exact ⟨.none, rfl⟩
  | some p =>
    refine p.does_translate.map.mono (by simp) rfl ?_
    rintro f q r _ ⟨r', ⟨hr, rfl⟩, rfl⟩
    exact ⟨.some hr, rfl⟩

-- what the forms add to each part of a query
def addTokens (ts : List Token) (q : Query) : Query := { q with tokens := q.tokens ++ ts }

def addDependencies (ds : List Dependency) (q : Query) : Query :=
  { q with dependencies := q.dependencies ++ ds }

def addConstraints (cs : List OrderConstraint) (q : Query) : Query :=
  { q with constraints := q.constraints ++ cs }

def addPredicates (ps : List Predicate) (q : Query) : Query :=
  { q with predicates := q.predicates ++ ps }

private theorem TokenForm.does_translate (t : TokenForm) :
    Does t.translate (∀ p ∈ t.predicate, ¬ p.HasEmptyJunction) t.mentions fun f q _ q' =>
      ∃ u, TokenForm.Denotes f t u ∧ q' = addTokens [u] q := by
  refine ((Does.handle t.name).bind fun _ _ i _ _ => (does_translate? t.predicate).bind
    fun _ _ p _ _ => Does.revise (g := (·.declare i p)) (h := addTokens [⟨i, p⟩]) (fun _ => rfl)
      fun _ => rfl).mono (by simp) (by simp [TokenForm.mentions]) ?_
  rintro f q _ _ ⟨i, _, ⟨rfl, rfl⟩, p, _, ⟨hp, rfl⟩, rfl⟩
  exact ⟨⟨f t.name, p⟩, ⟨rfl, hp⟩, rfl⟩

private theorem does_declareAll (declared : List String) (ts : List TokenForm) :
    Does (declareAll declared ts)
      ((∀ t ∈ ts, ∀ p ∈ t.predicate, ¬ p.HasEmptyJunction) ∧
        (ts.map TokenForm.name).Nodup ∧ ∀ t ∈ ts, t.name ∉ declared)
      (ts.flatMap TokenForm.mentions)
      fun f q _ q' => ∃ us, List.Forall₂ (TokenForm.Denotes f) ts us ∧ q' = addTokens us q := by
  induction ts generalizing declared with
  | nil =>
    refine (Does.pure ()).mono (by simp) rfl ?_
    rintro f q _ _ ⟨-, rfl⟩
    exact ⟨[], .nil, by simp [addTokens]⟩
  | cons t ts ih =>
    rw [declareAll]
    split
    · rename_i hdeclared
      refine (Does.throw _).mono (iff_of_false id ?_) rfl fun _ _ _ _ h => h
      rintro ⟨-, -, hnew⟩
      exact hnew t List.mem_cons_self hdeclared
    · rename_i hdeclared
      refine (t.does_translate.bind fun _ _ _ _ _ => ih (t.name :: declared)).mono ?_
        List.flatMap_cons.symm ?_
      · simp only [List.forall_mem_cons, List.map_cons, List.nodup_cons]
        simp only [List.mem_cons, not_or, List.mem_map, not_exists, not_and, forall_and]
        constructor
        · rintro ⟨ht, hts, hnodup, hne, hnew⟩
          exact ⟨⟨ht, hts⟩, ⟨hne, hnodup⟩, hdeclared, hnew⟩
        · rintro ⟨⟨ht, hts⟩, ⟨hne, hnodup⟩, -, hnew⟩
          exact ⟨ht, hts, hnodup, hne, hnew⟩
      · rintro f q _ _ ⟨_, _, ⟨u, hu, rfl⟩, us, hus, rfl⟩
        exact ⟨u :: us, .cons hu hus, by simp [addTokens]⟩

private theorem DependencyForm.does_translate (e : DependencyForm) :
    Does e.translate True [e.governor, e.dependent] fun f q _ q' =>
      ∃ d, d = e.image f ∧ q' = addDependencies [d] q := by
  refine ((Does.handle e.governor).bind fun _ _ i _ _ => (Does.handle e.dependent).bind
    fun _ _ j _ _ => Does.revise (g := (·.dependency i j)) (h := addDependencies [⟨i, j⟩])
      (fun _ => rfl) fun _ => rfl).mono (by simp) rfl ?_
  rintro f q _ _ ⟨i, _, ⟨rfl, rfl⟩, j, _, ⟨rfl, rfl⟩, rfl⟩
  exact ⟨_, rfl, rfl⟩

private theorem OrderForm.does_translate (e : OrderForm) :
    Does e.translate True [e.before, e.after] fun f q _ q' =>
      ∃ c, c = e.image f ∧ q' = addConstraints [c] q := by
  refine ((Does.handle e.before).bind fun _ _ i _ _ => (Does.handle e.after).bind
    fun _ _ j _ _ => Does.revise (g := (·.order i j e.kind)) (h := addConstraints [⟨i, j, e.kind⟩])
      (fun _ => rfl) fun _ => rfl).mono (by simp) rfl ?_
  rintro f q _ _ ⟨i, _, ⟨rfl, rfl⟩, j, _, ⟨rfl, rfl⟩, rfl⟩
  exact ⟨_, rfl, rfl⟩

private theorem PredicateForm.does_addFloating (p : PredicateForm) :
    Does p.addFloating (¬ p.HasEmptyJunction) p.mentions fun f q _ q' =>
      ∃ r, PredicateForm.Denotes f p r ∧ q' = addPredicates [r] q := by
  refine (p.does_translate.bind fun _ _ r _ _ => Does.revise (g := (·.predicate r))
    (h := addPredicates [r]) (fun _ => rfl) fun _ => rfl).mono (by simp) (List.append_nil _) ?_
  rintro f q _ _ ⟨r, _, ⟨hr, rfl⟩, rfl⟩
  exact ⟨r, hr, rfl⟩

private theorem eq_map_of_forall₂ {α β : Type} {g : α → β} {l : List α} {l' : List β}
    (h : List.Forall₂ (fun a b => b = g a) l l') : l' = l.map g := by
  have heq : List.Forall₂ Eq (l.map g) l' :=
    List.forall₂_map_left_iff.2 (h.imp fun _ _ hab => hab.symm)
  rw [List.forall₂_eq_eq_eq] at heq
  exact heq.symm

private theorem does_translate (d : Document) :
    Does d.translate
      ((d.tokens.map TokenForm.name).Nodup ∧ ∀ p ∈ d.conditions, ¬ p.HasEmptyJunction)
      d.mentions fun f q _ q' => ∃ r, Denotes f d r ∧
        q' = addPredicates r.predicates (addConstraints r.constraints
          (addDependencies r.dependencies (addTokens r.tokens q))) := by
  have htokens := does_declareAll [] d.tokens
  have hdeps := Does.forM addDependencies (by simp [addDependencies])
    (by simp [addDependencies]) DependencyForm.does_translate d.dependencies
  have horder := Does.forM addConstraints (by simp [addConstraints])
    (by simp [addConstraints]) OrderForm.does_translate d.order
  have hpreds := Does.forM addPredicates (by simp [addPredicates])
    (by simp [addPredicates]) PredicateForm.does_addFloating d.predicates
  refine (htokens.bind fun _ _ _ _ _ => hdeps.bind fun _ _ _ _ _ => horder.bind
    fun _ _ _ _ _ => hpreds).mono ?_ (by simp [mentions]) ?_
  · simp only [conditions, List.forall_mem_append, List.mem_filterMap, forall_exists_index, and_imp]
    constructor
    · rintro ⟨⟨hts, hnodup, -⟩, -, -, hps⟩
      exact ⟨hnodup, fun p t ht hp => hts t ht p hp, hps⟩
    · rintro ⟨hnodup, hts, hps⟩
      exact ⟨⟨fun t ht p hp => hts p t ht hp, hnodup, by simp⟩, by simp, by simp, hps⟩
  · rintro f q _ _ ⟨_, _, ⟨us, hus, rfl⟩, _, _, ⟨ds, hds, rfl⟩, _, _, ⟨cs, hcs, rfl⟩, rs, hrs, rfl⟩
    exact ⟨⟨us, ds, rs, cs⟩, ⟨hus, eq_map_of_forall₂ hds, eq_map_of_forall₂ hcs, hrs⟩, rfl⟩

private theorem query_eq_of_run {d : Document} {roll : Roll}
    (h : d.translate.run {} = .ok ((), roll)) :
    d.query = roll.draft.build.mapError fun e => .notSupported e.message := by
  rw [query, h]
  rfl

private theorem query_eq_error_of_run {d : Document} {e : FrontendError}
    (h : d.translate.run {} = .error e) : d.query = .error e := by
  rw [query, h]
  rfl

section Described

variable {f : String → Identifier} {d : Document} {q : Query}

private theorem Denotes.identifiers_tokens (h : Denotes f d q) :
    q.tokens.map Token.identifier = (d.tokens.map TokenForm.name).map f := by
  rw [List.map_map, ← List.forall₂_eq_eq_eq, List.forall₂_map_left_iff,
    List.forall₂_map_right_iff]
  exact h.tokens.flip.imp fun _ _ ht => ht.identifier_eq

private theorem name_mem_mentions {t : TokenForm} (h : t ∈ d.tokens) : t.name ∈ d.mentions := by
  simp only [mentions, List.mem_append, List.mem_flatMap]
  exact .inl (.inl (.inl ⟨t, h, List.mem_cons_self⟩))

private theorem Denotes.nodup_tokens (h : Denotes f d q) (hf : Set.InjOn f {n | n ∈ d.mentions})
    (hnames : (d.tokens.map TokenForm.name).Nodup) : (q.tokens.map Token.identifier).Nodup := by
  rw [h.identifiers_tokens]
  refine hnames.map_on ?_
  intro m hm n hn
  obtain ⟨s, hs, rfl⟩ := List.mem_map.1 hm
  obtain ⟨t, ht, rfl⟩ := List.mem_map.1 hn
  exact hf (name_mem_mentions hs) (name_mem_mentions ht)

private theorem Denotes.identifiers_ne_nil_iff (h : Denotes f d q) :
    q.identifiers ≠ [] ↔ d.tokens ≠ [] ∨ d.dependencies ≠ [] ∨ d.order ≠ [] := by
  have htokens : q.tokens = [] ↔ d.tokens = [] := by
    rw [← List.length_eq_zero_iff, ← h.tokens.length_eq, List.length_eq_zero_iff]
  rw [ne_eq, Query.identifiers_eq_nil_iff, htokens, h.dependencies, h.constraints,
    List.map_eq_nil_iff, List.map_eq_nil_iff]
  tauto

end Described

private theorem query_eq_of_accepted {d : Document} (hnames : (d.tokens.map TokenForm.name).Nodup)
    (hconditions : ∀ p ∈ d.conditions, ¬ p.HasEmptyJunction) :
    ∃ f q, Set.InjOn f {n | n ∈ d.mentions} ∧ NumbersByFirstMention f d.mentions ∧
      Denotes f d q ∧
      d.query = if q.identifiers = [] then .error (.notSupported CompileError.emptyQuery.message)
        else .ok q := by
  obtain ⟨_, roll, hrun, -, hresult⟩ :=
    (does_translate d).succeeds ⟨hnames, hconditions⟩ {} [] Roll.lists_empty
  have hf := numbers_idxOf (enroll [] d.mentions)
  obtain ⟨q, hq, hparts⟩ := hresult _ hf
  have hq' : roll.draft.parts = q := hparts
  have hinj : Set.InjOn (fun n => (⟨(enroll [] d.mentions).idxOf n⟩ : Identifier))
      {n | n ∈ d.mentions} := hf.injOn.mono fun n hn => mem_enroll.2 (.inr hn)
  refine ⟨_, q, hinj, hf.byFirstMention, hq, ?_⟩
  have hnone := Draft.firstRepeated?_eq_none_iff.2 ⟨hq.nodup_tokens hinj hnames,
    fun _ _ => List.not_mem_nil⟩
  rw [query_eq_of_run hrun, Draft.build, hq', hnone]
  simp only [List.isEmpty_iff]
  split
  · rfl
  · rfl

theorem query_ne_parsingFailed (d : Document) (es : List InputError) :
    d.query ≠ .error (.parsingFailed es) := by
  by_cases haccepts : (d.tokens.map TokenForm.name).Nodup ∧
      ∀ p ∈ d.conditions, ¬ p.HasEmptyJunction
  · obtain ⟨_, q, _, _, _, hquery⟩ := query_eq_of_accepted haccepts.1 haccepts.2
    rw [hquery]
    split
    · simp
    · simp
  · obtain ⟨reason, hrun⟩ := (does_translate d).refuses haccepts {} [] Roll.lists_empty
    rw [query_eq_error_of_run hrun]
    simp

/-- A document has a query if and only if its token names differ, no junction in it is empty and it
has a token, a dependency or an order constraint; else it is refused. The query has handles,
numbered by first mention, in place of the names. -/
theorem query_numbers_names (d : Document) :
    ((∃ q, d.query = .ok q) ↔
      (d.tokens.map TokenForm.name).Nodup ∧ (∀ p ∈ d.conditions, ¬ p.HasEmptyJunction) ∧
        (d.tokens ≠ [] ∨ d.dependencies ≠ [] ∨ d.order ≠ [])) ∧
      (∀ e, d.query = .error e → ∃ reason, e = .notSupported reason) ∧
      ∀ q, d.query = .ok q → ∃ f : String → Identifier,
        Set.InjOn f {n | n ∈ d.mentions} ∧ NumbersByFirstMention f d.mentions ∧ Denotes f d q := by
  by_cases haccepts : (d.tokens.map TokenForm.name).Nodup ∧
      ∀ p ∈ d.conditions, ¬ p.HasEmptyJunction
  · obtain ⟨f, q, hinj, hfirst, hdenotes, hquery⟩ := query_eq_of_accepted haccepts.1 haccepts.2
    rw [hquery, ← hdenotes.identifiers_ne_nil_iff]
    split
    · rename_i hnil
      refine ⟨iff_of_false ?_ fun h => h.2.2 hnil, ?_, ?_⟩
      · rintro ⟨_, ⟨⟩⟩
      · rintro _ ⟨⟩
        exact ⟨_, rfl⟩
      · rintro _ ⟨⟩
    · rename_i hne
      refine ⟨iff_of_true ⟨q, rfl⟩ ⟨haccepts.1, haccepts.2, hne⟩, ?_, ?_⟩
      · rintro _ ⟨⟩
      · rintro _ ⟨⟩
        exact ⟨f, hinj, hfirst, hdenotes⟩
  · obtain ⟨reason, hrun⟩ := (does_translate d).refuses haccepts {} [] Roll.lists_empty
    rw [query_eq_error_of_run hrun]
    refine ⟨iff_of_false ?_ fun h => haccepts ⟨h.1, h.2.1⟩, ?_, ?_⟩
    · rintro ⟨_, ⟨⟩⟩
    · rintro _ ⟨⟩
      exact ⟨reason, rfl⟩
    · rintro _ ⟨⟩

/-- The condition on the first token mentions the second token and a token that is not declared. -/
def anticipating : Document where
  tokens := [
    ⟨"a", some (.junction .conj [
      .comparison .equal (.attr ⟨"lemma", none⟩) (.attr ⟨"lemma", some "b"⟩),
      .negation (.junction .disj [.presence ⟨"feats", some "c"⟩]),
      .presence ⟨"form", none⟩])⟩,
    ⟨"b", none⟩]
  dependencies := [⟨"c", "a"⟩]
  predicates := [.absence ⟨"misc", some "d"⟩]
  order := [⟨"d", "b", true⟩]

theorem anticipating_numbers_names :
    ∃ q f, anticipating.query = .ok q ∧ Set.InjOn f {n | n ∈ anticipating.mentions} ∧
      NumbersByFirstMention f anticipating.mentions ∧ Denotes f anticipating q ∧
      (f "a").index = 0 ∧ (f "b").index = 1 ∧ (f "c").index = 2 ∧ (f "d").index = 3 := by
  have hsome : anticipating.query.toOption.isSome = true := by decide +kernel
  cases hquery : anticipating.query with
  | error e =>
    rw [hquery] at hsome
    cases hsome
  | ok q =>
    obtain ⟨f, hinj, hfirst, hdenotes⟩ := (query_numbers_names anticipating).2.2 q hquery
    refine ⟨q, f, rfl, hinj, hfirst, hdenotes, ?_, ?_, ?_, ?_⟩
    · exact hfirst [] "a" ["b", "c", "b", "c", "a", "d", "b", "d"] rfl (by decide)
    · exact hfirst ["a"] "b" ["c", "b", "c", "a", "d", "b", "d"] rfl (by decide)
    · exact hfirst ["a", "b"] "c" ["b", "c", "a", "d", "b", "d"] rfl (by decide)
    · exact hfirst ["a", "b", "c", "b", "c", "a"] "d" ["b", "d"] rfl (by decide)

end TreeQuery.Document
