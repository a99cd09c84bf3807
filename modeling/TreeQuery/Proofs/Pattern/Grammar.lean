import TreeQuery.Pattern.Lexeme
import TreeQuery.Proofs.Predicate.Meaning

/-!
The boolean structure of written predicates can be read back. Each attribute and each comparison is
read as one symbol, so that a written predicate becomes a word of symbols, negators, connectives and
parentheses. In the grammar of such words a negator binds most tightly, and connectives of one kind
join units; to mix both kinds, parentheses are needed. The grammar gives a word at most one formula.
A written predicate has one, which differs from the predicate only in how junctions are nested, and
an absent attribute is read as the negation of its presence.
-/

set_option autoImplicit false
set_option relaxedAutoImplicit false

namespace TreeQuery.Pattern

variable {σ : Type}

/-- The symbols as which attributes and comparisons are read. -/
structure Symbols (σ : Type) where
  attr : Attribute → σ
  comparison : Comparator → Operand → Operand → σ

inductive Sign (σ : Type) where
  | symbol (s : σ)
  | negator
  | connective (c : Connective)
  | opening
  | closing

inductive Formula (σ : Type) where
  | symbol (s : σ)
  | negation (f : Formula σ)
  | junction (c : Connective) (left right : Formula σ)

namespace Formula

def Holds (v : σ → Prop) : Formula σ → Prop
  | symbol s => v s
  | negation f => ¬ f.Holds v
  | junction c f g => c.Joins (f.Holds v) (g.Holds v)

/-- The formulas differ only in how junctions of the same connective are nested. -/
inductive Regrouped : Formula σ → Formula σ → Prop
  | refl (f : Formula σ) : Regrouped f f
  | symm {f g : Formula σ} : Regrouped f g → Regrouped g f
  | trans {f g h : Formula σ} : Regrouped f g → Regrouped g h → Regrouped f h
  | assoc (c : Connective) (f g h : Formula σ) :
    Regrouped (junction c (junction c f g) h) (junction c f (junction c g h))
  | negation {f g : Formula σ} : Regrouped f g → Regrouped (negation f) (negation g)
  | junction {c : Connective} {f f' g g' : Formula σ} :
    Regrouped f f' → Regrouped g g' → Regrouped (junction c f g) (junction c f' g')

private theorem Regrouped.holds_iff {f g : Formula σ} (h : Regrouped f g) (v : σ → Prop) :
    f.Holds v ↔ g.Holds v := by
  induction h with
  | refl f => rfl
  | symm _ ih => exact ih.symm
  | trans _ _ ihf ihg => exact ihf.trans ihg
  | assoc c f g h => exact c.joins_assoc _ _ _
  | negation _ ih => exact not_congr ih
  | junction _ _ ihf ihg => rw [Holds, Holds, ihf, ihg]

end Formula

section Grammar

/-- What a word is read as: a unit, or a chain of units joined by one connective. -/
inductive Rank where
  | unit
  | chain (c : Connective)

inductive Derives : Rank → List (Sign σ) → Formula σ → Prop
  | symbol (s : σ) : Derives .unit [.symbol s] (.symbol s)
  | negation {w : List (Sign σ)} {f : Formula σ} :
    Derives .unit w f → Derives .unit (.negator :: w) (.negation f)
  | group {c : Connective} {w : List (Sign σ)} {f : Formula σ} :
    Derives (.chain c) w f → Derives .unit (.opening :: w ++ [.closing]) f
  | single {c : Connective} {w : List (Sign σ)} {f : Formula σ} :
    Derives .unit w f → Derives (.chain c) w f
  | link {c : Connective} {v w : List (Sign σ)} {f g : Formula σ} :
    Derives .unit v f → Derives (.chain c) w g →
      Derives (.chain c) (v ++ .connective c :: w) (.junction c f g)

def Parses (w : List (Sign σ)) (f : Formula σ) : Prop := ∃ c, Derives (.chain c) w f

def Rank.Matches : Rank → Rank → Prop
  | unit, unit | chain _, chain _ => True
  | _, _ => False

/-- A chain ends only where no connective follows. -/
def Rank.EndsBefore : Rank → List (Sign σ) → Prop
  | unit, _ => True
  | chain _, rest => ∀ c, rest.head? ≠ some (.connective c)

variable {k l : Rank} {c : Connective} {v w x y : List (Sign σ)} {f g : Formula σ}

/-- Where a word begins, at most one unit and at most one chain can be read. -/
theorem Derives.unique (hf : Derives k v f) (hg : Derives l w g) (hkl : k.Matches l)
    (hx : k.EndsBefore x) (hy : l.EndsBefore y) (heq : v ++ x = w ++ y) : v = w ∧ f = g := by
  induction hf generalizing l w x y g with
  | symbol s =>
    cases hg with
    | symbol t => simp_all
    | negation | group => simp at heq
    | single | link => exact hkl.elim
  | negation _ ih =>
    cases hg with
    | negation hg =>
      obtain ⟨rfl, rfl⟩ := ih hg trivial trivial trivial (List.cons.inj heq).2
      exact ⟨rfl, rfl⟩
    | symbol | group => simp at heq
    | single | link => exact hkl.elim
  | group _ ih =>
    cases hg with
    | group hg =>
      -- inside parentheses a chain is followed by the closing one
      simp only [List.cons_append, List.append_assoc, List.nil_append, List.cons.injEq,
        true_and] at heq
      obtain ⟨rfl, rfl⟩ := ih hg trivial (by simp [Rank.EndsBefore]) (by simp [Rank.EndsBefore]) heq
      exact ⟨rfl, rfl⟩
    | symbol | negation => simp at heq
    | single | link => exact hkl.elim
  | single _ ih =>
    cases hg with
    | single hg => exact ih hg trivial trivial trivial heq
    | @link d _ _ _ _ hg _ =>
      rw [List.append_assoc] at heq
      obtain ⟨rfl, rfl⟩ := ih hg trivial trivial trivial heq
      have hrest := List.append_cancel_left heq
      exact (hx d (by simp [hrest])).elim
    | symbol | negation | group => exact hkl.elim
  | @link c _ _ _ _ _ _ ih ih' =>
    rw [List.append_assoc] at heq
    cases hg with
    | single hg =>
      obtain ⟨rfl, rfl⟩ := ih hg trivial trivial trivial heq
      have hrest := List.append_cancel_left heq
      exact (hy c (by simp [← hrest])).elim
    | link hg hg' =>
      -- after the same first unit, the connectives are the same
      rw [List.append_assoc] at heq
      obtain ⟨rfl, rfl⟩ := ih hg trivial trivial trivial heq
      have hrest := List.append_cancel_left heq
      simp only [List.cons_append, List.cons.injEq, Sign.connective.injEq] at hrest
      obtain ⟨rfl, hrest⟩ := hrest
      obtain ⟨rfl, rfl⟩ := ih' hg' trivial hx hy hrest
      exact ⟨rfl, rfl⟩
    | symbol | negation | group => exact hkl.elim

private theorem Parses.unique (hf : Parses w f) (hg : Parses w g) : f = g := by
  obtain ⟨c, hf⟩ := hf
  obtain ⟨d, hg⟩ := hg
  have hend (e : Connective) : (Rank.chain e).EndsBefore ([] : List (Sign σ)) := by
    simp [Rank.EndsBefore]
  exact (hf.unique hg trivial (hend c) (hend d) rfl).2

private theorem Derives.parses (h : Derives k w f) : Parses w f := by
  cases k with
  | unit => exact ⟨.conj, .single h⟩
  | chain c => exact ⟨c, h⟩

private theorem Derives.append (hf : Derives (.chain c) v f) (hg : Derives (.chain c) w g) :
    ∃ h, Derives (.chain c) (v ++ .connective c :: w) h ∧ h.Regrouped (.junction c f g) := by
  generalize hk : Rank.chain c = k at hf
  induction hf with
  | symbol s => cases hk
  | negation hf => cases hk
  | group hf => cases hk
  | single hf =>
    cases hk
    exact ⟨_, .link hf hg, .refl _⟩
  | @link _ _ _ f' g' hf hf' _ ih' =>
    cases hk
    obtain ⟨h, hh, hregrouped⟩ := ih' rfl
    refine ⟨.junction c f' h, ?_, ?_⟩
    · rw [List.append_assoc]
      exact .link hf hh
    · have hassoc := Formula.Regrouped.assoc c f' g' g
      exact (Formula.Regrouped.junction (.refl f') hregrouped).trans hassoc.symm

def rankAt (place : Binding) : Predicate → Rank
  | .junction c _ _ => if Binding.junction.strength < place.strength then .unit else .chain c
  | _ => .unit

private theorem rankAt_atom (p : Predicate) : rankAt .atom p = .unit := by
  cases p <;> rfl

private theorem Derives.chain_of_operandPlace {p : Predicate}
    (h : Derives (rankAt (operandPlace c p) p) w f) : Derives (.chain c) w f := by
  cases p with
  | junction d l r =>
    rw [operandPlace] at h
    split at h
    · rename_i hdc
      exact hdc ▸ h
    · exact .single h
  | negation p => exact .single h
  | presence a => exact .single h
  | absence a => exact .single h
  | comparison r x y => exact .single h

end Grammar

namespace Symbols

variable (s : Symbols σ)

def sign : Lexeme → Sign σ
  | .attr a => .symbol (s.attr a)
  | .comparison r x y => .symbol (s.comparison r x y)
  | .negator => .negator
  | .connective c => .connective c
  | .opening => .opening
  | .closing => .closing

def signs (place : Binding) (p : Predicate) : List (Sign σ) := (lexemes place p).map s.sign

def formula : Predicate → Formula σ
  | .junction c l r => .junction c (formula l) (formula r)
  | .negation p => .negation (formula p)
  | .presence a => .symbol (s.attr a)
  | .absence a => .negation (.symbol (s.attr a))
  | .comparison r x y => .symbol (s.comparison r x y)

def interpretation (v : σ → Prop) : Interpretation (Option Identifier) where
  present owner name := v (s.attr ⟨owner, name⟩)
  compares r x y := v (s.comparison r (operand x) (operand y))
where
  operand : Reading (Option Identifier) → Operand
    | .attr owner name => .attr ⟨owner, name⟩
    | .value c => .value c

private theorem holds_formula (v : σ → Prop) (p : Predicate) :
    (s.formula p).Holds v ↔ p.Holds (s.interpretation v) id := by
  have hoperand (x : Operand) : interpretation.operand (x.reading id) = x := by cases x <;> rfl
  induction p with
  | junction c l r ihl ihr => simp only [formula, Formula.Holds, Predicate.holds_junction, ihl, ihr]
  | negation p ih => exact not_congr ih
  | presence a => rfl
  | absence a => rfl
  | comparison r x y =>
    show v (s.comparison r x y) ↔ v (s.comparison r _ _)
    rw [hoperand, hoperand]

private theorem derives_parenthesize {k : Rank} {f : Formula σ} (place own : Binding)
    (inner : List Lexeme) (h : Derives k (inner.map s.sign) f) :
    Derives (if own.strength < place.strength then .unit else k)
      ((parenthesize place own inner).map s.sign) f := by
  unfold parenthesize
  split
  · obtain ⟨c, h⟩ := h.parses
    simpa [sign] using h.group
  · exact h

private theorem exists_derives (place : Binding) (p : Predicate) :
    ∃ f, Derives (rankAt place p) (s.signs place p) f ∧ f.Regrouped (s.formula p) := by
  induction p generalizing place with
  | junction c l r ihl ihr =>
    -- the chains of both sides become one, which is nested to the right
    obtain ⟨f, hf, hfl⟩ := ihl (operandPlace c l)
    obtain ⟨g, hg, hgr⟩ := ihr (operandPlace c r)
    obtain ⟨h, hh, hfg⟩ := (Derives.chain_of_operandPlace hf).append
      (Derives.chain_of_operandPlace hg)
    refine ⟨h, ?_, hfg.trans (.junction hfl hgr)⟩
    apply s.derives_parenthesize place .junction
    simpa [signs, sign] using hh
  | negation p ih =>
    obtain ⟨f, hf, hfp⟩ := ih .atom
    rw [rankAt_atom] at hf
    refine ⟨.negation f, ?_, .negation hfp⟩
    have hwhole := s.derives_parenthesize place .negation (.negator :: lexemes .atom p) hf.negation
    rwa [ite_self] at hwhole
  | presence a => exact ⟨_, .symbol _, .refl _⟩
  | absence a => exact ⟨_, .negation (.symbol _), .refl _⟩
  | comparison r x y =>
    have hsymbol : Derives .unit ([.comparison r x y].map s.sign) (s.formula (.comparison r x y)) :=
      .symbol (s.comparison r x y)
    have hwhole := s.derives_parenthesize place .comparison _ hsymbol
    rw [ite_self] at hwhole
    exact ⟨_, hwhole, .refl _⟩

def printed (labels : Labels) : Symbols String where
  attr := attributeText labels
  comparison r x y := (Lexeme.comparison r x y).text labels

end Symbols

def Sign.text : Sign String → String
  | symbol t => t
  | negator => "!"
  | connective .conj => " & "
  | connective .disj => " | "
  | opening => "("
  | closing => ")"

private theorem predicateText_eq_join_signs (labels : Labels) (place : Binding) (p : Predicate) :
    predicateText labels place p =
      String.join (((Symbols.printed labels).signs place p).map Sign.text) := by
  have htext (x : Lexeme) : ((Symbols.printed labels).sign x).text = x.text labels := by
    cases x with
    | connective c => cases c <;> rfl
    | attr | comparison | negator | opening | closing => rfl
  rw [predicateText, Symbols.signs, List.map_map]
  congr 2
  funext x
  exact (htext x).symm

/-- The text of a predicate is that of its signs, and these can be read in one way only, whatever
the symbols are: as the predicate, up to the nesting of junctions. Predicates with the same signs
hold in the same cases. -/
theorem signs_unambiguous (place : Binding) (p : Predicate) :
    (∀ labels : Labels,
        predicateText labels place p =
          String.join (((Symbols.printed labels).signs place p).map Sign.text)) ∧
      ∀ (σ : Type) (s : Symbols σ),
        (∃ f, Parses (s.signs place p) f ∧ (∀ g, Parses (s.signs place p) g → g = f) ∧
          f.Regrouped (s.formula p)) ∧
        ∀ q, s.signs place p = s.signs place q →
          ∀ v : σ → Prop, p.Holds (s.interpretation v) id ↔ q.Holds (s.interpretation v) id := by
  refine ⟨fun labels => predicateText_eq_join_signs labels place p, fun σ s => ?_⟩
  obtain ⟨f, hf, hfp⟩ := s.exists_derives place p
  refine ⟨⟨f, hf.parses, fun g hg => hg.unique hf.parses, hfp⟩, ?_⟩
  intro q hpq v
  obtain ⟨g, hg, hgq⟩ := s.exists_derives place q
  have hfg : f = g := hf.parses.unique (hpq ▸ hg.parses)
  calc p.Holds (s.interpretation v) id
      ↔ (s.formula p).Holds v := (s.holds_formula v p).symm
    _ ↔ f.Holds v := (hfp.holds_iff v).symm
    _ ↔ (s.formula q).Holds v := hfg ▸ hgq.holds_iff v
    _ ↔ q.Holds (s.interpretation v) id := s.holds_formula v q

/-- The condition `!(a | !b) & #1.c = "d" & !e`, nested to the left. -/
def nestedLeft : Predicate :=
  .junction .conj
    (.junction .conj
      (.negation (.junction .disj (.presence ⟨none, "a"⟩) (.absence ⟨none, "b"⟩)))
      (.comparison .equal (.attr ⟨some ⟨1⟩, "c"⟩) (.value (.literal "d"))))
    (.absence ⟨none, "e"⟩)

/-- The same nested to the right, with the last operand as a negation. -/
def nestedRight : Predicate :=
  .junction .conj
    (.negation (.junction .disj (.presence ⟨none, "a"⟩) (.absence ⟨none, "b"⟩)))
    (.junction .conj
      (.comparison .equal (.attr ⟨some ⟨1⟩, "c"⟩) (.value (.literal "d")))
      (.negation (.presence ⟨none, "e"⟩)))

theorem nested_read_alike :
    (Symbols.printed []).signs .top nestedLeft = (Symbols.printed []).signs .top nestedRight ∧
      ∀ v : String → Prop,
        nestedLeft.Holds ((Symbols.printed []).interpretation v) id ↔
          nestedRight.Holds ((Symbols.printed []).interpretation v) id := by
  have hsigns : (Symbols.printed []).signs .top nestedLeft =
      (Symbols.printed []).signs .top nestedRight := rfl
  exact ⟨hsigns, ((signs_unambiguous .top nestedLeft).2 String (.printed [])).2 nestedRight hsigns⟩

end TreeQuery.Pattern
