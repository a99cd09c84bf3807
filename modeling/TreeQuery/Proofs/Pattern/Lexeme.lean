import TreeQuery.Pattern.Lexeme
import TreeQuery.Proofs.Predicate.Canonical
import TreeQuery.Proofs.Predicate.Meaning

/-!
What the text of a predicate depends on. Replacing attributes does not move a parenthesis, so two
predicates that differ only in their attributes have the same text once each attribute has the same
text as the one in its place. How the operands of a junction are nested does not show either. A
normal form may still change its nesting when it is normalised once more, but not its text.
-/

set_option autoImplicit false
set_option relaxedAutoImplicit false

namespace TreeQuery.Pattern

section Attributes

variable {labels labels' : Labels} {f : Attribute → Attribute}

private theorem operandPlace_mapAttributes (c : Connective) (p : Predicate) :
    operandPlace c (p.mapAttributes f) = operandPlace c p := by
  cases p <;> rfl

private theorem map_text_parenthesize {inner inner' : List Lexeme} (place own : Binding)
    (h : inner'.map (Lexeme.text labels') = inner.map (Lexeme.text labels)) :
    (parenthesize place own inner').map (Lexeme.text labels') =
      (parenthesize place own inner).map (Lexeme.text labels) := by
  unfold parenthesize
  split
  · simp only [List.map_cons, List.map_append, List.cons_append, h]
    rfl
  · exact h

private theorem operandText_mapAttributes {x : Operand}
    (h : ∀ a ∈ x.attributes, attributeText labels' (f a) = attributeText labels a) :
    operandText labels' (x.mapAttributes f) = operandText labels x := by
  cases x with
  | attr a => exact h a List.mem_cons_self
  | value v => rfl

private theorem map_text_lexemes {p : Predicate} (place : Binding)
    (h : ∀ a ∈ p.attributes, attributeText labels' (f a) = attributeText labels a) :
    (lexemes place (p.mapAttributes f)).map (Lexeme.text labels') =
      (lexemes place p).map (Lexeme.text labels) := by
  induction p generalizing place with
  | junction c l r ihl ihr =>
    have hl := ihl (operandPlace c l) fun a ha => h a (List.mem_append_left _ ha)
    have hr := ihr (operandPlace c r) fun a ha => h a (List.mem_append_right _ ha)
    apply map_text_parenthesize
    simp only [operandPlace_mapAttributes, List.map_append, List.map_cons, hl, hr]
    cases c <;> rfl
  | negation p ih =>
    have hp := ih .atom h
    apply map_text_parenthesize
    simp only [List.map_cons, hp]
    rfl
  | presence a =>
    have ha := h a List.mem_cons_self
    simp [Predicate.mapAttributes, lexemes, Lexeme.text, ha]
  | absence a =>
    have ha := h a List.mem_cons_self
    simp [Predicate.mapAttributes, lexemes, Lexeme.text, ha]
  | comparison s x y =>
    have hx := operandText_mapAttributes (x := x) fun a ha => h a (List.mem_append_left _ ha)
    have hy := operandText_mapAttributes (x := y) fun a ha => h a (List.mem_append_right _ ha)
    apply map_text_parenthesize
    simp [Lexeme.text, hx, hy]

theorem predicateText_mapAttributes {p : Predicate} (place : Binding)
    (h : ∀ a ∈ p.attributes, attributeText labels' (f a) = attributeText labels a) :
    predicateText labels' place (p.mapAttributes f) = predicateText labels place p := by
  rw [predicateText, predicateText, map_text_lexemes place h]

theorem predicateText_congr {p : Predicate} (place : Binding)
    (h : ∀ i ∈ p.owners, reference labels' i = reference labels i) :
    predicateText labels' place p = predicateText labels place p := by
  have htext : ∀ a ∈ p.attributes, attributeText labels' (id a) = attributeText labels a := by
    intro a ha
    unfold attributeText
    cases ho : a.owner with
    | none => simp [ho]
    | some i =>
      have hi := h i (Predicate.mem_owners.2 ⟨a, ha, ho⟩)
      simp [ho, hi]
  have hid := predicateText_mapAttributes place htext
  rwa [Predicate.mapAttributes_id] at hid

end Attributes

section Nesting

variable {c : Connective} {p p' q q' r : Predicate}

/-- The predicates are written with the same lexemes, alone and as operands. -/
structure Alike (p q : Predicate) : Prop where
  lexemes_eq : ∀ place, lexemes place p = lexemes place q
  operandPlace_eq : ∀ c, operandPlace c p = operandPlace c q

namespace Alike

private theorem refl (p : Predicate) : Alike p p := ⟨fun _ => rfl, fun _ => rfl⟩

private theorem trans (h : Alike p q) (h' : Alike q r) : Alike p r :=
  ⟨fun place => (h.lexemes_eq place).trans (h'.lexemes_eq place),
    fun c => (h.operandPlace_eq c).trans (h'.operandPlace_eq c)⟩

private theorem junction (hp : Alike p p') (hq : Alike q q') :
    Alike (.junction c p q) (.junction c p' q') := by
  refine ⟨fun place => ?_, fun _ => rfl⟩
  simp only [lexemes, hp.operandPlace_eq, hq.operandPlace_eq, hp.lexemes_eq, hq.lexemes_eq]

private theorem negation (h : Alike p q) : Alike (.negation p) (.negation q) := by
  refine ⟨fun place => ?_, fun _ => rfl⟩
  simp only [lexemes, h.lexemes_eq]

private theorem regroup (c : Connective) (p q r : Predicate) :
    Alike (.junction c p (.junction c q r)) (.junction c (.junction c p q) r) := by
  refine ⟨fun place => ?_, fun _ => rfl⟩
  have htop (own : Binding) (inner : List Lexeme) : parenthesize .top own inner = inner :=
    if_neg (Nat.not_lt_zero _)
  simp [lexemes, operandPlace, htop]

private theorem prepend (h : Alike p q) (rest : Option Predicate) :
    Alike (Predicate.prepend c p rest) (Predicate.prepend c q rest) := by
  cases rest with
  | none => exact h
  | some r => exact h.junction (.refl r)

private theorem gather (c : Connective) (p : Predicate) (hp : p.NegationNormal)
    (rest : Option Predicate) : Alike (Predicate.gather c p rest) (Predicate.prepend c p rest) := by
  induction p generalizing c rest with
  | junction d l r ihl ihr =>
    rw [Predicate.gather]
    split
    · rename_i hdc
      subst hdc
      have hleft := ihl d hp.1 (some (Predicate.gather d r rest))
      have hright := ihr d hp.2 rest
      refine (hleft.trans ((Alike.refl l).junction hright)).trans ?_
      cases rest with
      | none => exact .refl _
      | some s => exact .regroup d l r s
    · have hleft := ihl d hp.1 (some (Predicate.gather d r none))
      have hright := ihr d hp.2 none
      exact (hleft.trans ((Alike.refl l).junction hright)).prepend rest
  | negation p ih =>
    -- the operand stays one whose negation has no simpler form
    have hnot : (Predicate.gather .conj p none).complement =
        .negation (Predicate.gather .conj p none) :=
      hp.1.normalize.complement_eq
    rw [Predicate.gather, hnot]
    exact (ih .conj hp.2 none).negation.prepend rest
  | presence a => exact .refl _
  | absence a => exact .refl _
  | comparison s x y => exact .refl _

end Alike

/-- Normalising a normal form once more does not change how it is written, and a normal form has no
negation that could be simplified. -/
theorem normalize_normalize_written_alike (p : Predicate) :
    (∀ (labels : Labels) (place : Binding),
        predicateText labels place p.normalize.normalize =
          predicateText labels place p.normalize) ∧
      p.normalize.NegationNormal := by
  have hnormal := Predicate.negationNormal_normalize p
  refine ⟨?_, hnormal⟩
  intro labels place
  have halike : Alike p.normalize.normalize p.normalize := Alike.gather .conj _ hnormal none
  rw [predicateText, predicateText, halike.lexemes_eq]

end Nesting

end TreeQuery.Pattern
