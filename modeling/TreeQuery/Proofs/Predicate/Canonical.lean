import Mathlib.Data.List.Basic
import TreeQuery.Predicate

/-!
How far the normal form of predicates is canonical. Negations are simplified everywhere. Junctions
are nested to the right, except that an operand which becomes a junction of the same connective only
when a double negation is dropped stays where it is, since operands are gathered before they are
normalised. This is the only exception, and it is gone after a second normalisation.
-/

set_option autoImplicit false
set_option relaxedAutoImplicit false

namespace TreeQuery.Predicate

variable {c d : Connective} {p q : Predicate}

def IsJunction (c : Connective) : Predicate → Prop
  | junction d _ _ => d = c
  | _ => False

instance decidableIsJunction (c : Connective) : (p : Predicate) → Decidable (p.IsJunction c)
  | junction d _ _ => inferInstanceAs (Decidable (d = c))
  | negation _ | presence _ | absence _ | comparison _ _ _ => inferInstanceAs (Decidable False)

/-- No junction, at any depth, is the left operand of a junction of the same connective. -/
def RightNested : Predicate → Prop
  | junction c l r => ¬ l.IsJunction c ∧ l.RightNested ∧ r.RightNested
  | negation p => p.RightNested
  | _ => True

instance decidableRightNested : (p : Predicate) → Decidable p.RightNested
  | junction c l r =>
    have := decidableRightNested l
    have := decidableRightNested r
    inferInstanceAs (Decidable (¬ l.IsJunction c ∧ l.RightNested ∧ r.RightNested))
  | negation p => decidableRightNested p
  | presence _ | absence _ | comparison _ _ _ => inferInstanceAs (Decidable True)

def stripped : Predicate → Predicate
  | negation (negation p) => p.stripped
  | p => p

/-- No operand of a junction, at any depth, is a junction of the same connective behind an even
number of negations, unless it is the last operand. -/
def Straight : Predicate → Prop
  | junction c l r => (∀ o ∈ operands c l, ¬ o.stripped.IsJunction c) ∧ l.Straight ∧ r.Straight
  | negation p => p.Straight
  | _ => True

def Negatable : Predicate → Prop
  | junction _ _ _ | comparison _ _ _ => True
  | _ => False

/-- No negation, at any depth, has a simpler form. -/
def NegationNormal : Predicate → Prop
  | junction _ l r => l.NegationNormal ∧ r.NegationNormal
  | negation p => p.Negatable ∧ p.NegationNormal
  | _ => True

section Negation

private theorem NegationNormal.complement (h : p.NegationNormal) : p.complement.NegationNormal := by
  cases p with
  | junction c l r => exact ⟨trivial, h⟩
  | negation p => exact h.2
  | presence a => trivial
  | absence a => trivial
  | comparison r x y => exact ⟨trivial, trivial⟩

theorem Negatable.complement_eq (h : p.Negatable) : p.complement = negation p := by
  cases p with
  | junction c l r => rfl
  | comparison r x y => rfl
  | negation p => exact h.elim
  | presence a => exact h.elim
  | absence a => exact h.elim

private theorem complement_complement (h : p.NegationNormal) : p.complement.complement = p := by
  cases p with
  | negation p =>
    show p.complement = negation p
    exact h.1.complement_eq
  | junction c l r => rfl
  | presence a => rfl
  | absence a => rfl
  | comparison r x y => rfl

private theorem NegationNormal.prepend {rest : Option Predicate} (h : p.NegationNormal)
    (hrest : ∀ r ∈ rest, r.NegationNormal) : (prepend c p rest).NegationNormal := by
  cases rest with
  | none => exact h
  | some r => exact ⟨h, hrest r rfl⟩

private theorem negationNormal_gather (c : Connective) (p : Predicate) {rest : Option Predicate}
    (hrest : ∀ r ∈ rest, r.NegationNormal) : (gather c p rest).NegationNormal := by
  induction p generalizing c rest with
  | junction d l r ihl ihr =>
    rw [gather]
    split
    · apply ihl
      rintro s ⟨⟩
      exact ihr c hrest
    · refine .prepend (ihl d ?_) hrest
      rintro s ⟨⟩
      exact ihr d (by simp)
  | negation p ih => exact .prepend (ih .conj (by simp)).complement hrest
  | presence a => exact .prepend trivial hrest
  | absence a => exact .prepend trivial hrest
  | comparison r x y => exact .prepend trivial hrest

theorem negationNormal_normalize (p : Predicate) : p.normalize.NegationNormal :=
  negationNormal_gather .conj p (by simp)

private theorem normalize_negation (p : Predicate) :
    (negation p).normalize = p.normalize.complement := rfl

end Negation

section Junction

private theorem isJunction_gather_some (c : Connective) (p r : Predicate) :
    (gather c p (some r)).IsJunction c := by
  induction p generalizing r with
  | junction d l r' ihl _ =>
    rw [gather]
    split
    · exact ihl _
    · rfl
  | negation p => rfl
  | presence a => rfl
  | absence a => rfl
  | comparison s x y => rfl

private theorem IsJunction.unique (hc : p.IsJunction c) (hd : p.IsJunction d) : c = d := by
  cases p with
  | junction e l r => exact hc.symm.trans hd
  | negation p => exact hc.elim
  | presence a => exact hc.elim
  | absence a => exact hc.elim
  | comparison s x y => exact hc.elim

private theorem IsJunction.negatable (h : p.IsJunction c) : p.Negatable := by
  cases p with
  | junction e l r => trivial
  | negation p => exact h.elim
  | presence a => exact h.elim
  | absence a => exact h.elim
  | comparison s x y => exact h.elim

private theorem normalize_junction (c : Connective) (l r : Predicate) :
    (junction c l r).normalize = gather c l (some (gather c r none)) := by
  rw [normalize, gather]
  split
  · rename_i hc
    rw [hc]
  · rfl

theorem Negatable.normalize (h : p.Negatable) : p.normalize.Negatable := by
  cases p with
  | junction c l r =>
    rw [normalize_junction]
    exact (isJunction_gather_some c l _).negatable
  | comparison s x y => trivial
  | negation p => exact h.elim
  | presence a => exact h.elim
  | absence a => exact h.elim

private theorem isJunction_normalize_iff (c : Connective) (p : Predicate) :
    p.normalize.IsJunction c ↔ p.stripped.IsJunction c := by
  fun_induction stripped p with
  | case1 p ih =>
    rw [← ih, normalize_negation, normalize_negation,
      complement_complement (negationNormal_normalize p)]
  | case2 p hsingle =>
    cases p with
    | junction d l r =>
      have hd := isJunction_gather_some d l (gather d r none)
      rw [normalize_junction]
      exact ⟨fun hc => hd.unique hc, fun hdc => hdc ▸ hd⟩
    | negation p =>
      cases p with
      | junction d l r =>
        have hd := isJunction_gather_some d l (gather d r none)
        rw [normalize_negation, normalize_junction, hd.negatable.complement_eq]
        exact Iff.rfl
      | negation p => exact (hsingle p rfl).elim
      | presence a => exact Iff.rfl
      | absence a => exact Iff.rfl
      | comparison s x y => exact Iff.rfl
    | presence a => exact Iff.rfl
    | absence a => exact Iff.rfl
    | comparison s x y => exact Iff.rfl

private theorem rightNested_complement : p.complement.RightNested ↔ p.RightNested := by
  cases p <;> exact Iff.rfl

private theorem rightNested_prepend {rest : Option Predicate} :
    (prepend c p rest).RightNested ↔
      p.RightNested ∧ ∀ r ∈ rest, ¬ p.IsJunction c ∧ r.RightNested := by
  cases rest with
  | none => simp [prepend]
  | some r =>
    simp only [prepend, RightNested, Option.mem_def, Option.some.injEq, forall_eq']
    exact and_left_comm

/-- Gathered operands are nested to the right if and only if none of those in front of another
operand becomes a junction of the same connective. -/
theorem rightNested_gather (c : Connective) (p : Predicate) (rest : Option Predicate) :
    (gather c p rest).RightNested ↔
      p.Straight ∧
        ∀ r ∈ rest, (∀ o ∈ operands c p, ¬ o.stripped.IsJunction c) ∧ r.RightNested := by
  induction p generalizing c rest with
  | junction d l r ihl ihr =>
    rw [gather, operands]
    split
    · -- the operands of both sides are gathered in front of `rest`
      rename_i hdc
      subst hdc
      rw [ihl]
      simp only [Option.mem_def, Option.some.injEq, forall_eq', ihr, Straight,
        List.forall_mem_append]
      cases rest with
      | none => simp [and_assoc, and_left_comm]
      | some s =>
        simp only [Option.some.injEq, forall_eq']
        tauto
    · -- the junction is one operand, and normalising it does not change its connective
      rename_i hdc
      have hinner : (gather d l (some (gather d r none))).RightNested ↔
          (junction d l r).Straight := by
        rw [ihl]
        simp [ihr, Straight, and_left_comm]
      have hnot : ¬ (gather d l (some (gather d r none))).IsJunction c := fun hc =>
        hdc ((isJunction_gather_some d l _).unique hc)
      have hself : ¬ (junction d l r).stripped.IsJunction c := hdc
      rw [rightNested_prepend, hinner]
      simp [hnot, hself]
  | negation p ih =>
    have hinner : (complement (gather .conj p none)).RightNested ↔ (negation p).Straight := by
      rw [rightNested_complement, ih]
      simp [Straight]
    have hjunction := isJunction_normalize_iff c (negation p)
    rw [normalize_negation, normalize] at hjunction
    rw [gather, rightNested_prepend, hinner, hjunction]
    simp [operands]
  | presence a => simp [gather, rightNested_prepend, operands, Straight, stripped, RightNested]
  | absence a => simp [gather, rightNested_prepend, operands, Straight, stripped, RightNested]
  | comparison s x y =>
    simp [gather, rightNested_prepend, operands, Straight, stripped, RightNested]

private theorem rightNested_normalize_iff (p : Predicate) :
    p.normalize.RightNested ↔ p.Straight := by
  rw [normalize, rightNested_gather]
  simp

end Junction

section Idempotence

private theorem not_isJunction_of_mem_operands {o : Predicate} (h : o ∈ operands c p) :
    ¬ o.IsJunction c := by
  induction p with
  | junction d l r ihl ihr =>
    rw [operands] at h
    split at h
    · rcases List.mem_append.1 h with hl | hr
      · exact ihl hl
      · exact ihr hr
    · rename_i hdc
      rw [List.mem_singleton.1 h]
      exact hdc
  | negation p => exact List.mem_singleton.1 h ▸ id
  | presence a => exact List.mem_singleton.1 h ▸ id
  | absence a => exact List.mem_singleton.1 h ▸ id
  | comparison s x y => exact List.mem_singleton.1 h ▸ id

private theorem NegationNormal.of_mem_operands {o : Predicate} (h : p.NegationNormal)
    (ho : o ∈ operands c p) : o.NegationNormal := by
  induction p with
  | junction d l r ihl ihr =>
    rw [operands] at ho
    split at ho
    · rcases List.mem_append.1 ho with hl | hr
      · exact ihl h.1 hl
      · exact ihr h.2 hr
    · exact List.mem_singleton.1 ho ▸ h
  | negation p => exact List.mem_singleton.1 ho ▸ h
  | presence a => exact List.mem_singleton.1 ho ▸ h
  | absence a => exact List.mem_singleton.1 ho ▸ h
  | comparison s x y => exact List.mem_singleton.1 ho ▸ h

private theorem NegationNormal.stripped_eq (h : p.NegationNormal) : p.stripped = p := by
  fun_cases stripped p with
  | case1 p => exact h.1.elim
  | case2 p => rfl

private theorem NegationNormal.straight (h : p.NegationNormal) : p.Straight := by
  induction p with
  | junction c l r ihl ihr =>
    refine ⟨?_, ihl h.1, ihr h.2⟩
    intro o ho
    rw [(h.1.of_mem_operands ho).stripped_eq]
    exact not_isJunction_of_mem_operands ho
  | negation p ih => exact ih h.2
  | presence a => trivial
  | absence a => trivial
  | comparison s x y => trivial

private theorem gather_eq_prepend (hright : p.RightNested) (hneg : p.NegationNormal)
    {rest : Option Predicate} (hrest : rest = none ∨ ¬ p.IsJunction c) :
    gather c p rest = prepend c p rest := by
  induction p generalizing c rest with
  | junction d l r ihl ihr =>
    obtain ⟨hl, hlr, hrr⟩ := hright
    have hinner : gather d l (some (gather d r none)) = junction d l r := by
      rw [ihl hlr hneg.1 (.inr hl), ihr hrr hneg.2 (.inl rfl)]
      rfl
    rw [gather]
    split
    · rename_i hdc
      subst hdc
      rw [hrest.resolve_right fun h => h rfl, hinner]
      rfl
    · rw [hinner]
  | negation p ih =>
    rw [gather, ih hright hneg.2 (.inl rfl)]
    show prepend c p.complement rest = prepend c (negation p) rest
    rw [hneg.1.complement_eq]
  | presence a => rfl
  | absence a => rfl
  | comparison s x y => rfl

private theorem normalize_eq_self (hright : p.RightNested) (hneg : p.NegationNormal) :
    p.normalize = p :=
  gather_eq_prepend hright hneg (.inl rfl)

private theorem rightNested_normalize_normalize (p : Predicate) :
    p.normalize.normalize.RightNested :=
  (rightNested_normalize_iff _).2 (negationNormal_normalize p).straight

/-- The normal form is nested to the right, and is its own normal form, exactly for the predicates
that hide no junction behind double negations in front of another operand. The normal form of a
normal form is always both. -/
theorem normalize_canonical_iff_straight (p : Predicate) :
    (p.normalize.RightNested ↔ p.Straight) ∧
      (p.normalize.normalize = p.normalize ↔ p.Straight) ∧
      p.normalize.normalize.RightNested ∧
      p.normalize.normalize.normalize = p.normalize.normalize := by
  have htwice := rightNested_normalize_normalize p
  refine ⟨rightNested_normalize_iff p, ⟨?_, ?_⟩, htwice, ?_⟩
  · intro heq
    rw [← rightNested_normalize_iff, ← heq]
    exact htwice
  · intro hp
    exact normalize_eq_self ((rightNested_normalize_iff p).2 hp) (negationNormal_normalize p)
  · exact normalize_eq_self htwice (negationNormal_normalize _)

/-- A conjunction behind two negations, in front of another operand. -/
def veiled : Predicate :=
  junction .conj
    (negation (negation (junction .conj (presence ⟨none, "a"⟩) (presence ⟨none, "b"⟩))))
    (presence ⟨none, "c"⟩)

theorem veiled_normalize_not_canonical :
    ¬ veiled.normalize.RightNested ∧ veiled.normalize.normalize ≠ veiled.normalize := by
  decide

end Idempotence

end TreeQuery.Predicate
