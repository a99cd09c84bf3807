import Mathlib.Data.List.Basic
import TreeQuery.Predicate

/-!
What the operations on predicates do to their attributes and to their meaning. The normal form
has the attributes of the predicate in the same order and the same meaning; raising and lowering
a predicate change whose attributes are local, but not what holds at the token concerned.
-/

set_option autoImplicit false
set_option relaxedAutoImplicit false

namespace TreeQuery

namespace Identifier

private theorem mem_insertAscending {i j : Identifier} {l : List Identifier} :
    j ∈ insertAscending i l ↔ j = i ∨ j ∈ l := by
  induction l with
  | nil => simp [insertAscending]
  | cons k l ih =>
    rw [insertAscending]
    split
    · rw [List.mem_cons]
    · split
      · rename_i hik
        subst hik
        simp
      · rw [List.mem_cons, ih, List.mem_cons]
        exact or_left_comm

private theorem mem_ascending {i : Identifier} {l : List Identifier} : i ∈ ascending l ↔ i ∈ l := by
  induction l with
  | nil => simp [ascending]
  | cons j l ih => rw [ascending, mem_insertAscending, ih, List.mem_cons]

private theorem pairwise_insertAscending {i : Identifier} {l : List Identifier}
    (h : l.Pairwise fun j k => j.index < k.index) :
    (insertAscending i l).Pairwise fun j k => j.index < k.index := by
  induction l with
  | nil => exact List.pairwise_singleton _ i
  | cons j l ih =>
    obtain ⟨hj, hl⟩ := List.pairwise_cons.1 h
    rw [insertAscending]
    split
    · rename_i hij
      refine List.pairwise_cons.2 ⟨?_, h⟩
      intro k hk
      rcases List.mem_cons.1 hk with rfl | hk
      · exact hij
      · have hjk := hj k hk
        omega
    · split
      · exact h
      · rename_i hij hne
        refine List.pairwise_cons.2 ⟨?_, ih hl⟩
        intro k hk
        rcases mem_insertAscending.1 hk with rfl | hk
        · have hindex : k.index ≠ j.index := fun he => hne (congrArg Identifier.mk he)
          omega
        · exact hj k hk

theorem pairwise_ascending (l : List Identifier) :
    (ascending l).Pairwise fun j k => j.index < k.index := by
  induction l with
  | nil => exact List.Pairwise.nil
  | cons i l ih => exact pairwise_insertAscending ih

end Identifier

def Connective.Joins : Connective → Prop → Prop → Prop
  | conj, p, q => p ∧ q
  | disj, p, q => p ∨ q

theorem Connective.joins_assoc (c : Connective) (p q r : Prop) :
    c.Joins (c.Joins p q) r ↔ c.Joins p (c.Joins q r) := by
  cases c
  · exact and_assoc
  · exact or_assoc

namespace Predicate

section Attributes

theorem mem_owners {p : Predicate} {i : Identifier} :
    i ∈ p.owners ↔ ∃ a ∈ p.attributes, a.owner = some i := by
  rw [owners, Identifier.mem_ascending, List.mem_filterMap]

theorem nodup_owners (p : Predicate) : p.owners.Nodup := by
  apply (Identifier.pairwise_ascending _).imp
  rintro i _ hlt rfl
  exact Nat.lt_irrefl _ hlt

theorem hasLocal_iff {p : Predicate} :
    p.hasLocal = true ↔ ∃ a ∈ p.attributes, a.owner = none := by
  rw [hasLocal, List.any_eq_true]
  simp

theorem hasLocal_eq_false_iff {p : Predicate} :
    p.hasLocal = false ↔ ∀ a ∈ p.attributes, a.owner ≠ none := by
  rw [hasLocal, List.any_eq_false]
  simp

private theorem attributes_prepend (c : Connective) (p : Predicate) (rest : Option Predicate) :
    (prepend c p rest).attributes = p.attributes ++ (rest.map attributes).getD [] := by
  cases rest with
  | none => simp [prepend]
  | some r => simp [prepend, attributes]

private theorem attributes_complement (p : Predicate) : p.complement.attributes = p.attributes := by
  cases p <;> rfl

private theorem attributes_gather (c : Connective) (p : Predicate) (rest : Option Predicate) :
    (gather c p rest).attributes = p.attributes ++ (rest.map attributes).getD [] := by
  induction p generalizing c rest with
  | junction d l r ihl ihr =>
    rw [gather]
    split
    · simp [ihl, ihr, attributes]
    · simp [attributes_prepend, ihl, ihr, attributes]
  | negation p ih =>
    rw [gather, attributes_prepend, attributes_complement, ih]
    simp [attributes]
  | presence a => exact attributes_prepend c _ rest
  | absence a => exact attributes_prepend c _ rest
  | comparison r x y => exact attributes_prepend c _ rest

private theorem attributes_normalize (p : Predicate) : p.normalize.attributes = p.attributes := by
  rw [normalize, attributes_gather]
  simp

theorem owners_normalize (p : Predicate) : p.normalize.owners = p.owners := by
  rw [owners, owners, attributes_normalize]

theorem hasLocal_normalize (p : Predicate) : p.normalize.hasLocal = p.hasLocal := by
  rw [hasLocal, hasLocal, attributes_normalize]

theorem attributes_mapAttributes (f : Attribute → Attribute) (p : Predicate) :
    (p.mapAttributes f).attributes = p.attributes.map f := by
  have hoperand (x : Operand) : (x.mapAttributes f).attributes = x.attributes.map f := by
    cases x <;> rfl
  induction p with
  | junction c l r ihl ihr => simp [mapAttributes, attributes, ihl, ihr]
  | negation p ih => simp [mapAttributes, attributes, ih]
  | presence a => rfl
  | absence a => rfl
  | comparison r x y => simp [mapAttributes, attributes, hoperand]

theorem mapAttributes_eq_self {f : Attribute → Attribute} {p : Predicate}
    (h : ∀ a ∈ p.attributes, f a = a) : p.mapAttributes f = p := by
  have hoperand (x : Operand) (hx : ∀ a ∈ x.attributes, f a = a) : x.mapAttributes f = x := by
    cases x with
    | attr a => rw [Operand.mapAttributes, hx a List.mem_cons_self]
    | value v => rfl
  induction p with
  | junction c l r ihl ihr =>
    obtain ⟨hl, hr⟩ := List.forall_mem_append.1 h
    rw [mapAttributes, ihl hl, ihr hr]
  | negation p ih => rw [mapAttributes, ih h]
  | presence a => rw [mapAttributes, h a List.mem_cons_self]
  | absence a => rw [mapAttributes, h a List.mem_cons_self]
  | comparison r x y =>
    obtain ⟨hx, hy⟩ := List.forall_mem_append.1 h
    rw [mapAttributes, hoperand x hx, hoperand y hy]

theorem mapAttributes_id (p : Predicate) : p.mapAttributes id = p :=
  mapAttributes_eq_self fun _ _ => rfl

theorem hasLocal_raise (p : Predicate) (i : Identifier) : (p.raise i).hasLocal = false := by
  rw [hasLocal_eq_false_iff, raise, attributes_mapAttributes]
  intro a ha
  obtain ⟨b, -, rfl⟩ := List.mem_map.1 ha
  exact Option.some_ne_none _

theorem mem_owners_raise {p : Predicate} {i j : Identifier} :
    j ∈ (p.raise i).owners ↔ j ∈ p.owners ∨ j = i ∧ p.hasLocal = true := by
  simp only [mem_owners, raise, attributes_mapAttributes, List.mem_map, hasLocal_iff]
  constructor
  · intro ⟨b, ⟨a, ha, hab⟩, hb⟩
    subst hab
    cases howner : a.owner with
    | none =>
      simp only [howner, Option.getD_none, Option.some.injEq] at hb
      exact .inr ⟨hb.symm, a, ha, howner⟩
    | some k =>
      simp only [howner, Option.getD_some, Option.some.injEq] at hb
      exact .inl ⟨a, ha, by rw [howner, hb]⟩
  · intro h
    rcases h with ⟨a, ha, hj⟩ | ⟨hji, a, ha, hnone⟩
    · exact ⟨_, ⟨a, ha, rfl⟩, by simp [hj]⟩
    · exact ⟨_, ⟨a, ha, rfl⟩, by simp [hnone, hji]⟩

theorem mem_owners_lower {p : Predicate} {i j : Identifier} :
    j ∈ (p.lower i).owners ↔ j ∈ p.owners ∧ j ≠ i := by
  simp only [mem_owners, lower, attributes_mapAttributes, List.mem_map]
  constructor
  · intro ⟨b, ⟨a, ha, hab⟩, hb⟩
    subst hab
    dsimp only at hb
    split at hb
    · cases hb
    · rename_i hne
      refine ⟨⟨a, ha, hb⟩, ?_⟩
      intro hji
      exact hne (hji ▸ hb)
  · intro ⟨⟨a, ha, hj⟩, hji⟩
    refine ⟨_, ⟨a, ha, rfl⟩, ?_⟩
    have hne : ¬ a.owner = some i := by
      rw [hj]
      simpa using hji
    rw [if_neg hne, hj]

private theorem attributes_flatMap_operands (c : Connective) (p : Predicate) :
    (operands c p).flatMap attributes = p.attributes := by
  induction p with
  | junction d l r ihl ihr =>
    rw [operands]
    split
    · rw [List.flatMap_append, ihl, ihr, attributes]
    · simp
  | negation p ih => simp [operands]
  | presence a => simp [operands]
  | absence a => simp [operands]
  | comparison r x y => simp [operands]

theorem mem_owners_iff_conjuncts {p : Predicate} {i : Identifier} :
    i ∈ p.owners ↔ ∃ q ∈ p.conjuncts, i ∈ q.owners := by
  rw [mem_owners, ← attributes_flatMap_operands .conj p]
  constructor
  · intro ⟨a, ha, hai⟩
    obtain ⟨q, hq, haq⟩ := List.mem_flatMap.1 ha
    exact ⟨q, hq, mem_owners.2 ⟨a, haq, hai⟩⟩
  · intro ⟨q, hq, hi⟩
    obtain ⟨a, ha, hai⟩ := mem_owners.1 hi
    exact ⟨a, List.mem_flatMap.2 ⟨q, hq, ha⟩, hai⟩

theorem owners_subset_of_mem_conjuncts {p q : Predicate} (h : q ∈ p.conjuncts) :
    q.owners ⊆ p.owners := by
  intro i hi
  exact mem_owners_iff_conjuncts.2 ⟨q, h, hi⟩

private theorem attributes_nest (c : Connective) (p : Predicate) (l : List Predicate) :
    (nest c p l).attributes = (p :: l).flatMap attributes := by
  induction l generalizing p with
  | nil => simp [nest]
  | cons q l ih => rw [nest, attributes, ih, ← List.flatMap_cons]

theorem attributes_of_all?_eq_some {l : List Predicate} {p : Predicate} (h : all? l = some p) :
    p.attributes = l.flatMap attributes := by
  cases l with
  | nil => cases h
  | cons q l =>
    obtain rfl := Option.some.inj h
    exact attributes_nest .conj q l

end Attributes

section Meaning

variable {τ : Type} {m : Interpretation τ} {place place' : Option Identifier → τ}

theorem holds_junction {c : Connective} {l r : Predicate} :
    (junction c l r).Holds m place ↔ c.Joins (l.Holds m place) (r.Holds m place) := by
  cases c <;> rfl

private theorem holds_mapAttributes {f : Attribute → Attribute} {p : Predicate}
    (h : ∀ a ∈ p.attributes, (f a).name = a.name ∧ place (f a).owner = place' a.owner) :
    (p.mapAttributes f).Holds m place ↔ p.Holds m place' := by
  have hreading (x : Operand)
      (hx : ∀ a ∈ x.attributes, (f a).name = a.name ∧ place (f a).owner = place' a.owner) :
      (x.mapAttributes f).reading place = x.reading place' := by
    cases x with
    | attr a =>
      obtain ⟨hname, hplace⟩ := hx a List.mem_cons_self
      rw [Operand.mapAttributes, Operand.reading, Operand.reading, hname, hplace]
    | value v => rfl
  induction p with
  | junction c l r ihl ihr =>
    have hl : (l.mapAttributes f).Holds m place ↔ l.Holds m place' :=
      ihl fun a ha => h a (List.mem_append_left _ ha)
    have hr : (r.mapAttributes f).Holds m place ↔ r.Holds m place' :=
      ihr fun a ha => h a (List.mem_append_right _ ha)
    rw [mapAttributes, holds_junction, holds_junction, hl, hr]
  | negation p ih => exact not_congr (ih h)
  | presence a =>
    obtain ⟨hname, hplace⟩ := h a List.mem_cons_self
    rw [mapAttributes, Holds, Holds, hname, hplace]
  | absence a =>
    obtain ⟨hname, hplace⟩ := h a List.mem_cons_self
    rw [mapAttributes, Holds, Holds, hname, hplace]
  | comparison r x y =>
    have hx := hreading x fun a ha => h a (List.mem_append_left _ ha)
    have hy := hreading y fun a ha => h a (List.mem_append_right _ ha)
    rw [mapAttributes, Holds, Holds, hx, hy]

theorem holds_congr {p : Predicate} (h : ∀ a ∈ p.attributes, place a.owner = place' a.owner) :
    p.Holds m place ↔ p.Holds m place' := by
  have hid : (p.mapAttributes id).Holds m place ↔ p.Holds m place' :=
    holds_mapAttributes fun a ha => ⟨rfl, h a ha⟩
  rwa [mapAttributes_id] at hid

theorem holds_owned {p : Predicate} (h : p.hasLocal = false)
    (hplace : ∀ i, place (some i) = place' (some i)) : p.Holds m place ↔ p.Holds m place' := by
  refine holds_congr fun a ha => ?_
  obtain ⟨i, hi⟩ := Option.ne_none_iff_exists'.1 (hasLocal_eq_false_iff.1 h a ha)
  rw [hi, hplace]

private theorem holds_prepend {c : Connective} {p : Predicate} {rest : Option Predicate} :
    (prepend c p rest).Holds m place ↔
      rest.elim (p.Holds m place) fun r => c.Joins (p.Holds m place) (r.Holds m place) := by
  cases rest with
  | none => rfl
  | some r => exact holds_junction

private theorem holds_complement (p : Predicate) :
    p.complement.Holds m place ↔ ¬ p.Holds m place := by
  cases p with
  | negation p => exact not_not.symm
  | absence a => exact not_not.symm
  | junction c l r => rfl
  | presence a => rfl
  | comparison r x y => rfl

private theorem holds_gather (c : Connective) (p : Predicate) (rest : Option Predicate) :
    (gather c p rest).Holds m place ↔ (prepend c p rest).Holds m place := by
  induction p generalizing c rest with
  | junction d l r ihl ihr =>
    rw [gather]
    split
    · rename_i hdc
      subst hdc
      rw [ihl, holds_prepend, Option.elim_some, ihr, holds_prepend, holds_prepend]
      cases rest with
      | none => exact holds_junction.symm
      | some s =>
        rw [Option.elim_some, Option.elim_some, holds_junction]
        exact (Connective.joins_assoc d _ _ _).symm
    · have hinner : (gather d l (some (gather d r none))).Holds m place ↔
          (junction d l r).Holds m place := by
        rw [ihl, holds_prepend, Option.elim_some, ihr, holds_prepend, Option.elim_none,
          holds_junction]
      rw [holds_prepend, holds_prepend, hinner]
  | negation p ih =>
    have hinner : (complement (gather .conj p none)).Holds m place ↔
        (negation p).Holds m place := by
      rw [holds_complement, ih, holds_prepend, Option.elim_none, Holds]
    rw [gather, holds_prepend, holds_prepend, hinner]
  | presence a => rfl
  | absence a => rfl
  | comparison r x y => rfl

theorem holds_normalize (p : Predicate) : p.normalize.Holds m place ↔ p.Holds m place := by
  rw [normalize, holds_gather, holds_prepend, Option.elim_none]

/-- The normal form mentions the same attributes in the same order and holds in the same cases,
wherever the attributes are read. -/
theorem normalize_keeps_meaning_and_attributes (p : Predicate) :
    (∀ (τ : Type) (m : Interpretation τ) (place : Option Identifier → τ),
        p.normalize.Holds m place ↔ p.Holds m place) ∧
      p.normalize.attributes = p.attributes ∧
      p.normalize.owners = p.owners ∧
      p.normalize.hasLocal = p.hasLocal := by
  refine ⟨?_, attributes_normalize p, owners_normalize p, hasLocal_normalize p⟩
  intro τ m place
  exact holds_normalize p

theorem holds_conjuncts {p : Predicate} :
    (∀ q ∈ p.conjuncts, q.Holds m place) ↔ p.Holds m place := by
  rw [conjuncts]
  induction p with
  | junction d l r ihl ihr =>
    rw [operands]
    split
    · rename_i hd
      subst hd
      rw [List.forall_mem_append, ihl, ihr, Holds]
    · simp
  | negation p ih => simp [operands]
  | presence a => simp [operands]
  | absence a => simp [operands]
  | comparison r x y => simp [operands]

private theorem holds_nest (p : Predicate) (l : List Predicate) :
    (nest .conj p l).Holds m place ↔ ∀ q ∈ p :: l, q.Holds m place := by
  induction l generalizing p with
  | nil => simp [nest]
  | cons q l ih => rw [nest, Holds, ih, ← List.forall_mem_cons]

theorem holds_all? (l : List Predicate) :
    (∀ p ∈ all? l, p.Holds m place) ↔ ∀ q ∈ l, q.Holds m place := by
  cases l with
  | nil => simp [all?, join?]
  | cons q l =>
    rw [← holds_nest]
    simp [all?, join?]

end Meaning

section Token

variable {τ : Type} {m : Interpretation τ} {place : Identifier → τ}

theorem holds_raise (p : Predicate) (i : Identifier) :
    (p.raise i).Holds m (fun o => place (o.getD i)) ↔ p.Holds m fun o => place (o.getD i) :=
  holds_mapAttributes fun _ _ => ⟨rfl, rfl⟩

theorem holds_lower (p : Predicate) (i : Identifier) :
    (p.lower i).Holds m (fun o => place (o.getD i)) ↔ p.Holds m fun o => place (o.getD i) := by
  refine holds_mapAttributes fun a _ => ⟨rfl, ?_⟩
  dsimp only
  split
  · rename_i ha
    rw [ha]
    rfl
  · rfl

theorem holds_carrier {p : Predicate} (h : p.hasLocal = false) (i j : Identifier) :
    (p.Holds m fun o => place (o.getD i)) ↔ p.Holds m fun o => place (o.getD j) :=
  holds_owned h fun _ => rfl

end Token

end Predicate

end TreeQuery
