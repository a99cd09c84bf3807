import Mathlib.Data.List.Perm.Basic
import Mathlib.Logic.Embedding.Basic
import TreeQuery.CompileError
import TreeQuery.Proofs.Predicate.Meaning
import TreeQuery.Proofs.Sequence

/-!
Renaming the tokens of a query. What is done to a predicate without looking at its attributes
commutes with any replacement of them. Of the rest, raising and lowering onto a token commute with
a renaming because it keeps tokens apart; the owners are renamed too, but they may come in another
order.

Computations that may fail are compared by their outcomes: both succeed with results that differ by
the renaming, or both fail for the same kind of cause.
-/

set_option autoImplicit false
set_option relaxedAutoImplicit false

namespace TreeQuery

open scoped List

section MapAttributes

namespace Predicate

variable (f : Attribute → Attribute)

private theorem mapAttributes_mapAttributes (g : Attribute → Attribute) (p : Predicate) :
    (p.mapAttributes f).mapAttributes g = p.mapAttributes (g ∘ f) := by
  have hoperand (x : Operand) :
      (x.mapAttributes f).mapAttributes g = x.mapAttributes (g ∘ f) := by
    cases x <;> rfl
  induction p with
  | junction c l r ihl ihr => simp only [mapAttributes, ihl, ihr]
  | negation p ih => simp only [mapAttributes, ih]
  | presence a => rfl
  | absence a => rfl
  | comparison s x y => simp only [mapAttributes, hoperand]

private theorem complement_mapAttributes (p : Predicate) :
    (p.mapAttributes f).complement = p.complement.mapAttributes f := by
  cases p <;> rfl

private theorem prepend_mapAttributes (c : Connective) (p : Predicate) (rest : Option Predicate) :
    prepend c (p.mapAttributes f) (rest.map (mapAttributes f)) =
      (prepend c p rest).mapAttributes f := by
  cases rest <;> rfl

private theorem gather_mapAttributes (c : Connective) (p : Predicate) (rest : Option Predicate) :
    gather c (p.mapAttributes f) (rest.map (mapAttributes f)) =
      (gather c p rest).mapAttributes f := by
  induction p generalizing c rest with
  | junction d l r ihl ihr =>
    have hl := ihl d (some (gather d r none))
    have hr := ihr d none
    simp only [Option.map_some, Option.map_none] at hl hr
    simp only [mapAttributes, gather]
    split
    · rename_i hdc
      subst hdc
      have hrest := ihl d (some (gather d r rest))
      rwa [Option.map_some, ← ihr d rest] at hrest
    · rw [hr, hl, prepend_mapAttributes]
  | negation p ih =>
    have hp := ih .conj none
    rw [Option.map_none] at hp
    simp only [mapAttributes, gather]
    rw [hp, complement_mapAttributes, prepend_mapAttributes]
  | presence a => exact prepend_mapAttributes f c (.presence a) rest
  | absence a => exact prepend_mapAttributes f c (.absence a) rest
  | comparison s x y => exact prepend_mapAttributes f c (.comparison s x y) rest

theorem normalize_mapAttributes (p : Predicate) :
    (p.mapAttributes f).normalize = p.normalize.mapAttributes f :=
  gather_mapAttributes f .conj p none

theorem operands_mapAttributes (c : Connective) (p : Predicate) :
    (p.mapAttributes f).operands c = (p.operands c).map (mapAttributes f) := by
  induction p with
  | junction d l r ihl ihr =>
    simp only [mapAttributes, operands]
    split
    · rw [ihl, ihr, List.map_append]
    · rfl
  | negation p _ => rfl
  | presence a => rfl
  | absence a => rfl
  | comparison s x y => rfl

private theorem nest_mapAttributes (c : Connective) (p : Predicate) (l : List Predicate) :
    nest c (p.mapAttributes f) (l.map (mapAttributes f)) = (nest c p l).mapAttributes f := by
  induction l generalizing p with
  | nil => rfl
  | cons q l ih => simp only [List.map_cons, nest, mapAttributes, ih]

theorem all?_map_mapAttributes (l : List Predicate) :
    all? (l.map (mapAttributes f)) = (all? l).map (mapAttributes f) := by
  cases l with
  | nil => rfl
  | cons p l => exact congrArg some (nest_mapAttributes f .conj p l)

end Predicate

end MapAttributes

variable (r : Identifier ↪ Identifier)

def Attribute.rename (a : Attribute) : Attribute := { a with owner := a.owner.map r }

namespace Predicate

def rename : Predicate → Predicate := mapAttributes (Attribute.rename r)

theorem raise_rename (p : Predicate) (i : Identifier) :
    (p.rename r).raise (r i) = (p.raise i).rename r := by
  simp only [raise, rename, mapAttributes_mapAttributes]
  congr 1
  funext a
  cases ho : a.owner <;> simp [Attribute.rename, ho]

theorem lower_rename (p : Predicate) (i : Identifier) :
    (p.rename r).lower (r i) = (p.lower i).rename r := by
  simp only [lower, rename, mapAttributes_mapAttributes]
  congr 1
  funext a
  cases ho : a.owner with
  | none => simp [Attribute.rename, ho]
  | some j =>
    by_cases hj : j = i
    · subst hj
      simp [Attribute.rename, ho]
    · simp [Attribute.rename, ho, hj]

theorem hasLocal_rename (p : Predicate) : (p.rename r).hasLocal = p.hasLocal := by
  simp only [hasLocal, rename, attributes_mapAttributes, List.any_map]
  congr 1
  funext a
  simp [Attribute.rename]

theorem mem_owners_rename {p : Predicate} {k : Identifier} :
    k ∈ (p.rename r).owners ↔ ∃ i ∈ p.owners, r i = k := by
  simp only [mem_owners, rename, attributes_mapAttributes, List.mem_map]
  constructor
  · rintro ⟨_, ⟨a, ha, rfl⟩, hk⟩
    obtain ⟨i, hi, rfl⟩ := Option.map_eq_some_iff.1 hk
    exact ⟨i, ⟨a, ha, hi⟩, rfl⟩
  · rintro ⟨i, ⟨a, ha, hi⟩, rfl⟩
    exact ⟨a.rename r, ⟨a, ha, rfl⟩, by simp [Attribute.rename, hi]⟩

/-- Owners are listed in ascending order, which a renaming need not keep. -/
theorem owners_rename (p : Predicate) : (p.rename r).owners ~ p.owners.map r := by
  have hnodup : (p.owners.map r).Nodup := p.nodup_owners.map r.injective
  rw [List.perm_ext_iff_of_nodup (nodup_owners _) hnodup]
  intro k
  rw [mem_owners_rename, List.mem_map]

end Predicate

def Token.rename (t : Token) : Token := ⟨r t.identifier, t.predicate.map (Predicate.rename r)⟩

def Dependency.rename (d : Dependency) : Dependency := ⟨r d.governor, r d.dependent⟩

def OrderConstraint.rename (c : OrderConstraint) : OrderConstraint :=
  ⟨r c.before, r c.after, c.kind⟩

namespace Query

def rename (q : Query) : Query where
  tokens := q.tokens.map (Token.rename r)
  dependencies := q.dependencies.map (Dependency.rename r)
  predicates := q.predicates.map (Predicate.rename r)
  constraints := q.constraints.map (OrderConstraint.rename r)

theorem identifiers_rename (q : Query) : (q.rename r).identifiers = q.identifiers.map r := by
  rw [identifiers, identifiers, ← Sequence.eraseDups_map r.injective]
  congr 1
  simp only [rename, List.map_append, List.map_map, List.map_flatMap, List.flatMap_map]
  rfl

end Query

/-- The causes for which a query and the renamed query are refused. Of several unknown tokens the
smallest is named, which need not be the same after the renaming. -/
inductive CompileError.Renamed : CompileError → CompileError → Prop
  | unknownIdentifier (i k : Identifier) :
    Renamed (.unknownIdentifier i) (.unknownIdentifier (r k))
  | unanchoredPredicate (p : Predicate) :
    Renamed (.unanchoredPredicate p) (.unanchoredPredicate (p.rename r))
  | inconsistentOrdering (cs : List OrderConstraint) :
    Renamed (.inconsistentOrdering cs) (.inconsistentOrdering (cs.map (OrderConstraint.rename r)))
  | candidateLimitExceeded (limit : Nat) :
    Renamed (.candidateLimitExceeded limit) (.candidateLimitExceeded limit)

inductive Outcome.Renamed {α β : Type} (f : α → β) :
    Except CompileError α → Except CompileError β → Prop
  | ok (a : α) : Renamed f (.ok a) (.ok (f a))
  | error {e e' : CompileError} (h : e.Renamed r e') : Renamed f (.error e) (.error e')

namespace Outcome.Renamed

variable {r} {α β γ δ : Type} {f : α → β} {g : γ → δ} {x : Except CompileError α}
  {x' : Except CompileError β}

theorem map {k : α → γ} {k' : β → δ} (h : Renamed r f x x') (hk : ∀ a, k' (f a) = g (k a)) :
    Renamed r g (x.map k) (x'.map k') := by
  cases h with
  | ok a =>
    show Renamed r g (.ok (k a)) (.ok (k' (f a)))
    rw [hk]
    exact .ok (k a)
  | error h => exact .error h

theorem bind {k : α → Except CompileError γ} {k' : β → Except CompileError δ}
    (h : Renamed r f x x') (hk : ∀ a, x = .ok a → Renamed r g (k a) (k' (f a))) :
    Renamed r g (x >>= k) (x' >>= k') := by
  cases h with
  | ok a => exact hk a rfl
  | error h => exact .error h

theorem mapM {l : List α} {k : α → Except CompileError γ} {k' : β → Except CompileError δ}
    (h : ∀ a ∈ l, Renamed r g (k a) (k' (f a))) :
    Renamed r (List.map g) (l.mapM k) ((l.map f).mapM k') := by
  induction l with
  | nil => exact .ok []
  | cons a l ih =>
    obtain ⟨ha, hl⟩ := List.forall_mem_cons.1 h
    rw [List.map_cons, List.mapM_cons, List.mapM_cons]
    apply ha.bind
    intro c _
    apply (ih hl).bind
    intro cs _
    exact .ok (c :: cs)

end Outcome.Renamed

end TreeQuery
