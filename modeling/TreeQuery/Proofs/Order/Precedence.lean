import Mathlib.Data.Fintype.EquivFin
import Mathlib.Order.WellFounded
import TreeQuery.Proofs.Order.Component

/-!
The order that a component keeps of its tokens. What precedes what is a strict order, in which every
token comes before its immediate successor; both are what the constraints of the query say about
the tokens, since no chain of constraints leaves a component.
-/

set_option autoImplicit false
set_option relaxedAutoImplicit false

namespace TreeQuery.Order

open OrderConstraint (Chain Adjoins)

namespace Component.Faithful

variable {c : Component}

theorem lt_of_successor? (hc : c.Faithful) {a b : Nat} (h : c.successor? a = some b) :
    a < c.size ∧ b < c.size := by
  obtain ⟨i, j, hi, hj, -⟩ := (hc.successor?_iff a b).1 h
  exact ⟨(List.getElem?_eq_some_iff.1 hi).1, (List.getElem?_eq_some_iff.1 hj).1⟩

theorem precedes_of_successor? (hc : c.Faithful) {a b : Nat} (h : c.successor? a = some b) :
    c.precedes a b = true := by
  obtain ⟨i, j, hi, hj, hij⟩ := (hc.successor?_iff a b).1 h
  exact (hc.precedes_iff a b).2 ⟨i, j, hi, hj, .single hij.step⟩

theorem precedes_trans (hc : c.Faithful) {a b d : Nat} (hab : c.precedes a b = true)
    (hbd : c.precedes b d = true) : c.precedes a d = true := by
  obtain ⟨i, j, hi, hj, hij⟩ := (hc.precedes_iff a b).1 hab
  obtain ⟨j', k, hj', hk, hjk⟩ := (hc.precedes_iff b d).1 hbd
  obtain rfl := Option.some.inj (hj.symm.trans hj')
  exact (hc.precedes_iff a d).2 ⟨i, k, hi, hk, hij.trans hjk⟩

theorem not_precedes_self (hc : c.Faithful) (a : Nat) : ¬ c.precedes a a = true := by
  intro h
  obtain ⟨i, j, hi, hj, hij⟩ := (hc.precedes_iff a a).1 h
  obtain rfl := Option.some.inj (hi.symm.trans hj)
  exact hc.acyclic i hij

theorem eq_of_successor?_eq (hc : c.Faithful) {a b d : Nat} (ha : c.successor? a = some d)
    (hb : c.successor? b = some d) : a = b := by
  obtain ⟨i, k, hi, hk, hik⟩ := (hc.successor?_iff a d).1 ha
  obtain ⟨j, k', hj, hk', hjk⟩ := (hc.successor?_iff b d).1 hb
  obtain rfl := Option.some.inj (hk.symm.trans hk')
  obtain rfl := hc.unique_before i j k hik hjk
  have hpos := (getElem?_eq_some_iff_idxOf hc.nodup).1 hi
  exact hpos.2.symm.trans ((getElem?_eq_some_iff_idxOf hc.nodup).1 hj).2

theorem precedes_induction (hc : c.Faithful) {motive : Nat → Prop}
    (step : ∀ b, (∀ a, c.precedes a b = true → motive a) → motive b) (b : Nat) : motive b := by
  by_cases hb : b < c.size
  · let r : Fin c.size → Fin c.size → Prop := fun x y => c.precedes x y = true
    have : IsTrans (Fin c.size) r := ⟨fun _ _ _ => hc.precedes_trans⟩
    have : Std.Irrefl r := ⟨fun x => hc.not_precedes_self x⟩
    have hwf : WellFounded r := Finite.wellFounded_of_trans_of_irrefl r
    have hall : ∀ x : Fin c.size, motive x := fun x =>
      hwf.induction x fun y ih => step y fun a hay => by
        obtain ⟨i, j, hi, -, -⟩ := (hc.precedes_iff a y).1 hay
        exact ih ⟨a, (List.getElem?_eq_some_iff.1 hi).1⟩ hay
    exact hall ⟨b, hb⟩
  · refine step b fun a hab => ?_
    obtain ⟨i, j, -, hj, -⟩ := (hc.precedes_iff a b).1 hab
    exact absurd (List.getElem?_eq_some_iff.1 hj).1 hb

private theorem hasPredecessor_iff (hc : c.Faithful) (b : Nat) :
    c.hasPredecessor b = true ↔
      ∃ i j, c.tokens[b]? = some j ∧ Adjoins c.constraints i j := by
  rw [Component.hasPredecessor_iff]
  constructor
  · intro ⟨a, hab⟩
    obtain ⟨i, j, -, hj, hij⟩ := (hc.successor?_iff a b).1 hab
    exact ⟨i, j, hj, hij⟩
  · intro ⟨i, j, hj, hij⟩
    have hi := (getElem?_eq_some_iff_idxOf hc.nodup).2 ⟨(hc.closed _ hij).1, rfl⟩
    exact ⟨_, (hc.successor?_iff _ b).2 ⟨i, j, hi, hj, hij⟩⟩

end Component.Faithful

section Query

/-- The order that a component keeps is what a list of constraints says about its tokens. -/
structure Component.Reflects (c : Component) (cs : List OrderConstraint) : Prop where
  precedes_iff : ∀ a b, c.precedes a b = true ↔
    ∃ i j, c.tokens[a]? = some i ∧ c.tokens[b]? = some j ∧ Chain cs i j
  irrefl : ∀ a, ¬ c.precedes a a = true
  trans : ∀ a b d, c.precedes a b = true → c.precedes b d = true → c.precedes a d = true
  successor?_iff : ∀ a b, c.successor? a = some b ↔
    ∃ i j, c.tokens[a]? = some i ∧ c.tokens[b]? = some j ∧ Adjoins cs i j
  unique_predecessor : ∀ i j k, k ∈ c.tokens → Adjoins cs i k → Adjoins cs j k → i = j
  hasPredecessor_iff : ∀ b, c.hasPredecessor b = true ↔
    ∃ i j, c.tokens[b]? = some j ∧ Adjoins cs i j
  precedes_of_successor? : ∀ a b, c.successor? a = some b → c.precedes a b = true

/-- Every component of a query reflects the constraints of the query. -/
theorem components_reflect_constraints (q : Query) (comps : List Component)
    (h : components q = .ok comps) (c : Component) (hc : c ∈ comps) :
    c.Reflects q.constraints := by
  have hdec := decomposes_of_components_eq_ok h
  have hfaith := hdec.faithful c hc
  constructor
  case precedes_iff =>
    intro a b
    rw [hfaith.precedes_iff]
    refine exists₂_congr fun i j => and_congr_right fun hi => and_congr_right fun _ => ?_
    exact (hdec.chain_iff hc (List.mem_of_getElem? hi)).symm
  case irrefl => exact hfaith.not_precedes_self
  case trans =>
    intro a b d hab hbd
    exact hfaith.precedes_trans hab hbd
  case successor?_iff =>
    intro a b
    rw [hfaith.successor?_iff]
    refine exists₂_congr fun i j => and_congr_right fun hi => and_congr_right fun _ => ?_
    exact (hdec.adjoins_iff hc (List.mem_of_getElem? hi)).symm
  case unique_predecessor =>
    intro i j k hk hik hjk
    rw [hdec.adjoins_iff_of_after hc hk] at hik hjk
    exact hfaith.unique_before i j k hik hjk
  case hasPredecessor_iff =>
    intro b
    rw [hfaith.hasPredecessor_iff]
    refine exists₂_congr fun i j => and_congr_right fun hj => ?_
    exact (hdec.adjoins_iff_of_after hc (List.mem_of_getElem? hj)).symm
  case precedes_of_successor? =>
    intro a b hab
    exact hfaith.precedes_of_successor? hab

/-- A token before two adjoined ones, of which the second comes before the token declared first. -/
def ranked : Query where
  tokens := [⟨⟨2⟩, none⟩]
  dependencies := []
  predicates := []
  constraints := [⟨⟨0⟩, ⟨1⟩, .immediate⟩, ⟨⟨1⟩, ⟨2⟩, .general⟩, ⟨⟨3⟩, ⟨0⟩, .general⟩]

theorem ranked_reflects_constraints :
    ∃ c, components ranked = .ok [c] ∧ c.tokens = [⟨2⟩, ⟨0⟩, ⟨1⟩, ⟨3⟩] ∧
      c.precedes 3 0 = true ∧ c.successor? 1 = some 2 ∧ c.Reflects ranked.constraints := by
  have hone : (components ranked).toOption.map
      (List.map fun c => (c.tokens, c.precedes 3 0, c.successor? 1)) =
        some [([⟨2⟩, ⟨0⟩, ⟨1⟩, ⟨3⟩], true, some 2)] := by
    decide +kernel
  obtain ⟨comps, hcomps, hcomp⟩ := Option.map_eq_some_iff.1 hone
  rw [Sequence.toOption_eq_some_iff] at hcomps
  obtain ⟨c, rfl, hc⟩ := List.map_eq_singleton_iff.1 hcomp
  simp only [Prod.mk.injEq] at hc
  obtain ⟨htokens, hprecedes, hsuccessor⟩ := hc
  exact ⟨c, hcomps, htokens, hprecedes, hsuccessor,
    components_reflect_constraints ranked [c] hcomps c List.mem_cons_self⟩

end Query

end TreeQuery.Order
