import Mathlib.Data.List.Nodup
import TreeQuery.Query.Draft

/-!
Which drafts become queries: those that declare no token twice and mention some token.
-/

set_option autoImplicit false
set_option relaxedAutoImplicit false

namespace TreeQuery

theorem Query.identifiers_eq_nil_iff {q : Query} :
    q.identifiers = [] ↔ q.tokens = [] ∧ q.dependencies = [] ∧ q.constraints = [] := by
  simp only [identifiers, List.eq_nil_iff_forall_not_mem, List.mem_eraseDups, List.mem_append,
    List.mem_map, List.mem_flatMap]
  constructor
  · intro h
    refine ⟨?_, ?_, ?_⟩
    · intro t ht
      exact h t.identifier (.inl (.inl ⟨t, ht, rfl⟩))
    · intro d hd
      exact h d.governor (.inl (.inr ⟨d, hd, List.mem_cons_self⟩))
    · intro c hc
      exact h c.before (.inr ⟨c, hc, List.mem_cons_self⟩)
  · rintro ⟨htokens, hdeps, hcons⟩ i ((⟨t, ht, -⟩ | ⟨d, hd, -⟩) | ⟨c, hc, -⟩)
    · exact htokens t ht
    · exact hdeps d hd
    · exact hcons c hc

namespace Draft

theorem firstRepeated?_eq_none_iff {seen l : List Identifier} :
    firstRepeated? seen l = none ↔ l.Nodup ∧ ∀ i ∈ l, i ∉ seen := by
  induction l generalizing seen with
  | nil => simp [firstRepeated?]
  | cons i l ih =>
    rw [firstRepeated?]
    split
    · rename_i hi
      simp [hi]
    · rename_i hi
      rw [ih, List.nodup_cons, List.forall_mem_cons]
      simp only [List.mem_cons, not_or]
      constructor
      · rintro ⟨hnodup, hnew⟩
        refine ⟨⟨fun hil => (hnew i hil).1 rfl, hnodup⟩, hi, fun j hj => (hnew j hj).2⟩
      · rintro ⟨⟨hil, hnodup⟩, -, hnew⟩
        refine ⟨hnodup, fun j hj => ⟨?_, hnew j hj⟩⟩
        rintro rfl
        exact hil hj

theorem build_eq_ok_iff {d : Draft} {q : Query} :
    d.build = .ok q ↔
      (d.parts.tokens.map Token.identifier).Nodup ∧ d.parts.identifiers ≠ [] ∧ q = d.parts := by
  have hnone : firstRepeated? [] (d.parts.tokens.map Token.identifier) = none ↔
      (d.parts.tokens.map Token.identifier).Nodup := by
    simp [firstRepeated?_eq_none_iff]
  rw [build, ← hnone]
  cases firstRepeated? [] (d.parts.tokens.map Token.identifier) with
  | some i => simp
  | none =>
    cases d.parts.identifiers with
    | nil => simp
    | cons i l =>
      simp only [List.isEmpty_cons, Bool.false_eq_true, if_false, Except.ok.injEq, true_and,
        ne_eq, reduceCtorEq, not_false_eq_true]
      exact eq_comm

end Draft

end TreeQuery
