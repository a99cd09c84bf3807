import TreeQuery.Pattern.Alternative
import TreeQuery.Proofs.Sequence

/-!
What collecting alternatives gives. The collected texts are those of the enumeration without
repetitions, in the order of their first occurrence, unless there are more than the limit allows.
-/

set_option autoImplicit false
set_option relaxedAutoImplicit false

namespace TreeQuery.Pattern

namespace Alternation

variable {limit : Option Nat}

def bounded (limit : Option Nat) (distinct : List String) : Except CompileError String :=
  if limit.any fun l => l < distinct.length then .error (.candidateLimitExceeded (limit.getD 0))
  else .ok (" | ".intercalate distinct)

private theorem text_of_complete {kept : List String} {examined : Nat}
    (h : ∀ l ∈ limit, kept.length ≤ l) :
    (⟨kept, examined, true⟩ : Alternation).text limit = bounded limit kept := by
  have hwithin : ¬ (limit.any fun l => l < kept.length) = true := by
    rw [Option.any_eq_true]
    rintro ⟨l, hl, hlt⟩
    have hle := h l hl
    rw [decide_eq_true_eq] at hlt
    omega
  rw [bounded, if_neg hwithin]
  rfl

private theorem text_of_stopped {kept all : List String} {examined : Nat}
    (h : (limit.any fun l => l ≤ kept.length) = true) (hlt : kept.length < all.length) :
    (⟨kept, examined, false⟩ : Alternation).text limit = bounded limit all := by
  have hbeyond : (limit.any fun l => l < all.length) = true := by
    obtain ⟨l, hl, hle⟩ := (Option.any_eq_true _ _).1 h
    rw [decide_eq_true_eq] at hle
    rw [Option.any_eq_true]
    exact ⟨l, hl, by rw [decide_eq_true_eq]; omega⟩
  rw [bounded, if_pos hbeyond]
  rfl

private theorem text_collectFrom {texts : Enumeration String} {seen : Std.HashSet String}
    {kept : Array String} {examined : Nat}
    (hseen : ∀ t, seen.contains t = true ↔ t ∈ kept.toList) (hkept : kept.toList.Nodup)
    (hlimit : ∀ l ∈ limit, kept.size ≤ l) :
    (collectFrom limit texts seen kept examined).text limit =
      bounded limit (kept.toList ++ texts.toList).eraseDups := by
  have hself := Sequence.eraseDups_eq_self hkept
  induction texts generalizing seen kept examined with
  | nil =>
    rw [Enumeration.toList_nil, List.append_nil, hself]
    exact text_of_complete hlimit
  | cons t rest ih =>
    rw [collectFrom, Enumeration.toList_cons]
    split
    · -- an old text: the distinct ones stay the same
      rename_i hold
      have hmem := (hseen t).1 hold
      rw [ih () hseen hkept hlimit hself, List.eraseDups_append, List.eraseDups_append,
        List.cons_removeAll]
      simp [hmem]
    · rename_i hnew
      have hmem : t ∉ kept.toList := fun ht => hnew ((hseen t).2 ht)
      split
      · -- a new text beyond the limit
        rename_i hfull
        apply text_of_stopped hfull
        rw [List.eraseDups_append, hself, List.cons_removeAll]
        simp [hmem, List.eraseDups_cons]
      · rename_i hroom
        have hpush : (kept.push t).toList = kept.toList ++ [t] := Array.toList_push
        have hseen' : ∀ u, (seen.insert t).contains u = true ↔ u ∈ (kept.push t).toList := by
          intro u
          rw [Std.HashSet.contains_insert, hpush, Bool.or_eq_true, beq_iff_eq, hseen,
            List.mem_append, List.mem_singleton, or_comm, @eq_comm _ t u]
        have hkept' : (kept.push t).toList.Nodup := by
          rw [hpush, List.nodup_append]
          refine ⟨hkept, by simp, ?_⟩
          intro u hu v hv huv
          rw [List.mem_singleton] at hv
          exact hmem (hv ▸ huv ▸ hu)
        have hlimit' : ∀ l ∈ limit, (kept.push t).size ≤ l := by
          intro l hl
          rw [Option.any_eq_true] at hroom
          have hlt : ¬ l ≤ kept.size := fun hle => hroom ⟨l, hl, by simpa using hle⟩
          rw [Array.size_push]
          omega
        rw [ih () hseen' hkept' hlimit' (Sequence.eraseDups_eq_self hkept'), hpush]
        simp

theorem bounded_eq_error_iff {distinct : List String} {e : CompileError} :
    bounded limit distinct = .error e ↔
      ∃ l, limit = some l ∧ l < distinct.length ∧ e = .candidateLimitExceeded l := by
  rw [bounded]
  cases limit with
  | none => simp
  | some l =>
    by_cases hlt : l < distinct.length
    · simp [hlt, eq_comm]
    · simp [hlt]

private theorem bounded_eq_ok_iff {distinct : List String} {text : String} :
    bounded limit distinct = .ok text ↔
      (∀ l, limit = some l → distinct.length ≤ l) ∧ text = " | ".intercalate distinct := by
  rw [bounded]
  cases limit with
  | none => simp [eq_comm]
  | some l =>
    by_cases hlt : l < distinct.length
    · simp [hlt, Nat.not_le_of_lt hlt]
    · simp [hlt, Nat.le_of_not_lt hlt, eq_comm]

end Alternation

theorem ofCandidates_eq (q : Query) (pl : Placement) (limit : Option Nat)
    (candidates : Enumeration Candidate) :
    ofCandidates q pl limit candidates =
      Alternation.bounded limit (candidates.toList.map (candidateText q pl)).eraseDups := by
  rw [ofCandidates, Alternation.collect, Alternation.text_collectFrom]
  · simp
  · simp
  · simp
  · simp

/-- The different texts of a sequence in the order of their first occurrence. -/
structure ListsDistinct (texts distinct : List String) : Prop where
  nodup : distinct.Nodup
  mem_iff : ∀ t, t ∈ distinct ↔ t ∈ texts
  ascending : distinct.Pairwise fun t u => texts.idxOf t < texts.idxOf u

private theorem listsDistinct_eraseDups (texts : List String) :
    ListsDistinct texts texts.eraseDups where
  nodup := Sequence.nodup_eraseDups texts
  mem_iff _ := List.mem_eraseDups
  ascending := Sequence.pairwise_idxOf_eraseDups texts

/-- The pattern joins the different texts of the candidates in the order of their first occurrence.
It is refused exactly if there are more of them than the limit. So the limit has no influence on the
pattern, and what keeps to a limit keeps to every greater one. -/
theorem ofCandidates_joins_distinct (q : Query) (pl : Placement)
    (candidates : Enumeration Candidate) :
    ∃ distinct, ListsDistinct (candidates.toList.map (candidateText q pl)) distinct ∧
      (∀ limit e, ofCandidates q pl limit candidates = .error e ↔
        ∃ l, limit = some l ∧ l < distinct.length ∧ e = .candidateLimitExceeded l) ∧
      (∀ limit text, ofCandidates q pl limit candidates = .ok text ↔
        (∀ l, limit = some l → distinct.length ≤ l) ∧ text = " | ".intercalate distinct) ∧
      (∀ limit limit' text text', ofCandidates q pl limit candidates = .ok text →
        ofCandidates q pl limit' candidates = .ok text' → text = text') ∧
      ∀ limit limit', (∀ l', limit' = some l' → ∃ l, limit = some l ∧ l ≤ l') →
        (∃ text, ofCandidates q pl limit candidates = .ok text) →
        ∃ text, ofCandidates q pl limit' candidates = .ok text := by
  simp only [ofCandidates_eq, Alternation.bounded_eq_error_iff, Alternation.bounded_eq_ok_iff]
  refine ⟨_, listsDistinct_eraseDups _, fun _ _ => Iff.rfl, fun _ _ => Iff.rfl, ?_, ?_⟩
  · rintro limit limit' text text' ⟨-, rfl⟩ ⟨-, rfl⟩
    rfl
  · rintro limit limit' hle ⟨text, hwithin, rfl⟩
    refine ⟨_, ?_, rfl⟩
    intro l' hl'
    obtain ⟨l, hl, hll'⟩ := hle l' hl'
    exact (hwithin l hl).trans hll'

end TreeQuery.Pattern
