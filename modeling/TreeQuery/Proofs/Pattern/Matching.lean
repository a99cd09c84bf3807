import Mathlib.Data.List.Forall2
import TreeQuery.Pattern.Match
import TreeQuery.Proofs.Predicate.Meaning
import TreeQuery.Proofs.Sequence

/-!
Matching an alternative from left to right. While the tokens are passed, the bound labels track
the positions of the tokens that have been passed. If all references of a token are to labelled
tokens before it, its conditions therefore hold if and only if they hold with every token at its
position.
-/

set_option autoImplicit false
set_option relaxedAutoImplicit false

namespace TreeQuery.Pattern

variable {labels : Labels} {position : Identifier → Nat} {m : Interpretation Nat}

/-- The labelled tokens among those that have been passed are bound to their positions, and no
others. -/
def Tracks (labels : Labels) (position : Identifier → Nat) (passed : List Identifier)
    (bound : Bound) : Prop :=
  ∀ i, bound? labels bound i =
    if i ∈ passed then (labels.lookup i).map fun _ => position i else none

def Distinct (labels : Labels) : Prop :=
  ∀ i j l, labels.lookup i = some l → labels.lookup j = some l → i = j

private theorem tracks_nil : Tracks labels position [] [] := by
  intro i
  rw [bound?]
  cases labels.lookup i <;> rfl

private theorem Tracks.bindLabel {passed : List Identifier} {bound : Bound} {s : Slot}
    (h : Tracks labels position passed bound) (hlabels : Distinct labels) :
    Tracks labels position (passed ++ [s.identifier])
      (bindLabel labels bound (position s.identifier) s) := by
  intro i
  have hi := h i
  rw [bound?] at hi
  rw [bound?, Pattern.bindLabel]
  by_cases his : i = s.identifier
  · subst his
    rw [if_pos (by simp)]
    cases hl : labels.lookup s.identifier with
    | none => rfl
    | some l => simp
  · have hmem : i ∈ passed ++ [s.identifier] ↔ i ∈ passed := by simp [his]
    simp only [hmem]
    rw [← hi]
    cases hl : labels.lookup i with
    | none => rfl
    | some l =>
      cases hs : labels.lookup s.identifier with
      | none => rfl
      | some k =>
        have hlk : (l == k) = false := by
          rw [beq_eq_false_iff_ne]
          intro hlk
          exact his (hlabels i s.identifier l hl (hlk ▸ hs))
        simp [List.lookup_cons, hlk]

def Slot.RefersTo (labels : Labels) (passed : List Identifier) (s : Slot) : Prop :=
  ∀ p ∈ s.conjuncts, ∀ j ∈ p.owners, j ∈ passed ∧ (labels.lookup j).isSome = true

private theorem Slot.matchesAt_iff {passed : List Identifier} {bound : Bound} {s : Slot}
    (h : Tracks labels position passed bound) (hs : s.RefersTo labels passed) :
    s.MatchesAt m labels bound (position s.identifier) ↔
      ∀ p ∈ s.conjuncts, p.Holds m fun o => position (o.getD s.identifier) := by
  have hbound {p : Predicate} (hp : p ∈ s.conjuncts) {j : Identifier} (hj : j ∈ p.owners) :
      bound? labels bound j = some (position j) := by
    obtain ⟨hpassed, hlabel⟩ := hs p hp j hj
    obtain ⟨l, hl⟩ := Option.isSome_iff_exists.1 hlabel
    rw [h j, if_pos hpassed, hl, Option.map_some]
  rw [MatchesAt]
  refine forall_congr' fun p => forall_congr' fun hp => ?_
  have hbinds : ∀ j ∈ p.owners, (bound? labels bound j).isSome = true := by
    intro j hj
    rw [hbound hp hj, Option.isSome_some]
  rw [and_iff_right hbinds]
  refine Predicate.holds_congr fun a ha => ?_
  cases ho : a.owner with
  | none => rfl
  | some j =>
    have hj : j ∈ p.owners := Predicate.mem_owners.2 ⟨a, ha, ho⟩
    rw [Option.bind_some, hbound hp hj, Option.getD_some, Option.getD_some]

def GapsSpan (position : Identifier → Nat) (gaps : List Gap)
    (pairs : List (Identifier × Identifier)) : Prop :=
  List.Forall₂ (fun g e => Spans (position e.1) (position e.2) (some g)) gaps pairs

private theorem gapsSpan_cons {g : Gap} {gs : List Gap} {a b : Identifier}
    {pairs : List (Identifier × Identifier)} :
    GapsSpan position (g :: gs) ((a, b) :: pairs) ↔
      Spans (position a) (position b) (some g) ∧ GapsSpan position gs pairs :=
  List.forall₂_cons

def RefersBack (labels : Labels) (tokens : List Identifier) (slot : Identifier → Slot) : Prop :=
  ∀ passed i rest, tokens = passed ++ i :: rest → (slot i).RefersTo labels passed

private theorem tailMatches_iff (hlabels : Distinct labels) {slot : Identifier → Slot}
    (hslot : ∀ i, (slot i).identifier = i) {tokens : List Identifier}
    (hback : RefersBack labels tokens slot) {passed rest : List Identifier} {a : Identifier}
    (htokens : tokens = passed ++ rest) {bound : Bound}
    (hbound : Tracks labels position passed bound) {gaps : List Gap}
    (hgaps : gaps.length = rest.length) :
    TailMatches m labels bound (position a) gaps (rest.map slot) (rest.map position) ↔
      GapsSpan position gaps ((a :: rest).zip rest) ∧
        ∀ i ∈ rest, ∀ p ∈ (slot i).conjuncts, p.Holds m fun o => position (o.getD i) := by
  induction rest generalizing passed a bound gaps with
  | nil =>
    obtain rfl := List.eq_nil_of_length_eq_zero hgaps
    simp [TailMatches, GapsSpan]
  | cons i rest ih =>
    obtain ⟨g, gs, rfl⟩ := List.exists_cons_of_length_eq_add_one hgaps
    have hstep := hbound.bindLabel (s := slot i) hlabels
    rw [hslot] at hstep
    have hmatch := Slot.matchesAt_iff (m := m) hbound (hback passed i rest htokens)
    rw [hslot] at hmatch
    have htail := ih (a := i) (by rw [htokens, List.append_assoc]; rfl) hstep
      (Nat.succ.inj hgaps)
    rw [List.map_cons, List.map_cons, TailMatches, List.head?_cons, List.tail_cons, hmatch, htail,
      List.zip_cons_cons, gapsSpan_cons, List.forall_mem_cons]
    exact ⟨fun ⟨hs, hm, hg, hr⟩ => ⟨⟨hs, hg⟩, hm, hr⟩, fun ⟨⟨hs, hg⟩, hm, hr⟩ => ⟨hs, hm, hg, hr⟩⟩

/-- An alternative whose slots refer back matches at the positions of its tokens if and only if
the gaps are kept and all conditions hold there. -/
theorem matchesAt_iff {tokens : List Identifier} {slot : Identifier → Slot} {gaps : List Gap}
    (hlabels : Distinct labels) (hslot : ∀ i, (slot i).identifier = i)
    (hback : RefersBack labels tokens slot) (hgaps : gaps.length = tokens.length - 1) :
    (Alternative.mk (tokens.map slot) gaps labels).MatchesAt m (tokens.map position) ↔
      GapsSpan position gaps (tokens.zip tokens.tail) ∧
        ∀ i ∈ tokens, ∀ p ∈ (slot i).conjuncts, p.Holds m fun o => position (o.getD i) := by
  cases tokens with
  | nil =>
    obtain rfl := List.eq_nil_of_length_eq_zero hgaps
    simp [Alternative.MatchesAt, GapsSpan]
  | cons a rest =>
    have htracks : Tracks labels position [] [] := tracks_nil
    have hfirst := Slot.matchesAt_iff (m := m) htracks (hback [] a rest rfl)
    have hstep := htracks.bindLabel (s := slot a) hlabels
    rw [hslot] at hfirst hstep
    have htail := tailMatches_iff (m := m) (a := a) hlabels hslot hback rfl hstep hgaps
    rw [List.tail_cons, List.forall_mem_cons, and_left_comm, ← htail, ← hfirst]
    exact Iff.rfl

end TreeQuery.Pattern
