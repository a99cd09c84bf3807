import Mathlib.Data.List.Shortlex
import TreeQuery.Proofs.Pattern.Naming

/-!
The order of the words over an alphabet. Ordinals grow with the words, by length and then
alphabetically, so each word over the alphabet is the one with its ordinal, and the numbers run
through all words but the empty one in that order.
-/

set_option autoImplicit false
set_option relaxedAutoImplicit false

namespace TreeQuery.Pattern

variable {α : Type} {alphabet : List α}

private theorem spell_subset (bound n : Nat) : spell alphabet bound n ⊆ alphabet := by
  induction bound generalizing n with
  | zero => exact List.nil_subset alphabet
  | succ bound ih =>
    have hlast : alphabet[n % alphabet.length]?.toList ⊆ alphabet := by
      intro a ha
      exact List.mem_of_getElem? (Option.mem_toList.1 ha)
    rw [spell]
    split
    · exact hlast
    · exact List.append_subset.2 ⟨ih _, hlast⟩

private theorem word_subset (n : Nat) : word alphabet n ⊆ alphabet := spell_subset (n + 1) n

variable [DecidableEq α] {w w' : List α}

def Earlier (alphabet : List α) (a b : α) : Prop := alphabet.idxOf a < alphabet.idxOf b

private theorem ordinal_pos (hw : w ≠ []) : 0 < ordinal alphabet w := by
  obtain ⟨u, a, rfl⟩ := (List.eq_nil_or_concat' w).resolve_left hw
  rw [ordinal_append_singleton]
  exact Nat.succ_pos _

private theorem ordinal_append_singleton_lt {u u' : List α} {a : α} (ha : a ∈ alphabet) (b : α)
    (hlt : ordinal alphabet u < ordinal alphabet u') :
    ordinal alphabet (u ++ [a]) < ordinal alphabet (u' ++ [b]) := by
  have hdigit : alphabet.idxOf a < alphabet.length := List.idxOf_lt_length_of_mem ha
  have hscale : (ordinal alphabet u + 1) * alphabet.length ≤
      ordinal alphabet u' * alphabet.length := Nat.mul_le_mul_right _ hlt
  rw [Nat.succ_mul] at hscale
  rw [ordinal_append_singleton, ordinal_append_singleton]
  omega

private theorem ordinal_append_lt_append (hw : w ⊆ alphabet) (hlen : w.length = w'.length)
    {u u' : List α} (hlt : ordinal alphabet u < ordinal alphabet u') :
    ordinal alphabet (u ++ w) < ordinal alphabet (u' ++ w') := by
  -- Each step moves one symbol from the words to what they follow.
  induction w generalizing w' u u' with
  | nil =>
    obtain rfl := List.length_eq_zero_iff.1 hlen.symm
    rwa [List.append_nil, List.append_nil]
  | cons a w ih =>
    obtain ⟨b, v, rfl⟩ := List.exists_cons_of_length_eq_add_one hlen.symm
    obtain ⟨ha, hw⟩ := List.cons_subset.1 hw
    have hrest := ih hw (Nat.succ.inj hlen) (ordinal_append_singleton_lt ha b hlt)
    rwa [List.append_assoc, List.append_assoc] at hrest

private theorem ordinal_append_lt_of_lex (hw : w ⊆ alphabet) (hlen : w.length = w'.length)
    (h : List.Lex (Earlier alphabet) w w') (u : List α) :
    ordinal alphabet (u ++ w) < ordinal alphabet (u ++ w') := by
  induction h generalizing u with
  | nil => cases hlen
  | @cons a v v' _ ih =>
    have hrest := ih (List.cons_subset.1 hw).2 (Nat.succ.inj hlen) (u ++ [a])
    rwa [List.append_assoc, List.append_assoc] at hrest
  | @rel a v b v' hab =>
    have hstep : ordinal alphabet (u ++ [a]) < ordinal alphabet (u ++ [b]) := by
      rw [ordinal_append_singleton, ordinal_append_singleton]
      exact Nat.succ_lt_succ (Nat.add_lt_add_left hab _)
    have hrest := ordinal_append_lt_append (List.cons_subset.1 hw).2 (Nat.succ.inj hlen) hstep
    rwa [List.append_assoc, List.append_assoc] at hrest

private theorem ordinal_lt_of_length_lt (hw : w ⊆ alphabet) (h : w.length < w'.length) :
    ordinal alphabet w < ordinal alphabet w' := by
  -- The end of `w'` that is as long as `w` follows a word that is not empty.
  have hend : w.length = (w'.drop (w'.length - w.length)).length := by
    rw [List.length_drop]
    omega
  have hstart : w'.take (w'.length - w.length) ≠ [] := by
    rw [← List.length_pos_iff, List.length_take]
    omega
  have hlt := ordinal_append_lt_append hw hend (u := []) (ordinal_pos hstart)
  rwa [List.nil_append, List.take_append_drop] at hlt

private theorem ordinal_lt_of_shortlex (hw : w ⊆ alphabet)
    (h : List.Shortlex (Earlier alphabet) w w') :
    ordinal alphabet w < ordinal alphabet w' := by
  rcases List.shortlex_def.1 h with hlt | ⟨hlen, hlex⟩
  · exact ordinal_lt_of_length_lt hw hlt
  · exact ordinal_append_lt_of_lex hw hlen hlex []

private theorem lex_or_lex_of_ne (hw : w ⊆ alphabet) (hlen : w.length = w'.length) (hne : w ≠ w') :
    List.Lex (Earlier alphabet) w w' ∨ List.Lex (Earlier alphabet) w' w := by
  induction w generalizing w' with
  | nil => exact absurd (List.length_eq_zero_iff.1 hlen.symm).symm hne
  | cons a w ih =>
    obtain ⟨b, v, rfl⟩ := List.exists_cons_of_length_eq_add_one hlen.symm
    obtain ⟨ha, hw⟩ := List.cons_subset.1 hw
    rcases Nat.lt_trichotomy (alphabet.idxOf a) (alphabet.idxOf b) with hab | hab | hab
    · exact .inl (.rel hab)
    · obtain rfl := (List.idxOf_inj ha).1 hab
      have htail : w ≠ v := fun heq => hne (heq ▸ rfl)
      exact (ih hw (Nat.succ.inj hlen) htail).imp .cons .cons
    · exact .inr (.rel hab)

private theorem shortlex_or_shortlex_of_ne (hw : w ⊆ alphabet) (hne : w ≠ w') :
    List.Shortlex (Earlier alphabet) w w' ∨ List.Shortlex (Earlier alphabet) w' w := by
  rcases Nat.lt_trichotomy w.length w'.length with hlen | hlen | hlen
  · exact .inl (.of_length_lt hlen)
  · exact (lex_or_lex_of_ne hw hlen hne).imp (.of_lex hlen) (.of_lex hlen.symm)
  · exact .inr (.of_length_lt hlen)

private theorem eq_of_ordinal_eq (hw : w ⊆ alphabet) (hw' : w' ⊆ alphabet)
    (h : ordinal alphabet w = ordinal alphabet w') : w = w' := by
  by_contra hne
  rcases shortlex_or_shortlex_of_ne hw hne with hlt | hlt
  · exact absurd h (ordinal_lt_of_shortlex hw hlt).ne
  · exact absurd h (ordinal_lt_of_shortlex hw' hlt).ne'

/-- Ordinals grow exactly with the words, by length and then alphabetically. -/
theorem shortlex_iff_ordinal_lt (hw : w ⊆ alphabet) (hw' : w' ⊆ alphabet) :
    List.Shortlex (Earlier alphabet) w w' ↔ ordinal alphabet w < ordinal alphabet w' := by
  constructor
  · exact ordinal_lt_of_shortlex hw
  · intro hlt
    have hne : w ≠ w' := fun heq => absurd hlt (heq ▸ Nat.lt_irrefl _)
    refine (shortlex_or_shortlex_of_ne hw hne).resolve_right fun h => ?_
    exact absurd hlt (ordinal_lt_of_shortlex hw' h).asymm

private theorem word_ne_nil (h : alphabet.Nodup) (hne : alphabet ≠ []) (n : Nat) :
    word alphabet n ≠ [] := by
  intro hnil
  have hn := ordinal_word h hne n
  rw [hnil] at hn
  cases hn

private theorem word_ordinal_sub_one (h : alphabet.Nodup) (hne : alphabet ≠ []) (hw : w ⊆ alphabet)
    (hpos : w ≠ []) : word alphabet (ordinal alphabet w - 1) = w := by
  refine eq_of_ordinal_eq (word_subset _) hw ?_
  rw [ordinal_word h hne, Nat.sub_add_cancel (ordinal_pos hpos)]

/-- The numbers run through the words over an alphabet that are not empty, each of them once, by
length and then alphabetically. -/
theorem word_enumerates_shortlex (h : alphabet.Nodup) (hne : alphabet ≠ []) :
    (∀ n, word alphabet n ≠ [] ∧ word alphabet n ⊆ alphabet) ∧
      (∀ w, w ≠ [] → w ⊆ alphabet → ∃! n, word alphabet n = w) ∧
      (∀ m n, m < n ↔
        List.Shortlex (Earlier alphabet) (word alphabet m) (word alphabet n)) ∧
      Function.Injective (word alphabet) := by
  have hinj := word_injective h hne
  refine ⟨?_, ?_, ?_, hinj⟩
  · intro n
    exact ⟨word_ne_nil h hne n, word_subset n⟩
  · intro w hpos hw
    have hword := word_ordinal_sub_one h hne hw hpos
    exact ⟨_, hword, fun n hn => hinj (hn.trans hword.symm)⟩
  · intro m n
    rw [shortlex_iff_ordinal_lt (word_subset m) (word_subset n), ordinal_word h hne,
      ordinal_word h hne, Nat.add_lt_add_iff_right]

theorem word_ba_enumerates_shortlex :
    ['b', 'a'].Nodup ∧ ['b', 'a'] ≠ [] ∧
      (List.range 7).map (word ['b', 'a']) =
        [['b'], ['a'], ['b', 'b'], ['b', 'a'], ['a', 'b'], ['a', 'a'], ['b', 'b', 'b']] ∧
      List.Shortlex (Earlier ['b', 'a']) ['b', 'a'] ['a', 'b'] ∧
      ∃! n, word ['b', 'a'] n = ['a', 'b'] := by
  have hnodup : ['b', 'a'].Nodup := by decide
  obtain ⟨-, honce, horder, -⟩ := word_enumerates_shortlex hnodup (List.cons_ne_nil _ _)
  refine ⟨hnodup, List.cons_ne_nil _ _, by decide, ?_, ?_⟩
  · exact (horder 3 4).1 (by decide)
  · exact honce ['a', 'b'] (List.cons_ne_nil _ _) (by decide)

end TreeQuery.Pattern
