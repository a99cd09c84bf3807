import TreeQuery.Pattern.Alternative
import TreeQuery.Proofs.Sequence

/-!
Names are told apart by their ordinals: the ordinal of a word is read off its symbols, and the word
with number `n` has the ordinal `n + 1`. So the labelled tokens of a sequence have different
labels.
-/

set_option autoImplicit false
set_option relaxedAutoImplicit false

namespace TreeQuery.Pattern

section Word

variable {α : Type} [DecidableEq α] {alphabet : List α}

/-- The place of a word in the sequence of all words by length and then alphabetically, which the
empty word starts. -/
def ordinal (alphabet : List α) (w : List α) : Nat :=
  w.foldl (fun n a => n * alphabet.length + alphabet.idxOf a + 1) 0

theorem ordinal_append_singleton (w : List α) (a : α) :
    ordinal alphabet (w ++ [a]) =
      ordinal alphabet w * alphabet.length + alphabet.idxOf a + 1 := by
  rw [ordinal, List.foldl_append]
  rfl

private theorem ordinal_spell (h : alphabet.Nodup) (hne : alphabet ≠ []) {bound n : Nat}
    (hn : n < bound) : ordinal alphabet (spell alphabet bound n) = n + 1 := by
  have hpos : 0 < alphabet.length := List.length_pos_iff.2 hne
  induction bound generalizing n with
  | zero => omega
  | succ bound ih =>
    have hmod : n % alphabet.length < alphabet.length := Nat.mod_lt n hpos
    have hidx := h.idxOf_getElem (n % alphabet.length) hmod
    rw [spell, List.getElem?_eq_getElem hmod, Option.toList_some]
    split
    · rename_i hlt
      rw [ordinal, List.foldl_cons, List.foldl_nil, hidx, Nat.mod_eq_of_lt hlt]
      omega
    · rename_i hge
      have hdiv : 1 ≤ n / alphabet.length := (Nat.one_le_div_iff hpos).2 (by omega)
      have hlt : n / alphabet.length ≤ n := Nat.div_le_self n alphabet.length
      have hrest := ih (by omega : n / alphabet.length - 1 < bound)
      have hn := Nat.div_add_mod n alphabet.length
      rw [ordinal_append_singleton, hrest, hidx, Nat.sub_add_cancel hdiv, Nat.mul_comm]
      omega

theorem ordinal_word (h : alphabet.Nodup) (hne : alphabet ≠ []) (n : Nat) :
    ordinal alphabet (word alphabet n) = n + 1 :=
  ordinal_spell h hne (Nat.lt_succ_self n)

theorem word_injective (h : alphabet.Nodup) (hne : alphabet ≠ []) :
    Function.Injective (word alphabet) := by
  intro n n' heq
  have hn := ordinal_word h hne n
  rw [heq, ordinal_word h hne n'] at hn
  omega

end Word

private theorem ofList_word_injective {alphabet : List Char} (h : alphabet.Nodup)
    (hne : alphabet ≠ []) :
    Function.Injective fun n => String.ofList (word alphabet n) := by
  intro n n' heq
  exact word_injective h hne (String.ofList_injective heq)

private theorem label_injective : Function.Injective label :=
  ofList_word_injective (by decide) (by decide)

theorem entryName_injective : Function.Injective entryName :=
  ofList_word_injective (by decide) (by decide)

section Labels

variable {referenced tokens : List Identifier}

private theorem lookup_labelsOf (h : tokens.Nodup) (i : Identifier) :
    (labelsOf referenced tokens).lookup i =
      if i ∈ tokens.filter fun j => j ∈ referenced then
        some (label ((tokens.filter fun j => j ∈ referenced).idxOf i))
      else none :=
  Sequence.lookup_zipIdx_reverse (h.filter _) label i

theorem isSome_lookup_labelsOf (h : tokens.Nodup) {i : Identifier} :
    ((labelsOf referenced tokens).lookup i).isSome = true ↔ i ∈ tokens ∧ i ∈ referenced := by
  have hmem : i ∈ tokens.filter (fun j => j ∈ referenced) ↔ i ∈ tokens ∧ i ∈ referenced := by
    rw [List.mem_filter, decide_eq_true_eq]
  rw [lookup_labelsOf h, ← hmem]
  split
  · rename_i hi
    exact iff_of_true rfl hi
  · rename_i hi
    exact iff_of_false (by simp) hi

theorem eq_of_lookup_labelsOf (h : tokens.Nodup) {i j : Identifier} {l : String}
    (hi : (labelsOf referenced tokens).lookup i = some l)
    (hj : (labelsOf referenced tokens).lookup j = some l) : i = j := by
  rw [lookup_labelsOf h] at hi hj
  split at hi
  · split at hj
    · rename_i hmem _
      have hidx := label_injective (Option.some.inj (hi.trans hj.symm))
      exact (List.idxOf_inj hmem).1 hidx
    · cases hj
  · cases hi

end Labels

end TreeQuery.Pattern
