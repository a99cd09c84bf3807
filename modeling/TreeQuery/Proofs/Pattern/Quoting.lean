import Mathlib.Algebra.Group.Nat.Even
import Mathlib.Data.List.DropRight
import TreeQuery.Pattern.Lexeme

/-!
How far quoted strings end where they should. A string ends at the first quote that no backslash
makes ordinary. The quotes inside a string get a backslash each, but the backslashes that a regular
expression already has stay as they are. So its string is complete exactly if an even number of
backslashes stands before each quote and at the end. Otherwise the string ends at the first quote
behind an odd number of them, or does not end at all. In the string of a literal each quote and each
special character, the backslash among them, has a backslash of its own. It is always complete, and
the literal can be read back from it.
-/

set_option autoImplicit false
set_option relaxedAutoImplicit false

namespace TreeQuery.Pattern

/-- What follows the first quote that no backslash makes ordinary. The flag tells whether the next
character is made ordinary. -/
def afterQuote (ordinary : Bool) : List Char → Option (List Char)
  | [] => none
  | c :: rest =>
    if ordinary then afterQuote false rest
    else if c = '"' then some rest
    else afterQuote (c = '\\') rest

def afterString : List Char → Option (List Char)
  | [] => none
  | c :: body => if c = '"' then afterQuote false body else none

def backslashes (t : List Char) : Nat := (t.rtakeWhile (· = '\\')).length

/-- An even number of backslashes stands before each quote. -/
def QuotesPaired (t : List Char) : Prop :=
  ∀ before after, t = before ++ '"' :: after → Even (backslashes before)

variable {t : List Char} {c : Char}

private theorem escapeQuotes_append (s t : List Char) :
    escapeQuotes (s ++ t) = escapeQuotes s ++ escapeQuotes t := by
  induction s with
  | nil => rfl
  | cons c s ih =>
    rw [List.cons_append, escapeQuotes, escapeQuotes]
    split <;> simp [ih]

private theorem backslashes_concat (t : List Char) (c : Char) :
    backslashes (t ++ [c]) = if c = '\\' then backslashes t + 1 else 0 := by
  rw [backslashes, List.rtakeWhile_concat]
  split <;> simp_all [backslashes]

private theorem quotesPaired_concat :
    QuotesPaired (t ++ [c]) ↔ QuotesPaired t ∧ (c = '"' → Even (backslashes t)) := by
  constructor
  · intro h
    refine ⟨?_, ?_⟩
    · rintro before after rfl
      exact h before (after ++ [c]) (by simp)
    · rintro rfl
      exact h t [] rfl
  · rintro ⟨ht, hc⟩ before after heq
    rcases List.eq_nil_or_concat after with rfl | ⟨after, d, rfl⟩
    · obtain ⟨rfl, hcons⟩ := List.append_inj' heq rfl
      exact hc (List.cons.inj hcons).1
    · have heq' : t ++ [c] = (before ++ '"' :: after) ++ [d] := by simpa using heq
      exact ht before after (List.append_inj' heq' rfl).1

/-- A text whose quotes are paired is passed over. What follows then begins with an ordinary
character if and only if the text ends in an odd number of backslashes. -/
theorem afterQuote_escapeQuotes (ht : QuotesPaired t) (rest : List Char) :
    afterQuote false (escapeQuotes t ++ rest) =
      afterQuote (decide (¬ Even (backslashes t))) rest := by
  -- from the end, since how many backslashes have just been read depends on the last characters
  induction t using List.reverseRecOn generalizing rest with
  | nil => simp [escapeQuotes, backslashes]
  | append_singleton t c ih =>
    obtain ⟨ht, hc⟩ := quotesPaired_concat.1 ht
    rw [escapeQuotes_append, List.append_assoc, ih ht, backslashes_concat]
    by_cases hquote : c = '"'
    · subst hquote
      simp [escapeQuotes, afterQuote, hc]
    · by_cases hslash : c = '\\'
      · subst hslash
        by_cases heven : Even (backslashes t) <;>
          simp [escapeQuotes, afterQuote, Nat.even_add_one, heven]
      · simp [escapeQuotes, afterQuote, hquote, hslash]

private theorem exists_first_unpaired (ht : ¬ QuotesPaired t) :
    ∃ before after, t = before ++ '"' :: after ∧ QuotesPaired before ∧
      ¬ Even (backslashes before) := by
  induction t using List.reverseRecOn with
  | nil => exact (ht fun before after h => by simp at h).elim
  | append_singleton t c ih =>
    by_cases hpaired : QuotesPaired t
    · have hlast : ¬ (c = '"' → Even (backslashes t)) := fun hc =>
        ht (quotesPaired_concat.2 ⟨hpaired, hc⟩)
      obtain ⟨rfl, hodd⟩ := Classical.not_imp.1 hlast
      exact ⟨t, [], rfl, hpaired, hodd⟩
    · obtain ⟨before, after, rfl, hbefore, hodd⟩ := ih hpaired
      exact ⟨before, after ++ [c], by simp, hbefore, hodd⟩

private theorem afterQuote_eq_none (ordinary : Bool) {t : List Char} (ht : '"' ∉ t) :
    afterQuote ordinary t = none := by
  induction t generalizing ordinary with
  | nil => rfl
  | cons c t ih =>
    have hc : ¬ c = '"' := fun h => ht (h ▸ List.mem_cons_self)
    have hrest : '"' ∉ t := fun h => ht (List.mem_cons_of_mem c h)
    rw [afterQuote, ih _ hrest, ih _ hrest, if_neg hc, ite_self]

private theorem afterString_quoted_of_paired (hpaired : QuotesPaired t)
    (hend : Even (backslashes t))
    (tail : List Char) : afterString (quoted t ++ tail) = some tail := by
  have hbody := afterQuote_escapeQuotes hpaired ('"' :: tail)
  simpa [afterString, quoted, afterQuote, hend] using hbody

private theorem afterString_quoted_of_odd (hpaired : QuotesPaired t) (hend : ¬ Even (backslashes t))
    {tail : List Char} (htail : '"' ∉ tail) : afterString (quoted t ++ tail) = none := by
  have hbody := afterQuote_escapeQuotes hpaired ('"' :: tail)
  simpa [afterString, quoted, afterQuote, hend, afterQuote_eq_none false htail] using hbody

private theorem afterString_quoted_of_unpaired {before : List Char} (hpaired : QuotesPaired before)
    (hodd : ¬ Even (backslashes before)) (after tail : List Char) :
    afterString (quoted (before ++ '"' :: after) ++ tail) =
      some (escapeQuotes after ++ '"' :: tail) := by
  have hbody := afterQuote_escapeQuotes hpaired ('\\' :: '"' :: escapeQuotes after ++ '"' :: tail)
  simpa [afterString, quoted, escapeQuotes_append, escapeQuotes, afterQuote, hodd] using hbody

section Regex

def regexOf (ignoringCase : Bool) (t : String) : Value :=
  if ignoringCase then .regexIgnoringCase t else .regex t

def flag (ignoringCase : Bool) : List Char := if ignoringCase then ['%', 'c'] else []

private theorem toList_operandText_regexOf (labels : Labels) (ignoringCase : Bool) (t : String) :
    (operandText labels (.value (regexOf ignoringCase t))).toList =
      quoted t.toList ++ flag ignoringCase := by
  cases ignoringCase <;> simp [operandText, regexOf, valueText, flag]

/-- The string written for a regular expression is complete exactly if an even number of backslashes
stands before each quote and at the end of the expression. It stays open if the number is odd at
the end only, and otherwise ends at the first quote of the expression before which it is odd. -/
theorem regex_string_complete_iff (labels : Labels) (ignoringCase : Bool) (t : String) :
    (afterString (operandText labels (.value (regexOf ignoringCase t))).toList =
          some (flag ignoringCase) ↔
        QuotesPaired t.toList ∧ Even (backslashes t.toList)) ∧
      (afterString (operandText labels (.value (regexOf ignoringCase t))).toList = none ↔
        QuotesPaired t.toList ∧ ¬ Even (backslashes t.toList)) ∧
      ((∃ before after, t.toList = before ++ '"' :: after ∧ QuotesPaired before ∧
          ¬ Even (backslashes before) ∧
          afterString (operandText labels (.value (regexOf ignoringCase t))).toList =
            some (escapeQuotes after ++ '"' :: flag ignoringCase)) ↔
        ¬ QuotesPaired t.toList) := by
  rw [toList_operandText_regexOf]
  have hearly (h : ¬ QuotesPaired t.toList) :
      ∃ before after, t.toList = before ++ '"' :: after ∧ QuotesPaired before ∧
        ¬ Even (backslashes before) ∧
        afterString (quoted t.toList ++ flag ignoringCase) =
          some (escapeQuotes after ++ '"' :: flag ignoringCase) := by
    obtain ⟨before, after, heq, hbefore, hodd⟩ := exists_first_unpaired h
    refine ⟨before, after, heq, hbefore, hodd, ?_⟩
    rw [heq]
    exact afterString_quoted_of_unpaired hbefore hodd after _
  refine and_assoc.1 ⟨?_, ⟨?_, hearly⟩⟩
  · by_cases hpaired : QuotesPaired t.toList
    · by_cases hend : Even (backslashes t.toList)
      · have hscan := afterString_quoted_of_paired hpaired hend (flag ignoringCase)
        simp [hscan, hpaired, hend]
      · have hflag : '"' ∉ flag ignoringCase := by cases ignoringCase <;> decide
        have hscan := afterString_quoted_of_odd hpaired hend hflag
        simp [hscan, hpaired, hend]
    · obtain ⟨before, after, -, -, -, hscan⟩ := hearly hpaired
      have hlonger : escapeQuotes after ++ '"' :: flag ignoringCase ≠ flag ignoringCase := by
        intro h
        have hlength := congrArg List.length h
        simp only [List.length_append, List.length_cons] at hlength
        omega
      simp [hscan, hpaired, hlonger]
  · rintro ⟨before, after, heq, -, hodd, -⟩ hpaired
    exact hodd (hpaired before after heq)

/-- A quote that already has a backslash ends the string, and a backslash at the end keeps it
open. -/
theorem backslash_breaks_regex_string :
    afterString (operandText [] (.value (.regex "\\\""))).toList = some ['"'] ∧
      afterString (operandText [] (.value (.regex "\\"))).toList = none := by
  decide

end Regex

section Literal

/-- The characters of a text without the backslashes that make the next one ordinary, each with
whether it has been made ordinary. The flag tells whether the first of them is. -/
def readings (ordinary : Bool) : List Char → List (Char × Bool)
  | [] => []
  | c :: rest =>
    if ordinary then (c, true) :: readings false rest
    else if c = '\\' then readings true rest
    else (c, false) :: readings false rest

def isMarked (c : Char) : Bool := c = '"' || isSpecial c

def marked (c : Char) : List Char := if isMarked c then ['\\', c] else [c]

/-- The second pass leaves alone what the first has put in, so that together they put one backslash
before each quote and each special character. -/
theorem escapeQuotes_escape (t : List Char) : escapeQuotes (escape t) = t.flatMap marked := by
  induction t with
  | nil => rfl
  | cons c t ih =>
    rw [escape, List.flatMap_cons, ← ih]
    by_cases hquote : c = '"'
    · subst hquote
      have hplain : isSpecial '"' = false := by decide
      simp [hplain, escapeQuotes, marked, isMarked]
    · by_cases hspecial : isSpecial c = true
      · simp [hspecial, hquote, escapeQuotes, marked, isMarked]
      · simp [hspecial, hquote, escapeQuotes, marked, isMarked]

private theorem ne_of_not_isMarked (h : ¬ isMarked c = true) : c ≠ '"' ∧ c ≠ '\\' := by
  constructor
  · rintro rfl
    exact h (by decide)
  · rintro rfl
    exact h (by decide)

private theorem readings_flatMap_marked (t : List Char) :
    readings false (t.flatMap marked) = t.map fun c => (c, isMarked c) := by
  induction t with
  | nil => rfl
  | cons c t ih =>
    rw [List.flatMap_cons, List.map_cons, marked]
    split
    · rename_i hmarked
      simp [readings, ih, hmarked]
    · rename_i hmarked
      simp [readings, ih, hmarked, (ne_of_not_isMarked hmarked).2]

private theorem afterQuote_flatMap_marked (t rest : List Char) :
    afterQuote false (t.flatMap marked ++ rest) = afterQuote false rest := by
  induction t with
  | nil => rfl
  | cons c t ih =>
    rw [List.flatMap_cons, List.append_assoc, marked]
    split
    · simp [afterQuote, ih]
    · rename_i hmarked
      simp [afterQuote, ih, ne_of_not_isMarked hmarked]

private theorem toList_operandText_literal (labels : Labels) (t : String) :
    (operandText labels (.value (.literal t))).toList =
      '"' :: t.toList.flatMap marked ++ ['"'] := by
  rw [operandText, valueText, String.toList_ofList, quoted, escapeQuotes_escape]

/-- The string written for a literal ends at its last character. Inside it every quote and every
special character has been made ordinary, and without the backslashes that do so it is the literal.
Different literals are therefore written differently. -/
theorem literal_string_reads_back (labels : Labels) (t : String) :
    ∃ body, (operandText labels (.value (.literal t))).toList = '"' :: body ++ ['"'] ∧
      afterString (operandText labels (.value (.literal t))).toList = some [] ∧
      (∀ c, (c, false) ∈ readings false body → c ≠ '"' ∧
        c ∉ ['\\', '.', '|', '+', '?', '*', '[', ']', '(', ')', '\x7b', '\x7d', '^', '$']) ∧
      (readings false body).map Prod.fst = t.toList ∧
      ∀ (labels' : Labels) (u : String),
        operandText labels (.value (.literal t)) = operandText labels' (.value (.literal u)) ↔
          t = u := by
  have hback (u : String) :
      (readings false (u.toList.flatMap marked)).map Prod.fst = u.toList := by
    rw [readings_flatMap_marked, List.map_map]
    exact List.map_id u.toList
  refine ⟨t.toList.flatMap marked, toList_operandText_literal labels t, ?_, ?_, hback t, ?_⟩
  · rw [toList_operandText_literal, List.cons_append, afterString, if_pos rfl,
      afterQuote_flatMap_marked]
    rfl
  · intro c hc
    rw [readings_flatMap_marked, List.mem_map] at hc
    obtain ⟨d, -, hd⟩ := hc
    obtain ⟨rfl, hplain⟩ := Prod.mk.inj hd
    rw [isMarked, Bool.or_eq_false_iff] at hplain
    exact ⟨of_decide_eq_false hplain.1, of_decide_eq_false hplain.2⟩
  · intro labels' u
    constructor
    · intro h
      have hchars := congrArg String.toList h
      rw [toList_operandText_literal, toList_operandText_literal] at hchars
      have hbody := (List.cons.inj (List.append_inj_left' hchars rfl)).2
      rw [← String.toList_inj, ← hback t, ← hback u, hbody]
    · rintro rfl
      rfl

end Literal

end TreeQuery.Pattern
