import TreeQuery.Diagnostic
import TreeQuery.Proofs.Document.Meaning
import TreeQuery.Proofs.Document.Place

/-!
Where diagnostics point. A fault in a document is found at a column that counts bytes, while the
place of a diagnostic is found by passing as many characters. The place is therefore never before
the byte at fault, and it is that byte if and only if every character before it on its line takes
one byte.
-/

set_option autoImplicit false
set_option relaxedAutoImplicit false

namespace TreeQuery

open Document

section Bytes

private theorem length_le_byteLength (l : List Char) : l.length ≤ byteLength l := by
  induction l with
  | nil => exact Nat.le_refl 0
  | cons ch l ih =>
    have hpos := ch.utf8Size_pos
    rw [List.length_cons, byteLength]
    omega

private theorem byteLength_eq_length_iff (l : List Char) :
    byteLength l = l.length ↔ ∀ ch ∈ l, ch.utf8Size = 1 := by
  induction l with
  | nil => simp [byteLength]
  | cons ch l ih =>
    have hpos := ch.utf8Size_pos
    have hle := length_le_byteLength l
    rw [List.forall_mem_cons, ← ih, byteLength, List.length_cons]
    omega

end Bytes

section Offsets

private theorem offsetFrom_eq_lineStart_add (target : Position) {line column n : Nat}
    (l : List Char)
    (h : target.line = line + n + 1) :
    offsetFrom target line column l = lineStart n l +
      offsetFrom target (line + n) (if n = 0 then column else 0) (fromLine n l) := by
  induction l generalizing line column n with
  | nil => cases n <;> rfl
  | cons ch l ih =>
    cases n with
    | zero => simp [lineStart, fromLine]
    | succ n =>
      have hlater : ¬ (target.line ≤ line + 1 ∧ target.column ≤ column + 1) := by omega
      rw [offsetFrom, if_neg hlater, lineStart, fromLine]
      by_cases hch : ch = '\n'
      · rw [if_pos hch, if_pos hch, if_pos hch, ih (n := n) (by omega)]
        simp [Nat.add_assoc, Nat.add_comm 1 n]
      · rw [if_neg hch, if_neg hch, if_neg hch, ih (n := n + 1) (by omega)]
        simp [Nat.add_assoc]

private theorem offsetFrom_on_line {target : Position} {line : Nat} (h : target.line ≤ line + 1)
    (column : Nat) (l : List Char) :
    byteLength ((lineAt 0 l).take (target.column - 1 - column)) ≤ offsetFrom target line column l ∧
    (target.column - 1 - column ≤ (lineAt 0 l).length →
      offsetFrom target line column l =
        byteLength ((lineAt 0 l).take (target.column - 1 - column))) := by
  induction l generalizing column with
  | nil => simp [lineAt, fromLine, offsetFrom, byteLength]
  | cons ch l ih =>
    by_cases hreached : target.column ≤ column + 1
    · have hnone : target.column - 1 - column = 0 := by omega
      simp [offsetFrom, h, hreached, hnone, byteLength]
    · obtain ⟨m, hm⟩ : ∃ m, target.column - 1 - column = m + 1 :=
        ⟨target.column - 1 - (column + 1), by omega⟩
      have hm' : target.column - 1 - (column + 1) = m := by omega
      have hfurther : ¬ (target.line ≤ line + 1 ∧ target.column ≤ column + 1) :=
        fun hboth => hreached hboth.2
      rw [offsetFrom, if_neg hfurther, hm]
      by_cases hch : ch = '\n'
      · simp [lineAt, fromLine, hch, byteLength]
      · have hrest := ih (column + 1)
        rw [hm'] at hrest
        rw [if_neg hch, lineAt_zero_of_ne hch, List.take_succ_cons, byteLength, List.length_cons]
        exact ⟨Nat.add_le_add_left hrest.1 _,
          fun hle => congrArg _ (hrest.2 (Nat.le_of_succ_le_succ hle))⟩

/-- The byte offset of the byte that a place names: the last of those that its column counts, or the
first of its line if it counts none. -/
def byteOffset (source : String) (p : Position) : Nat :=
  lineStart (p.line - 1) source.toList + (p.column - 1)

private theorem offset_eq_lineStart_add {p : Position} {n : Nat} (h : p.line = n + 1)
    (source : String) :
    offset source p = lineStart n source.toList + offsetFrom p n 0 (fromLine n source.toList) := by
  have hstart : p.line = 0 + n + 1 := by omega
  rw [offset, offsetFrom_eq_lineStart_add p _ hstart]
  simp

/-- The place that is found by passing characters is not before the one that is found by counting
bytes, and it is the same if and only if every character on the way along the line takes one
byte. -/
theorem byteOffset_le_offset {source : String} {p : Position} {n : Nat} (hline : p.line = n + 1)
    (hcolumn : p.column ≤ byteLength (lineAt n source.toList)) :
    byteOffset source p ≤ offset source p ∧
      (offset source p = byteOffset source p ↔
        ∀ ch ∈ (lineAt n source.toList).take (p.column - 1), ch.utf8Size = 1) := by
  obtain ⟨hle, heq⟩ := offsetFrom_on_line (Nat.le_of_eq hline) 0 (fromLine n source.toList)
  have hat : lineAt 0 (fromLine n source.toList) = lineAt n source.toList := by
    simp [lineAt, fromLine]
  rw [hat, Nat.sub_zero] at hle heq
  rw [byteOffset, offset_eq_lineStart_add hline, ← byteLength_eq_length_iff, hline,
    Nat.add_sub_cancel]
  by_cases hshort : p.column - 1 ≤ (lineAt n source.toList).length
  · have hlength : ((lineAt n source.toList).take (p.column - 1)).length = p.column - 1 :=
      List.length_take_of_le hshort
    have htake := length_le_byteLength ((lineAt n source.toList).take (p.column - 1))
    rw [heq hshort, hlength]
    omega
  · -- the line has fewer characters than the column counts bytes
    rw [List.take_of_length_le (by omega)] at hle ⊢
    omega

end Offsets

section Refusals

private theorem parse_eq_error_of_read {source : String} {es : List InputError}
    (h : Document.read source = .error (.parsingFailed es)) :
    ∃ f, parse source = .error f ∧ es = [f.inputError] := by
  unfold Document.read at h
  cases hparse : parse source with
  | error f =>
    rw [hparse] at h
    cases h
    exact ⟨f, rfl, rfl⟩
  | ok d =>
    rw [hparse] at h
    change (d.query >>= fun q => pure (Plan.ofQuery q)) = _ at h
    cases hquery : d.query with
    | error e =>
      rw [hquery] at h
      cases h
      exact absurd hquery (query_ne_parsingFailed d es)
    | ok q =>
      rw [hquery] at h
      cases h

private theorem compile_of_read_eq_error {source : String} {e : FrontendError}
    (h : Document.read source = .error e) (o : Options) :
    Registry.standard.compile o source (some Document.frontend.name) =
      .error ⟨.selection (.refused e), source⟩ := by
  have hget : Registry.standard.get? Document.frontend.name = some Document.frontend := by
    simp [Registry.get?, Registry.standard]
  have hread : Document.frontend.read source = .error e := h
  rw [Registry.compile, Registry.plan, hget]
  simp only [hread]
  rfl

/-- A text that is refused as a document for its form is reported with one problem, whose place
lies on a line of the text. The diagnostic does point somewhere, and not before the byte that the
place names. It points at that byte if and only if every character before it on its line takes one
byte. -/
theorem location_of_refused_document (o : Options) {source : String} {es : List InputError}
    (h : Document.read source = .error (.parsingFailed es)) :
    ∃ d p message location,
      Registry.standard.compile o source (some Document.frontend.name) = .error d ∧
      es = [⟨some p, message⟩] ∧ 1 ≤ p.line ∧
      p.column ≤ byteLength (lineAt (p.line - 1) source.toList) ∧
      d.location? = some location ∧ byteOffset source p ≤ location ∧
      (location = byteOffset source p ↔
        ∀ ch ∈ (lineAt (p.line - 1) source.toList).take (p.column - 1), ch.utf8Size = 1) := by
  obtain ⟨f, hparse, rfl⟩ := parse_eq_error_of_read h
  obtain ⟨p, n, hp, hline, hcolumn⟩ := position_of_parse_eq_error hparse
  have hn : p.line - 1 = n := by omega
  have herror : ∃ message, f.inputError = ⟨some p, message⟩ := by
    unfold Failure.inputError
    rw [hp]
    exact ⟨_, rfl⟩
  obtain ⟨message, herror⟩ := herror
  rw [herror] at h ⊢
  obtain ⟨hle, hiff⟩ := byteOffset_le_offset hline hcolumn
  rw [← hn] at hcolumn hiff
  exact ⟨_, p, message, offset source p, compile_of_read_eq_error h o, rfl, by omega, hcolumn, rfl,
    hle, hiff⟩

/-- A comma is missing on the second line. The first line has a character of two bytes. -/
def brokenSecondLine : String :=
  "\x7b\"tokens\":[\x7b\"name\":\"é\"\x7d,\n\x7b\"name\":\"a\"\x7d\x7b\"name\":\"b\"\x7d]\x7d"

theorem brokenSecondLine_location :
    Document.read brokenSecondLine =
        .error (.parsingFailed [⟨some ⟨2, 13⟩, "expected `,` or `]` at line 2 column 13"⟩]) ∧
      ∃ d, Registry.standard.compile {} brokenSecondLine (some Document.frontend.name) = .error d ∧
        d.location? = some 38 ∧ byteOffset brokenSecondLine ⟨2, 13⟩ = 38 := by
  have hread : Document.read brokenSecondLine =
      .error (.parsingFailed [⟨some ⟨2, 13⟩, "expected `,` or `]` at line 2 column 13"⟩]) := by
    decide +kernel
  have hbyte : byteOffset brokenSecondLine ⟨2, 13⟩ = 38 := by decide +kernel
  have hplain : ∀ ch ∈ (lineAt 1 brokenSecondLine.toList).take 12, ch.utf8Size = 1 :=
    (byteLength_eq_length_iff _).1 (by decide +kernel)
  obtain ⟨d, p, message, location, hcompile, hes, -, -, hlocation, -, hiff⟩ :=
    location_of_refused_document {} hread
  cases hes
  rw [hiff.2 hplain, hbyte] at hlocation
  exact ⟨hread, d, hcompile, hlocation, hbyte⟩

/-- A comma is missing after a character of two bytes. -/
def brokenAfterAccent : String :=
  "\x7b\"tokens\":[\x7b\"name\":\"é\"\x7d\x7b\"name\":\"b\"\x7d]\x7d"

theorem brokenAfterAccent_location_ne :
    ∃ d p, Registry.standard.compile {} brokenAfterAccent (some Document.frontend.name) = .error d ∧
      d.cause.position? = some p ∧ 1 ≤ p.column ∧ byteOffset brokenAfterAccent p = 24 ∧
      d.location? = some 25 := by
  have hcompile : Registry.standard.compile {} brokenAfterAccent (some Document.frontend.name) =
      .error ⟨.selection (.refused (.parsingFailed
        [⟨some ⟨1, 25⟩, "expected `,` or `]` at line 1 column 25"⟩])), brokenAfterAccent⟩ := by
    decide +kernel
  exact ⟨_, ⟨1, 25⟩, hcompile, rfl, by decide, by decide +kernel, by decide +kernel⟩

end Refusals

end TreeQuery
