/-!
Settings from the environment. A value is read without the white space at its ends, and one that
does not fit is ignored with a warning.
-/

set_option autoImplicit false
set_option relaxedAutoImplicit false

namespace TreeQuery.Text

/-- The first and the last code of each run of white space characters. -/
def blankRanges : List (Nat × Nat) := [
  (0x09, 0x0d), (0x20, 0x20), (0x85, 0x85), (0xa0, 0xa0), (0x1680, 0x1680), (0x2000, 0x200a),
  (0x2028, 0x2029), (0x202f, 0x202f), (0x205f, 0x205f), (0x3000, 0x3000)]

def isBlank (c : Char) : Bool := blankRanges.any fun r => r.1 ≤ c.toNat && c.toNat ≤ r.2

def trim (s : String) : String :=
  String.ofList ((s.toList.dropWhile isBlank).reverse.dropWhile isBlank).reverse

theorem isBlank_of_isWhitespace {c : Char} (h : c.isWhitespace = true) : isBlank c = true := by
  simp only [Char.isWhitespace, Bool.or_eq_true, decide_eq_true_eq] at h
  rcases h with ((rfl | rfl) | rfl) | rfl <;> decide

end TreeQuery.Text

namespace TreeQuery.Command

structure Settings where
  candidateLimit : Option Nat := none
  span : Option String := none
  logFilter : String := "cqpt_lang=warn,cqpt_run=warn"
  deriving DecidableEq

/-- The number that decimal digits stand for, if it is below `2 ^ 64`. -/
def sizeOfDigits? (ds : List Char) : Option Nat :=
  if ds.isEmpty || ds.any (fun c => !c.isDigit) then none
  else
    let n := ds.foldl (fun n c => n * 10 + (c.toNat - '0'.toNat)) 0
    if n < Nat.pow 2 64 then some n else none

/-- The number that a text stands for: decimal digits after an optional plus sign. -/
def parseSize? (s : String) : Option Nat :=
  match s.toList with
  | '+' :: ds => sizeOfDigits? ds
  | ds => sizeOfDigits? ds

/-- Whether a text can name a structure: one or more letters, digits and underscores. -/
def isSpan (s : String) : Bool :=
  !s.isEmpty && s.toList.all fun c => c.isAlphanum || c = '_'

def readLimit (raw : Option String) : Option Nat × List String :=
  match raw with
  | none => (none, [])
  | some s =>
    match parseSize? s with
    | some n => (some n, [])
    | none =>
      (none, ["Warning: Invalid CQPT_CANDIDATE_LIMIT value '" ++ s ++ "', using no limit"])

def readSpan (raw : Option String) : Option String × List String :=
  match raw.map Text.trim with
  | none => (none, [])
  | some s =>
    if isSpan s then (some s, [])
    else (none, ["Warning: Invalid CQPT_SPAN value '" ++ s ++ "', ignoring it"])

/-- The settings that an environment asks for, and the warnings about it. -/
def Settings.ofEnvironment (lookup : String → Option String) : Settings × List String :=
  let (limit, limitWarnings) := readLimit (lookup "CQPT_CANDIDATE_LIMIT")
  let (span, spanWarnings) := readSpan (lookup "CQPT_SPAN")
  let logFilter := ((lookup "CQPT_LOG").or (lookup "RUST_LOG")).getD
    (({} : Settings).logFilter)
  ({ candidateLimit := limit, span := span, logFilter := logFilter }, limitWarnings ++ spanWarnings)

end TreeQuery.Command
