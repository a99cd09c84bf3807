import TreeQuery.Document.Reader

/-!
Reading strings, numbers and words.
-/

set_option autoImplicit false
set_option relaxedAutoImplicit false

namespace TreeQuery.Document

/-- The outcome of scanning a string: its characters and how many characters of the text they
took, or a fault that many characters and then some bytes further on. -/
inductive Scan where
  | closed (content : List Char) (taken : Nat)
  | broken (f : Fault) (taken bytes : Nat)

def escaped? : Char → Option Char
  | '"' => some '"'
  | '\\' => some '\\'
  | '/' => some '/'
  | 'b' => some '\x08'
  | 'f' => some '\x0c'
  | 'n' => some '\n'
  | 'r' => some '\r'
  | 't' => some '\t'
  | _ => none

def hexValue? (c : Char) : Option Nat :=
  if '0' ≤ c ∧ c ≤ '9' then some (c.toNat - '0'.toNat)
  else if 'a' ≤ c ∧ c ≤ 'f' then some (c.toNat - 'a'.toNat + 10)
  else if 'A' ≤ c ∧ c ≤ 'F' then some (c.toNat - 'A'.toNat + 10)
  else none

def hexCode? (a b c d : Char) : Option Nat := do
  return (((← hexValue? a) * 16 + (← hexValue? b)) * 16 + (← hexValue? c)) * 16 + (← hexValue? d)

/-- The fault of a code that the text ends in or that has a wrong digit among its four bytes, when
`taken` characters of the text have been taken before it. -/
def brokenCode (rest : List Char) (taken : Nat) : Scan :=
  if (rest.take 4).foldl (fun size c => size + c.utf8Size) 0 < 4 then
    .broken .endInString (taken + rest.length) 0
  else .broken .invalidEscape taken 4

def isLeading (code : Nat) : Bool := 0xd800 ≤ code && code ≤ 0xdbff

def isTrailing (code : Nat) : Bool := 0xdc00 ≤ code && code ≤ 0xdfff

def pairedChar (leading trailing : Nat) : Char :=
  Char.ofNat ((leading - 0xd800) * 0x400 + (trailing - 0xdc00) + 0x10000)

def scanString : List Char → Nat → List Char → Scan
  | [], taken, _ => .broken .endInString taken 0
  | '"' :: _, taken, content => .closed content.reverse (taken + 1)
  | '\\' :: 'u' :: a :: b :: c :: d :: rest, taken, content =>
    match hexCode? a b c d with
    | none => brokenCode (a :: b :: c :: d :: rest) (taken + 2)
    | some code =>
      if isTrailing code then .broken .loneSurrogate (taken + 6) 0
      else if isLeading code then
        match rest with
        | [] => .broken .endInString (taken + 6) 0
        | '\\' :: [] => .broken .endInString (taken + 7) 0
        | '\\' :: 'u' :: e :: f :: g :: h :: rest =>
          match hexCode? e f g h with
          | none => brokenCode (e :: f :: g :: h :: rest) (taken + 8)
          | some trailing =>
            if isTrailing trailing then
              scanString rest (taken + 12) (pairedChar code trailing :: content)
            else .broken .loneSurrogate (taken + 12) 0
        | '\\' :: 'u' :: rest => brokenCode rest (taken + 8)
        | '\\' :: _ => .broken .missingSurrogate (taken + 7) 1
        | _ => .broken .missingSurrogate (taken + 6) 1
      else scanString rest (taken + 6) (Char.ofNat code :: content)
  | '\\' :: 'u' :: rest, taken, _ => brokenCode rest (taken + 2)
  | '\\' :: [], taken, _ => .broken .endInString (taken + 1) 0
  | '\\' :: c :: rest, taken, content =>
    match escaped? c with
    | some ch => scanString rest (taken + 2) (ch :: content)
    | none => .broken .invalidEscape (taken + 1) 1
  | c :: rest, taken, content =>
    if c < ' ' then .broken .controlCharacter taken 1
    else scanString rest (taken + 1) (c :: content)

namespace Reader

def string : Reader String := fun c =>
  match scanString c.advance.rest 0 [] with
  | .closed content taken => .ok (String.ofList content) (c.advance.skip taken)
  | .broken f taken bytes =>
    let stop := c.advance.skip taken
    .error ⟨f, some (stop.positionAfter bytes)⟩ stop

def digits : Reader (List Char) := fun c =>
  let ds := c.rest.takeWhile Char.isDigit
  .ok ds (c.skip ds.length)

def float (negative : Bool) (significand : Nat) (exponent : Int) : Reader Number :=
  match floatOf? negative significand exponent with
  | some x => pure (.float x)
  | none => failHere .numberOutOfRange

/-- Reads the digits of an exponent, of which there is one. An exponent that is too large makes the
number zero if it is negative or the significand is zero, and is refused otherwise, right after the
digit that makes it so. -/
def exponentDigits (negative : Bool) (significand : Nat) (start : Int) (below : Bool) :
    Reader Number := fun c =>
  let ds := c.rest.takeWhile Char.isDigit
  match appendDigits maxExponent 0 ds with
  | (e, []) =>
    float negative significand (if below then start - e else start + e) (c.skip ds.length)
  | (_, left) =>
    if significand ≠ 0 ∧ ¬ below then
      failHere .numberOutOfRange (c.skip (ds.length - left.length + 1))
    else .ok (.float (if negative then -0.0 else 0.0)) (c.skip ds.length)

def exponent (negative : Bool) (significand : Nat) (start : Int) : Reader Number := do
  let below ← match ← peek? with
    | some '+' => do advance; pure false
    | some '-' => do advance; pure true
    | _ => pure false
  match ← peek? with
  | none => failHere .endInValue
  | some ch =>
    if !ch.isDigit then failAhead .invalidNumber
    else exponentDigits negative significand start below

/-- Reads a fraction after its point. Digits that no longer fit into the significand are
dropped. -/
def fraction (negative : Bool) (significand : Nat) (start : Int) : Reader Number := do
  match ← digits with
  | [] =>
    match ← peek? with
    | some _ => failAhead .invalidNumber
    | none => failAhead .endInValue
  | ds =>
    let (full, left) := appendDigits maxSignificand significand ds
    let scaled := start - ((ds.length - left.length : Nat) : Int)
    match ← peek? with
    | some 'e' => do advance; exponent negative full scaled
    | some 'E' => do advance; exponent negative full scaled
    | _ => float negative full scaled

/-- Reads what follows the whole part of a number, of which `dropped` digits did not fit into the
significand. -/
def afterWhole (negative : Bool) (significand dropped : Nat) : Reader Number := do
  match ← peek? with
  | some '.' => do advance; fraction negative significand dropped
  | some 'e' => do advance; exponent negative significand dropped
  | some 'E' => do advance; exponent negative significand dropped
  | _ =>
    if dropped = 0 then pure (wholeNumber negative significand)
    else float negative significand dropped

/-- Reads a number after its sign. A zero at the start is not followed by a digit. -/
def unsigned (negative : Bool) : Reader Number := do
  match ← peek? with
  | none => failHere .endInValue
  | some '0' => do
    advance
    match ← peek? with
    | some ch =>
      if ch.isDigit then failAhead .invalidNumber else afterWhole negative 0 0
    | none => afterWhole negative 0 0
  | some ch =>
    if ch.isDigit then do
      let (significand, left) := appendDigits maxSignificand 0 (← digits)
      afterWhole negative significand left.length
    else failAhead .invalidNumber

def number : Reader Number := do
  match ← peek? with
  | some '-' => do advance; unsigned true
  | _ => unsigned false

/-- Refuses the next value, which is not of the expected kind. It is read first if it is no list
or object, and may be faulty itself. -/
def wrongKind {α : Type} (expected : String) : Reader α := settle do
  match ← peek? with
  | some 'n' => do word "null".toList; failLater (.wrongKind .null expected)
  | some 't' => do word "true".toList; failLater (.wrongKind (.boolean true) expected)
  | some 'f' => do word "false".toList; failLater (.wrongKind (.boolean false) expected)
  | some '"' => do
    let s ← string
    failLater (.wrongKind (.string s) expected)
  | some '[' => failLater (.wrongKind .sequence expected)
  | some '\x7b' => failLater (.wrongKind .map expected)
  | some ch =>
    if ch = '-' || ch.isDigit then do
      let n ← number
      failLater (.wrongKind (.number n) expected)
    else failAhead .expectedValue
  | none => failAhead .expectedValue

def text : Reader String := do
  match ← peekPastBlanks? with
  | none => failAhead .endInValue
  | some '"' => string
  | some _ => wrongKind "a string"

def boolean : Reader Bool := do
  match ← peekPastBlanks? with
  | none => failAhead .endInValue
  | some 't' => do word "true".toList; pure true
  | some 'f' => do word "false".toList; pure false
  | some _ => wrongKind "a boolean"

def nullable {α : Type} (r : Reader α) : Reader (Option α) := do
  match ← peekPastBlanks? with
  | some 'n' => do word "null".toList; pure none
  | _ => return some (← r)

end Reader

end TreeQuery.Document
