import TreeQuery.Frontend.Basic

/-!
A cursor in a text: what is left to read, and where that begins.
-/

set_option autoImplicit false
set_option relaxedAutoImplicit false

namespace TreeQuery.Document

/-- A place in a text with what follows it. Columns count the bytes before the place on its line. -/
structure Cursor where
  rest : List Char
  line : Nat := 1
  column : Nat := 0

namespace Cursor

def ofString (text : String) : Cursor := { rest := text.toList }

def position (c : Cursor) : Position := ⟨c.line, c.column⟩

def peek? (c : Cursor) : Option Char := c.rest.head?

def advance (c : Cursor) : Cursor :=
  match c.rest with
  | [] => c
  | ch :: rest =>
    if ch = '\n' then ⟨rest, c.line + 1, 0⟩ else ⟨rest, c.line, c.column + ch.utf8Size⟩

def skip : Nat → Cursor → Cursor
  | 0, c => c
  | n + 1, c => skip n c.advance

/-- The place `n` bytes further on, or the end of the text if that is nearer. It may lie inside a
character. -/
def positionAfter (n : Nat) (c : Cursor) : Position :=
  go n c.line c.column c.rest
where
  go (n line column : Nat) : List Char → Position
    | [] => ⟨line, column⟩
    | ch :: rest =>
      if n = 0 then ⟨line, column⟩
      else if ch = '\n' then go (n - 1) (line + 1) 0 rest
      else if n < ch.utf8Size then ⟨line, column + n⟩
      else go (n - ch.utf8Size) line (column + ch.utf8Size) rest

def ahead (c : Cursor) : Position := c.positionAfter 1

def isBlank (ch : Char) : Bool := ch = ' ' || ch = '\n' || ch = '\t' || ch = '\r'

def skipBlanks (c : Cursor) : Cursor := c.skip (c.rest.takeWhile isBlank).length

end Cursor

end TreeQuery.Document
