/-!
Append-only tables whose entries are named by handles. A handle is the position at which its
entry was added, so entries are never moved or lost.
-/

set_option autoImplicit false
set_option relaxedAutoImplicit false

namespace TreeQuery

structure Handle where
  index : Nat
  deriving DecidableEq

/-- The text of a handle, such as `$3`. -/
def Handle.text (h : Handle) : String := "$" ++ toString h.index

/-- Entries in the order in which they were added. -/
structure Catalog (α : Type) where
  entries : Array α := #[]
  deriving DecidableEq

namespace Catalog

variable {α : Type}

def size (c : Catalog α) : Nat := c.entries.size

def isEmpty (c : Catalog α) : Bool := c.entries.isEmpty

def add (c : Catalog α) (a : α) : Handle × Catalog α := (⟨c.size⟩, ⟨c.entries.push a⟩)

def get? (c : Catalog α) (h : Handle) : Option α := c.entries[h.index]?

def toList (c : Catalog α) : List (Handle × α) :=
  c.entries.toList.zipIdx.map fun e => (⟨e.2⟩, e.1)

theorem get?_add (c : Catalog α) (a : α) (h : Handle) :
    (c.add a).2.get? h = if h = (c.add a).1 then some a else c.get? h := by
  cases h
  simp [add, get?, size, Array.getElem?_push]

end Catalog

end TreeQuery
