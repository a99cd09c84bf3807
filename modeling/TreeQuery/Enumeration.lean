/-!
Finite sequences whose members are computed on demand. An enumeration is read through its view
`toList`; each operation has one equation that says what it does to that view.
-/

set_option autoImplicit false
set_option relaxedAutoImplicit false

namespace TreeQuery

/-- Finitely many values in order, each computed once the values before it have been passed. -/
inductive Enumeration (α : Type) where
  | nil : Enumeration α
  | cons (head : α) (rest : Unit → Enumeration α) : Enumeration α

namespace Enumeration

variable {α β : Type}

def toList : Enumeration α → List α
  | nil => []
  | cons a rest => a :: toList (rest ())

/-- The next value, if any, and the enumeration of what follows. A finished enumeration stays
finished. -/
def next : Enumeration α → Option α × Enumeration α
  | nil => (none, nil)
  | cons a rest => (some a, rest ())

def isEmpty : Enumeration α → Bool
  | nil => true
  | cons _ _ => false

def ofList : List α → Enumeration α
  | [] => nil
  | a :: l => cons a fun _ => ofList l

/-- The values of the first enumeration, then those of the second, which is not started before. -/
def append : Enumeration α → (Unit → Enumeration α) → Enumeration α
  | nil, after => after ()
  | cons a rest, after => cons a fun _ => append (rest ()) after

def map (f : α → β) : Enumeration α → Enumeration β
  | nil => nil
  | cons a rest => cons (f a) fun _ => map f (rest ())

def flatMap (f : α → Enumeration β) : Enumeration α → Enumeration β
  | nil => nil
  | cons a rest => append (f a) fun _ => flatMap f (rest ())

def take : Nat → Enumeration α → List α
  | 0, _ => []
  | _ + 1, nil => []
  | n + 1, cons a rest => a :: take n (rest ())

def drop : Nat → Enumeration α → Enumeration α
  | 0, e => e
  | _ + 1, nil => nil
  | n + 1, cons _ rest => drop n (rest ())

@[simp] theorem toList_nil : (nil : Enumeration α).toList = [] := rfl

@[simp] theorem toList_cons (a : α) (rest : Unit → Enumeration α) :
    (cons a rest).toList = a :: (rest ()).toList := rfl

@[simp] theorem toList_ofList (l : List α) : (ofList l).toList = l := by
  induction l with
  | nil => rfl
  | cons a l ih => simp [ofList, ih]

@[simp] theorem toList_append (e : Enumeration α) (after : Unit → Enumeration α) :
    (e.append after).toList = e.toList ++ (after ()).toList := by
  induction e with
  | nil => rfl
  | cons a rest ih => simp [append, ih]

@[simp] theorem toList_map (f : α → β) (e : Enumeration α) :
    (e.map f).toList = e.toList.map f := by
  induction e with
  | nil => rfl
  | cons a rest ih => simp [map, ih]

@[simp] theorem toList_flatMap (f : α → Enumeration β) (e : Enumeration α) :
    (e.flatMap f).toList = e.toList.flatMap fun a => (f a).toList := by
  induction e with
  | nil => rfl
  | cons a rest ih => simp [flatMap, ih]

theorem take_eq (n : Nat) (e : Enumeration α) : e.take n = e.toList.take n := by
  induction e generalizing n with
  | nil => cases n <;> rfl
  | cons a rest ih => cases n <;> simp [take, ih]

theorem toList_drop (n : Nat) (e : Enumeration α) : (e.drop n).toList = e.toList.drop n := by
  induction e generalizing n with
  | nil => cases n <;> rfl
  | cons a rest ih => cases n <;> simp [drop, ih]

end Enumeration

end TreeQuery
