import Mathlib.Tactic.Common
import TreeQuery.Document.Reading

/-!
Where faults are found. A reader only moves on, and the place of a fault it finds lies ahead of
where it started: on some line of the text, with no more bytes before it than that line has. This
is kept by every way in which readers are put together, and so it holds of the reader of documents,
which moreover gives every fault a place.
-/

set_option autoImplicit false
set_option relaxedAutoImplicit false

namespace TreeQuery.Document

section Lines

def byteLength : List Char → Nat
  | [] => 0
  | ch :: l => ch.utf8Size + byteLength l

def fromLine : Nat → List Char → List Char
  | 0, l => l
  | _ + 1, [] => []
  | n + 1, ch :: l => if ch = '\n' then fromLine n l else fromLine (n + 1) l

def lineStart : Nat → List Char → Nat
  | 0, _ => 0
  | _ + 1, [] => 0
  | n + 1, ch :: l => ch.utf8Size + if ch = '\n' then lineStart n l else lineStart (n + 1) l

def lineAt (n : Nat) (l : List Char) : List Char :=
  (fromLine n l).takeWhile fun ch => ch ≠ '\n'

private theorem lineAt_succ_newline (n : Nat) (l : List Char) :
    lineAt (n + 1) ('\n' :: l) = lineAt n l := by
  simp [lineAt, fromLine]

private theorem lineAt_succ_of_ne {ch : Char} (h : ch ≠ '\n') (n : Nat) (l : List Char) :
    lineAt (n + 1) (ch :: l) = lineAt (n + 1) l := by
  simp [lineAt, fromLine, h]

theorem lineAt_zero_of_ne {ch : Char} (h : ch ≠ '\n') (l : List Char) :
    lineAt 0 (ch :: l) = ch :: lineAt 0 l := by
  simp [lineAt, fromLine, h]

end Lines

namespace Cursor

/-- The place lies on the line of the cursor or on a later one, and the line has the bytes before
it. -/
def Reaches (c : Cursor) (p : Position) : Prop :=
  ∃ n, p.line = c.line + n ∧
    p.column ≤ (if n = 0 then c.column else 0) + byteLength (lineAt n c.rest)

/-- What is ahead of the second cursor is ahead of the first. -/
def Precedes (c d : Cursor) : Prop := ∀ p, d.Reaches p → c.Reaches p

private theorem Precedes.refl (c : Cursor) : c.Precedes c := fun _ h => h

private theorem Precedes.trans {c d e : Cursor} (h : c.Precedes d) (h' : d.Precedes e) :
    c.Precedes e :=
  fun p hp => h p (h' p hp)

private theorem reaches_position (c : Cursor) : c.Reaches c.position :=
  ⟨0, rfl, Nat.le_add_right _ _⟩

private theorem precedes_newline (rest : List Char) (line column : Nat) :
    Precedes ⟨'\n' :: rest, line, column⟩ ⟨rest, line + 1, 0⟩ := by
  rintro p ⟨n, hline, hcolumn⟩
  refine ⟨n + 1, ?_, ?_⟩
  · simp only at hline ⊢
    omega
  · rw [lineAt_succ_newline]
    simpa using hcolumn

private theorem precedes_char {ch : Char} (h : ch ≠ '\n') (rest : List Char) (line column : Nat) :
    Precedes ⟨ch :: rest, line, column⟩ ⟨rest, line, column + ch.utf8Size⟩ := by
  rintro p ⟨n, hline, hcolumn⟩
  refine ⟨n, hline, ?_⟩
  cases n with
  | zero =>
    rw [lineAt_zero_of_ne h, byteLength]
    simp only [↓reduceIte] at hcolumn ⊢
    omega
  | succ n =>
    rw [lineAt_succ_of_ne h]
    exact hcolumn

private theorem precedes_advance (c : Cursor) : c.Precedes c.advance := by
  obtain ⟨rest, line, column⟩ := c
  cases rest with
  | nil => exact .refl _
  | cons ch rest =>
    by_cases h : ch = '\n'
    · subst h
      exact precedes_newline rest line column
    · have hadvance : advance ⟨ch :: rest, line, column⟩ = ⟨rest, line, column + ch.utf8Size⟩ :=
        if_neg h
      rw [hadvance]
      exact precedes_char h rest line column

private theorem precedes_skip (n : Nat) (c : Cursor) : c.Precedes (c.skip n) := by
  induction n generalizing c with
  | zero => exact .refl c
  | succ n ih => exact (precedes_advance c).trans (ih c.advance)

private theorem reaches_go (n line column : Nat) (rest : List Char) :
    Reaches ⟨rest, line, column⟩ (positionAfter.go n line column rest) := by
  induction rest generalizing n line column with
  | nil => exact reaches_position ⟨[], line, column⟩
  | cons ch rest ih =>
    unfold positionAfter.go
    split
    · exact reaches_position ⟨ch :: rest, line, column⟩
    · split
      · rename_i hch
        subst hch
        exact precedes_newline rest line column _ (ih (n - 1) (line + 1) 0)
      · rename_i hch
        split
        · -- the place lies inside the character
          refine ⟨0, rfl, ?_⟩
          rw [lineAt_zero_of_ne hch, byteLength]
          simp only [↓reduceIte]
          omega
        · exact precedes_char hch rest line column _ (ih _ line _)

private theorem reaches_positionAfter (n : Nat) (c : Cursor) : c.Reaches (c.positionAfter n) :=
  reaches_go n c.line c.column c.rest

end Cursor

namespace Reader

variable {α β : Type}

def Ahead (c : Cursor) : EStateM.Result Failure Cursor α → Prop
  | .ok _ d => c.Precedes d
  | .error e d => c.Precedes d ∧ ∀ p, e.position = some p → c.Reaches p

private theorem Ahead.of_precedes {c d : Cursor} {r : EStateM.Result Failure Cursor α}
    (h : c.Precedes d) (hr : Ahead d r) : Ahead c r := by
  cases r with
  | ok a d' => exact h.trans hr
  | error e d' => exact ⟨h.trans hr.1, fun p hp => h p (hr.2 p hp)⟩

private theorem bind_of_ok {r : Reader α} {f : α → Reader β} {c d : Cursor} {a : α}
    (h : r c = .ok a d) : (r >>= f) c = f a d := by
  change EStateM.bind r f c = _
  unfold EStateM.bind
  rw [h]

private theorem bind_of_error {r : Reader α} {f : α → Reader β} {c d : Cursor} {e : Failure}
    (h : r c = .error e d) : (r >>= f) c = .error e d := by
  change EStateM.bind r f c = _
  unfold EStateM.bind
  rw [h]

/-- Wherever it starts, the reader moves on and finds faults ahead. -/
def Onward (r : Reader α) : Prop := ∀ c, Ahead c (r c)

section Parts

@[grind .]
theorem onward_pure (a : α) : Onward (pure a : Reader α) := fun c => .refl c

@[grind .]
theorem Onward.bind {r : Reader α} {f : α → Reader β} (hr : Onward r) (hf : ∀ a, Onward (f a)) :
    Onward (r >>= f) := by
  intro c
  have hfirst := hr c
  cases h : r c with
  | ok a d =>
    rw [h] at hfirst
    rw [bind_of_ok h]
    exact (hf a d).of_precedes hfirst
  | error e d =>
    rw [h] at hfirst
    rw [bind_of_error h]
    exact hfirst

@[grind .]
theorem onward_failHere (f : Fault) : Onward (failHere f : Reader α) := by
  intro c
  refine ⟨.refl c, ?_⟩
  rintro p ⟨⟩
  exact c.reaches_position

@[grind .]
theorem onward_failAhead (f : Fault) : Onward (failAhead f : Reader α) := by
  intro c
  refine ⟨.refl c, ?_⟩
  rintro p ⟨⟩
  exact c.reaches_positionAfter 1

@[grind .]
theorem onward_failLater (f : Fault) : Onward (failLater f : Reader α) := by
  intro c
  refine ⟨.refl c, ?_⟩
  rintro p ⟨⟩

@[grind .]
theorem Onward.settle {r : Reader α} (hr : Onward r) : Onward (settle r) := by
  intro c
  have h := hr c
  unfold Reader.settle
  cases hc : r c with
  | ok a d =>
    rw [hc] at h
    exact h
  | error e d =>
    rw [hc] at h
    refine ⟨h.1, ?_⟩
    intro p hp
    cases he : e.position with
    | some q =>
      simp only [he, Option.some_or, Option.some.injEq] at hp
      exact hp ▸ h.2 q he
    | none =>
      simp only [he, Option.none_or, Option.some.injEq] at hp
      exact hp ▸ h.1 _ d.reaches_position

@[grind .]
theorem Onward.closedBy {body : Reader α} {close : Reader Unit} (hbody : Onward body)
    (hclose : Onward close) : Onward (closedBy body close) := by
  apply Onward.settle
  intro c
  have h := hbody c
  beta_reduce
  cases hc : body c with
  | ok a d =>
    rw [hc] at h
    have h' := hclose d
    dsimp only
    cases hd : close d with
    | ok _ d' =>
      rw [hd] at h'
      exact h.trans h'
    | error e d' =>
      rw [hd] at h'
      exact ⟨h.trans h'.1, fun p hp => h p (h'.2 p hp)⟩
  | error e d =>
    rw [hc] at h
    have h' := hclose d
    dsimp only
    cases hd : close d with
    | ok _ d' =>
      rw [hd] at h'
      exact ⟨h.1.trans h', h.2⟩
    | error e' d' =>
      rw [hd] at h'
      exact ⟨h.1.trans h'.1, h.2⟩

@[grind .]
theorem onward_peek? : Onward peek? := fun c => .refl c

@[grind .]
theorem onward_advance : Onward advance := fun c => c.precedes_advance

@[grind .]
theorem onward_peekPastBlanks? : Onward peekPastBlanks? := fun c => c.precedes_skip _

end Parts

section Punctuation

@[grind .]
theorem onward_word (l : List Char) : Onward (word l) := by
  induction l with
  | nil => exact onward_pure ()
  | cons ch l ih =>
    unfold word
    grind

@[grind .]
theorem onward_colon : Onward colon := by
  unfold colon
  grind

@[grind .]
theorem onward_nextElement (first : Bool) : Onward (nextElement first) := by
  unfold nextElement
  grind

@[grind .]
theorem onward_nextKey (first : Bool) : Onward (nextKey first) := by
  unfold nextKey
  grind

@[grind .]
theorem onward_endList : Onward endList := by
  unfold endList
  grind

@[grind .]
theorem onward_endObject : Onward endObject := by
  unfold endObject
  grind

@[grind .]
theorem Onward.element? {item : Reader α} (h : Onward item) (first : Bool) :
    Onward (element? first item) := by
  unfold Reader.element?
  grind

private theorem Onward.elementsUpTo {item : Reader α} (h : Onward item) (n : Nat) (first : Bool) :
    Onward (elementsUpTo item n first) := by
  induction n generalizing first with
  | zero => exact onward_failAhead _
  | succ n ih =>
    unfold Reader.elementsUpTo
    grind

@[grind .]
theorem Onward.elements {item : Reader α} (h : Onward item) : Onward (elements item) :=
  fun c => h.elementsUpTo (c.rest.length + 1) true c

private theorem Onward.foldMembersUpTo {member : β → Reader β} (h : ∀ b, Onward (member b))
    (n : Nat)
    (first : Bool) (b : β) : Onward (foldMembersUpTo member n first b) := by
  induction n generalizing first b with
  | zero => exact onward_failAhead _
  | succ n ih =>
    unfold Reader.foldMembersUpTo
    grind

@[grind .]
theorem Onward.foldMembers {member : β → Reader β} (h : ∀ b, Onward (member b)) (start : β) :
    Onward (foldMembers member start) :=
  fun c => Onward.foldMembersUpTo h (c.rest.length + 1) true start c

end Punctuation

section Scalars

@[grind .]
theorem onward_string : Onward string := by
  intro c
  have hskip (n : Nat) : c.Precedes (c.advance.skip n) :=
    c.precedes_advance.trans (Cursor.precedes_skip n c.advance)
  unfold string
  split
  · rename_i content taken _
    exact hskip taken
  · rename_i f taken bytes _
    refine ⟨hskip taken, ?_⟩
    rintro p ⟨⟩
    exact hskip taken _ (Cursor.reaches_positionAfter bytes _)

@[grind .]
theorem onward_digits : Onward digits := fun c => c.precedes_skip _

@[grind .]
theorem onward_float (negative : Bool) (significand : Nat) (exponent : Int) :
    Onward (float negative significand exponent) := by
  unfold float
  grind

private theorem Onward.after_skip {r : Reader α} (h : Onward r) (n : Nat) (c : Cursor) :
    Ahead c (r (c.skip n)) :=
  (h (c.skip n)).of_precedes (c.precedes_skip n)

@[grind .]
theorem onward_exponentDigits (negative : Bool) (significand : Nat) (start : Int)
    (below : Bool) : Onward (exponentDigits negative significand start below) := by
  intro c
  unfold exponentDigits
  dsimp only
  split
  · exact (onward_float _ _ _).after_skip _ c
  · split
    · exact (onward_failHere _).after_skip _ c
    · exact c.precedes_skip _

@[grind .]
theorem onward_exponent (negative : Bool) (significand : Nat) (start : Int) :
    Onward (exponent negative significand start) := by
  unfold exponent
  grind

@[grind .]
theorem onward_fraction (negative : Bool) (significand : Nat) (start : Int) :
    Onward (fraction negative significand start) := by
  unfold fraction
  grind

@[grind .]
theorem onward_afterWhole (negative : Bool) (significand dropped : Nat) :
    Onward (afterWhole negative significand dropped) := by
  unfold afterWhole
  grind

@[grind .]
theorem onward_unsigned (negative : Bool) : Onward (unsigned negative) := by
  unfold unsigned
  grind

@[grind .]
theorem onward_number : Onward number := by
  unfold number
  grind

@[grind .]
theorem onward_wrongKind (expected : String) : Onward (wrongKind expected : Reader α) := by
  unfold wrongKind
  grind

@[grind .]
theorem onward_text : Onward text := by
  unfold text
  grind

@[grind .]
theorem onward_boolean : Onward boolean := by
  unfold boolean
  grind

@[grind .]
theorem Onward.nullable {r : Reader α} (h : Onward r) : Onward (nullable r) := by
  unfold Reader.nullable
  grind

@[grind .]
theorem Onward.member {item : Reader α} (h : Onward item) (before : List (String × α)) :
    Onward (member item before) := by
  unfold Reader.member
  grind

@[grind .]
theorem onward_anyValue (depth : Nat) : Onward (anyValue depth) := by
  induction depth with
  | zero =>
    unfold anyValue
    grind
  | succ depth ih =>
    have hmembers : Onward (foldMembers (member (anyValue depth)) []) :=
      Onward.foldMembers (fun before => ih.member before) []
    unfold anyValue
    grind

end Scalars

section Records

def OnwardInside (inside : Option (Reader α)) : Prop := ∀ r ∈ inside, Onward r

@[grind .]
theorem onwardInside_inside? {r : Nat → Reader α} (h : ∀ depth, Onward (r depth)) (depth : Nat) :
    OnwardInside (inside? depth r) := by
  cases depth with
  | zero => simp [OnwardInside, inside?]
  | succ depth => simpa [OnwardInside, inside?] using h depth

@[grind .]
theorem OnwardInside.bracketed {inside : Option (Reader α)} {close : Reader Unit}
    (h : OnwardInside inside) (hclose : Onward close) : Onward (bracketed inside close) := by
  cases inside with
  | none => exact onward_failAhead _
  | some body =>
    have hbody : Onward body := h body rfl
    exact onward_advance.bind fun _ => hbody.closedBy hclose

@[grind .]
theorem OnwardInside.listOf {item : Option (Reader α)} (h : OnwardInside item) :
    Onward (listOf item) := by
  have hitems : OnwardInside (item.map elements) := by
    intro r hr
    obtain ⟨body, hbody, rfl⟩ := Option.map_eq_some_iff.1 hr
    exact (h body hbody).elements
  unfold Reader.listOf
  grind

@[grind .]
theorem OnwardInside.record {fromMembers fromItems : Option (Reader α)}
    (hmembers : OnwardInside fromMembers) (hitems : OnwardInside fromItems) (s : Shape) :
    Onward (record s fromMembers fromItems) := by
  unfold Reader.record
  grind

@[grind .]
theorem onward_fields (s : Shape) {read : String → β → Reader β}
    (h : ∀ key b, Onward (read key b)) (start : β) : Onward (fields s read start) := by
  refine Onward.bind (Onward.foldMembers ?_ _) fun _ => onward_pure _
  rintro ⟨seen, b⟩
  grind

@[grind .]
theorem onward_required (name : String) (value : Option α) : Onward (required name value) := by
  cases value with
  | none => exact onward_failLater _
  | some a => exact onward_pure a

@[grind .]
theorem Onward.item {r : Reader α} (h : Onward r) (s : Shape) (number : Nat) :
    Onward (item s number r) := by
  unfold Reader.item
  grind

@[grind .]
theorem Onward.itemD {r : Reader α} (h : Onward r) (number : Nat) (default : α) :
    Onward (itemD number r default) := by
  unfold Reader.itemD
  grind

end Records

section Documents

@[grind .]
theorem onward_operand (depth : Nat) : Onward (operand depth) := by
  unfold operand
  grind

@[grind .]
theorem onward_operandPair (r : Comparator) (depth : Nat) : Onward (operandPair r depth) := by
  unfold operandPair
  grind

@[grind .]
theorem onward_comparison (r : Comparator) (depth : Nat) : Onward (comparison r depth) := by
  unfold comparison
  grind

@[grind .]
theorem onward_keyword : Onward keyword := by
  unfold keyword
  grind

@[grind .]
theorem onward_attributeForm (depth : Nat) : Onward (attributeForm depth) := by
  unfold attributeForm
  refine OnwardInside.record (onwardInside_inside? ?_ depth) (onwardInside_inside? ?_ depth) _
  · grind
  · grind

@[grind .]
theorem onward_predicateForm (depth : Nat) : Onward (predicateForm depth) := by
  -- a condition inside a list stands two brackets deeper
  induction depth using Nat.strongRecOn with
  | ind depth ih =>
    have hnone : Onward (listOf (none : Option (Reader PredicateForm))) :=
      OnwardInside.listOf (by simp [OnwardInside])
    have hsome (lower : Nat) (h : lower < depth) :
        Onward (listOf (some (predicateForm lower))) :=
      OnwardInside.listOf (by simpa [OnwardInside] using ih lower h)
    unfold predicateForm
    refine onward_peekPastBlanks?.bind fun found => ?_
    cases depth with
    | zero => grind
    | succ depth =>
      have hnegated := ih depth (Nat.lt_succ_self depth)
      split
      · exact onward_failAhead _
      · exact onward_keyword.bind fun k => onward_failLater _
      · refine onward_advance.bind fun _ => onward_peekPastBlanks?.bind fun key => ?_
        split
        · exact onward_failAhead _
        · exact onward_failAhead _
        · refine onward_keyword.bind fun k => onward_colon.bind fun _ => ?_
          cases k <;> grind
        · exact onward_failAhead _
      · exact onward_failAhead _

@[grind .]
theorem onward_tokenForm (depth : Nat) : Onward (tokenForm depth) := by
  unfold tokenForm
  refine OnwardInside.record (onwardInside_inside? ?_ depth) (onwardInside_inside? ?_ depth) _
  · grind
  · grind

@[grind .]
theorem onward_dependencyForm (depth : Nat) : Onward (dependencyForm depth) := by
  unfold dependencyForm
  refine OnwardInside.record (onwardInside_inside? ?_ depth) (onwardInside_inside? ?_ depth) _
  · grind
  · grind

@[grind .]
theorem onward_orderForm (depth : Nat) : Onward (orderForm depth) := by
  unfold orderForm
  refine OnwardInside.record (onwardInside_inside? ?_ depth) (onwardInside_inside? ?_ depth) _
  · grind
  · grind

@[grind .]
theorem onward_document (depth : Nat) : Onward (document depth) := by
  have htokens (d : Nat) := (onwardInside_inside? onward_tokenForm d).listOf
  have hdependencies (d : Nat) := (onwardInside_inside? onward_dependencyForm d).listOf
  have hpredicates (d : Nat) := (onwardInside_inside? onward_predicateForm d).listOf
  have horder (d : Nat) := (onwardInside_inside? onward_orderForm d).listOf
  unfold document
  refine OnwardInside.record (onwardInside_inside? ?_ depth) (onwardInside_inside? ?_ depth) _
  · grind
  · grind

private theorem onward_wholeDocument : Onward wholeDocument := by
  unfold wholeDocument
  grind

end Documents

section Placed

def Placed (r : Reader α) : Prop := ∀ c e d, r c = .error e d → ∃ p, e.position = some p

@[grind .]
theorem placed_pure (a : α) : Placed (pure a : Reader α) := by
  rintro c e d ⟨⟩

@[grind .]
theorem Placed.bind {r : Reader α} {f : α → Reader β} (hr : Placed r) (hf : ∀ a, Placed (f a)) :
    Placed (r >>= f) := by
  intro c e d h
  cases hc : r c with
  | ok a c' =>
    rw [bind_of_ok hc] at h
    exact hf a c' e d h
  | error e' c' =>
    rw [bind_of_error hc] at h
    obtain ⟨rfl, rfl⟩ := EStateM.Result.error.inj h
    exact hr c e' c' hc

@[grind .]
theorem placed_failAhead (f : Fault) : Placed (failAhead f : Reader α) := by
  rintro c e d ⟨⟩
  exact ⟨_, rfl⟩

@[grind .]
theorem placed_settle (r : Reader α) : Placed (settle r) := by
  intro c e d h
  unfold settle at h
  split at h
  · cases h
  · rename_i e' d' _
    obtain ⟨rfl, rfl⟩ := EStateM.Result.error.inj h
    cases he : e'.position with
    | none => exact ⟨_, rfl⟩
    | some p => exact ⟨p, rfl⟩

@[grind .]
theorem placed_advance : Placed advance := by
  rintro c e d ⟨⟩

@[grind .]
theorem placed_peekPastBlanks? : Placed peekPastBlanks? := by
  rintro c e d ⟨⟩

@[grind .]
theorem placed_bracketed (inside : Option (Reader α)) (close : Reader Unit) :
    Placed (bracketed inside close) := by
  cases inside with
  | none => exact placed_failAhead _
  | some body => exact placed_advance.bind fun _ => placed_settle _

@[grind .]
theorem placed_record (s : Shape) (fromMembers fromItems : Option (Reader α)) :
    Placed (record s fromMembers fromItems) := by
  have hkind : Placed (wrongKind ("struct " ++ s.title) : Reader α) := placed_settle _
  unfold record
  grind

private theorem placed_wholeDocument : Placed wholeDocument := by
  have hdocument : Placed (document maxDepth) := placed_record _ _ _
  unfold wholeDocument
  grind

end Placed

end Reader

/-- A fault in a document has a place, which lies on a line of the text, with no more bytes before
it than the line has. -/
theorem position_of_parse_eq_error {source : String} {f : Failure}
    (h : parse source = .error f) :
    ∃ p n, f.position = some p ∧ p.line = n + 1 ∧
      p.column ≤ byteLength (lineAt n source.toList) := by
  unfold parse at h
  split at h
  · cases h
  · rename_i e d hrun
    obtain rfl := Except.error.inj h
    obtain ⟨p, hp⟩ := Reader.placed_wholeDocument _ e d hrun
    have hahead := Reader.onward_wholeDocument (.ofString source)
    rw [hrun] at hahead
    obtain ⟨n, hline, hcolumn⟩ := hahead.2 p hp
    refine ⟨p, n, hp, ?_, ?_⟩
    · rw [hline]
      exact Nat.add_comm 1 n
    · simpa [Cursor.ofString] using hcolumn

end TreeQuery.Document
