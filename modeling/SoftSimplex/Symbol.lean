/-!
# Columns of the tableau

A symbol names one column. Its number alone decides which column it is; its kind says what the
column is for. Columns are ordered by number, so every scan over a row or over the tableau meets
them in one fixed order.
-/

namespace SoftSimplex
set_option autoImplicit false

inductive SymbolKind where
  | invalid
  /-- A variable of the caller. -/
  | external
  /-- The distance of an inequality from its bound. -/
  | slack
  /-- The violation of a constraint that need not hold. -/
  | error
  /-- The marker of an equation that must hold; it stands for zero. -/
  | dummy
  deriving DecidableEq, Repr

structure Symbol where
  kind : SymbolKind
  id : Nat
  deriving DecidableEq, Repr

namespace SymbolKind

def letter : SymbolKind → Char
  | .invalid => 'i'
  | .external => 'v'
  | .slack => 's'
  | .error => 'e'
  | .dummy => 'd'

end SymbolKind

namespace Symbol

def invalid : Symbol := ⟨.invalid, 0⟩

def isInvalid (s : Symbol) : Bool := s.kind == .invalid

def isExternal (s : Symbol) : Bool := s.kind == .external

def isError (s : Symbol) : Bool := s.kind == .error

def isDummy (s : Symbol) : Bool := s.kind == .dummy

/-- Slack and error columns are the ones that an insertion may choose to make basic by itself. -/
def isPivotable (s : Symbol) : Bool := s.kind == .slack || s.kind == .error

theorem isExternal_of_isDummy {s : Symbol} (h : s.isDummy = true) : s.isExternal = false := by
  simp only [isDummy, beq_iff_eq] at h
  simp [isExternal, h]

theorem isDummy_of_isPivotable {s : Symbol} (h : s.isPivotable = true) : s.isDummy = false := by
  simp only [isPivotable, Bool.or_eq_true, beq_iff_eq] at h
  cases h with
  | inl hSlack => simp [isDummy, hSlack]
  | inr hError => simp [isDummy, hError]

/-- Two symbols are the same column when they have the same number, whatever their kinds. -/
def sameColumn (s t : Symbol) : Bool := s.id == t.id

/-- The symbols in column order; symbols of one column keep their places. -/
def sort (symbols : List Symbol) : List Symbol :=
  symbols.mergeSort fun s t => decide (s.id ≤ t.id)

def columnCount (symbols : List Symbol) : Nat :=
  (symbols.map Symbol.id).eraseDups.length

def render (s : Symbol) : String :=
  s.kind.letter.toString ++ toString s.id

/-- Reads the text of a symbol. Every text that starts with `i` is the invalid symbol. -/
def ofText? (text : String) : Option Symbol :=
  match text.toList with
  | 'i' :: _ => some invalid
  | 'v' :: digits => (String.ofList digits).toNat?.map (⟨.external, ·⟩)
  | 's' :: digits => (String.ofList digits).toNat?.map (⟨.slack, ·⟩)
  | 'e' :: digits => (String.ofList digits).toNat?.map (⟨.error, ·⟩)
  | 'd' :: digits => (String.ofList digits).toNat?.map (⟨.dummy, ·⟩)
  | _ => none

end Symbol

end SoftSimplex
