/-!
# Reading JSON texts

The parts of a JSON text are read from its start, and the rest is handed on.
-/

namespace SoftSimplex.Json
set_option autoImplicit false

def isBlank (c : Char) : Bool := c == ' ' || c == '\n' || c == '\t' || c == '\r'

def skipBlanks (text : List Char) : List Char := text.dropWhile isBlank

/-- Reads one sign after blanks. -/
def sign? (c : Char) (text : List Char) : Option (List Char) :=
  match skipBlanks text with
  | d :: rest => if d = c then some rest else none
  | [] => none

def word? (word : String) (text : List Char) : Option (List Char) :=
  let text := skipBlanks text
  if word.toList.isPrefixOf text then some (text.drop word.length) else none

def isDone (text : List Char) : Bool := (skipBlanks text).isEmpty

def hexDigit? (c : Char) : Option Nat :=
  if c.isDigit then some (c.toNat - '0'.toNat)
  else if 'a' ≤ c ∧ c ≤ 'f' then some (c.toNat - 'a'.toNat + 10)
  else if 'A' ≤ c ∧ c ≤ 'F' then some (c.toNat - 'A'.toNat + 10)
  else none

/-- The character of four hexadecimal digits. Halves of surrogate pairs are refused. -/
def hexChar? (a b c d : Char) : Option Char := do
  let n := (((← hexDigit? a) * 16 + (← hexDigit? b)) * 16 + (← hexDigit? c)) * 16 + (← hexDigit? d)
  if n.isValidChar then some (Char.ofNat n) else none

def escape? (c : Char) : Option Char :=
  match c with
  | '"' => some '"'
  | '\\' => some '\\'
  | '/' => some '/'
  | 'b' => some '\x08'
  | 'f' => some '\x0c'
  | 'n' => some '\n'
  | 'r' => some '\r'
  | 't' => some '\t'
  | _ => none

/-- Reads the inside of a string up to the closing quote. -/
def stringBody? : List Char → Option (List Char × List Char)
  | [] => none
  | '"' :: rest => some ([], rest)
  | '\\' :: 'u' :: a :: b :: c :: d :: rest => do
    let decoded ← hexChar? a b c d
    let (body, rest) ← stringBody? rest
    some (decoded :: body, rest)
  | '\\' :: c :: rest => do
    let decoded ← escape? c
    let (body, rest) ← stringBody? rest
    some (decoded :: body, rest)
  | c :: rest =>
    if c.toNat < 32 ∨ c = '\\' then none
    else (stringBody? rest).map fun (body, rest) => (c :: body, rest)

def string? (text : List Char) : Option (String × List Char) := do
  let text ← sign? '"' text
  let (body, rest) ← stringBody? text
  some (String.ofList body, rest)

end SoftSimplex.Json
