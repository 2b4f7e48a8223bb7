import SoftSimplex.Constraint
import SoftSimplex.Json.Block
import SoftSimplex.Json.Reader
import SoftSimplex.Number.Literal
import SoftSimplex.Number.Style

/-!
# Strengths and relations as JSON

A strength is its number. A relation is its name, and on reading also an object that gives the name
the value `null`.
-/

namespace SoftSimplex
set_option autoImplicit false

namespace Strength

def ofJson? (text : String) : Option (Strength Float) :=
  match Number.ofJson? (Json.skipBlanks text.toList) with
  | some (x, rest) => if Json.isDone rest then some ⟨x⟩ else none
  | none => none

def toJson (w : Strength Float) : String := Number.Style.json.render w.value

end Strength

namespace Relation

/-- Reads the object form behind its opening brace. -/
def ofJsonObject? (text : List Char) : Option (String × List Char) := do
  let (name, text) ← Json.string? text
  let text ← Json.sign? ':' text
  let text ← Json.word? "null" text
  let text ← Json.sign? '\x7d' text
  some (name, text)

def ofJson? (text : String) : Option Relation := do
  let text := text.toList
  let (name, rest) ← match Json.sign? '\x7b' text with
    | some inside => ofJsonObject? inside
    | none => Json.string? text
  if Json.isDone rest then ofName? name else none

def toJson (r : Relation) : String := Json.quoted r.name

end Relation

end SoftSimplex
