/-!
# Printed JSON

A JSON value on several lines is a list of lines. Arrays and objects put each member on lines of its
own, two blanks further in; an empty one stays on one line.
-/

namespace SoftSimplex.Json
set_option autoImplicit false

/-- The lines of a value, without the indentation of what surrounds it. -/
abbrev Block := List String

namespace Block

def atom (text : String) : Block := [text]

def withComma (b : Block) : Block := b.dropLast ++ (b.getLast?.map (· ++ ",")).toList

def separated (blocks : List Block) : Block :=
  blocks.dropLast.flatMap withComma ++ blocks.getLast?.getD []

def bracket (opening closing : String) (members : List Block) : Block :=
  if members.isEmpty then [opening ++ closing]
  else opening :: (separated members).map ("  " ++ ·) ++ [closing]

def array (items : List Block) : Block := bracket "[" "]" items

/-- A member of an object; the key is text that needs no escapes. -/
def member (key : String) : Block → Block
  | [] => []
  | line :: rest => ("\"" ++ key ++ "\": " ++ line) :: rest

def object (fields : List (String × Block)) : Block :=
  bracket "\x7b" "\x7d" (fields.map fun f => member f.1 f.2)

def toText (b : Block) : String := "\n".intercalate b

end Block

def escapeChar (c : Char) : List Char :=
  match c with
  | '"' => ['\\', '"']
  | '\\' => ['\\', '\\']
  | '\n' => ['\\', 'n']
  | '\r' => ['\\', 'r']
  | '\t' => ['\\', 't']
  | '\x08' => ['\\', 'b']
  | '\x0c' => ['\\', 'f']
  | _ =>
    if c.toNat < 32 then
      let digits := Nat.toDigits 16 c.toNat
      '\\' :: 'u' :: List.replicate (4 - digits.length) '0' ++ digits
    else [c]

def quoted (text : String) : String :=
  String.ofList ('"' :: text.toList.flatMap escapeChar ++ ['"'])

end SoftSimplex.Json
