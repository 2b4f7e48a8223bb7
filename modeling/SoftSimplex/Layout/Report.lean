import SoftSimplex.Json.Block
import SoftSimplex.Layout.Chain
import SoftSimplex.Layout.Columns
import SoftSimplex.Number.Fixed

/-!
# Reports

What a layout prints, as text or as JSON. The chain is shown with all digits; the columns are shown
with two places, in a table.
-/

namespace SoftSimplex.Layout
set_option autoImplicit false

open Json (Block quoted)
open Number (Style alignLeft alignRight fixed)

def jsonNumber (x : Float) : Block := .atom (Style.json.render x)

def ofLines (lines : List String) : String :=
  lines.foldl (fun text line => text ++ line ++ "\n") ""

namespace ChainValues

def text (c : ChainValues Float) : String :=
  ofLines
    ["left  = " ++ Style.plain.render c.left,
      "width = " ++ Style.plain.render c.width,
      "right = " ++ Style.plain.render c.right]

def json (c : ChainValues Float) : Block :=
  .object
    [("strength", jsonNumber (Strength.strong : Strength Float).value),
      ("left", jsonNumber c.left),
      ("width", jsonNumber c.width),
      ("right", jsonNumber c.right)]

end ChainValues

namespace ColumnChange

def line (c : ColumnChange Float) : String :=
  "  " ++ alignLeft 12 c.name ++ " " ++ alignRight 10 (fixed 2 c.value)

def json (c : ColumnChange Float) : Block :=
  .object
    [("variable", .atom (toString c.var.id)),
      ("name", .atom (quoted c.name)),
      ("value", jsonNumber c.value)]

end ColumnChange

namespace Frame

def lines (f : Frame Float) : List String :=
  ("container = " ++ fixed 2 f.container) :: f.changes.map ColumnChange.line

def json (f : Frame Float) : Block :=
  .object
    [("container", jsonNumber f.container),
      ("changes", .array (f.changes.map ColumnChange.json))]

end Frame

def framesText (frames : List (Frame Float)) : String := ofLines (frames.flatMap Frame.lines)

def framesJson (frames : List (Frame Float)) : Block := .array (frames.map Frame.json)

end SoftSimplex.Layout
