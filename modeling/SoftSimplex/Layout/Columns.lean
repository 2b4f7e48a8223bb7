import SoftSimplex.Layout.Rules

/-!
# Columns

A container holds a row of columns with gaps between them. No column is narrower than a least width,
neighbours prefer equal widths, and the container follows a suggested size in each frame.
-/

namespace SoftSimplex.Layout
set_option autoImplicit false

variable {α : Type} [Scalar α]

structure ColumnRequest (α : Type) where
  columns : Nat
  range : FrameRange α
  gap : α
  minWidth : α

structure Column where
  left : Variable
  width : Variable
  deriving DecidableEq, Repr

structure ColumnChange (α : Type) where
  var : Variable
  name : String
  value : α

structure Frame (α : Type) where
  container : α
  changes : List (ColumnChange α)

namespace ColumnRequest

/-- A column starts behind the one before it and the gap, and prefers its width. -/
def neighbourRules (r : ColumnRequest α) (before column : Column) : List (Rule α) :=
  [⟨.ofVariable column.left, .equal,
      ((Expression.ofVariable before.left).add (.ofVariable before.width)).add (.ofConstant r.gap),
      .required⟩,
    ⟨.ofVariable column.width, .equal, .ofVariable before.width, .medium⟩]

/-- The rules of each column and of its right neighbour, from left to right; the last column ends
where the container does. -/
def columnRules (r : ColumnRequest α) (container : Variable) : List Column → List (Rule α)
  | [] => []
  | [last] =>
    [.atLeast last.width r.minWidth,
      ⟨.ofVariable container, .equal,
        (Expression.ofVariable last.left).add (.ofVariable last.width), .required⟩]
  | column :: next :: rest =>
    .atLeast column.width r.minWidth :: r.neighbourRules column next ++
      r.columnRules container (next :: rest)

/-- All rules: the first column starts at zero. -/
def rules (r : ColumnRequest α) (container : Variable) (columns : List Column) : List (Rule α) :=
  (columns.head?.map fun first => Rule.fixed first.left 0).toList ++
    r.columnRules container columns

/-- The variables of the layout and the supply behind them. All left ends come before all widths. -/
def layoutVariables (r : ColumnRequest α) : Variable × List Column × IdSupply :=
  let (container, supply) := ({} : IdSupply).freshVariable
  let (lefts, supply) := supply.freshVariables r.columns
  let (widths, supply) := supply.freshVariables r.columns
  (container, List.zipWith Column.mk lefts widths, supply)

/-- Names the container, and each column's variables by the column's place. -/
def name (s : Solver α) (container : Variable) (columns : List Column) : Solver α :=
  columns.zipIdx.foldl
    (fun s (column, i) =>
      (s.nameVariable column.left ("left" ++ toString i)).nameVariable column.width
        ("width" ++ toString i))
    (s.nameVariable container "container")

def solver (r : ColumnRequest α) (container : Variable) (columns : List Column)
    (supply : IdSupply) : Except LayoutError (Solver α) :=
  build (name .empty container columns) (r.rules container columns) container supply

end ColumnRequest

/-- One frame: the container follows a size, and the changes are fetched. -/
def playFrame (s : Solver α) (container : Variable) (size : α) :
    Except LayoutError (Frame α × Solver α) := do
  let s ← reached (s.suggestValue container size)
  let (changes, s) := s.fetchChanges
  let changes := changes.map fun (v, x) => ⟨v, (s.variableName? v).getD "", x⟩
  return (⟨s.getValue container, changes⟩, s)

/-- The frames of the given sizes, behind the frames so far, which are listed latest first. -/
def playFrames (container : Variable) (s : Solver α) (done : List (Frame α)) :
    List α → Except LayoutError (List (Frame α))
  | [] => .ok done.reverse
  | size :: rest =>
    match playFrame s container size with
    | .ok (frame, s) => playFrames container s (frame :: done) rest
    | .error e => .error e

namespace ColumnRequest

def frames (r : ColumnRequest α) : Except LayoutError (List (Frame α)) := do
  if r.columns = 0 then throw .noColumns
  if !(Scalar.isFinite r.gap && Scalar.isFinite r.minWidth) then throw .spacingNotFinite
  let sizes ← r.range.sizes
  let (container, columns, supply) := r.layoutVariables
  let s ← r.solver container columns supply
  playFrames container s [] sizes

end ColumnRequest

end SoftSimplex.Layout
