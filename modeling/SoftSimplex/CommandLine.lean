import SoftSimplex.Layout.Report
import SoftSimplex.Number.Literal
import SoftSimplex.Options

/-!
# The command line

Two commands: `chain` solves the chain for a suggested width, and `resize` plays the frames of a row
of columns. A command line that does not fit is refused with exit code 2; a layout that fails is
reported on the error stream with exit code 1.
-/

namespace SoftSimplex
set_option autoImplicit false

open Layout

inductive Command where
  | chain (width : Float) (json : Bool)
  | resize (request : ColumnRequest Float) (json : Bool)

inductive Outcome where
  | printed (text : String)
  | failed (message : String)
  | refused

namespace Outcome

def exitCode : Outcome → Nat
  | .printed _ => 0
  | .failed _ => 1
  | .refused => 2

def output : Outcome → String
  | .printed text => text
  | _ => ""

def errorLine? : Outcome → Option String
  | .failed message => some ("Error: " ++ message)
  | _ => none

end Outcome

namespace Command

/-- The option that every command takes: more details about the run. -/
def verbose : OptionSpec := { long := "verbose", short := some 'v', repeatable := true }

def json : OptionSpec := { long := "json" }

def chainOptions : List OptionSpec :=
  [verbose, json, { long := "width", short := some 'w', takesValue := true }]

def resizeOptions : List OptionSpec :=
  [verbose, json,
    { long := "columns", short := some 'c', takesValue := true },
    { long := "from", takesValue := true },
    { long := "to", takesValue := true },
    { long := "step", takesValue := true },
    { long := "gap", takesValue := true },
    { long := "min-width", takesValue := true }]

def number? (given : List GivenOption) (long : String) : Option Float :=
  (valueOf? given long).bind Number.ofArgument?

def numberOr? (given : List GivenOption) (long : String) (default : Float) : Option Float :=
  if isGiven given long then number? given long else some default

def chain? (given : List GivenOption) : Option Command := do
  return .chain (← numberOr? given "width" 50) (isGiven given "json")

def resize? (given : List GivenOption) : Option Command := do
  let columns ← (valueOf? given "columns").bind Number.countOfArgument?
  let first ← number? given "from"
  let last ← number? given "to"
  let step ← number? given "step"
  let gap ← numberOr? given "gap" 0
  let minWidth ← numberOr? given "min-width" 0
  return .resize ⟨columns, ⟨first, last, step⟩, gap, minWidth⟩ (isGiven given "json")

/-- The options of a command that takes no other arguments. Two dashes may end them. -/
def optionsOf? (specs : List OptionSpec) (args : List String) : Option (List GivenOption) :=
  match readOptions? specs args with
  | some (given, []) | some (given, ["--"]) => if givenOnce specs given then some given else none
  | _ => none

def ofArguments? (args : List String) : Option Command :=
  match readOptions? [verbose] args with
  | some (_, "chain" :: rest) => (optionsOf? chainOptions rest).bind chain?
  | some (_, "resize" :: rest) => (optionsOf? resizeOptions rest).bind resize?
  | _ => none

def run : Command → Outcome
  | .chain width json =>
    match Layout.chain width with
    | .error e => .failed e.message
    | .ok values => .printed (if json then values.json.toText ++ "\n" else values.text)
  | .resize request json =>
    match request.frames with
    | .error e => .failed e.message
    | .ok frames =>
      .printed (if json then (framesJson frames).toText ++ "\n" else framesText frames)

def runArguments (args : List String) : Outcome :=
  match ofArguments? args with
  | none => .refused
  | some command => command.run

end Command

end SoftSimplex
