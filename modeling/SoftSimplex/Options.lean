/-!
# Command-line options

Arguments are options up to the first that is not. An option has a long name and may have a letter.
A value follows as the next argument, behind an equals sign, or directly behind the letter; a value
given as an argument of its own does not start with a minus sign. Letters of options without a value
may be joined. No option but a repeatable one is given twice.
-/

namespace SoftSimplex
set_option autoImplicit false

structure OptionSpec where
  long : String
  short : Option Char := none
  takesValue : Bool := false
  repeatable : Bool := false

/-- An option as given: its long name and its value. -/
abbrev GivenOption := String × Option String

inductive Argument where
  /-- Options that are complete. -/
  | options (given : List GivenOption)
  /-- Options, the last of which has its value in the next argument. -/
  | awaitsValue (given : List GivenOption) (long : String)
  | other
  | refused

namespace Argument

/-- A long option, without the dashes before it. -/
def ofLong (specs : List OptionSpec) (text : List Char) : Argument :=
  let name := String.ofList (text.takeWhile (· != '='))
  let value? := match text.dropWhile (· != '=') with
    | [] => none
    | _ :: value => some (String.ofList value)
  match specs.find? (·.long == name), value? with
  | none, _ => .refused
  | some spec, none =>
    if spec.takesValue then .awaitsValue [] spec.long else .options [(spec.long, none)]
  | some spec, some value =>
    if spec.takesValue then .options [(spec.long, some value)] else .refused

/-- Joined letters, without the dash before them. -/
def ofLetters (specs : List OptionSpec) (given : List GivenOption) : List Char → Argument
  | [] => .options given
  | letter :: rest =>
    match specs.find? (·.short == some letter) with
    | none => .refused
    | some spec =>
      if !spec.takesValue then ofLetters specs (given ++ [(spec.long, none)]) rest
      else match rest with
        | [] => .awaitsValue given spec.long
        | '=' :: value => .options (given ++ [(spec.long, some (String.ofList value))])
        | value => .options (given ++ [(spec.long, some (String.ofList value))])

def read (specs : List OptionSpec) (text : String) : Argument :=
  match text.toList with
  | ['-', '-'] => .other
  | '-' :: '-' :: name => ofLong specs name
  | ['-'] => .other
  | '-' :: letters => ofLetters specs [] letters
  | _ => .other

end Argument

/-- The options at the start of an argument list, and the arguments behind them. -/
def readOptions? (specs : List OptionSpec) : List String → Option (List GivenOption × List String)
  | [] => some ([], [])
  | arg :: rest =>
    match Argument.read specs arg with
    | .refused => none
    | .other => some ([], arg :: rest)
    | .options given =>
      (readOptions? specs rest).map fun (more, behind) => (given ++ more, behind)
    | .awaitsValue given long =>
      match rest with
      | [] => none
      | value :: rest =>
        if value.startsWith "-" then none
        else (readOptions? specs rest).map fun (more, behind) =>
          (given ++ (long, some value) :: more, behind)

def givenOnce (specs : List OptionSpec) (given : List GivenOption) : Bool :=
  specs.all fun spec =>
    spec.repeatable || decide ((given.filter (·.1 == spec.long)).length ≤ 1)

def isGiven (given : List GivenOption) (long : String) : Bool := given.any (·.1 == long)

def valueOf? (given : List GivenOption) (long : String) : Option String :=
  (given.find? (·.1 == long)).bind Prod.snd

end SoftSimplex
