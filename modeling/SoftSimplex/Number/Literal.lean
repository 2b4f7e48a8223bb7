/-!
# Reading numbers

A literal is a run of digits, an optional fraction and an optional exponent. Command-line arguments
and JSON texts admit different literals: an argument may leave out the digits on one side of the
point, may have a plus sign, and may spell infinities and the value that is not a number; a JSON
text may do none of this, and has no zero before its other whole digits.
-/

namespace SoftSimplex.Number
set_option autoImplicit false

structure Literal where
  whole : List Char
  fraction : Option (List Char)
  exponent : Int
  deriving DecidableEq, Repr

def digitsValue (digits : List Char) : Nat :=
  digits.foldl (fun n c => 10 * n + (c.toNat - '0'.toNat)) 0

/-- The floating-point number nearest to `n * 10 ^ exponent`. Far outside the range of the format
the answer is infinity or zero, whatever the digits. -/
def nearestFloat (n : Nat) (exponent : Int) : Float :=
  let size := (Nat.toDigits 10 n).length + exponent
  if n = 0 then 0
  else if 400 < size then 1 / 0
  else if size < -400 then 0
  else Float.ofScientific n (decide (exponent < 0)) exponent.natAbs

def applySign (negative : Bool) (x : Float) : Float := if negative then -x else x

def takeDigits (text : List Char) : List Char × List Char :=
  (text.takeWhile Char.isDigit, text.dropWhile Char.isDigit)

/-- Reads a sign if there is one; the answer says whether it is a minus. -/
def takeSign (text : List Char) : Bool × List Char :=
  match text with
  | '-' :: rest => (true, rest)
  | '+' :: rest => (false, rest)
  | _ => (false, text)

namespace Literal

def exponent? (text : List Char) : Option (Int × List Char) :=
  let (negative, text) := takeSign text
  match takeDigits text with
  | ([], _) => none
  | (digits, rest) =>
    let n : Int := digitsValue digits
    some (if negative then -n else n, rest)

def read? (text : List Char) : Option (Literal × List Char) :=
  let (whole, rest) := takeDigits text
  let (fraction, rest) := match rest with
    | '.' :: behind => ((takeDigits behind).map some id : Option (List Char) × List Char)
    | _ => (none, rest)
  match rest with
  | 'e' :: behind | 'E' :: behind =>
    (exponent? behind).map fun (n, rest) => (⟨whole, fraction, n⟩, rest)
  | _ => some (⟨whole, fraction, 0⟩, rest)

def value (l : Literal) : Float :=
  let fraction := l.fraction.getD []
  nearestFloat (digitsValue (l.whole ++ fraction)) (l.exponent - fraction.length)

/-- The value with no more than `limit` digits weighed one by one. Whatever digits stand behind them
count as a single 1, even if all of them are zeros. Zeros at the start of the literal and at the end
of its fraction are no digits in this sense. -/
def valueWithin (limit : Nat) (l : Literal) : Float :=
  let fraction := ((l.fraction.getD []).reverse.dropWhile (· == '0')).reverse
  let digits := (l.whole ++ fraction).dropWhile (· == '0')
  let exponent := l.exponent - fraction.length
  let behind := digits.length - limit
  if behind = 0 then nearestFloat (digitsValue digits) exponent
  else nearestFloat (10 * digitsValue (digits.take limit) + 1) (exponent + behind - 1)

/-- Holds of the literals that an argument may be. -/
def hasDigits (l : Literal) : Bool := !(l.whole ++ l.fraction.getD []).isEmpty

/-- Holds of the literals that a JSON text may be. -/
def isStrict (l : Literal) : Bool :=
  !l.whole.isEmpty && (l.whole.head? != some '0' || l.whole.length == 1)
    && l.fraction != some []

end Literal

/-- The words for what no digits can write, in lower case. -/
def word? (text : String) : Option Float :=
  if text = "inf" ∨ text = "infinity" then some (1 / 0)
  else if text = "nan" then some (0 / 0)
  else none

/-- Reads a number given as an argument; the whole text has to be the number. -/
def ofArgument? (text : String) : Option Float :=
  let (negative, body) := takeSign text.toList
  let magnitude := word? (String.ofList (body.map Char.toLower)) <|>
    match Literal.read? body with
    | some (l, []) => if l.hasDigits then some l.value else none
    | _ => none
  magnitude.map (applySign negative)

/-- Reads a count below `2 ^ 64` given as an argument. -/
def countOfArgument? (text : String) : Option Nat :=
  let digits := match text.toList with
    | '+' :: rest => rest
    | all => all
  let n := digitsValue digits
  if digits.isEmpty || !digits.all Char.isDigit || decide (Nat.pow 2 64 ≤ n) then none else some n

/-- How many digits of a JSON number are weighed one by one. No number halfway between two
floating-point numbers has more, so the digits behind matter only where the weighed ones are such a
number: then the literal goes up. -/
def digitLimit : Nat := 768

/-- Reads a JSON number from the start of a text. A number beyond the range of the format is
refused. -/
def ofJson? (text : List Char) : Option (Float × List Char) :=
  let (negative, body) := match text with
    | '-' :: rest => (true, rest)
    | _ => (false, text)
  match Literal.read? body with
  | none => none
  | some (l, rest) =>
    let magnitude := l.valueWithin digitLimit
    if l.isStrict && magnitude.isFinite then some (applySign negative magnitude, rest) else none

end SoftSimplex.Number
