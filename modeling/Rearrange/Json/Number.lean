import Rearrange.Json
import Rearrange.Number

namespace Rearrange

namespace Decimal

/-- The number of digits in front of the point, or minus the number of zeros behind it. -/
def pointPlace (d : Decimal) : Int := (Nat.toDigits 10 d.digits).length + d.exponent

def exponentText (e : Int) : List Char :=
  'e' :: (if e < 0 then '-' else '+') :: Nat.toDigits 10 e.natAbs

def scientific (d : Decimal) : List Char :=
  let exponent := exponentText (d.pointPlace - 1)
  match Nat.toDigits 10 d.digits with
  | [] => exponent
  | [c] => c :: exponent
  | c :: cs => c :: '.' :: cs ++ exponent

/-- Text that shows a point or an exponent: positional if at most sixteen digits stand in front of
the point and at most four zeros behind it. -/
def marked (d : Decimal) : List Char :=
  if -5 < d.pointPlace ∧ d.pointPlace ≤ 16 then
    if 0 ≤ d.exponent then d.positional ++ ['.', '0'] else d.positional
  else d.scientific

end Decimal

namespace Json

/-- A double by its shortest digits, a tie going to the even one. Infinities and NaN have no number
in JSON. -/
def ofFloat (x : Float) : Json :=
  if x.isFinite then
    let b := Binary64.ofFloat x
    let magnitude := (b.shortest .even).marked
    .number (if b.negative then '-' :: magnitude else magnitude)
  else .null

def ofNat (n : Nat) : Json := .number (Nat.toDigits 10 n)

def nat? : Json → Option Nat
  | .number lexeme =>
    let n := Decimal.digitsValue lexeme
    if lexeme.all Char.isDigit && n < UInt64.size then some n else none
  | _ => none

/-- Appends digits to a significand while it stays below `2 ^ 64`. Gives the significand and the
number of digits taken. -/
def takeDigits (significand : Nat) : List Char → Nat × Nat
  | [] => (significand, 0)
  | c :: cs =>
    let next := 10 * significand + (c.toNat - '0'.toNat)
    if next < UInt64.size then
      let (s, n) := takeDigits next cs
      (s, n + 1)
    else (significand, 0)

def divideByTens (x : Float) (places : Nat) : Float :=
  if places ≤ 308 then x / Float.ofScientific 1 false places
  else if x == 0 then x
  else divideByTens (x / Float.ofScientific 1 false 308) (places - 308)
termination_by places

def scale (significand : Nat) (exponent : Int) : Option Float :=
  let x := Float.ofNat significand
  match exponent with
  | .negSucc n => some (divideByTens x (n + 1))
  | .ofNat n =>
    if 308 < n then if x == 0 then some x else none
    else
      let y := x * Float.ofScientific 1 false n
      if y.isInf then none else some y

/-- The exponent that a number ends in, as a sign, true for a minus, and a magnitude. A number
without an exponent has the exponent zero. -/
def exponentOf : List Char → Bool × Nat
  | _ :: '-' :: ds => (true, Decimal.digitsValue ds)
  | _ :: '+' :: ds => (false, Decimal.digitsValue ds)
  | _ :: ds => (false, Decimal.digitsValue ds)
  | [] => (false, 0)

def magnitude? (lexeme : List Char) : Option Float :=
  let whole := lexeme.takeWhile Char.isDigit
  let rest := lexeme.dropWhile Char.isDigit
  let (places, tail) := match rest with
    | '.' :: r => (r.takeWhile Char.isDigit, r.dropWhile Char.isDigit)
    | r => ([], r)
  let (front, taken) := takeDigits 0 whole
  let (significand, behind) := takeDigits front places
  let start : Int := whole.length - taken - behind
  let (negative, exponent) := exponentOf tail
  if exponent < Nat.pow 2 31 then
    scale significand (if negative then start - exponent else start + exponent)
  else if significand = 0 || negative then some 0
  else none

def float? : Json → Option Float
  | .number ('-' :: r) => (magnitude? r).map fun x => -x
  | .number lexeme => magnitude? lexeme
  | _ => none

end Json

end Rearrange
