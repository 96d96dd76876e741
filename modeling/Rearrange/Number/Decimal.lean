namespace Rearrange

/-- The decimal `digits * 10 ^ exponent`. -/
structure Decimal where
  digits : Nat
  exponent : Int
deriving DecidableEq, Repr

namespace Decimal

def digitsValue (cs : List Char) : Nat := cs.foldl (fun n c => 10 * n + (c.toNat - '0'.toNat)) 0

def positional (d : Decimal) : List Char :=
  let ds := Nat.toDigits 10 d.digits
  match d.exponent with
  | .ofNat n => ds ++ List.replicate n '0'
  | .negSucc n =>
    if n + 1 < ds.length then ds.take (ds.length - (n + 1)) ++ '.' :: ds.drop (ds.length - (n + 1))
    else '0' :: '.' :: List.replicate (n + 1 - ds.length) '0' ++ ds

/-- The double closest to a decimal, ties going to the even neighbour. -/
def toFloat (d : Decimal) : Float := Float.ofScientific d.digits (d.exponent < 0) d.exponent.natAbs

/-- The value of an exponent mark with its digits; nothing stands for zero. -/
def readExponent : List Char → Option Int
  | [] => some 0
  | e :: cs =>
    if e == 'e' || e == 'E' then
      match cs with
      | '-' :: ds => if !ds.isEmpty && ds.all Char.isDigit then some (-digitsValue ds) else none
      | '+' :: ds => if !ds.isEmpty && ds.all Char.isDigit then some (digitsValue ds) else none
      | ds => if !ds.isEmpty && ds.all Char.isDigit then some (digitsValue ds) else none
    else none

def read (cs : List Char) : Option Decimal :=
  let whole := cs.takeWhile Char.isDigit
  if whole.isEmpty then none
  else
    match cs.dropWhile Char.isDigit with
    | '.' :: rest =>
      let places := rest.takeWhile Char.isDigit
      (readExponent (rest.dropWhile Char.isDigit)).map fun e =>
        ⟨digitsValue (whole ++ places), e - places.length⟩
    | rest => (readExponent rest).map fun e => ⟨digitsValue whole, e⟩

end Decimal

end Rearrange
