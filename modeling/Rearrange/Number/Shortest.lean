import Rearrange.Number.Decimal

namespace Rearrange

/-- Which of two neighbours a number halfway between them goes to. -/
inductive Tie where
  | up
  | even
deriving DecidableEq, Repr

def Tie.goesDown : Tie → Nat → Bool
  | up, _ => false
  | even, n => n % 2 = 0

/-- The parts of a double: `mantissa * 2 ^ exponent` up to sign. -/
structure Binary64 where
  negative : Bool
  mantissa : Nat
  exponent : Int
  /-- Whether the next smaller magnitude is only half as far away as the next larger one. -/
  lowerGapHalved : Bool
deriving DecidableEq, Repr

namespace Binary64

def ofFloat (x : Float) : Binary64 :=
  let bits := x.toBits.toNat
  let field : Nat := bits / Nat.pow 2 52 % Nat.pow 2 11
  let fraction : Nat := bits % Nat.pow 2 52
  if field = 0 then ⟨bits / Nat.pow 2 63 = 1, fraction, -1074, false⟩
  else ⟨bits / Nat.pow 2 63 = 1, Nat.pow 2 52 + fraction, field - 1075, fraction = 0 && 1 < field⟩

/-- The place of a positive double among the numbers that round to it, in quarters of its last
bit. -/
structure Rounding where
  low : Nat
  value : Nat
  high : Nat
  unit : Int
  closed : Bool

def rounding (b : Binary64) : Rounding where
  low := 4 * b.mantissa - if b.lowerGapHalved then 1 else 2
  value := 4 * b.mantissa
  high := 4 * b.mantissa + 2
  unit := b.exponent - 2
  closed := b.mantissa % 2 = 0

namespace Rounding

/-- A number of units over the grid of multiples of `10 ^ e`, as a numerator over `denominator`. -/
def numerator (r : Rounding) (e : Int) (n : Nat) : Nat :=
  n * Nat.pow 2 r.unit.toNat * Nat.pow 10 (-e).toNat

def denominator (r : Rounding) (e : Int) : Nat :=
  Nat.pow 2 (-r.unit).toNat * Nat.pow 10 e.toNat

def contains (r : Rounding) (e : Int) (n : Nat) : Bool :=
  let at_ := n * r.denominator e
  if r.closed then r.numerator e r.low ≤ at_ && at_ ≤ r.numerator e r.high
  else r.numerator e r.low < at_ && at_ < r.numerator e r.high

def floor (r : Rounding) (e : Int) : Nat := r.numerator e r.value / r.denominator e

def nearest (tie : Tie) (r : Rounding) (e : Int) : Option Nat :=
  let n := r.floor e
  match r.contains e n, r.contains e (n + 1) with
  | true, true =>
    let excess := r.numerator e r.value - n * r.denominator e
    if 2 * excess < r.denominator e ∨ 2 * excess = r.denominator e ∧ tie.goesDown n then some n
    else some (n + 1)
  | true, false => some n
  | false, true => some (n + 1)
  | false, false => none

def search (tie : Tie) (r : Rounding) : Nat → Int → Decimal
  | 0, e => ⟨r.floor e, e⟩
  | steps + 1, e =>
    match r.nearest tie e with
    | some n => ⟨n, e⟩
    | none => search tie r steps (e - 1)

/-- A power of ten above the double: three tenths of its binary length, rounded up. -/
def coarsest (r : Rounding) : Int := (r.value.log2 + 1 + r.unit) * 30103 / 100000 + 1

/-- Seventeen digits always suffice, so a few more grids than that are tried. -/
def shortest (tie : Tie) (r : Rounding) : Decimal := r.search tie 24 r.coarsest

end Rounding

def shortest (tie : Tie) (b : Binary64) : Decimal :=
  if b.mantissa = 0 then ⟨0, 0⟩ else b.rounding.shortest tie

end Binary64

end Rearrange
