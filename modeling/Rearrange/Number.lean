import Rearrange.Number.Shortest

namespace Rearrange

namespace Number

/-- The shortest digits that read back as the same double, a tie going to the larger magnitude,
without an exponent, and without a point if the number is whole. -/
def text (x : Float) : String :=
  if x.isNaN then "NaN"
  else
    let b := Binary64.ofFloat x
    let magnitude := if x.isFinite then (b.shortest .up).positional else "inf".toList
    String.ofList (if b.negative then '-' :: magnitude else magnitude)

def read (lexeme : String) : Option Float := (Decimal.read lexeme.toList).map Decimal.toFloat

end Number

end Rearrange
