import Rearrange.Expr

namespace Rearrange

def Number.same (a b : Float) : Bool := a == b || (a.isNaN && b.isNaN)

/-- The bits of a constant, with one pattern for both zeros and one for NaN. -/
def Number.canonicalBits (x : Float) : UInt64 :=
  if x.isNaN then (0 / 0 : Float).toBits else if x == 0 then (0 : Float).toBits else x.toBits

namespace Expr

def equal : Expr → Expr → Bool
  | const a, const b => Number.same a b
  | var m, var n => m == n
  | neg a, neg b => equal a b
  | bin o a b, bin p c d => o == p && equal a c && equal b d
  | _, _ => false

instance : BEq Expr := ⟨equal⟩

/-- The sequence of numbers that stands for an expression among the members of a set. -/
def key : Expr → List Nat
  | const c => [0, (Number.canonicalBits c).toNat]
  | var n => 1 :: n.length :: n.toList.map Char.toNat
  | neg e => 2 :: e.key
  | bin op l r => 3 :: op.ctorIdx :: (l.key ++ r.key)

end Expr

end Rearrange
