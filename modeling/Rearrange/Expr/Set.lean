import Rearrange.Expr.Equality
import Std.Data.TreeSet.Lemmas

namespace Rearrange

structure ExprSet where
  keys : Std.TreeSet (List Nat) := ∅

namespace ExprSet

def empty : ExprSet := {}

def size (s : ExprSet) : Nat := s.keys.size

def contains (s : ExprSet) (e : Expr) : Bool := s.keys.contains e.key

def insert (s : ExprSet) (e : Expr) : Bool × ExprSet := (!s.contains e, ⟨s.keys.insert e.key⟩)

def insertAll (es : List Expr) : ExprSet × List Bool :=
  es.foldl (fun (s, fresh) e => ((s.insert e).2, fresh ++ [(s.insert e).1])) (empty, [])

end ExprSet

end Rearrange
