import Rearrange.Expr

namespace Rearrange

namespace Expr

variable {α : Type}

def onConst (f : Float → Option α) : Expr → Option α
  | const c => f c
  | _ => none

def onVar (f : String → Option α) : Expr → Option α
  | var n => f n
  | _ => none

def onNamed (name : String) (f : Unit → Option α) (e : Expr) : Option α :=
  e.onVar fun n => if n = name then f () else none

def onNeg (f : Expr → Option α) : Expr → Option α
  | neg e => f e
  | _ => none

def onBin (f : BinOp → Expr → Expr → Option α) : Expr → Option α
  | bin op l r => f op l r
  | _ => none

def onOp (op : BinOp) (f : Expr → Expr → Option α) (e : Expr) : Option α :=
  e.onBin fun o l r => if o = op then f l r else none

def firstOf (matchers : List (Expr → Option α)) (e : Expr) : Option α :=
  matchers.findSome? fun m => m e

end Expr

end Rearrange
