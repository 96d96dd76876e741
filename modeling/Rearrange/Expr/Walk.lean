import Rearrange.Expr

namespace Rearrange

namespace Expr

inductive Turn where
  | operand
  | lhs
  | rhs
deriving DecidableEq, Repr

/-- A node and the turns that lead to it, the last turn first. -/
structure Place where
  path : List Turn
  expr : Expr
deriving DecidableEq

/-- The nodes still to be visited, and the place of the last one visited. -/
structure Walk where
  stack : List Place
  last : Option (List Turn)
deriving DecidableEq

namespace Walk

def start (e : Expr) : Walk := ⟨[⟨[], e⟩], none⟩

/-- Goes down from a node to the first one that can be visited: a leaf, or a node whose last child
was the last one visited. -/
def descend (last : Option (List Turn)) (path : List Turn) (below : List Place) :
    Expr → Place × List Place
  | const c => (⟨path, const c⟩, below)
  | var n => (⟨path, var n⟩, below)
  | neg e =>
    if last = some (.operand :: path) then (⟨path, neg e⟩, below)
    else descend last (.operand :: path) (⟨path, neg e⟩ :: below) e
  | bin op l r =>
    if last = some (.rhs :: path) then (⟨path, bin op l r⟩, below)
    else descend last (.lhs :: path) (⟨.rhs :: path, r⟩ :: ⟨path, bin op l r⟩ :: below) l

def next : Walk → Option (Expr × Walk)
  | ⟨[], _⟩ => none
  | ⟨p :: below, last⟩ =>
    let (q, rest) := descend last p.path below p.expr
    some (q.expr, ⟨rest, some q.path⟩)

def visits : Nat → Walk → List Expr
  | 0, _ => []
  | n + 1, w =>
    match w.next with
    | some (e, w') => e :: visits n w'
    | none => []

end Walk

def walk (e : Expr) : List Expr := Walk.visits e.size (.start e)

def postOrder : Expr → List Expr
  | const c => [const c]
  | var n => [var n]
  | neg e => e.postOrder ++ [neg e]
  | bin op l r => l.postOrder ++ r.postOrder ++ [bin op l r]

end Expr

end Rearrange
