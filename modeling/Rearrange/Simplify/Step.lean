import Rearrange.Expr.Equality

namespace Rearrange

namespace Expr

def isValue (v : Float) : Expr → Bool
  | const c => c == v
  | _ => false

end Expr

inductive Step where
  | foldConstants
  | negateConstant
  | doubleNegation
  | addZero
  | subtractZero
  | subtractFromZero
  | multiplyZero
  | multiplyOne
  | divideZero
  | cancelLikeTerms
  | combineLikeTerms
deriving DecidableEq, Repr

namespace Step

open Rearrange.Expr

/-- Does an operation on two constants, so `1/0` becomes an infinity. -/
def foldConstants? : Expr → Option Expr
  | bin op (const a) (const b) => some (const (op.eval a b))
  | _ => none

def negateConstant? : Expr → Option Expr
  | neg (const a) => some (const (-a))
  | _ => none

/-- `--a = a` -/
def doubleNegation? : Expr → Option Expr
  | neg (neg e) => some e
  | _ => none

/-- `0+a = a` and `a+0 = a` -/
def addZero? : Expr → Option Expr
  | bin .add l r => if l.isValue 0 then some r else if r.isValue 0 then some l else none
  | _ => none

/-- `a-0 = a` -/
def subtractZero? : Expr → Option Expr
  | bin .sub l r => if r.isValue 0 then some l else none
  | _ => none

/-- `0-a = -a` -/
def subtractFromZero? : Expr → Option Expr
  | bin .sub l r => if l.isValue 0 then some (-r) else none
  | _ => none

/-- `0*a = 0` and `a*0 = 0` -/
def multiplyZero? : Expr → Option Expr
  | bin .mul l r => if l.isValue 0 || r.isValue 0 then some (const 0) else none
  | _ => none

/-- `1*a = a` and `a*1 = a` -/
def multiplyOne? : Expr → Option Expr
  | bin .mul l r => if l.isValue 1 then some r else if r.isValue 1 then some l else none
  | _ => none

/-- `0/a = 0` -/
def divideZero? : Expr → Option Expr
  | bin .div l _ => if l.isValue 0 then some (const 0) else none
  | _ => none

/-- `a-a = 0` -/
def cancelLikeTerms? : Expr → Option Expr
  | bin .sub l r => if l == r then some (const 0) else none
  | _ => none

/-- `a+a = 2*a` -/
def combineLikeTerms? : Expr → Option Expr
  | bin .add l r => if l == r then some (const 2 * l) else none
  | _ => none

def rewrite? : Step → Expr → Option Expr
  | foldConstants => foldConstants?
  | negateConstant => negateConstant?
  | doubleNegation => doubleNegation?
  | addZero => addZero?
  | subtractZero => subtractZero?
  | subtractFromZero => subtractFromZero?
  | multiplyZero => multiplyZero?
  | multiplyOne => multiplyOne?
  | divideZero => divideZero?
  | cancelLikeTerms => cancelLikeTerms?
  | combineLikeTerms => combineLikeTerms?

def first? (table : List Step) (e : Expr) : Option (Step × Expr) :=
  table.findSome? fun s => (s.rewrite? e).map fun e' => (s, e')

def constantRules : List Step := [foldConstants, negateConstant]

def negationRules : List Step := [doubleNegation]

def additionRules : List Step := [addZero, subtractZero, subtractFromZero]

def multiplicationRules : List Step := [multiplyZero, multiplyOne, divideZero]

def likeTermRules : List Step := [cancelLikeTerms, combineLikeTerms]

/-- The rules that need no comparison of operands. Operations on constants come first, so that no
rule for `0` or `1` hides the result of an operation on two constants. -/
def baselineRules : List Step :=
  constantRules ++ negationRules ++ additionRules ++ multiplicationRules

def all : List Step := baselineRules ++ likeTermRules

def label : Step → String
  | foldConstants => "FoldConstants"
  | negateConstant => "NegateConstant"
  | doubleNegation => "DoubleNegation"
  | addZero => "AddZero"
  | subtractZero => "SubtractZero"
  | subtractFromZero => "SubtractFromZero"
  | multiplyZero => "MultiplyZero"
  | multiplyOne => "MultiplyOne"
  | divideZero => "DivideZero"
  | cancelLikeTerms => "CancelLikeTerms"
  | combineLikeTerms => "CombineLikeTerms"

end Step

inductive RuleSet where
  | baseline
  /-- The baseline rules and those for like terms. -/
  | extended
deriving DecidableEq, Repr

namespace RuleSet

def table : RuleSet → List Step
  | baseline => Step.baselineRules
  | extended => Step.all

end RuleSet

end Rearrange
