import Rearrange.Json.Number
import Rearrange.Solve

namespace Rearrange

namespace Json

/-- How many arrays and objects may stand inside each other. -/
def maxDepth : Nat := 127

def tagged (tag : String) (v : Json) : Json := .object [(escape tag.toList, v)]

def record (fields : List (String × Json)) : Json :=
  .object (fields.map fun (k, v) => (escape k.toList, v))

def tagged? : Json → Option (String × Json)
  | .object [(k, v)] => (unescape k).map fun tag => (String.ofList tag, v)
  | _ => none

def tag? (depth : Nat) : Json → Option String
  | .object [(k, .null)] => if depth = 0 then none else (unescape k).map String.ofList
  | v => v.text?

def namedMembers? : List (List Char × Json) → Option (List (String × Json))
  | [] => some []
  | (k, v) :: ms => do
    let name ← unescape k
    let rest ← namedMembers? ms
    pure ((String.ofList name, v) :: rest)

def field? (ms : List (String × Json)) (name : String) : Option Json :=
  match ms.filter (·.1 == name) with
  | [(_, v)] => some v
  | _ => none

def fields? (names : List String) : Json → Option (List Json)
  | .array vs => if vs.length = names.length then some vs else none
  | .object ms => do
    let ms ← namedMembers? ms
    names.mapM (field? ms)
  | _ => none

def exactFields? (names : List String) (v : Json) : Option (List Json) :=
  match v with
  | .object ms => if ms.length = names.length then v.fields? names else none
  | v => v.fields? names

end Json

namespace BinOp

def label : BinOp → String
  | add => "Add"
  | sub => "Sub"
  | mul => "Mul"
  | div => "Div"

def toJson (op : BinOp) : Json := .ofText op.label

def ofJson? (depth : Nat) (v : Json) : Option BinOp :=
  (v.tag? depth).bind fun tag => all.find? (·.label == tag)

end BinOp

namespace UnaryOp

def label : UnaryOp → String
  | neg => "Neg"

def toJson (op : UnaryOp) : Json := .ofText op.label

def ofJson? (depth : Nat) (v : Json) : Option UnaryOp :=
  (v.tag? depth).bind fun tag => [neg].find? (·.label == tag)

end UnaryOp

namespace Step

def toJson (s : Step) : Json := .ofText s.label

def ofJson? (depth : Nat) (v : Json) : Option Step :=
  (v.tag? depth).bind fun tag => all.find? (·.label == tag)

end Step

namespace RuleSet

def label : RuleSet → String
  | baseline => "Baseline"
  | extended => "Extended"

def toJson (r : RuleSet) : Json := .ofText r.label

def ofJson? (depth : Nat) (v : Json) : Option RuleSet :=
  (v.tag? depth).bind fun tag => [baseline, extended].find? (·.label == tag)

end RuleSet

namespace Span

def toJson (s : Span) : Json := .record [("start", .ofNat s.start), ("end", .ofNat s.stop)]

def ofJson? (depth : Nat) (v : Json) : Option Span :=
  match depth, v.exactFields? ["start", "end"] with
  | _ + 1, some [start, stop] => do pure ⟨← start.nat?, ← stop.nat?⟩
  | _, _ => none

end Span

namespace Expr

def toJson : Expr → Json
  | const c => .tagged "Constant" (.ofFloat c)
  | var n => .tagged "Variable" (.ofText n)
  | neg e => .tagged "Negation" e.toJson
  | bin op l r => .tagged "Binary" (.array [op.toJson, l.toJson, r.toJson])

def ofJson? : Nat → Json → Option Expr
  | 0, _ => none
  | depth + 1, v => do
    match ← v.tagged? with
    | ("Constant", v) => const <$> v.float?
    | ("Variable", v) => var <$> v.text?
    | ("Negation", v) => neg <$> ofJson? depth v
    | ("Binary", .array [op, l, r]) =>
      match depth with
      | 0 => none
      | depth + 1 => do
        pure (bin (← BinOp.ofJson? depth op) (← ofJson? depth l) (← ofJson? depth r))
    | _ => none

end Expr

namespace Job

def toJson (j : Job) : Json := .record [("lhs", j.lhs.toJson), ("rhs", j.rhs.toJson)]

def ofJson? (depth : Nat) (v : Json) : Option Job :=
  match depth, v.fields? ["lhs", "rhs"] with
  | depth + 1, some [l, r] => do pure ⟨← Expr.ofJson? depth l, ← Expr.ofJson? depth r⟩
  | _, _ => none

end Job

namespace Phrase

def opToJson (op : Json) (span : Span) : Json := .record [("kind", op), ("span", span.toJson)]

def nameToJson (name : String) (span : Span) : Json :=
  .record [("name", .ofText name), ("span", span.toJson)]

def toJson : Phrase → Json
  | number v s =>
    .tagged "Literal" (.tagged "Number" (.record [("value", .ofFloat v), ("span", s.toJson)]))
  | name n s => .tagged "Literal" (.tagged "Symbol" (nameToJson n s))
  | paren e s => .tagged "Paren" (.record [("expr", e.toJson), ("span", s.toJson)])
  | unary op os e s =>
    .tagged "Unary" (.record [("operand", e.toJson), ("op", opToJson op.toJson os),
      ("span", s.toJson)])
  | binary op os l r s =>
    .tagged "Binary" (.record [("lhs", l.toJson), ("op", opToJson op.toJson os),
      ("rhs", r.toJson), ("span", s.toJson)])

def opOfJson? {α : Type} (op? : Nat → Json → Option α) (depth : Nat) (v : Json) :
    Option (α × Span) :=
  match depth, v.fields? ["kind", "span"] with
  | depth + 1, some [op, s] => do pure (← op? depth op, ← Span.ofJson? depth s)
  | _, _ => none

def nameOfJson? (depth : Nat) (v : Json) : Option (String × Span) :=
  match depth, v.fields? ["name", "span"] with
  | depth + 1, some [n, s] => do pure (← n.text?, ← Span.ofJson? depth s)
  | _, _ => none

def literalOfJson? (depth : Nat) (v : Json) : Option Phrase :=
  match depth, v.tagged? with
  | depth + 1, some ("Number", v) =>
    match depth, v.fields? ["value", "span"] with
    | depth + 1, some [v, s] => do pure (number (← v.float?) (← Span.ofJson? depth s))
    | _, _ => none
  | depth + 1, some ("Symbol", v) => (nameOfJson? depth v).map fun (n, s) => name n s
  | _, _ => none

/-- Every shape opens two levels, its own and that of its fields. -/
def ofJson? : Nat → Json → Option Phrase
  | depth + 2, v => do
    match ← v.tagged? with
    | ("Literal", v) => literalOfJson? (depth + 1) v
    | ("Paren", v) =>
      match ← v.fields? ["expr", "span"] with
      | [e, s] => do pure (paren (← ofJson? depth e) (← Span.ofJson? depth s))
      | _ => none
    | ("Unary", v) =>
      match ← v.fields? ["operand", "op", "span"] with
      | [e, op, s] => do
        let (op, os) ← opOfJson? UnaryOp.ofJson? depth op
        pure (unary op os (← ofJson? depth e) (← Span.ofJson? depth s))
      | _ => none
    | ("Binary", v) =>
      match ← v.fields? ["lhs", "op", "rhs", "span"] with
      | [l, op, r, s] => do
        let (op, os) ← opOfJson? BinOp.ofJson? depth op
        pure (binary op os (← ofJson? depth l) (← ofJson? depth r) (← Span.ofJson? depth s))
      | _ => none
    | _ => none
  | _, _ => none

end Phrase

namespace Equation

def toJson (e : Equation) : Json :=
  .record [("lhs", e.lhs.toJson), ("rhs", e.rhs.toJson), ("span", e.span.toJson)]

def ofJson? (depth : Nat) (v : Json) : Option Equation :=
  match depth, v.fields? ["lhs", "rhs", "span"] with
  | depth + 1, some [l, r, s] => do
    pure ⟨← Phrase.ofJson? depth l, ← Phrase.ofJson? depth r, ← Span.ofJson? depth s⟩
  | _, _ => none

end Equation

namespace Request

def toJson (r : Request) : Json :=
  .record [("target", Phrase.nameToJson r.target r.targetSpan), ("equation", r.equation.toJson),
    ("span", r.span.toJson)]

def ofJson? (depth : Nat) (v : Json) : Option Request :=
  match depth, v.fields? ["target", "equation", "span"] with
  | depth + 1, some [t, e, s] => do
    let (target, targetSpan) ← Phrase.nameOfJson? depth t
    pure ⟨target, targetSpan, ← Equation.ofJson? depth e, ← Span.ofJson? depth s⟩
  | _, _ => none

end Request

namespace Statement

def toJson : Statement → Json
  | request r => .tagged "Solve" r.toJson
  | equation e => .tagged "Equation" e.toJson
  | phrase p => .tagged "Expr" p.toJson

def ofJson? (depth : Nat) (v : Json) : Option Statement :=
  match depth, v.tagged? with
  | depth + 1, some ("Solve", v) => request <$> Request.ofJson? depth v
  | depth + 1, some ("Equation", v) => equation <$> Equation.ofJson? depth v
  | depth + 1, some ("Expr", v) => phrase <$> Phrase.ofJson? depth v
  | _, _ => none

end Statement

namespace Json

def print {α : Type} (toJson : α → Json) (a : α) : String := String.ofList (toJson a).write

def parse? {α : Type} (ofJson? : Nat → Json → Option α) (text : String) : Option α :=
  (read text.toList).bind (ofJson? maxDepth)

end Json

end Rearrange
