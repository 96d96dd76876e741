namespace Rearrange

namespace Text

def isSpace (c : Char) : Bool :=
  let n := c.toNat
  (0x09 ≤ n && n ≤ 0x0d) || n == 0x20 || n == 0x85 || n == 0xa0 || n == 0x1680 ||
    (0x2000 ≤ n && n ≤ 0x200a) || n == 0x2028 || n == 0x2029 || n == 0x202f || n == 0x205f ||
    n == 0x3000

def isBlank (line : List Char) : Bool := line.all isSpace

/-- A line read backwards, put in order without the carriage return at its end. -/
def endLine : List Char → List Char
  | '\r' :: cs => cs.reverse
  | cs => cs.reverse

/-- Ends a line at each line feed. A carriage return in front of it belongs to the line end, and
what follows the last line feed is a line only if it is not empty. -/
def linesFrom (done : List (List Char)) (current : List Char) : List Char → List (List Char)
  | [] => (if current.isEmpty then done else current.reverse :: done).reverse
  | c :: cs =>
    if c == '\n' then linesFrom (endLine current :: done) [] cs
    else linesFrom done (c :: current) cs

def lines (cs : List Char) : List (List Char) := linesFrom [] [] cs

end Text

end Rearrange
